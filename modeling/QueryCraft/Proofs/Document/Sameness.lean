import Mathlib.Data.List.Perm.Subperm
import QueryCraft.Proofs.Document.Mapping
import QueryCraft.Proofs.Executable.Taking

/-!
Documents that are the same differ at most in the order of object entries and in how zeros are
signed, so that one is printable if the other is.
-/

namespace QueryCraft

/-- What the elements of a list bring with them to what is the same, the elements of the same list
have. -/
theorem forall_of_sameLists {α : Type} {same : α → α → Bool} {P : α → Prop} {as bs : List α}
    (h : sameLists same as bs = true) (hP : ∀ a ∈ as, ∀ b, same a b = true → P b) :
    ∀ b ∈ bs, P b := by
  induction as generalizing bs with
  | nil =>
    cases bs with
    | nil => simp
    | cons b bs => contradiction
  | cons a as ih =>
    cases bs with
    | nil => contradiction
    | cons b bs =>
      simp only [sameLists, Bool.and_eq_true] at h
      rw [List.forall_mem_cons] at hP ⊢
      exact ⟨hP.1 b h.1, ih h.2 hP.2⟩

theorem length_eq_of_sameLists {α : Type} {same : α → α → Bool} {as bs : List α}
    (h : sameLists same as bs = true) : as.length = bs.length := by
  induction as generalizing bs with
  | nil =>
    cases bs with
    | nil => rfl
    | cons b bs => contradiction
  | cons a as ih =>
    cases bs with
    | nil => contradiction
    | cons b bs =>
      simp only [sameLists, Bool.and_eq_true] at h
      simp [ih h.2]

namespace Value

theorem sameItems_eq_sameLists (vs ws : List Value) : sameItems vs ws = sameLists same vs ws := by
  induction vs generalizing ws with
  | nil => cases ws <;> rfl
  | cons v vs ih =>
    cases ws with
    | nil => rfl
    | cons w ws => simp [sameItems, sameLists, ih]

/-- Of the same objects, if one is a map the other is one with the same keys. -/
theorem keys_perm_of_same {entries others : List (String × Value)}
    (hkeyed : (Value.object entries).isKeyed = true)
    (h : same (.object entries) (.object others) = true) :
    (entries.map Prod.fst).Perm (others.map Prod.fst) := by
  simp only [isKeyed, decide_eq_true_eq] at hkeyed
  simp only [same, Bool.and_eq_true, beq_iff_eq, sameEntries_iff] at h
  have hsubset : entries.map Prod.fst ⊆ others.map Prod.fst := by
    intro k hk
    obtain ⟨e, he, rfl⟩ := List.mem_map.mp hk
    obtain ⟨w, hw, -⟩ := h.2 e he
    obtain ⟨front, back, hothers, -⟩ := List.lookup_eq_some_iff.mp hw
    exact List.mem_map.mpr ⟨(e.1, w), by simp [hothers], rfl⟩
  exact (List.Nodup.subperm hkeyed hsubset).perm_of_length_le (by simp [h.1])

variable {constant : Bool} {v w : Value}

/-- What is the same as a value that is made of names is made of names. -/
theorem Formed.of_same (h : v.Formed constant) (hsame : same v w = true) : w.Formed constant := by
  induction v using inductOn generalizing w with
  | null | boolean _ | int _ | float _ | string _ =>
    cases w with
    | null | boolean _ | int _ | float _ | string _ => exact ⟨rfl, rfl, fun _ => rfl⟩
    | _ => contradiction
  | enum name =>
    cases w with
    | enum other =>
      obtain rfl : name = other := by simpa [same] using hsame
      exact h
    | _ => contradiction
  | var name =>
    cases w with
    | var other =>
      obtain rfl : name = other := by simpa [same] using hsame
      exact h
    | _ => contradiction
  | list items ih =>
    cases w with
    | list others =>
      rw [same, sameItems_eq_sameLists] at hsame
      refine .list (forall_of_sameLists hsame fun v hv w hvw => ih v hv ?_ hvw)
      exact ⟨(everywhere_list.mp h.printable).2 v hv, (everywhere_list.mp h.keyed).2 v hv,
        fun hc => isConstant_list.mp (h.isConstant hc) v hv⟩
    | _ => contradiction
  | object entries ih =>
    cases w with
    | object others =>
      obtain ⟨hnamed, hprintable⟩ := everywhere_object.mp h.printable
      obtain ⟨hkeyed, hkeys⟩ := everywhere_object.mp h.keyed
      have hperm := keys_perm_of_same hkeyed hsame
      have hnodup : (others.map Prod.fst).Nodup := by
        rw [← hperm.nodup_iff]
        simpa [isKeyed] using hkeyed
      simp only [same, Bool.and_eq_true, sameEntries_iff] at hsame
      have hothers : ∀ f ∈ others, Text.isName f.1 = true ∧ f.2.Formed constant := by
        intro f hf
        obtain ⟨e, he, hkey⟩ := List.mem_map.mp (hperm.mem_iff.mpr (List.mem_map_of_mem hf))
        obtain ⟨w, hw, hsame⟩ := hsame.2 e he
        rw [hkey, Keyed.lookup_of_mem hnodup hf] at hw
        obtain rfl := Option.some.inj hw
        simp only [isNamed, List.all_eq_true] at hnamed
        refine ⟨hkey ▸ hnamed e he, ih e he ⟨hprintable e he, hkeys e he, fun hc => ?_⟩ hsame⟩
        exact isConstant_object.mp (h.isConstant hc) e he
      exact .object (by simpa [isKeyed] using hnodup) hothers
    | _ => contradiction

end Value

theorem Argument.Formed.of_same {constant : Bool} {a b : Argument} (h : a.Formed constant)
    (hsame : a.same b = true) : b.Formed constant := by
  simp only [same, Bool.and_eq_true, beq_iff_eq] at hsame
  exact ⟨hsame.1 ▸ h.name, h.value.of_same hsame.2⟩

theorem Directive.Formed.of_same {constant : Bool} {d e : Directive} (h : d.Formed constant)
    (hsame : d.same e = true) : e.Formed constant := by
  simp only [same, Bool.and_eq_true, beq_iff_eq] at hsame
  refine ⟨hsame.1 ▸ h.name, forall_of_sameLists hsame.2 fun a ha b hab => ?_⟩
  exact (h.arguments a ha).of_same hab

theorem Field.Formed.of_same {f g : Field} (h : f.Formed) (hsame : f.same g = true) :
    g.Formed := by
  simp only [same, Bool.and_eq_true, beq_iff_eq] at hsame
  obtain ⟨⟨⟨halias, hname⟩, harguments⟩, hdirectives⟩ := hsame
  refine ⟨halias ▸ h.aliasName, hname ▸ h.name, ?_, ?_⟩
  · exact forall_of_sameLists harguments fun a ha b hab => (h.arguments a ha).of_same hab
  · exact forall_of_sameLists hdirectives fun d hd e hde => (h.directives d hd).of_same hde

theorem VariableDefinition.Formed.of_same {d e : VariableDefinition} (h : d.Formed)
    (hsame : d.same e = true) : e.Formed := by
  simp only [same, Bool.and_eq_true, beq_iff_eq] at hsame
  obtain ⟨⟨hname, htype⟩, hdefault⟩ := hsame
  refine ⟨hname ▸ h.name, htype ▸ h.type, fun w hw => ?_⟩
  rw [Option.mem_def] at hw
  rw [hw] at hdefault
  cases hv : d.default with
  | none =>
    rw [hv] at hdefault
    contradiction
  | some v =>
    rw [hv] at hdefault
    exact (h.default v hv).of_same hdefault

theorem Directive.formed_iff {ds : List Directive} :
    (∀ d ∈ ds, d.Formed false) ↔ (∀ d ∈ ds, d.isPrintable = true) ∧
      ∀ a ∈ allArguments ds, a.value.everywhere Value.isKeyed = true := by
  constructor
  · exact fun h => ⟨fun d hd => (h d hd).isPrintable, keyed_of_formed h⟩
  · rintro ⟨hprintable, hkeyed⟩ d hd
    have hd' := hprintable d hd
    simp only [isPrintable, Bool.and_eq_true, List.all_eq_true, Argument.isPrintable] at hd'
    refine ⟨hd'.1, fun a ha => ⟨(hd'.2 a ha).1, (hd'.2 a ha).2, ?_, by simp⟩⟩
    exact hkeyed a (List.mem_flatMap.mpr ⟨d, hd, ha⟩)

theorem Field.formed_iff {f : Field} :
    f.Formed ↔ f.isPrintable = true ∧
      ∀ a ∈ f.allArguments, a.value.everywhere Value.isKeyed = true := by
  constructor
  · exact fun h => ⟨h.isPrintable, h.keyed⟩
  · rintro ⟨hprintable, hkeyed⟩
    rw [forall_allArguments] at hkeyed
    simp only [isPrintable, Bool.and_eq_true, List.all_eq_true, Argument.isPrintable] at hprintable
    obtain ⟨⟨⟨halias, hname⟩, harguments⟩, hdirectives⟩ := hprintable
    refine ⟨halias, hname, fun a ha => ?_, Directive.formed_iff.mpr ⟨hdirectives, hkeyed.2⟩⟩
    exact ⟨(harguments a ha).1, (harguments a ha).2, hkeyed.1 a ha, by simp⟩

theorem Selection.formed_branch_iff {f : Field} {children : List Selection} :
    (Selection.branch f children).Formed ↔
      f.Formed ∧ children ≠ [] ∧ ∀ s ∈ children, s.Formed := by
  constructor
  · rintro ⟨hprintable, hkeyed⟩
    obtain ⟨hself, hbelow⟩ := everywhere_branch.mp hprintable
    rw [forall_allArguments_branch] at hkeyed
    simp only [isPrintable, Bool.and_eq_true, Bool.not_eq_true', List.isEmpty_eq_false_iff] at hself
    refine ⟨Field.formed_iff.mpr ⟨hself.1, hkeyed.1⟩, hself.2, fun s hs => ?_⟩
    exact ⟨hbelow s hs, hkeyed.2 s hs⟩
  · rintro ⟨hf, hne, hchildren⟩
    exact .branch hf hne hchildren

theorem Selection.Formed.of_same {s t : Selection} (h : s.Formed) (hsame : s.same t = true) :
    t.Formed := by
  induction s using Selection.inductOn generalizing t with
  | leaf f =>
    cases t with
    | leaf g =>
      have hf : f.Formed := Field.formed_iff.mpr ⟨h.printable, h.keyed⟩
      exact .leaf (hf.of_same hsame)
    | _ => contradiction
  | verbatim node =>
    cases t with
    | verbatim other => exact .verbatim other
    | _ => contradiction
  | branch f children ih =>
    cases t with
    | branch g others =>
      obtain ⟨hf, hne, hchildren⟩ := formed_branch_iff.mp h
      simp only [same, Bool.and_eq_true, sameAll_eq_sameLists] at hsame
      refine .branch (hf.of_same hsame.1) ?_ ?_
      · rw [← List.length_pos_iff, ← length_eq_of_sameLists hsame.2]
        exact List.length_pos_iff.mpr hne
      · exact forall_of_sameLists hsame.2 fun s hs t hst => ih s hs (hchildren s hs) hst
    | _ => contradiction

theorem Operation.formed_iff {op : Operation} :
    op.Formed ↔ op.name.all Text.isName = true ∧ (∀ d ∈ op.definitions, d.Formed) ∧
      (∀ d ∈ op.directives, d.Formed false) ∧ op.selections ≠ [] ∧
      ∀ s ∈ op.selections, s.Formed := by
  constructor
  · rintro ⟨hprintable, hkeyed⟩
    simp only [isPrintable, Bool.and_eq_true, List.all_eq_true, Bool.not_eq_true',
      List.isEmpty_eq_false_iff, Selection.allEverywhere_iff] at hprintable
    simp only [values, List.forall_mem_append, List.forall_mem_map, List.mem_filterMap,
      forall_exists_index, and_imp, forall_allArguments] at hkeyed
    obtain ⟨⟨⟨⟨hname, hdefinitions⟩, hdirectives⟩, hne⟩, hselections⟩ := hprintable
    refine ⟨hname, fun d hd => ?_, Directive.formed_iff.mpr ⟨hdirectives, hkeyed.1.1⟩, hne,
      fun s hs => ⟨hselections s hs, hkeyed.1.2 s hs⟩⟩
    have hd' := hdefinitions d hd
    simp only [VariableDefinition.isPrintable, Bool.and_eq_true] at hd'
    refine ⟨hd'.1.1, hd'.1.2, fun v hv => ?_⟩
    have hv' := hd'.2
    rw [Option.mem_def.mp hv] at hv'
    simp only [Option.all_some, Bool.and_eq_true] at hv'
    exact ⟨hv'.1, hkeyed.2 v d hd hv, fun _ => hv'.2⟩
  · rintro ⟨hname, hdefinitions, hdirectives, hne, hselections⟩
    exact formed hname hdefinitions hdirectives hne hselections

/-- What is the same as a printable operation is printable. -/
theorem Operation.Formed.of_same {op other : Operation} (h : op.Formed)
    (hsame : op.same other = true) : other.Formed := by
  obtain ⟨hname, hdefinitions, hdirectives, hne, hselections⟩ := formed_iff.mp h
  simp only [same, Bool.and_eq_true, beq_iff_eq, Selection.sameAll_eq_sameLists] at hsame
  obtain ⟨⟨⟨hname', hdefinitions'⟩, hdirectives'⟩, hselections'⟩ := hsame
  refine formed_iff.mpr ⟨hname' ▸ hname, ?_, ?_, ?_, ?_⟩
  · exact forall_of_sameLists hdefinitions' fun d hd e hde => (hdefinitions d hd).of_same hde
  · exact forall_of_sameLists hdirectives' fun d hd e hde => (hdirectives d hd).of_same hde
  · rw [← List.length_pos_iff, ← length_eq_of_sameLists hselections']
    exact List.length_pos_iff.mpr hne
  · exact forall_of_sameLists hselections' fun s hs t hst => (hselections s hs).of_same hst

end QueryCraft
