import QueryCraft.Proofs.Document.Parsing
import QueryCraft.Proofs.Value.Taking

/-!
The tokens of values as a grammar. Whatever the parsers of values take from the front of the tokens
are the tokens of a value, as it stands there: its entries are in their order, and keys may repeat.
The grammar is unambiguous, and no value is the front of another one.
-/

namespace QueryCraft.Value

/-- The parser makes values only of the tokens of printable values, and sorts them. -/
def Derives (constant : Bool) (steps : Nat) : Prop :=
  ∀ ts v rest, Value.parse constant steps ts = some (v, rest) → ts.all Token.isNamed = true →
    ∃ w : Value, w.isPrintable = true ∧ w.sorted = v ∧ ts = w.tokens ++ rest

def DerivesItems (constant : Bool) (steps : Nat) : Prop :=
  ∀ ts vs rest, parseItems constant steps ts = some (vs, rest) → ts.all Token.isNamed = true →
    ∃ ws : List Value, (∀ w ∈ ws, w.isPrintable = true) ∧ ws.map sorted = vs ∧
      ts = ws.flatMap tokens ++ .bracketR :: rest

def DerivesEntries (constant : Bool) (steps : Nat) : Prop :=
  ∀ ts es rest, parseEntries constant steps ts = some (es, rest) → ts.all Token.isNamed = true →
    ∃ ws : List (String × Value), (∀ e ∈ ws, Text.isName e.1 = true ∧ e.2.isPrintable = true) ∧
      (ws.map fun e => (e.1, e.2.sorted)) = es ∧ ts = ws.flatMap pairTokens ++ .braceR :: rest

variable {constant : Bool} {steps : Nat}

theorem sorted_ofName (s : String) : (ofName s).sorted = ofName s := by
  unfold ofName
  split
  · rfl
  · split
    · rfl
    · split
      · rfl
      · rfl

theorem derives_value (hitems : ∀ n < steps, DerivesItems constant n)
    (hentries : ∀ n < steps, DerivesEntries constant n) : Derives constant steps := by
  intro ts v rest h hnamed
  unfold Value.parse at h
  split at h
  · next n ts =>
    obtain ⟨rfl, rfl⟩ := Prod.mk.inj (Option.some.inj h)
    exact ⟨.int n, rfl, rfl, rfl⟩
  · next x ts =>
    obtain ⟨rfl, rfl⟩ := Prod.mk.inj (Option.some.inj h)
    exact ⟨.float x, rfl, rfl, rfl⟩
  · next text ts =>
    obtain ⟨rfl, rfl⟩ := Prod.mk.inj (Option.some.inj h)
    exact ⟨.string text, rfl, rfl, rfl⟩
  · next s ts =>
    obtain ⟨rfl, rfl⟩ := Prod.mk.inj (Option.some.inj h)
    rw [List.all_cons, Bool.and_eq_true] at hnamed
    have hformed : (ofName s).Formed constant := .ofName hnamed.1
    exact ⟨ofName s, hformed.printable, sorted_ofName s, by rw [tokens_ofName]; rfl⟩
  · next name ts =>
    split at h
    · contradiction
    · obtain ⟨rfl, rfl⟩ := Prod.mk.inj (Option.some.inj h)
      simp only [List.all_cons, Bool.and_eq_true] at hnamed
      exact ⟨.var name, hnamed.2.1, rfl, rfl⟩
  · next n ts =>
    split at h
    · next items behind hparse =>
      obtain ⟨rfl, rfl⟩ := Prod.mk.inj (Option.some.inj h)
      rw [List.all_cons, Bool.and_eq_true] at hnamed
      obtain ⟨ws, hws, rfl, rfl⟩ := hitems n (by omega) _ _ _ hparse hnamed.2
      refine ⟨.list ws, everywhere_list.mpr ⟨rfl, hws⟩, ?_, ?_⟩
      · rw [sorted, sortedItems_eq_map]
      · simp [tokens, itemTokens_eq_flatMap]
    · contradiction
  · next n ts =>
    split at h
    · next entries behind hparse =>
      obtain ⟨rfl, rfl⟩ := Prod.mk.inj (Option.some.inj h)
      rw [List.all_cons, Bool.and_eq_true] at hnamed
      obtain ⟨ws, hws, rfl, rfl⟩ := hentries n (by omega) _ _ _ hparse hnamed.2
      refine ⟨.object ws, everywhere_object.mpr ⟨?_, fun e he => (hws e he).2⟩, ?_, ?_⟩
      · exact List.all_eq_true.mpr fun e he => (hws e he).1
      · rw [sorted, sortedEntries_eq_map]
      · simp [tokens, entryTokens_eq_flatMap]
    · contradiction
  · contradiction

theorem derives_items (hvalue : ∀ n < steps, Derives constant n)
    (hitems : ∀ n < steps, DerivesItems constant n) : DerivesItems constant steps := by
  intro ts vs rest h hnamed
  unfold parseItems at h
  split at h
  · obtain ⟨rfl, rfl⟩ := Prod.mk.inj (Option.some.inj h)
    exact ⟨[], nofun, rfl, rfl⟩
  · contradiction
  · next n hclose =>
    split at h
    · contradiction
    · next v behind hparse =>
      split at h
      · contradiction
      · next vs behind' hparses =>
        obtain ⟨rfl, rfl⟩ := Prod.mk.inj (Option.some.inj h)
        obtain ⟨w, hw, rfl, rfl⟩ := hvalue n (by omega) _ _ _ hparse hnamed
        rw [List.all_append, Bool.and_eq_true] at hnamed
        obtain ⟨ws, hws, rfl, rfl⟩ := hitems n (by omega) _ _ _ hparses hnamed.2
        refine ⟨w :: ws, List.forall_mem_cons.mpr ⟨hw, hws⟩, rfl, ?_⟩
        rw [List.flatMap_cons, List.append_assoc]

theorem derives_entries (hvalue : ∀ n < steps, Derives constant n)
    (hentries : ∀ n < steps, DerivesEntries constant n) : DerivesEntries constant steps := by
  intro ts es rest h hnamed
  unfold parseEntries at h
  split at h
  · obtain ⟨rfl, rfl⟩ := Prod.mk.inj (Option.some.inj h)
    exact ⟨[], nofun, rfl, rfl⟩
  · next n key ts =>
    split at h
    · contradiction
    · next v behind hparse =>
      split at h
      · contradiction
      · next es behind' hparses =>
        obtain ⟨rfl, rfl⟩ := Prod.mk.inj (Option.some.inj h)
        simp only [List.all_cons, Bool.and_eq_true] at hnamed
        obtain ⟨hkey, -, hnamed⟩ := hnamed
        obtain ⟨w, hw, rfl, rfl⟩ := hvalue n (by omega) _ _ _ hparse hnamed
        rw [List.all_append, Bool.and_eq_true] at hnamed
        obtain ⟨ws, hws, rfl, rfl⟩ := hentries n (by omega) _ _ _ hparses hnamed.2
        refine ⟨(key, w) :: ws, List.forall_mem_cons.mpr ⟨⟨hkey, hw⟩, hws⟩, rfl, ?_⟩
        simp [pairTokens]
  · contradiction

/-- The parser of values takes nothing but values. -/
theorem derives (constant : Bool) (steps : Nat) : Derives constant steps := by
  have h : Derives constant steps ∧ DerivesItems constant steps ∧
      DerivesEntries constant steps := by
    induction steps using Nat.strongRecOn with
    | ind steps ih =>
      refine ⟨derives_value ?_ ?_, derives_items ?_ ?_, derives_entries ?_ ?_⟩
      · exact fun n hn => (ih n hn).2.1
      · exact fun n hn => (ih n hn).2.2
      · exact fun n hn => (ih n hn).1
      · exact fun n hn => (ih n hn).2.1
      · exact fun n hn => (ih n hn).1
      · exact fun n hn => (ih n hn).2.2
  exact h.1

/-- Parts in front of a closing token are told apart if each one is, and none starts with that
token. -/
theorem flatMap_inj {α : Type} {part : α → List Token} {close : Token} {as bs : List α}
    {rest rest' : List Token} (hstart : ∀ a, ∃ t ts, part a = t :: ts ∧ t ≠ close)
    (hinj : ∀ a ∈ as, ∀ b ∈ bs, ∀ more more', part a ++ more = part b ++ more' →
      a = b ∧ more = more')
    (h : as.flatMap part ++ close :: rest = bs.flatMap part ++ close :: rest') :
    as = bs ∧ rest = rest' := by
  have hne (a : α) (more ts : List Token) : part a ++ more ≠ close :: ts := by
    obtain ⟨t, us, hpart, ht⟩ := hstart a
    rw [hpart, List.cons_append]
    exact fun heq => ht (List.cons.inj heq).1
  induction as generalizing bs with
  | nil =>
    cases bs with
    | nil => exact ⟨rfl, (List.cons.inj h).2⟩
    | cons b bs =>
      rw [List.flatMap_cons, List.append_assoc] at h
      exact absurd h.symm (hne b _ _)
  | cons a as ih =>
    cases bs with
    | nil =>
      rw [List.flatMap_cons, List.append_assoc] at h
      exact absurd h (hne a _ _)
    | cons b bs =>
      rw [List.flatMap_cons, List.flatMap_cons, List.append_assoc, List.append_assoc] at h
      obtain ⟨rfl, hmore⟩ := hinj a List.mem_cons_self b List.mem_cons_self _ _ h
      obtain ⟨rfl, hrest⟩ := ih (fun a ha b hb => hinj a (List.mem_cons_of_mem _ ha) b
        (List.mem_cons_of_mem _ hb)) hmore
      exact ⟨rfl, hrest⟩

/-- Two values whose tokens are the front of the same tokens are sorted alike, and followed alike. -/
theorem sorted_inj {v w : Value} {rest rest' : List Token} (hv : v.isPrintable = true)
    (hw : w.isPrintable = true) (h : v.tokens ++ rest = w.tokens ++ rest') :
    v.sorted = w.sorted ∧ rest = rest' := by
  have hread (u : Value) (hu : u.isPrintable = true) : u.ReadBy false := readBy hu (by simp)
  have hleft := hread v hv (v.tokens.length + w.tokens.length) rest (by omega)
  have hright := hread w hw (v.tokens.length + w.tokens.length) rest' (by omega)
  rw [h, hright] at hleft
  obtain ⟨hsorted, hrest⟩ := Prod.mk.inj (Option.some.inj hleft)
  exact ⟨hsorted.symm, hrest.symm⟩

/-- The grammar is unambiguous: tokens start with those of one value at most. -/
theorem tokens_inj {v w : Value} {rest rest' : List Token} (hv : v.isPrintable = true)
    (hw : w.isPrintable = true) (h : v.tokens ++ rest = w.tokens ++ rest') :
    v = w ∧ rest = rest' := by
  induction v using inductOn generalizing w rest rest' with
  | list items ih =>
    obtain ⟨hsorted, hrest⟩ := sorted_inj hv hw h
    cases w with
    | list items' =>
      have hitems := (everywhere_list.mp hv).2
      have hitems' := (everywhere_list.mp hw).2
      simp only [tokens, itemTokens_eq_flatMap, List.cons_append, List.append_assoc,
        List.nil_append, List.cons.injEq, true_and] at h
      obtain ⟨rfl, -⟩ := flatMap_inj tokens_cons (fun a ha b hb more more' hab =>
        ih a ha (hitems a ha) (hitems' b hb) hab) h
      exact ⟨rfl, hrest⟩
    | _ => contradiction
  | object entries ih =>
    obtain ⟨hsorted, hrest⟩ := sorted_inj hv hw h
    cases w with
    | object entries' =>
      have hentries := (everywhere_object.mp hv).2
      have hentries' := (everywhere_object.mp hw).2
      simp only [tokens, entryTokens_eq_flatMap, List.cons_append, List.append_assoc,
        List.nil_append, List.cons.injEq, true_and] at h
      have hstart (e : String × Value) : ∃ t ts, pairTokens e = t :: ts ∧ t ≠ .braceR :=
        ⟨_, _, rfl, Token.noConfusion⟩
      obtain ⟨rfl, -⟩ := flatMap_inj hstart (fun a ha b hb more more' hab => by
        simp only [pairTokens, List.cons_append, List.cons.injEq, Token.name.injEq, true_and] at hab
        obtain ⟨hvalue, hmore⟩ := ih a ha (hentries a ha) (hentries' b hb) hab.2
        exact ⟨Prod.ext hab.1 hvalue, hmore⟩) h
      exact ⟨rfl, hrest⟩
    | _ => contradiction
  | _ =>
    obtain ⟨hsorted, hrest⟩ := sorted_inj hv hw h
    refine ⟨?_, hrest⟩
    cases w with
    | list _ | object _ => contradiction
    | _ => exact hsorted

end QueryCraft.Value
