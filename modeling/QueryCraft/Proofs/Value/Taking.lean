import QueryCraft.Executable.Parser
import QueryCraft.Proofs.Token.Naming
import QueryCraft.Proofs.Value.Sorting

/-!
What a parser takes from the front of the tokens, told of the parsers of values. What it takes is
balanced but for the bracket that it closes, tokens that come later do not change it, and names make
it printable.
-/

namespace QueryCraft

namespace Token

/-- How many more brackets are open behind a token than in front of it. -/
def weight : Token → Int
  | .parenL | .bracketL | .braceL => 1
  | .parenR | .bracketR | .braceR => -1
  | _ => 0

/-- How many more brackets are open behind some tokens than in front of them. -/
def balance : List Token → Int
  | [] => 0
  | t :: ts => t.weight + balance ts

end Token

/-- What it means that a parser took the tokens of `ts` in front of `rest`: they close so many
brackets, what is made of them is `good` if the names in them are names, and `again` holds of every
run with more steps and more tokens at the end. If the parser is not `free`, its end depends on the
token behind it, so there has to be one. -/
structure Took (free : Bool) (closed : Int) (good : Prop) (steps : Nat) (ts rest : List Token)
    (again : Nat → List Token → Prop) : Prop where
  balance : Token.balance ts = Token.balance rest - closed
  good : ts.all Token.isNamed = true → good ∧ rest.all Token.isNamed = true
  ne_nil : free = true ∨ rest ≠ [] → ts ≠ []
  again : ∀ more others, steps ≤ more → free = true ∨ rest ≠ [] → again more others

/-- Whatever the parser reads, it reads the same again. -/
def Takes {α : Type} (free : Bool) (closed : Int) (good : α → Prop)
    (parse : Nat → List Token → Parsed α) (steps : Nat) : Prop :=
  ∀ ts a rest, parse steps ts = some (a, rest) →
    Took free closed (good a) steps ts rest fun more others =>
      parse more (ts ++ others) = some (a, rest ++ others)

namespace Took

variable {free free' : Bool} {closed closed' : Int} {good good' : Prop} {steps : Nat}
  {ts behind rest : List Token} {again again' : Nat → List Token → Prop}

theorem imp (h : Took free closed good steps ts rest again) (hgood : good → good')
    (hagain : ∀ more others, again more others → again' more others) :
    Took free closed good' steps ts rest again' :=
  ⟨h.balance, fun hnamed => (h.good hnamed).imp_left hgood, h.ne_nil,
    fun more others hmore hfree => hagain more others (h.again more others hmore hfree)⟩

/-- There are tokens in front of every later run. -/
theorem nonempty (h : Took free closed good steps ts rest again) :
    Took free closed good steps ts rest fun more others => ts ≠ [] ∧ again more others :=
  ⟨h.balance, h.good, h.ne_nil,
    fun more others hmore hfree => ⟨h.ne_nil hfree, h.again more others hmore hfree⟩⟩

/-- There are tokens behind every later run of a parser that is not free. -/
theorem followed (h : Took false closed good steps ts rest again) :
    Took false closed good steps ts rest fun more others => rest ≠ [] ∧ again more others :=
  ⟨h.balance, h.good, h.ne_nil,
    fun more others hmore hne => ⟨by simpa using hne, h.again more others hmore hne⟩⟩

/-- A parser that is free may be used where a token has to be behind it. -/
theorem bound (h : Took true closed good steps ts rest again) :
    Took false closed good steps ts rest again :=
  ⟨h.balance, h.good, fun _ => h.ne_nil (.inl rfl),
    fun more others hmore _ => h.again more others hmore (.inl rfl)⟩

/-- A parser that takes nothing unless it finds what it looks for. -/
theorem nothing (hgood : good) (hagain : ∀ more others, ts ≠ [] → again more others) :
    Took false 0 good steps ts ts again := by
  refine ⟨by omega, fun hnamed => ⟨hgood, hnamed⟩, by simp, fun more others _ hne => ?_⟩
  exact hagain more others (by simpa using hne)

theorem single (t : Token) :
    Took true (-t.weight) (t.isNamed = true) steps (t :: ts) ts fun _ _ => True := by
  refine ⟨?_, fun hnamed => ?_, by simp, fun _ _ _ _ => trivial⟩
  · rw [Token.balance]
    omega
  · simpa using hnamed

/-- One more token in front. -/
theorem token (t : Token) (h : Took free closed good steps ts rest again) :
    Took free (closed - t.weight) (t.isNamed = true ∧ good) steps (t :: ts) rest again := by
  refine ⟨?_, fun hnamed => ?_, by simp, h.again⟩
  · rw [Token.balance, h.balance]
    omega
  · rw [List.all_cons, Bool.and_eq_true] at hnamed
    obtain ⟨hgood, hrest⟩ := h.good hnamed.2
    exact ⟨⟨hnamed.1, hgood⟩, hrest⟩

/-- One parser behind another. The first one has a token behind it, as the second takes one or
leaves one. -/
theorem andThen (h : Took free closed good steps ts behind again)
    (h' : Took free' closed' good' steps behind rest again') :
    Took free' (closed + closed') (good ∧ good') steps ts rest fun more others =>
      behind ≠ [] ∧ again more others ∧ again' more others := by
  refine ⟨?_, fun hnamed => ?_, ?_, fun more others hmore hfree => ?_⟩
  · rw [h.balance, h'.balance]
    omega
  · obtain ⟨hgood, hbehind⟩ := h.good hnamed
    obtain ⟨hgood', hrest⟩ := h'.good hbehind
    exact ⟨⟨hgood, hgood'⟩, hrest⟩
  · exact fun hfree => h.ne_nil (.inr (h'.ne_nil hfree))
  · have hne : behind ≠ [] := h'.ne_nil hfree
    exact ⟨hne, h.again more others hmore (.inr hne), h'.again more others hmore hfree⟩

/-- A parser that passes on one step less. -/
theorem later (h : Took free closed good steps ts rest again) :
    Took free closed good (steps + 1) ts rest fun more others =>
      ∃ fewer, more = fewer + 1 ∧ again fewer others := by
  refine ⟨h.balance, h.good, h.ne_nil, fun more others hmore hfree => ?_⟩
  cases more with
  | zero => omega
  | succ fewer => exact ⟨fewer, rfl, h.again fewer others (by omega) hfree⟩

end Took

/-- More tokens at the end of some do not change the one they start with. -/
theorem append_ne_cons {t : Token} {ts : List Token} (hne : ts ≠ [])
    (hts : ∀ more, ts = t :: more → False) (others more : List Token) :
    ts ++ others ≠ t :: more := by
  intro heq
  cases ts with
  | nil => contradiction
  | cons u us =>
    obtain ⟨rfl, -⟩ := List.cons.inj heq
    exact hts us rfl

/-- The values that a parser makes of names: printable, with objects that are maps, and without
variables where those are refused. -/
structure Value.Formed (constant : Bool) (v : Value) : Prop where
  printable : v.isPrintable = true
  keyed : v.everywhere isKeyed = true
  isConstant : constant = true → v.isConstant = true

namespace Value

variable {constant : Bool}

theorem Formed.ofName {s : String} (h : Text.isName s = true) : (ofName s).Formed constant := by
  unfold Value.ofName
  split
  · exact ⟨rfl, rfl, fun _ => rfl⟩
  · split
    · exact ⟨rfl, rfl, fun _ => rfl⟩
    · split
      · exact ⟨rfl, rfl, fun _ => rfl⟩
      · next htrue hfalse hnull =>
        refine ⟨?_, rfl, fun _ => rfl⟩
        have henum : Text.isEnumName s = true := by simp [Text.isEnumName, h, htrue, hfalse, hnull]
        exact henum

theorem Formed.list {items : List Value} (h : ∀ v ∈ items, v.Formed constant) :
    (Value.list items).Formed constant := by
  refine ⟨?_, ?_, fun hc => ?_⟩
  · exact everywhere_list.mpr ⟨rfl, fun v hv => (h v hv).printable⟩
  · exact everywhere_list.mpr ⟨rfl, fun v hv => (h v hv).keyed⟩
  · exact isConstant_list.mpr fun v hv => (h v hv).isConstant hc

theorem Formed.object {entries : List (String × Value)}
    (hkeyed : (Value.object entries).isKeyed = true)
    (h : ∀ e ∈ entries, Text.isName e.1 = true ∧ e.2.Formed constant) :
    (Value.object entries).Formed constant := by
  refine ⟨?_, ?_, fun hc => ?_⟩
  · refine everywhere_object.mpr ⟨?_, fun e he => (h e he).2.printable⟩
    rw [isNamed, List.all_eq_true]
    exact fun e he => (h e he).1
  · exact everywhere_object.mpr ⟨hkeyed, fun e he => (h e he).2.keyed⟩
  · exact isConstant_object.mpr fun e he => (h e he).2.isConstant hc

theorem Formed.sortedObject {entries : List (String × Value)}
    (h : ∀ e ∈ entries, Text.isName e.1 = true ∧ e.2.Formed constant) :
    (sortedObject entries).Formed constant := by
  have hkeyed := isKeyed_sortedObject entries
  rw [Value.sortedObject] at hkeyed ⊢
  refine .object hkeyed fun e he => ?_
  rcases mem_foldl_insertEntry he with he | he
  · contradiction
  · exact h e he

/-- A token that is a value by itself. -/
theorem took_token (t : Token) {v : Value} {steps : Nat} {ts : List Token}
    (hformed : t.isNamed = true → v.Formed constant)
    (h : ∀ more others, Value.parse constant more (t :: others) = some (v, others)) :
    Took true (-t.weight) (v.Formed constant) steps (t :: ts) ts fun more others =>
      Value.parse constant more (t :: ts ++ others) = some (v, ts ++ others) :=
  (Took.single t).imp hformed fun more others _ => h more (ts ++ others)

/-- A value is one token, a variable, or what its brackets enclose. -/
theorem takes_value {steps : Nat}
    (hitems : ∀ n < steps, Takes true 1 (fun vs => ∀ v ∈ vs, v.Formed constant)
      (parseItems constant) n)
    (hentries : ∀ n < steps, Takes true 1
      (fun es => ∀ e ∈ es, Text.isName e.1 = true ∧ e.2.Formed constant)
      (parseEntries constant) n) :
    Takes true 0 (Formed constant) (Value.parse constant) steps := by
  intro ts v rest h
  unfold Value.parse at h
  split at h
  · obtain ⟨rfl, rfl⟩ := Prod.mk.inj (Option.some.inj h)
    exact took_token (.int _) (fun _ => ⟨rfl, rfl, fun _ => rfl⟩) (by simp [Value.parse])
  · obtain ⟨rfl, rfl⟩ := Prod.mk.inj (Option.some.inj h)
    exact took_token (.float _) (fun _ => ⟨rfl, rfl, fun _ => rfl⟩) (by simp [Value.parse])
  · obtain ⟨rfl, rfl⟩ := Prod.mk.inj (Option.some.inj h)
    exact took_token (.string _) (fun _ => ⟨rfl, rfl, fun _ => rfl⟩) (by simp [Value.parse])
  · obtain ⟨rfl, rfl⟩ := Prod.mk.inj (Option.some.inj h)
    exact took_token (.name _) (fun hs => .ofName hs) (by simp [Value.parse])
  · next name ts =>
    split at h
    · contradiction
    · next hconstant =>
      obtain ⟨rfl, rfl⟩ := Prod.mk.inj (Option.some.inj h)
      refine ((Took.single (.name name)).token .dollar).imp ?_ fun more others _ => ?_
      · rintro ⟨-, hname⟩
        exact ⟨hname, rfl, fun hc => absurd hc hconstant⟩
      · simp [Value.parse, hconstant]
  · next n ts =>
    split at h
    · next items behind hparse =>
      obtain ⟨rfl, rfl⟩ := Prod.mk.inj (Option.some.inj h)
      have htook := hitems n (by omega) _ _ _ hparse
      refine (htook.token .bracketL).later.imp (fun hgood => .list hgood.2) ?_
      rintro _ others ⟨more, rfl, hagain⟩
      simp [Value.parse, hagain]
    · contradiction
  · next n ts =>
    split at h
    · next entries behind hparse =>
      obtain ⟨rfl, rfl⟩ := Prod.mk.inj (Option.some.inj h)
      have htook := hentries n (by omega) _ _ _ hparse
      refine (htook.token .braceL).later.imp (fun hgood => .sortedObject hgood.2) ?_
      rintro _ others ⟨more, rfl, hagain⟩
      simp [Value.parse, hagain]
    · contradiction
  · contradiction

theorem takes_items {steps : Nat}
    (hvalue : ∀ n < steps, Takes true 0 (Formed constant) (Value.parse constant) n)
    (hitems : ∀ n < steps, Takes true 1 (fun vs => ∀ v ∈ vs, v.Formed constant)
      (parseItems constant) n) :
    Takes true 1 (fun vs => ∀ v ∈ vs, v.Formed constant) (parseItems constant) steps := by
  intro ts vs rest h
  unfold parseItems at h
  split at h
  · obtain ⟨rfl, rfl⟩ := Prod.mk.inj (Option.some.inj h)
    exact (Took.single .bracketR).imp (fun _ => nofun) (by simp [parseItems])
  · contradiction
  · next n hclose =>
    split at h
    · contradiction
    · next v behind hparse =>
      split at h
      · contradiction
      · next vs behind' hparses =>
        obtain ⟨rfl, rfl⟩ := Prod.mk.inj (Option.some.inj h)
        have hv := hvalue n (by omega) _ _ _ hparse
        have hvs := hitems n (by omega) _ _ _ hparses
        refine (hv.andThen hvs).later.imp List.forall_mem_cons.mpr ?_
        rintro _ others ⟨more, rfl, -, hagain, hagains⟩
        rw [parseItems, hagain]
        · simp [hagains]
        · exact append_ne_cons (hv.ne_nil (.inl rfl)) hclose others

theorem takes_entries {steps : Nat}
    (hvalue : ∀ n < steps, Takes true 0 (Formed constant) (Value.parse constant) n)
    (hentries : ∀ n < steps, Takes true 1
      (fun es => ∀ e ∈ es, Text.isName e.1 = true ∧ e.2.Formed constant)
      (parseEntries constant) n) :
    Takes true 1 (fun es => ∀ e ∈ es, Text.isName e.1 = true ∧ e.2.Formed constant)
      (parseEntries constant) steps := by
  intro ts es rest h
  unfold parseEntries at h
  split at h
  · obtain ⟨rfl, rfl⟩ := Prod.mk.inj (Option.some.inj h)
    exact (Took.single .braceR).imp (fun _ => nofun) (by simp [parseEntries])
  · next n key ts =>
    split at h
    · contradiction
    · next v behind hparse =>
      split at h
      · contradiction
      · next es behind' hparses =>
        obtain ⟨rfl, rfl⟩ := Prod.mk.inj (Option.some.inj h)
        have hv := hvalue n (by omega) _ _ _ hparse
        have hes := hentries n (by omega) _ _ _ hparses
        refine (((hv.andThen hes).token .colon).token (.name key)).later.imp ?_ ?_
        · rintro ⟨hkey, -, hformed, hformeds⟩
          exact List.forall_mem_cons.mpr ⟨⟨hkey, hformed⟩, hformeds⟩
        · rintro _ others ⟨more, rfl, -, hagain, hagains⟩
          simp [parseEntries, hagain, hagains]
  · contradiction

theorem takes (constant : Bool) (steps : Nat) :
    Takes true 0 (Formed constant) (Value.parse constant) steps ∧
    Takes true 1 (fun vs => ∀ v ∈ vs, v.Formed constant) (parseItems constant) steps ∧
    Takes true 1 (fun es => ∀ e ∈ es, Text.isName e.1 = true ∧ e.2.Formed constant)
      (parseEntries constant) steps := by
  induction steps using Nat.strongRecOn with
  | ind steps ih =>
    refine ⟨takes_value ?_ ?_, takes_items ?_ ?_, takes_entries ?_ ?_⟩
    · exact fun n hn => (ih n hn).2.1
    · exact fun n hn => (ih n hn).2.2
    · exact fun n hn => (ih n hn).1
    · exact fun n hn => (ih n hn).2.1
    · exact fun n hn => (ih n hn).1
    · exact fun n hn => (ih n hn).2.2

end Value

end QueryCraft
