import QueryCraft.Synthesis

/-!
The direct recursion that a synthesized tree stands for. It knows the depth of a field and the types
expanded above it, and nothing of the order in which a walk visits the fields.
-/

namespace QueryCraft

mutual

/-- The tree without the arguments of its fields. -/
def SelectionTree.bare : SelectionTree → SelectionTree
  | .leaf h => .leaf ⟨h.name, []⟩
  | .truncated h => .truncated ⟨h.name, []⟩
  | .node h children => .node ⟨h.name, []⟩ (SelectionTree.bareAll children)

def SelectionTree.bareAll : List SelectionTree → List SelectionTree
  | [] => []
  | t :: ts => SelectionTree.bare t :: SelectionTree.bareAll ts

end

theorem SelectionTree.bareAll_eq_map (ts : List SelectionTree) : bareAll ts = ts.map bare := by
  induction ts with
  | nil => rfl
  | cons t ts ih => simp [bareAll, ih]

namespace Schema

/-- What becomes of a field of some type, at some depth and below some expanded types. -/
inductive Growth where
  | undefined
  | leaf
  | truncated
  | typename
  | fields (fields : List Field)

def growth (s : Schema) (maxDepth : Option Nat) (depth : Nat) (expanded : List String)
    (f : Field) : Growth :=
  match s.find? f.type.innermost with
  | none => .undefined
  | some t =>
    if !t.isComposite then .leaf
    else if s.cuts maxDepth depth expanded f.type.innermost then .truncated
    else
      match t.fields? with
      | none => .typename
      | some [] => .truncated
      | some (g :: gs) => .fields (g :: gs)

/-- How many levels can still be opened at a depth and below some expanded types. -/
def levelsLeft (s : Schema) (maxDepth : Option Nat) (depth : Nat) (expanded : List String) : Nat :=
  match maxDepth with
  | some n => max n 1 - depth
  | none => (s.types.filter fun t => !expanded.contains t.name).length

/-- A field that opens does so to the fields of its type, which was not to be cut. -/
theorem growth_fields {s : Schema} {maxDepth : Option Nat} {depth : Nat} {expanded : List String}
    {f : Field} {gs : List Field} (h : s.growth maxDepth depth expanded f = .fields gs) :
    ∃ t, s.find? f.type.innermost = some t ∧ t.isComposite = true ∧
      s.cuts maxDepth depth expanded f.type.innermost = false ∧ t.fields? = some gs ∧ gs ≠ [] := by
  unfold growth at h
  split at h
  · contradiction
  · next t ht =>
    split at h
    · contradiction
    · next hcomposite =>
      split at h
      · contradiction
      · next hcut =>
        split at h
        · contradiction
        · contradiction
        · next g gs' hfields =>
          obtain rfl := Growth.fields.inj h
          exact ⟨t, ht, by simpa using hcomposite, by simpa using hcut, hfields, by simp⟩

theorem levelsLeft_lt {s : Schema} {maxDepth : Option Nat} {depth : Nat} {expanded : List String}
    {f : Field} {gs : List Field} (h : s.growth maxDepth depth expanded f = .fields gs) :
    s.levelsLeft maxDepth (depth + 1) (f.type.innermost :: expanded) <
      s.levelsLeft maxDepth depth expanded := by
  obtain ⟨t, hfind, -, hcut, -⟩ := growth_fields h
  cases maxDepth with
  | some n =>
    simp only [cuts, decide_eq_false_iff_not] at hcut
    simp only [levelsLeft]
    omega
  | none =>
    have hmem : t ∈ s.types := List.mem_of_find?_eq_some hfind
    have hname : t.name = f.type.innermost := by simpa using List.find?_some hfind
    simp only [cuts, Bool.or_eq_false_iff] at hcut
    -- The type was not expanded above, so one type fewer is left below it.
    have hfilter : s.types.filter (fun t => !(f.type.innermost :: expanded).contains t.name) =
        (s.types.filter fun t => !expanded.contains t.name).filter
          fun t => t.name != f.type.innermost := by
      rw [List.filter_filter]
      congr 1
      funext u
      simp only [List.contains_cons, Bool.not_or, bne]
    simp only [levelsLeft, hfilter]
    rw [List.length_filter_lt_length_iff_exists]
    exact ⟨t, List.mem_filter.mpr ⟨hmem, by rw [hname, hcut.1]; rfl⟩, by simp [hname]⟩

/-- The error for a field whose type is not defined. -/
def Field.invalid (f : Field) : LookupError :=
  .invalidFieldType f.name f.parent f.type.innermost

def Field.isUndefined (s : Schema) (f : Field) : Bool :=
  (s.find? f.type.innermost).isNone

/-- The tree for a field. -/
def expand (s : Schema) (maxDepth : Option Nat) (depth : Nat) (expanded : List String)
    (f : Field) : Except LookupError SelectionTree :=
  match h : s.growth maxDepth depth expanded f with
  | .undefined => .error f.invalid
  | .leaf => .ok (.leaf ⟨f.name, []⟩)
  | .truncated => .ok (.truncated ⟨f.name, []⟩)
  | .typename => .ok (.node ⟨f.name, []⟩ [.leaf ⟨"__typename", []⟩])
  | .fields gs => do
    let children ← gs.mapM (expand s maxDepth (depth + 1) (f.type.innermost :: expanded))
    pure (.node ⟨f.name, []⟩ children)
termination_by s.levelsLeft maxDepth depth expanded
decreasing_by exact levelsLeft_lt h

/-- The fields that the recursion reaches, each in front of those below it. -/
def reached (s : Schema) (maxDepth : Option Nat) (depth : Nat) (expanded : List String)
    (f : Field) : List Field :=
  match h : s.growth maxDepth depth expanded f with
  | .fields gs => f :: gs.flatMap (reached s maxDepth (depth + 1) (f.type.innermost :: expanded))
  | _ => [f]
termination_by s.levelsLeft maxDepth depth expanded
decreasing_by exact levelsLeft_lt h

theorem expand_eq (s : Schema) (maxDepth : Option Nat) (depth : Nat) (expanded : List String)
    (f : Field) :
    s.expand maxDepth depth expanded f =
      match s.growth maxDepth depth expanded f with
      | .undefined => .error f.invalid
      | .leaf => .ok (.leaf ⟨f.name, []⟩)
      | .truncated => .ok (.truncated ⟨f.name, []⟩)
      | .typename => .ok (.node ⟨f.name, []⟩ [.leaf ⟨"__typename", []⟩])
      | .fields gs =>
        (gs.mapM (s.expand maxDepth (depth + 1) (f.type.innermost :: expanded))).map
          (.node ⟨f.name, []⟩) := by
  rw [expand]
  split <;> rename_i h <;> rw [h]
  rfl

theorem reached_eq (s : Schema) (maxDepth : Option Nat) (depth : Nat) (expanded : List String)
    (f : Field) :
    s.reached maxDepth depth expanded f =
      match s.growth maxDepth depth expanded f with
      | .fields gs =>
        f :: gs.flatMap (s.reached maxDepth (depth + 1) (f.type.innermost :: expanded))
      | _ => [f] := by
  rw [reached]
  split
  · next h => rw [h]
  · next h => split <;> simp_all

theorem growth_eq_undefined_iff {s : Schema} {maxDepth : Option Nat} {depth : Nat}
    {expanded : List String} {f : Field} :
    s.growth maxDepth depth expanded f = .undefined ↔ f.isUndefined s = true := by
  unfold growth Field.isUndefined
  cases s.find? f.type.innermost with
  | none => simp
  | some t =>
    simp only [Option.isNone_some, Bool.false_eq_true, iff_false]
    split
    · simp
    · split
      · simp
      · split <;> simp

/-- Of a sequence of computations the first failure is the failure of all. -/
theorem mapM_cases {α β γ ε : Type} {k : α → Except ε β} {visited : α → List γ} {bad : γ → Bool}
    {error : γ → ε} {as : List α}
    (h : ∀ a ∈ as, (∀ g, (visited a).find? bad = some g → k a = .error (error g)) ∧
      ((visited a).find? bad = none → ∃ b, k a = .ok b)) :
    (∀ g, (as.flatMap visited).find? bad = some g → as.mapM k = .error (error g)) ∧
      ((as.flatMap visited).find? bad = none → ∃ bs, as.mapM k = .ok bs) := by
  induction as with
  | nil => exact ⟨by simp, fun _ => ⟨[], rfl⟩⟩
  | cons a as ih =>
    obtain ⟨ha, hok⟩ := h a (by simp)
    obtain ⟨has, hoks⟩ := ih fun b hb => h b (by simp [hb])
    simp only [List.flatMap_cons, List.find?_append, List.mapM_cons]
    cases hfind : (visited a).find? bad with
    | some g =>
      rw [ha g hfind]
      refine ⟨fun g' hg => ?_, fun hnone => by simp at hnone⟩
      obtain rfl : g = g' := by simpa using hg
      rfl
    | none =>
      obtain ⟨b, hb⟩ := hok hfind
      rw [hb]
      refine ⟨fun g hg => ?_, fun hnone => ?_⟩
      · rw [has g (by simpa using hg)]
        rfl
      · obtain ⟨bs, hbs⟩ := hoks (by simpa using hnone)
        exact ⟨b :: bs, by rw [hbs]; rfl⟩

/-- The recursion fails for the first field it reaches whose type is not defined, and only then. -/
theorem expand_cases (s : Schema) (maxDepth : Option Nat) (depth : Nat) (expanded : List String)
    (f : Field) :
    (∀ g, (s.reached maxDepth depth expanded f).find? (Field.isUndefined s) = some g →
      s.expand maxDepth depth expanded f = .error g.invalid) ∧
    ((s.reached maxDepth depth expanded f).find? (Field.isUndefined s) = none →
      ∃ t, s.expand maxDepth depth expanded f = .ok t) := by
  induction depth, expanded, f using expand.induct s maxDepth with
  | case1 depth expanded f h =>
    have hf := growth_eq_undefined_iff.mp h
    simp [reached_eq, expand_eq, h, hf]
  | case2 depth expanded f h | case3 depth expanded f h | case4 depth expanded f h =>
    have hf : ¬f.isUndefined s = true := fun hundefined => by
      simp [growth_eq_undefined_iff.mpr hundefined] at h
    simp [reached_eq, expand_eq, h, hf]
  | case5 depth expanded f gs h ih =>
    have hf : ¬f.isUndefined s = true := fun hundefined => by
      simp [growth_eq_undefined_iff.mpr hundefined] at h
    obtain ⟨herror, hok⟩ := mapM_cases fun g (_ : g ∈ gs) => ih g
    simp only [reached_eq, expand_eq, h, List.find?_cons, hf]
    refine ⟨fun g hg => ?_, fun hnone => ?_⟩
    · rw [herror g hg]
      rfl
    · obtain ⟨ts, hts⟩ := hok hnone
      exact ⟨.node ⟨f.name, []⟩ ts, by rw [hts]; rfl⟩

theorem expand_eq_error_iff {s : Schema} {maxDepth : Option Nat} {depth : Nat}
    {expanded : List String} {f : Field} {e : LookupError} :
    s.expand maxDepth depth expanded f = .error e ↔
      ∃ g, (s.reached maxDepth depth expanded f).find? (Field.isUndefined s) = some g ∧
        e = g.invalid := by
  obtain ⟨herror, hok⟩ := s.expand_cases maxDepth depth expanded f
  constructor
  · intro h
    cases hfind : (s.reached maxDepth depth expanded f).find? (Field.isUndefined s) with
    | some g =>
      rw [herror g hfind] at h
      exact ⟨g, rfl, (Except.error.inj h).symm⟩
    | none =>
      obtain ⟨t, ht⟩ := hok hfind
      simp [ht] at h
  · rintro ⟨g, hfind, rfl⟩
    exact herror g hfind

end Schema

end QueryCraft
