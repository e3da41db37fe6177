/-!
Lists as ordered maps: each element has a key, and the first element with a key is the one found.
-/

namespace QueryCraft.Keyed

/-- Puts `a` in the place of the first element with its key, or at the end. -/
def upsert {α κ : Type} [BEq κ] (key : α → κ) (a : α) : List α → List α
  | [] => [a]
  | b :: bs => if key b == key a then a :: bs else b :: upsert key a bs

/-- A repeated key keeps its first place and its last element. -/
def ofList {α κ : Type} [BEq κ] (key : α → κ) (as : List α) : List α :=
  as.foldl (fun map a => upsert key a map) []

/-- Elements under names that are kept apart from them, in the order in which the names came. -/
abbrev Map (α : Type) : Type := List (String × α)

/-- The names of a map in their order. -/
def names {α : Type} (m : Map α) : List String :=
  m.map Prod.fst

def insert {α : Type} (name : String) (a : α) (m : Map α) : Map α :=
  upsert Prod.fst (name, a) m

variable {α κ : Type} [BEq κ]

/-- Putting an element in the place of another makes none up. -/
theorem mem_upsert {key : α → κ} {a b : α} {as : List α} (h : b ∈ upsert key a as) :
    b = a ∨ b ∈ as := by
  induction as with
  | nil => simpa [upsert] using h
  | cons c cs ih =>
    unfold upsert at h
    split at h
    · exact (List.mem_cons.mp h).imp_right (List.mem_cons_of_mem _)
    · rcases List.mem_cons.mp h with rfl | h
      · exact .inr List.mem_cons_self
      · exact (ih h).imp_right (List.mem_cons_of_mem _)

theorem mem_of_mem_ofList {key : α → κ} {a : α} {as : List α} (h : a ∈ ofList key as) :
    a ∈ as := by
  have hfold (map : List α) (hmap : a ∈ as.foldl (fun map a => upsert key a map) map) :
      a ∈ map ∨ a ∈ as := by
    clear h
    induction as generalizing map with
    | nil => exact .inl hmap
    | cons b bs ih =>
      rcases ih _ hmap with hmem | hmem
      · rcases mem_upsert hmem with rfl | hmem
        · exact .inr List.mem_cons_self
        · exact .inl hmem
      · exact .inr (List.mem_cons_of_mem _ hmem)
  rcases hfold [] h with hmem | hmem
  · contradiction
  · exact hmem

/-- A new name comes last. -/
theorem insert_of_not_mem {name : String} {a : α} {m : Map α} (h : name ∉ names m) :
    insert name a m = m ++ [(name, a)] := by
  induction m with
  | nil => rfl
  | cons e es ih =>
    simp only [names, List.map_cons, List.mem_cons, not_or] at h
    have hne : (e.1 == name) = false := by simpa using fun heq => h.1 heq.symm
    simp only [insert, upsert, hne] at ih ⊢
    simpa using ih h.2

/-- A name that is there already keeps its place. -/
theorem names_insert_of_mem {name : String} {a : α} {m : Map α} (h : name ∈ names m) :
    names (insert name a m) = names m := by
  induction m with
  | nil => contradiction
  | cons e es ih =>
    by_cases heq : e.1 = name
    · simp [insert, upsert, names, heq]
    · have hmem : name ∈ names es := by
        simpa [names, Ne.symm heq] using h
      simpa [insert, upsert, names, heq] using ih hmem

theorem nodup_names_insert {name : String} {a : α} {m : Map α} (h : (names m).Nodup) :
    (names (insert name a m)).Nodup := by
  by_cases hmem : name ∈ names m
  · rw [names_insert_of_mem hmem]
    exact h
  · rw [insert_of_not_mem hmem, names, List.map_append, List.nodup_append]
    refine ⟨h, by simp, fun a ha b hb heq => hmem ?_⟩
    obtain rfl := List.mem_singleton.mp hb
    exact heq ▸ ha

/-- Each name of a map of elements stands in it once, whatever repeats. -/
theorem nodup_names_ofList (es : List (String × α)) : (names (ofList Prod.fst es)).Nodup := by
  have hfold (m : Map α) (hm : (names m).Nodup) :
      (names (es.foldl (fun m e => upsert Prod.fst e m) m)).Nodup := by
    induction es generalizing m with
    | nil => exact hm
    | cons e es ih => exact ih _ (nodup_names_insert hm)
  exact hfold [] List.nodup_nil

theorem lookup_eq_none_iff {name : String} {m : Map α} :
    m.lookup name = none ↔ name ∉ names m := by
  rw [List.lookup_eq_none_iff, names, List.mem_map]
  simp only [bne_iff_ne, not_exists, not_and]
  exact forall₂_congr fun e _ => ne_comm

/-- With different names, what stands under a name is found under it. -/
theorem lookup_of_mem {name : String} {a : α} {m : Map α} (hnodup : (names m).Nodup)
    (h : (name, a) ∈ m) : m.lookup name = some a := by
  induction m with
  | nil => contradiction
  | cons e es ih =>
    rw [names, List.map_cons, List.nodup_cons] at hnodup
    rcases List.mem_cons.mp h with rfl | hmem
    · exact List.lookup_cons_self
    · have hne : name ≠ e.1 := by
        rintro rfl
        exact hnodup.1 (List.mem_map.mpr ⟨_, hmem, rfl⟩)
      rw [List.lookup_cons, beq_eq_false_iff_ne.mpr hne]
      exact ih hnodup.2 hmem

theorem lookup_map {β : Type} (f : α → β) (name : String) (m : Map α) :
    List.lookup name (m.map fun e => (e.1, f e.2)) = (m.lookup name).map f := by
  induction m with
  | nil => rfl
  | cons e es ih =>
    rw [List.map_cons, List.lookup_cons, List.lookup_cons]
    cases name == e.1 with
    | true => rfl
    | false => exact ih

theorem insert_map {β : Type} (f : α → β) (name : String) (a : α) (m : Map α) :
    insert name (f a) (m.map fun e => (e.1, f e.2)) =
      (insert name a m).map fun e => (e.1, f e.2) := by
  induction m with
  | nil => rfl
  | cons e es ih =>
    simp only [insert, List.map_cons, upsert] at ih ⊢
    split
    · rfl
    · rw [ih, List.map_cons]

theorem any_name_eq_true_iff {name : String} {m : Map α} :
    m.any (·.1 == name) = true ↔ name ∈ names m := by
  simp [names, List.any_eq_true]

end QueryCraft.Keyed
