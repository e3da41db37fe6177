import QueryCraft.Keyed
import QueryCraft.Proofs.Value.Nodes

/-!
Objects with their entries sorted by key, as they are read. A value and its sorted form are the same
value, because objects are maps.
-/

namespace QueryCraft.Value

mutual

/-- The value with the entries of all its objects sorted by key. -/
def sorted : Value → Value
  | .list items => .list (sortedItems items)
  | .object entries => sortedObject (sortedEntries entries)
  | v => v

def sortedItems : List Value → List Value
  | [] => []
  | v :: vs => sorted v :: sortedItems vs

def sortedEntries : List (String × Value) → List (String × Value)
  | [] => []
  | (k, v) :: es => (k, sorted v) :: sortedEntries es

end

theorem sortedItems_eq_map (items : List Value) : sortedItems items = items.map sorted := by
  induction items with
  | nil => rfl
  | cons v vs ih => simp [sortedItems, ih]

theorem sortedEntries_eq_map (entries : List (String × Value)) :
    sortedEntries entries = entries.map fun e => (e.1, sorted e.2) := by
  induction entries with
  | nil => rfl
  | cons e es ih => simp [sortedEntries, ih]

/-- An entry with a new key only finds its place. -/
theorem insertEntry_perm {key : String} {v : Value} {entries : List (String × Value)}
    (h : key ∉ entries.map Prod.fst) : (insertEntry key v entries).Perm ((key, v) :: entries) := by
  induction entries with
  | nil => exact List.Perm.refl _
  | cons e es ih =>
    obtain ⟨k, w⟩ := e
    simp only [List.map_cons, List.mem_cons, not_or] at h
    unfold insertEntry
    split
    · exact List.Perm.refl _
    · rw [if_neg h.1]
      exact ((ih h.2).cons _).trans (List.Perm.swap _ _ _)

/-- Sorting entries with distinct keys loses none and makes none up. -/
theorem foldl_insertEntry_perm (entries : List (String × Value)) :
    ∀ found : List (String × Value), (found.map Prod.fst ++ entries.map Prod.fst).Nodup →
      (entries.foldl (fun es (e : String × Value) => insertEntry e.1 e.2 es) found).Perm
        (found ++ entries) := by
  induction entries with
  | nil =>
    intro found _
    simp
  | cons e es ih =>
    intro found h
    simp only [List.foldl_cons]
    have hnew : e.1 ∉ found.map Prod.fst := by
      intro hmem
      exact (List.nodup_append.mp h).2.2 _ hmem _ (by simp) rfl
    have hperm := insertEntry_perm (v := e.2) hnew
    have hnodup : ((insertEntry e.1 e.2 found).map Prod.fst ++ es.map Prod.fst).Nodup := by
      refine (List.Perm.nodup_iff ?_).mp h
      have hkeys := (hperm.map Prod.fst).append_right (es.map Prod.fst)
      refine List.Perm.trans ?_ hkeys.symm
      simp
    exact (ih _ hnodup).trans ((hperm.append_right es).trans (by simpa using List.perm_middle.symm))

theorem sameItems_map_iff {f : Value → Value} {items : List Value} :
    sameItems (items.map f) items = true ↔ ∀ v ∈ items, same (f v) v = true := by
  induction items with
  | nil => simp [sameItems]
  | cons v vs ih => simp [sameItems, ih]

theorem sameEntries_iff {entries others : List (String × Value)} :
    sameEntries entries others = true ↔
      ∀ e ∈ entries, ∃ w, others.lookup e.1 = some w ∧ same e.2 w = true := by
  induction entries with
  | nil => simp [sameEntries]
  | cons e es ih =>
    obtain ⟨k, v⟩ := e
    simp only [sameEntries, Bool.and_eq_true, ih, List.forall_mem_cons]
    cases others.lookup k <;> simp

/-- Inserting an entry makes no other entry up. -/
theorem mem_insertEntry {key : String} {v : Value} {entries : List (String × Value)}
    {e : String × Value} (h : e ∈ insertEntry key v entries) : e = (key, v) ∨ e ∈ entries := by
  induction entries with
  | nil => simpa [insertEntry] using h
  | cons f fs ih =>
    obtain ⟨k, w⟩ := f
    unfold insertEntry at h
    split at h
    · exact List.mem_cons.mp h
    · split at h
      · rcases List.mem_cons.mp h with rfl | h
        · exact .inl rfl
        · exact .inr (List.mem_cons_of_mem _ h)
      · rcases List.mem_cons.mp h with rfl | h
        · exact .inr List.mem_cons_self
        · exact (ih h).imp_right (List.mem_cons_of_mem _)

/-- Holds of entries whose keys ascend. -/
def Ascending (entries : List (String × Value)) : Prop :=
  entries.Pairwise fun e f => e.1 < f.1

theorem Ascending.insertEntry {entries : List (String × Value)} (h : Ascending entries)
    (key : String) (v : Value) : Ascending (insertEntry key v entries) := by
  induction entries with
  | nil => exact List.pairwise_singleton _ _
  | cons e es ih =>
    obtain ⟨k, w⟩ := e
    obtain ⟨hbehind, hes⟩ := List.pairwise_cons.mp h
    unfold Value.insertEntry
    split
    · next hlt =>
      refine List.pairwise_cons.mpr ⟨List.forall_mem_cons.mpr ⟨hlt, fun f hf => ?_⟩, h⟩
      exact String.lt_trans hlt (hbehind f hf)
    · next hge =>
      split
      · next heq =>
        obtain rfl := heq
        exact List.pairwise_cons.mpr ⟨hbehind, hes⟩
      · next hne =>
        refine List.pairwise_cons.mpr ⟨fun f hf => ?_, ih hes⟩
        rcases mem_insertEntry hf with rfl | hf
        · exact Std.lt_of_le_of_ne (String.not_lt.mp hge) (Ne.symm hne)
        · exact hbehind f hf

theorem Ascending.foldl {found : List (String × Value)} (entries : List (String × Value))
    (h : Ascending found) :
    Ascending (entries.foldl (fun es (e : String × Value) => Value.insertEntry e.1 e.2 es) found) := by
  induction entries generalizing found with
  | nil => exact h
  | cons e es ih => exact ih (h.insertEntry e.1 e.2)

/-- The keys of a sorted object are distinct, and its entries are among the given ones. -/
theorem isKeyed_sortedObject (entries : List (String × Value)) :
    (sortedObject entries).isKeyed = true := by
  have h : Ascending (entries.foldl (fun es (e : String × Value) => insertEntry e.1 e.2 es) []) :=
    Ascending.foldl entries List.Pairwise.nil
  rw [sortedObject, isKeyed, decide_eq_true_eq, List.nodup_iff_pairwise_ne, List.pairwise_map]
  exact h.imp fun hlt => Std.ne_of_lt hlt

theorem mem_foldl_insertEntry {entries found : List (String × Value)} {e : String × Value}
    (h : e ∈ entries.foldl (fun es (e : String × Value) => insertEntry e.1 e.2 es) found) :
    e ∈ found ∨ e ∈ entries := by
  induction entries generalizing found with
  | nil => exact .inl h
  | cons f fs ih =>
    rcases ih h with hmem | hmem
    · rcases mem_insertEntry hmem with rfl | hmem
      · exact .inr List.mem_cons_self
      · exact .inl hmem
    · exact .inr (List.mem_cons_of_mem _ hmem)

end QueryCraft.Value
