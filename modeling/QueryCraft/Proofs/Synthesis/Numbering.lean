import Mathlib.Data.Nat.Find
import QueryCraft.Proofs.Number.Decimal
import QueryCraft.Synthesis.VariableNames

/-!
The numbers behind the names of variables. Every request is answered with the name itself or with
the smallest number behind it that makes a new name, although the search for a number goes on where
the last one for the same name ended.
-/

namespace QueryCraft.VariableNames

theorem numbered_injective {name : String} {m n : Nat} (h : numbered name m = numbered name n) :
    m = n := by
  have hlists := congrArg String.toList h
  simp only [numbered, String.toList_append, String.toList_ofList] at hlists
  have hvalues := congrArg Number.decimalValue? (List.append_cancel_left hlists)
  rw [Number.decimalValue?_natDigits, Number.decimalValue?_natDigits] at hvalues
  exact Option.some.inj hvalues

/-- Of more numbered names than are taken, one is free. -/
theorem exists_numbered_not_mem (taken : List String) (name : String) (n : Nat) :
    ∃ i ≤ taken.length, numbered name (n + i) ∉ taken := by
  by_contra hall
  have hsubset : (List.range (taken.length + 1)).map (fun i => numbered name (n + i)) ⊆ taken := by
    intro y hy
    obtain ⟨i, hi, rfl⟩ := List.mem_map.mp hy
    by_contra hfree
    exact hall ⟨i, Nat.le_of_lt_succ (List.mem_range.mp hi), hfree⟩
  have hnodup :
      ((List.range (taken.length + 1)).map fun i => numbered name (n + i)).Nodup := by
    refine List.pairwise_map.mpr (List.nodup_range.imp fun hne heq => hne ?_)
    exact Nat.add_left_cancel (numbered_injective heq)
  have hle := hnodup.length_le_of_subset hsubset
  rw [List.length_map, List.length_range] at hle
  omega

/-- A search that tries one number after the other, with no bound on how many: from `n` on it passes
over taken names, and it ends at the first number whose name is free. -/
inductive Finds (taken : List String) (name : String) : Nat → Nat → Prop
  | stop {n : Nat} (hfree : numbered name n ∉ taken) : Finds taken name n n
  | next {n k : Nat} (htaken : numbered name n ∈ taken) (hmore : Finds taken name (n + 1) k) :
      Finds taken name n k

namespace Finds

variable {taken : List String} {name : String} {n k : Nat}

theorem le (h : Finds taken name n k) : n ≤ k := by
  induction h with
  | stop => exact Nat.le_refl _
  | next _ _ ih => omega

theorem not_mem (h : Finds taken name n k) : numbered name k ∉ taken := by
  induction h with
  | stop hfree => exact hfree
  | next _ _ ih => exact ih

theorem mem_of_lt (h : Finds taken name n k) {j : Nat} (hn : n ≤ j) (hk : j < k) :
    numbered name j ∈ taken := by
  induction h with
  | stop => omega
  | next htaken _ ih =>
    rcases Nat.eq_or_lt_of_le hn with rfl | hlt
    · exact htaken
    · exact ih hlt hk

end Finds

/-- The bounded search does what the unbounded one does, unless it runs out of candidates. -/
theorem finds_firstFree_or (taken : List String) (name : String) (candidates n : Nat) :
    Finds taken name n (firstFree taken name candidates n) ∨
      ∀ i ≤ candidates, numbered name (n + i) ∈ taken := by
  induction candidates generalizing n with
  | zero =>
    by_cases htaken : numbered name n ∈ taken
    · right
      intro i hi
      obtain rfl := Nat.le_zero.mp hi
      exact htaken
    · exact .inl (.stop htaken)
  | succ candidates ih =>
    unfold firstFree
    split
    · next hcontains =>
      have htaken : numbered name n ∈ taken := List.contains_iff_mem.mp hcontains
      rcases ih (n + 1) with hfinds | hall
      · exact .inl (.next htaken hfinds)
      · right
        intro i hi
        cases i with
        | zero => exact htaken
        | succ i =>
          have hmem := hall i (Nat.le_of_succ_le_succ hi)
          rwa [Nat.add_right_comm] at hmem
    · next hcontains =>
      exact .inl (.stop fun htaken => hcontains (List.contains_iff_mem.mpr htaken))

/-- One candidate more than there are names is enough. -/
theorem finds_firstFree (taken : List String) (name : String) (n : Nat) :
    Finds taken name n (firstFree taken name taken.length n) := by
  rcases finds_firstFree_or taken name taken.length n with hfinds | hall
  · exact hfinds
  · obtain ⟨i, hi, hfree⟩ := exists_numbered_not_mem taken name n
    exact absurd (hall i hi) hfree

/-- The number that is tried first when a name is requested again. -/
def nextFor (names : VariableNames) (name : String) : Nat :=
  (names.nextNumber.lookup name).getD 1

/-- A request is answered with a name and leaves other names behind. The name is given as it is, or
with the number at which a search ends. -/
inductive Answers (names : VariableNames) (name : String) : String → VariableNames → Prop
  | plain (hfree : name ∉ names.taken) :
      Answers names name name ⟨name :: names.taken, names.nextNumber⟩
  | counted {n : Nat} (htaken : name ∈ names.taken)
      (hfinds : Finds names.taken name (names.nextFor name) n) :
      Answers names name (numbered name n)
        ⟨numbered name n :: names.taken, (name, n + 1) :: names.nextNumber⟩

/-- Whatever names have been given, a request is answered: the search for a number ends. -/
theorem answers_allocate (names : VariableNames) (name : String) :
    Answers names name (names.allocate name).1 (names.allocate name).2 := by
  unfold allocate
  split
  · next hcontains =>
    exact .counted (List.contains_iff_mem.mp hcontains) (finds_firstFree names.taken name _)
  · next hcontains =>
    exact .plain fun htaken => hcontains (List.contains_iff_mem.mpr htaken)

namespace Answers

variable {names names' : VariableNames} {name given : String}

/-- A name is given only once. -/
theorem fresh (h : Answers names name given names') : given ∉ names.taken := by
  cases h with
  | plain hfree => exact hfree
  | counted _ hfinds => exact hfinds.not_mem

theorem taken_eq (h : Answers names name given names') : names'.taken = given :: names.taken := by
  cases h <;> rfl

end Answers

theorem allocate_fresh (names : VariableNames) (name : String) :
    (names.allocate name).1 ∉ names.taken :=
  (names.answers_allocate name).fresh

theorem taken_allocate (names : VariableNames) (name : String) :
    (names.allocate name).2.taken = (names.allocate name).1 :: names.taken :=
  (names.answers_allocate name).taken_eq

theorem exists_free_number (given : List String) (name : String) :
    ∃ k, 1 ≤ k ∧ numbered name k ∉ given := by
  obtain ⟨i, -, hfree⟩ := exists_numbered_not_mem given name 1
  exact ⟨1 + i, Nat.le_add_right 1 i, hfree⟩

/-- The answer to a request, told from the names given so far alone: the name itself if it is new,
or else the name with the smallest positive number behind it that makes it new. -/
def nameAmong (given : List String) (name : String) : String :=
  if name ∈ given then numbered name (Nat.find (exists_free_number given name)) else name

/-- The answers to requests in order, where `given` are the names given before. -/
def namesAmong (given : List String) : List String → List String
  | [] => []
  | request :: requests =>
    nameAmong given request :: namesAmong (nameAmong given request :: given) requests

theorem nameAmong_not_mem (given : List String) (name : String) : nameAmong given name ∉ given := by
  unfold nameAmong
  split
  · exact (Nat.find_spec (exists_free_number given name)).2
  · next hfree => exact hfree

theorem nodup_namesAmong (given requests : List String) :
    (namesAmong given requests).Nodup ∧ ∀ x ∈ namesAmong given requests, x ∉ given := by
  induction requests generalizing given with
  | nil => exact ⟨List.nodup_nil, nofun⟩
  | cons request requests ih =>
    obtain ⟨hnodup, hfresh⟩ := ih (nameAmong given request :: given)
    constructor
    · apply List.nodup_cons.mpr
      exact ⟨fun hmem => hfresh _ hmem List.mem_cons_self, hnodup⟩
    · intro x hx
      rcases List.mem_cons.mp hx with rfl | hx
      · exact nameAmong_not_mem given request
      · exact fun hmem => hfresh x hx (List.mem_cons_of_mem _ hmem)

/-- The searches for a name have passed over every number below the one to try next, so nothing is
missed by not starting from 1 again. -/
structure Searched (names : VariableNames) : Prop where
  positive : ∀ name, 1 ≤ names.nextFor name
  passed : ∀ name k, 1 ≤ k → k < names.nextFor name → numbered name k ∈ names.taken

namespace Searched

variable {names names' : VariableNames} {name given : String}

theorem empty : empty.Searched where
  positive _ := Nat.le_refl 1
  passed _ _ hone hlt := absurd hlt (Nat.not_lt.mpr hone)

/-- Every name with a smaller positive number than the one found is taken. -/
theorem mem_of_lt {n k : Nat} (h : names.Searched)
    (hfinds : Finds names.taken name (names.nextFor name) n) (hone : 1 ≤ k) (hlt : k < n) :
    numbered name k ∈ names.taken := by
  rcases Nat.lt_or_ge k (names.nextFor name) with hbefore | hfrom
  · exact h.passed name k hone hbefore
  · exact hfinds.mem_of_lt hfrom hlt

theorem answer (h : names.Searched) (hanswer : Answers names name given names') :
    given = nameAmong names.taken name := by
  unfold nameAmong
  cases hanswer with
  | plain hfree => rw [if_neg hfree]
  | @counted n htaken hfinds =>
    have hleast : Nat.find (exists_free_number names.taken name) = n := by
      apply (Nat.find_eq_iff _).mpr
      refine ⟨⟨Nat.le_trans (h.positive name) hfinds.le, hfinds.not_mem⟩, ?_⟩
      rintro k hlt ⟨hone, hfree⟩
      exact hfree (h.mem_of_lt hfinds hone hlt)
    rw [if_pos htaken, hleast]

/-- An answer leaves every search where it was, but for the name requested: there the number given
has been passed over too. -/
theorem step (h : names.Searched) (hanswer : Answers names name given names') :
    names'.Searched := by
  cases hanswer with
  | plain hfree =>
    exact ⟨h.positive, fun x k hone hlt => List.mem_cons_of_mem _ (h.passed x k hone hlt)⟩
  | @counted n htaken hfinds =>
    have hnext (x : String) :
        nextFor ⟨numbered name n :: names.taken, (name, n + 1) :: names.nextNumber⟩ x =
          if x = name then n + 1 else names.nextFor x := by
      unfold nextFor
      by_cases hx : x = name
      · rw [if_pos hx, List.lookup_cons, beq_iff_eq.mpr hx]
        rfl
      · rw [if_neg hx, List.lookup_cons, beq_eq_false_iff_ne.mpr hx]
    constructor
    · intro x
      rw [hnext]
      split
      · exact Nat.le_add_left 1 n
      · exact h.positive x
    · intro x k hone hlt
      rw [hnext] at hlt
      split at hlt
      · next hx =>
        subst hx
        rcases Nat.eq_or_lt_of_le (Nat.le_of_lt_succ hlt) with rfl | hlt
        · exact List.mem_cons_self
        · exact List.mem_cons_of_mem _ (h.mem_of_lt hfinds hone hlt)
      · exact List.mem_cons_of_mem _ (h.passed x k hone hlt)

theorem run (h : names.Searched) (requests : List String) :
    names.allocateAll requests = namesAmong names.taken requests := by
  induction requests generalizing names with
  | nil => rfl
  | cons request requests ih =>
    have hanswer := names.answers_allocate request
    calc names.allocateAll (request :: requests)
      _ = (names.allocate request).1 :: (names.allocate request).2.allocateAll requests := rfl
      _ = namesAmong names.taken (request :: requests) := by
        rw [namesAmong, ih (h.step hanswer), hanswer.taken_eq, h.answer hanswer]

end Searched

/-- Every request is answered, whatever names have been given before. From the beginning on, the
answers are the names requested, each with the smallest positive number behind it where it is not
new, and they are all different. -/
theorem allocateAll_eq_namesAmong (requests : List String) :
    (∀ (names : VariableNames) (name : String),
      Answers names name (names.allocate name).1 (names.allocate name).2) ∧
    empty.allocateAll requests = namesAmong [] requests ∧
    (empty.allocateAll requests).Nodup := by
  have hrun : empty.allocateAll requests = namesAmong [] requests := Searched.empty.run requests
  refine ⟨answers_allocate, hrun, ?_⟩
  rw [hrun]
  exact (nodup_namesAmong [] requests).1

example : empty.allocateAll ["id1", "id", "id", "id1"] = ["id1", "id", "id2", "id11"] := by decide

end QueryCraft.VariableNames
