import QueryCraft.Proofs.Synthesis.Visits

/-!
A walk that ends has a tree for every field it was to visit. The walk keeps one list of fields to
visit; here what is below a field is traversed apart from what is behind it, and the states between
them are known.
-/

namespace QueryCraft

namespace Synthesis

variable {s : Schema} {config : Config} {st st' : State} {ps qs : List Pending}
  {ts : List SelectionTree}

def Extent.arity : Extent → Nat
  | .leaf | .truncated => 0
  | .node n => n

/-- The tree of a visited field over the trees of its children. -/
def Visit.tree (v : Visit) (ts : List SelectionTree) : SelectionTree :=
  match v.extent with
  | .leaf => .leaf v.head
  | .truncated => .truncated v.head
  | .node _ => .node v.head ts

theorem Visit.push_append (v : Visit) {ts : List SelectionTree} (trees : List SelectionTree)
    (h : ts.length = v.extent.arity) : Visit.push (ts ++ trees) v = v.tree ts :: trees := by
  obtain ⟨head, extent⟩ := v
  cases extent with
  | leaf | truncated =>
    obtain rfl := List.length_eq_zero_iff.mp h
    rfl
  | node n =>
    obtain rfl : ts.length = n := h
    simp [push, tree]

theorem Extent.arity_ofOpening (o : Schema.Opening) :
    (ofOpening o).arity = (Pending.ofOpening o).length := by
  cases o with
  | leaf => rfl
  | truncated => rfl
  | opens children rest => simp [ofOpening, Pending.ofOpening, arity]

/-- Fields that are visited in order, each with all that is below it, lead from one state to another
and have these trees. -/
inductive Traverses (s : Schema) (config : Config) :
    State → List Pending → State → List SelectionTree → Prop where
  | nil {st : State} : Traverses s config st [] st []
  | cons {st stBelow st' : State} {p : Pending} {ps : List Pending} {o : Schema.Opening}
      {ts us : List SelectionTree} (opens : s.openingOf p.child p.allowance = .ok o)
      (below : Traverses s config (st.visited config p o) (Pending.ofOpening o) stBelow ts)
      (behind : Traverses s config stBelow ps st' us) :
      Traverses s config st (p :: ps) st' ((st.visitOf config p o).tree ts :: us)

namespace Traverses

theorem length_eq (h : Traverses s config st ps st' ts) : ts.length = ps.length := by
  induction h with
  | nil => rfl
  | cons _ _ _ _ ih => simp [ih]

theorem append_inv (h : Traverses s config st (ps ++ qs) st' ts) :
    ∃ stBetween us vs, Traverses s config st ps stBetween us ∧
      Traverses s config stBetween qs st' vs ∧ ts = us ++ vs := by
  induction ps generalizing st ts with
  | nil => exact ⟨st, [], ts, .nil, h, rfl⟩
  | cons p ps ih =>
    rw [List.cons_append] at h
    cases h with
    | cons opens below behind =>
      obtain ⟨stBetween, us, vs, hps, hqs, rfl⟩ := ih behind
      exact ⟨stBetween, _ :: us, vs, .cons opens below hps, hqs, rfl⟩

/-- A walk that ends has traversed the fields it was to visit. -/
theorem of_walk (h : walk s config st ps = .ok st') : ∃ ts, Traverses s config st ps st' ts := by
  induction st, ps using Synthesis.walk.induct s config with
  | case1 st =>
    rw [walk_nil] at h
    obtain rfl := Except.ok.inj h
    exact ⟨[], .nil⟩
  | case2 st p rest e herror =>
    rw [walk_cons, herror] at h
    contradiction
  | case3 st p rest st'' below hvisit _ ih =>
    rw [walk_cons, hvisit] at h
    obtain ⟨ts, hts⟩ := ih h
    obtain ⟨o, hopens, rfl, rfl⟩ := visit_ok hvisit
    -- What is below the field stands in front of what is behind it, and the list splits there.
    obtain ⟨stBetween, us, vs, hbelow, hbehind, -⟩ := hts.append_inv
    exact ⟨_, .cons hopens hbelow hbehind⟩

/-- What is traversed is walked, whatever is to be visited behind it. -/
theorem walk_append (h : Traverses s config st ps st' ts) (rest : List Pending) :
    walk s config st (ps ++ rest) = walk s config st' rest := by
  induction h generalizing rest with
  | nil => rfl
  | cons opens below behind ihBelow ihBehind =>
    rw [List.cons_append, walk_cons, visit_eq, opens]
    exact (ihBelow _).trans (ihBehind rest)

/-- The visited fields are assembled to the trees, in front of any that were there. -/
theorem foldl_push (h : Traverses s config st ps st' ts) :
    ∃ visits, st'.visits = visits ++ st.visits ∧
      ∀ trees, visits.foldl Visit.push trees = ts ++ trees := by
  induction h with
  | nil => exact ⟨[], rfl, fun _ => rfl⟩
  | @cons st stBelow st' p ps o ts us opens below behind ihBelow ihBehind =>
    obtain ⟨visits, hvisits, hfold⟩ := ihBelow
    obtain ⟨visits', hvisits', hfold'⟩ := ihBehind
    have harity : ts.length = (st.visitOf config p o).extent.arity :=
      below.length_eq.trans (Extent.arity_ofOpening o).symm
    -- The last visit comes first, so assembly pushes the trees behind the field, then those below
    -- it, and takes the latter when it comes to the field itself.
    refine ⟨visits' ++ (visits ++ [st.visitOf config p o]), ?_, fun trees => ?_⟩
    · rw [hvisits', hvisits, visits_visited, List.append_assoc, List.append_assoc]
      rfl
    · rw [List.foldl_append, hfold', List.foldl_append, hfold, List.cons_append]
      exact Visit.push_append _ (us ++ trees) harity

theorem assemble_visits (h : Traverses s config .initial ps st ts) : assembleVisits st.visits = ts := by
  obtain ⟨visits, hvisits, hfold⟩ := h.foldl_push
  have hall : st.visits = visits := hvisits.trans (List.append_nil visits)
  rw [assembleVisits, hall, hfold, List.append_nil]

end Traverses

end Synthesis

end QueryCraft
