import QueryCraft.Proofs.Synthesis.Arguments
import QueryCraft.Proofs.Synthesis.Bounds

/-!
Syntheses of one field with different bounds on the depth. With a smaller bound a walk visits the
same fields as with a larger one, but for those that are too deep; and where types are not expanded
twice in any case, a bound that is large enough makes no difference to a walk without one.
-/

namespace QueryCraft

namespace SelectionTree

mutual

/-- The tree with the given number of levels below its root. A field with children that is on the
last of them is cut short. -/
def cutBelow : Nat → SelectionTree → SelectionTree
  | _, .leaf h => .leaf h
  | _, .truncated h => .truncated h
  | 0, .node h _ => .truncated h
  | n + 1, .node h children => .node h (cutAllBelow n children)

def cutAllBelow : Nat → List SelectionTree → List SelectionTree
  | _, [] => []
  | n, t :: ts => cutBelow n t :: cutAllBelow n ts

end

theorem cutAllBelow_eq_map (n : Nat) (ts : List SelectionTree) :
    cutAllBelow n ts = ts.map (cutBelow n) := by
  induction ts with
  | nil => rfl
  | cons t ts ih => rw [cutAllBelow, ih, List.map_cons]

mutual

/-- Whether no field of the tree is cut short. -/
def isFull : SelectionTree → Bool
  | .leaf _ => true
  | .truncated _ => false
  | .node _ children => areFull children

def areFull : List SelectionTree → Bool
  | [] => true
  | t :: ts => isFull t && areFull ts

end

theorem depth_pos (t : SelectionTree) : 0 < t.depth := by
  cases t with
  | leaf h | truncated h => exact Nat.zero_lt_one
  | node h children => exact Nat.lt_of_lt_of_le Nat.zero_lt_one (Nat.le_add_right 1 _)

theorem depthAll_pos {ts : List SelectionTree} (h : ts ≠ []) : 0 < depthAll ts := by
  obtain ⟨t, us, rfl⟩ := List.exists_cons_of_ne_nil h
  exact Nat.lt_of_lt_of_le t.depth_pos (Nat.le_max_left _ _)

/-- The field without what its arguments are bound to. -/
def TreeHead.unbound (h : TreeHead) : TreeHead :=
  ⟨h.name, h.arguments.map fun a => ⟨a.name, .null⟩⟩

mutual

/-- The tree without what its arguments are bound to. -/
def unbound : SelectionTree → SelectionTree
  | .leaf h => .leaf (TreeHead.unbound h)
  | .truncated h => .truncated (TreeHead.unbound h)
  | .node h children => .node (TreeHead.unbound h) (unboundAll children)

def unboundAll : List SelectionTree → List SelectionTree
  | [] => []
  | t :: ts => unbound t :: unboundAll ts

end

/-- Trees are the same but for what their arguments are bound to, and under some condition in that
too. -/
def Agrees (same : Prop) (t u : SelectionTree) : Prop :=
  t.unbound = u.unbound ∧ (same → t = u)

def TreeHead.Agrees (same : Prop) (g h : TreeHead) : Prop :=
  TreeHead.unbound g = TreeHead.unbound h ∧ (same → g = h)

section Agrees

variable {same : Prop} {g h : TreeHead}

theorem Agrees.leaf (hhead : TreeHead.Agrees same g h) : Agrees same (.leaf g) (.leaf h) :=
  ⟨congrArg SelectionTree.leaf hhead.1, fun hsame => congrArg SelectionTree.leaf (hhead.2 hsame)⟩

theorem Agrees.truncated (hhead : TreeHead.Agrees same g h) :
    Agrees same (.truncated g) (.truncated h) :=
  ⟨congrArg SelectionTree.truncated hhead.1,
    fun hsame => congrArg SelectionTree.truncated (hhead.2 hsame)⟩

theorem Agrees.node {ts us : List SelectionTree} (hhead : TreeHead.Agrees same g h)
    (hchildren : List.Forall₂ (Agrees same) ts us) : Agrees same (.node g ts) (.node h us) := by
  have hlists : unboundAll ts = unboundAll us ∧ (same → ts = us) := by
    induction hchildren with
    | nil => exact ⟨rfl, fun _ => rfl⟩
    | cons htree _ ih =>
      exact ⟨congrArg₂ List.cons htree.1 ih.1, fun hsame =>
        congrArg₂ List.cons (htree.2 hsame) (ih.2 hsame)⟩
  exact ⟨congrArg₂ SelectionTree.node hhead.1 hlists.1, fun hsame =>
    congrArg₂ SelectionTree.node (hhead.2 hsame) (hlists.2 hsame)⟩

end Agrees

end SelectionTree

namespace Schema

variable {s : Schema} {t : NamedType} {a : Allowance} {n k : Nat} {c : Child} {o : Opening}

/-- What an opening becomes if only so many levels may be opened. -/
def Opening.within : Nat → Opening → Opening
  | _, .leaf => .leaf
  | _, .truncated => .truncated
  | 0, .opens _ _ => .truncated
  | n + 1, .opens children _ => .opens children (.levels n)

/-- A field that is not cut short for want of levels opens with any number of levels as it does
otherwise, as far as they go. -/
theorem opening_levels (h : t.opening a = .truncated → t.opening (.levels n) = .truncated) :
    t.opening (.levels n) = (t.opening a).within n := by
  unfold NamedType.opening at h ⊢
  cases hcomposite : t.isComposite with
  | false => rfl
  | true =>
    simp only [hcomposite, if_true] at h ⊢
    cases hselectable : t.selectable with
    | nil => cases n <;> cases a.spend? t.name <;> rfl
    | cons child children =>
      cases hspend : a.spend? t.name with
      | none =>
        rw [hselectable, hspend] at h
        exact h rfl
      | some rest => cases n <;> rfl

/-- What is cut short with some levels is cut short with fewer. -/
theorem opening_levels_truncated (h : t.opening (.levels k) = .truncated) (hle : n ≤ k) :
    t.opening (.levels n) = .truncated := by
  unfold NamedType.opening at h ⊢
  cases hcomposite : t.isComposite with
  | false => simp [hcomposite] at h
  | true =>
    simp only [hcomposite, if_true] at h ⊢
    cases hselectable : t.selectable with
    | nil => cases n <;> rfl
    | cons child children =>
      rw [hselectable] at h
      cases k with
      | zero => rw [Nat.le_zero.mp hle]; rfl
      | succ k => contradiction

/-- A field has the same type however much is left to open. -/
theorem openingOf_cases (h : s.openingOf c a = .ok o) :
    (o = .leaf ∧ ∀ b, s.openingOf c b = .ok .leaf) ∨
      ∃ t : NamedType, o = t.opening a ∧ ∀ b, s.openingOf c b = .ok (t.opening b) := by
  cases c with
  | typename => exact .inl ⟨(Except.ok.inj h).symm, fun _ => rfl⟩
  | field f =>
    rw [openingOf] at h
    cases ht : s.returnType f with
    | error e => simp [ht, Except.map] at h
    | ok t =>
      rw [ht] at h
      refine .inr ⟨t, (Except.ok.inj h).symm, fun b => ?_⟩
      rw [openingOf, ht]
      rfl

theorem openingOf_within (h : s.openingOf c a = .ok o) (hne : o ≠ .truncated) :
    s.openingOf c (.levels n) = .ok (o.within n) := by
  obtain ⟨rfl, hopens⟩ | ⟨t, rfl, hopens⟩ := openingOf_cases h
  · rw [hopens, Opening.within]
  · rw [hopens, opening_levels fun htruncated => absurd htruncated hne]

theorem openingOf_levels (h : s.openingOf c (.levels k) = .ok o) (hle : n ≤ k) :
    s.openingOf c (.levels n) = .ok (o.within n) := by
  obtain ⟨rfl, hopens⟩ | ⟨t, rfl, hopens⟩ := openingOf_cases h
  · rw [hopens, Opening.within]
  · rw [hopens, opening_levels fun htruncated => opening_levels_truncated htruncated hle]

/-- A field opens with one level fewer left. -/
theorem levels_of_opens {children : List Child} {rest : Allowance}
    (h : s.openingOf c (.levels k) = .ok (.opens children rest)) :
    ∃ j, k = j + 1 ∧ rest = .levels j := by
  obtain ⟨f, t, -, -, ho⟩ := openingOf_opens h
  have hspend := (spend?_of_opens ho).2
  cases k with
  | zero => contradiction
  | succ j => exact ⟨j, rfl, (Option.some.inj hspend).symm⟩

/-- A type opens only to something. -/
theorem opens_ne_nil {children : List Child} {rest : Allowance}
    (h : s.openingOf c a = .ok (.opens children rest)) : children ≠ [] := by
  obtain ⟨f, t, -, -, ho⟩ := openingOf_opens h
  unfold NamedType.opening at ho
  split at ho
  · split at ho
    · contradiction
    · contradiction
    · next hne =>
      obtain ⟨rfl, -⟩ := Opening.opens.inj ho
      exact hne
  · contradiction

end Schema

namespace Synthesis

variable {s : Schema} {config : Config} {st st' : State} {ps : List Pending}
  {ts : List SelectionTree} {n k : Nat}

def Config.withMaxDepth (config : Config) (maxDepth : Option Nat) : Config :=
  { config with maxDepth }

/-- A field to visit with so many levels to open. -/
def Pending.within (n : Nat) (p : Pending) : Pending :=
  { p with allowance := .levels n }

theorem ofOpening_within (n : Nat) (o : Schema.Opening) :
    Pending.ofOpening (o.within (n + 1)) = (Pending.ofOpening o).map (Pending.within n) := by
  cases o with
  | leaf | truncated => rfl
  | opens children rest =>
    rw [Schema.Opening.within, Pending.ofOpening, Pending.ofOpening, List.map_map]
    rfl

/-- Where no field is cut short, the same is traversed with levels that are enough for the trees. -/
theorem Traverses.within (h : Traverses s config st ps st' ts)
    (hfull : SelectionTree.areFull ts = true) (hdepth : SelectionTree.depthAll ts ≤ n + 1)
    (maxDepth : Option Nat) :
    Traverses s (config.withMaxDepth maxDepth) st (ps.map (Pending.within n)) st' ts := by
  induction h generalizing n with
  | nil => exact .nil
  | @cons st stBelow st' p ps o ts us opens below behind ihBelow ihBehind =>
    rw [SelectionTree.areFull, Bool.and_eq_true] at hfull
    rw [SelectionTree.depthAll, Nat.max_le] at hdepth
    have hbehind := ihBehind hfull.2 hdepth.2
    cases o with
    | truncated => exact absurd hfull.1 Bool.false_ne_true
    | leaf =>
      obtain ⟨⟩ := below
      have hopens : s.openingOf p.child (.levels n) = .ok .leaf := by
        rw [Schema.openingOf_within opens (by simp), Schema.Opening.within]
      exact .cons (p := p.within n) hopens .nil hbehind
    | opens children rest =>
      have htree : ((st.visitOf config p (.opens children rest)).tree ts).depth =
          1 + SelectionTree.depthAll ts := rfl
      have hchildren : ts ≠ [] := by
        rw [← List.length_pos_iff, below.length_eq, Pending.ofOpening, List.length_map,
          List.length_pos_iff]
        exact Schema.opens_ne_nil opens
      have hpos : 0 < SelectionTree.depthAll ts := SelectionTree.depthAll_pos hchildren
      -- There is something below the field, so at least one level is left for it.
      obtain ⟨n, rfl⟩ : ∃ m, n = m + 1 := ⟨n - 1, by omega⟩
      have hopens : s.openingOf p.child (.levels (n + 1)) = .ok (.opens children (.levels n)) := by
        rw [Schema.openingOf_within opens (by simp), Schema.Opening.within]
      have hbelow := ihBelow (n := n) hfull.1 (by omega)
      rw [← ofOpening_within] at hbelow
      exact .cons (p := p.within (n + 1)) (o := .opens children (.levels n)) hopens hbelow hbehind

/-- Two states have given out the same variables. -/
def State.SameVariables (st₁ st₂ : State) : Prop :=
  st₁.names = st₂.names ∧ st₁.definitions = st₂.definitions

theorem State.SameVariables.bindAll {st₁ st₂ : State} (h : st₁.SameVariables st₂)
    (ps : List Schema.Parameter) :
    (st₁.bindAll ps).1 = (st₂.bindAll ps).1 ∧
      (st₁.bindAll ps).2.SameVariables (st₂.bindAll ps).2 := by
  induction ps generalizing st₁ st₂ with
  | nil => exact ⟨rfl, h⟩
  | cons p ps ih =>
    have hfirst : (st₁.bind p).1 = (st₂.bind p).1 := by
      simp only [State.bind, h.1]
    have hnext : (st₁.bind p).2.SameVariables (st₂.bind p).2 := by
      simp only [State.SameVariables, State.bind, h.1, h.2, and_self]
    obtain ⟨hargs, hmore⟩ := ih hnext
    exact ⟨congrArg₂ List.cons hfirst hargs, hmore⟩

/-- With nothing but the arguments of the root bound, no variables are given out below it. -/
theorem Traverses.sameVariables (h : Traverses s config st ps st' ts)
    (hnested : config.nestedArguments = false) (hps : ∀ p ∈ ps, p.isRoot = false) :
    st.SameVariables st' := by
  induction h with
  | nil => exact ⟨rfl, rfl⟩
  | @cons st stBelow st' p ps o ts us opens below behind ihBelow ihBehind =>
    rw [List.forall_mem_cons] at hps
    have hnone : p.parameters config = [] := by
      rw [Pending.parameters, hps.1, hnested]
      rfl
    have hvisited : st.SameVariables (st.visited config p o) := by
      rw [State.visited, hnone]
      exact ⟨rfl, rfl⟩
    have hbelow := ihBelow fun p hp => isRoot_of_mem_ofOpening hp
    have hbehind := ihBehind hps.2
    exact ⟨hvisited.1.trans (hbelow.1.trans hbehind.1), hvisited.2.trans (hbelow.2.trans hbehind.2)⟩

section Cut

variable {same : Prop} {st₁ st₂ : State}

/-- Visits of a field bind the same arguments in any two states, and to the same variables in states
that have given out the same ones. -/
theorem agrees_visitOf (hsame : same → st₁.SameVariables st₂) (p : Pending)
    (o₁ o₂ : Schema.Opening) :
    SelectionTree.TreeHead.Agrees same (st₁.visitOf config p o₁).head
      (st₂.visitOf config p o₂).head := by
  have hnames : ((st₁.bindAll (p.parameters config)).1.map Argument.name) =
      (st₂.bindAll (p.parameters config)).1.map Argument.name :=
    (names_bindAll st₁ _).trans (names_bindAll st₂ _).symm
  have hunbound := congrArg (List.map fun name => (⟨name, .null⟩ : Argument)) hnames
  rw [List.map_map, List.map_map] at hunbound
  exact ⟨congrArg (TreeHead.mk p.child.name) hunbound, fun h =>
    congrArg (TreeHead.mk p.child.name) ((hsame h).bindAll (p.parameters config)).1⟩

/-- With fewer levels to open, trees are traversed that are cut below the last of them. They have
the same arguments, and if only those of the root are bound, also the same variables. -/
theorem Traverses.cut (h : Traverses s config st ps st' ts)
    (hps : ∀ p ∈ ps, p.allowance = .levels k) (hle : n ≤ k) (maxDepth : Option Nat)
    (hnested : same → config.nestedArguments = false) (hsame : same → st₂.SameVariables st) :
    ∃ st₂' us, Traverses s (config.withMaxDepth maxDepth) st₂ (ps.map (Pending.within n)) st₂' us ∧
      List.Forall₂ (SelectionTree.Agrees same) us (ts.map (SelectionTree.cutBelow n)) ∧
      (same → st₂'.SameVariables st') := by
  induction h generalizing k n st₂ with
  | nil => exact ⟨st₂, [], .nil, .nil, hsame⟩
  | @cons st stBelow st' p ps o ts us opens below behind ihBelow ihBehind =>
    rw [List.forall_mem_cons] at hps
    have hopens : s.openingOf p.child (.levels n) = .ok (o.within n) :=
      Schema.openingOf_levels (hps.1 ▸ opens) hle
    have hhead : SelectionTree.TreeHead.Agrees same (st₂.visitOf config p (o.within n)).head
        (st.visitOf config p o).head := agrees_visitOf hsame p (o.within n) o
    have hvisited (h : same) : (st₂.visited config p (o.within n)).SameVariables
        (st.visited config p o) := ((hsame h).bindAll (p.parameters config)).2
    have hfirst : ∃ stBelow₂ vs,
        Traverses s (config.withMaxDepth maxDepth) (st₂.visited config p (o.within n))
          (Pending.ofOpening (o.within n)) stBelow₂ vs ∧
        SelectionTree.Agrees same ((st₂.visitOf config p (o.within n)).tree vs)
          (((st.visitOf config p o).tree ts).cutBelow n) ∧
        (same → stBelow₂.SameVariables stBelow) := by
      cases o with
      | leaf =>
        obtain ⟨⟩ := below
        exact ⟨_, [], .nil, .leaf hhead, hvisited⟩
      | truncated =>
        obtain ⟨⟩ := below
        exact ⟨_, [], .nil, .truncated hhead, hvisited⟩
      | opens children rest =>
        obtain ⟨j, rfl, rfl⟩ := Schema.levels_of_opens (hps.1 ▸ opens)
        cases n with
        | zero =>
          refine ⟨_, [], .nil, .truncated hhead, fun h => ?_⟩
          have hbelow := below.sameVariables (hnested h) fun p hp => isRoot_of_mem_ofOpening hp
          exact ⟨(hvisited h).1.trans hbelow.1, (hvisited h).2.trans hbelow.2⟩
        | succ n =>
          have hallowance : ∀ q ∈ Pending.ofOpening (.opens children (.levels j)),
              q.allowance = .levels j := by
            rw [Pending.ofOpening, List.forall_mem_map]
            exact fun _ _ => rfl
          obtain ⟨stBelow₂, vs, hbelow, htrees, hend⟩ :=
            ihBelow hallowance (Nat.le_of_succ_le_succ hle) hvisited
          rw [← ofOpening_within] at hbelow
          rw [← SelectionTree.cutAllBelow_eq_map] at htrees
          exact ⟨stBelow₂, vs, hbelow, .node hhead htrees, hend⟩
    obtain ⟨stBelow₂, vs, hbelow, htree, hsameBelow⟩ := hfirst
    obtain ⟨st₂', ws, hbehind, htrees, hend⟩ := ihBehind hps.2 hle hsameBelow
    exact ⟨st₂', (st₂.visitOf config p (o.within n)).tree vs :: ws,
      .cons (p := p.within n) hopens hbelow hbehind, .cons htree htrees, hend⟩

end Cut

end Synthesis

namespace Schema

open Synthesis

variable {s : Schema} {config : Config} {name : String} {q : SynthesizedQuery} {m n : Nat}

/-- Where synthesis without a bound on the depth cuts no field short, it gives the same with any
bound that the depth of its tree is within, and with no other. -/
theorem synthesize_levels_iff (h : s.synthesize (config.withMaxDepth none) name = .ok q)
    (hfull : q.root.isFull = true) (n : Nat) :
    s.synthesize (config.withMaxDepth (some n)) name = .ok q ↔ q.root.depth ≤ max n 1 := by
  constructor
  · intro hbounded
    have hdepth := depth_le_of_synthesize hbounded
    simp only [Config.withMaxDepth, allowance, Allowance.size] at hdepth
    omega
  · intro hdepth
    obtain ⟨fields, f, st, hfields, hfind, hst, hq⟩ := synthesize_eq_ok_iff.mp h
    have hbounded := hst.within (n := max n 1 - 1) (by simpa [SelectionTree.areFull] using hfull)
      (by simp only [SelectionTree.depthAll]; omega) (some n)
    exact synthesize_eq_ok_iff.mpr ⟨fields, f, st, hfields, hfind, hbounded, hq⟩

/-- No type leads back to itself. -/
private def postSchema : Schema where
  query := some "Query"
  types := [
    ⟨"Query", none, .object [] [
      ⟨"post", "Query", .named "Post" true, [⟨"id", .named "ID" false, none⟩]⟩]⟩,
    ⟨"Post", none, .object [] [
      ⟨"author", "Post", .named "User" true, [⟨"id", .named "ID" false, none⟩]⟩,
      ⟨"tags", "Post", .list (.named "Tag" true) true,
        [⟨"first", .named "Int" true, some (.int 3)⟩]⟩]⟩,
    ⟨"User", none, .object [] [
      ⟨"name", "User", .named "ID" true, []⟩,
      ⟨"team", "User", .named "Team" true, [⟨"id", .named "ID" false, none⟩]⟩]⟩,
    ⟨"Team", none, .object [] [⟨"name", "Team", .named "ID" true, []⟩]⟩,
    ⟨"Tag", none, .union ["Team", "User"]⟩,
    ⟨"ID", none, .builtin .id⟩]

/-- All arguments are bound, and the bound is larger than it has to be. -/
theorem synthesize_levels_iff_post :
    ∃ q, postSchema.synthesize (Config.withMaxDepth ⟨true, none, some "Post", 4⟩ none) "post" =
        .ok q ∧
      q.root.isFull = true ∧
      q.definitions.map VariableDefinition.name = ["id", "id1", "id2", "first"] ∧
      postSchema.synthesize (Config.withMaxDepth ⟨true, none, some "Post", 4⟩ (some 7)) "post" =
        .ok q := by
  have hrun : (postSchema.synthesize (Config.withMaxDepth ⟨true, none, some "Post", 4⟩ none)
      "post").toOption.any (fun q => q.root.isFull && decide (q.root.depth ≤ 7) &&
        q.definitions.map VariableDefinition.name == ["id", "id1", "id2", "first"]) = true := by
    rw [Schema.synthesize_eq_byWalk]
    decide +kernel
  obtain ⟨q, hq, hrun⟩ := exists_of_toOption_any hrun
  simp only [Bool.and_eq_true, decide_eq_true_eq, beq_iff_eq] at hrun
  obtain ⟨⟨hfull, hdepth⟩, hnames⟩ := hrun
  exact ⟨q, hq, hfull, hnames, (synthesize_levels_iff hq hfull 7).mpr (by omega)⟩

end Schema

end QueryCraft
