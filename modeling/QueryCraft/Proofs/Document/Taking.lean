import QueryCraft.Document.Reading
import QueryCraft.Proofs.Document.Conditions
import QueryCraft.Proofs.Value.Taking

/-!
What the parsers of arguments, directives and variable definitions take from the front of the
tokens, one by one, and what they make of it.
-/

namespace QueryCraft

namespace TypeRef

theorem takes_bang (type : Bool → TypeRef) (steps : Nat) :
    Takes false 0 (fun t => ∃ nullable, t = type nullable) (fun _ => parseBang type) steps := by
  intro ts t rest h
  simp only [parseBang.eq_def] at h
  split at h
  · obtain ⟨rfl, rfl⟩ := Prod.mk.inj (Option.some.inj h)
    exact (Took.single .bang).bound.imp (fun _ => ⟨false, rfl⟩) fun _ _ _ => rfl
  · next hbang =>
    obtain ⟨rfl, rfl⟩ := Prod.mk.inj (Option.some.inj h)
    refine .nothing ⟨true, rfl⟩ fun _ others hne => ?_
    show parseBang type (ts ++ others) = some (type true, ts ++ others)
    rw [parseBang]
    exact append_ne_cons hne hbang others

theorem takes (steps : Nat) :
    Takes false 0 (fun t => t.isPrintable = true) TypeRef.parse steps := by
  induction steps using Nat.strongRecOn with
  | ind steps ih =>
    intro ts t rest h
    unfold TypeRef.parse at h
    split at h
    · next name ts =>
      have hbang := takes_bang (.named name) steps _ _ _ h
      refine (hbang.token (.name name)).imp ?_ fun more others hagain => ?_
      · rintro ⟨hname, nullable, rfl⟩
        exact hname
      · rwa [List.cons_append, TypeRef.parse]
    · next n ts =>
      split at h
      · next inner behind hparse =>
        have hinner := ih n (by omega) _ _ _ hparse
        have hbang := takes_bang (.list inner) n _ _ _ h
        refine ((hinner.andThen (hbang.token .bracketR)).token .bracketL).later.imp ?_ ?_
        · rintro ⟨-, hprintable, -, nullable, rfl⟩
          exact hprintable
        · rintro _ others ⟨more, rfl, -, hagain, hagain'⟩
          rw [List.cons_append, TypeRef.parse, hagain]
          exact hagain'
      · contradiction
    · contradiction

end TypeRef

/-- An argument of a name and a value that are made of names. -/
structure Argument.Formed (constant : Bool) (a : Argument) : Prop where
  name : Text.isName a.name = true
  value : a.value.Formed constant

structure Directive.Formed (constant : Bool) (d : Directive) : Prop where
  name : Text.isName d.name = true
  arguments : ∀ a ∈ d.arguments, a.Formed constant

namespace Argument

theorem takes_list (constant : Bool) (steps : Nat) :
    Takes true 1 (fun as => ∀ a ∈ as, a.Formed constant) (parseList constant) steps := by
  induction steps using Nat.strongRecOn with
  | ind steps ih =>
    intro ts as rest h
    unfold parseList at h
    split at h
    · next n name ts =>
      split at h
      · contradiction
      · next value behind hparse =>
        obtain ⟨rfl, rfl⟩ := Prod.mk.inj (Option.some.inj h)
        have hvalue := (Value.takes constant n).1 _ _ _ hparse
        have htook := hvalue.andThen (.single .parenR)
        refine ((htook.token .colon).token (.name name)).later.imp ?_ ?_
        · rintro ⟨hname, -, hformed, -⟩
          exact List.forall_mem_singleton.mpr ⟨hname, hformed⟩
        · rintro _ others ⟨more, rfl, -, hagain, -⟩
          simp only [List.cons_append, parseList] at hagain ⊢
          rw [hagain]
      · next value behind hclose hparse =>
        split at h
        · contradiction
        · next as behind' hparses =>
          obtain ⟨rfl, rfl⟩ := Prod.mk.inj (Option.some.inj h)
          have hvalue := (Value.takes constant n).1 _ _ _ hparse
          have has := ih n (by omega) _ _ _ hparses
          refine (((hvalue.andThen has).token .colon).token (.name name)).later.imp ?_ ?_
          · rintro ⟨hname, -, hformed, hformeds⟩
            exact List.forall_mem_cons.mpr ⟨⟨hname, hformed⟩, hformeds⟩
          · rintro _ others ⟨more, rfl, hne, hagain, hagains⟩
            -- No parenthesis stands behind the value, and more tokens do not change that.
            have hopen := append_ne_cons hne hclose others
            simp only [List.cons_append, parseList, hagain, hagains]
    · contradiction

theorem takes_group (constant : Bool) (steps : Nat) :
    Takes false 0 (fun as => ∀ a ∈ as, a.Formed constant) (parseGroup constant) steps := by
  intro ts as rest h
  unfold parseGroup at h
  split at h
  · have has := takes_list constant steps _ _ _ h
    exact (has.token .parenL).bound.imp And.right fun _ _ hagain => hagain
  · next hopen =>
    obtain ⟨rfl, rfl⟩ := Prod.mk.inj (Option.some.inj h)
    refine .nothing nofun fun more others hne => ?_
    rw [parseGroup]
    exact append_ne_cons hne hopen others

end Argument

theorem Directive.takes_list (constant : Bool) (steps : Nat) :
    Takes false 0 (fun ds => ∀ d ∈ ds, d.Formed constant) (parseList constant) steps := by
  induction steps using Nat.strongRecOn with
  | ind steps ih =>
    intro ts ds rest h
    unfold parseList at h
    split at h
    · next n name ts =>
      split at h
      · contradiction
      · next arguments behind hparse =>
        split at h
        · contradiction
        · next ds behind' hparses =>
          obtain ⟨rfl, rfl⟩ := Prod.mk.inj (Option.some.inj h)
          have harguments := Argument.takes_group constant n _ _ _ hparse
          have hds := ih n (by omega) _ _ _ hparses
          refine (((harguments.andThen hds).token (.name name)).token .atSign).later.imp ?_ ?_
          · rintro ⟨-, hname, hformed, hformeds⟩
            exact List.forall_mem_cons.mpr ⟨⟨hname, hformed⟩, hformeds⟩
          · rintro _ others ⟨more, rfl, -, hagain, hagains⟩
            simp only [List.cons_append, parseList, hagain, hagains]
    · contradiction
    · next hat _ =>
      obtain ⟨rfl, rfl⟩ := Prod.mk.inj (Option.some.inj h)
      refine .nothing nofun fun more others hne => ?_
      have hnone := append_ne_cons hne hat others
      unfold parseList
      split
      · next heq => exact absurd heq (hnone _)
      · next heq => exact absurd heq (hnone _)
      · rfl

theorem Value.takes_default (steps : Nat) :
    Takes false 0 (fun d => ∀ v ∈ d, v.Formed true) parseDefault steps := by
  intro ts default rest h
  unfold parseDefault at h
  split at h
  · split at h
    · contradiction
    · next v behind hparse =>
      obtain ⟨rfl, rfl⟩ := Prod.mk.inj (Option.some.inj h)
      have hvalue := (takes true steps).1 _ _ _ hparse
      refine (hvalue.token .equals).bound.imp ?_ fun more others hagain => ?_
      · rintro ⟨-, hformed⟩
        simpa using hformed
      · simp only [List.cons_append, parseDefault, hagain]
  · next hequals =>
    obtain ⟨rfl, rfl⟩ := Prod.mk.inj (Option.some.inj h)
    refine .nothing nofun fun more others hne => ?_
    rw [parseDefault]
    exact append_ne_cons hne hequals others

structure VariableDefinition.Formed (d : VariableDefinition) : Prop where
  name : Text.isName d.name = true
  type : d.type.isPrintable = true
  default : ∀ v ∈ d.default, v.Formed true

namespace VariableDefinition

theorem takes_list (steps : Nat) : Takes true 1 (fun ds => ∀ d ∈ ds, d.Formed) parseList steps := by
  induction steps using Nat.strongRecOn with
  | ind steps ih =>
    intro ts ds rest h
    unfold parseList at h
    split at h
    · next n name ts =>
      split at h
      · contradiction
      · next type behind hparse =>
        have htype := TypeRef.takes n _ _ _ hparse
        split at h
        · contradiction
        · next default behind' hparse' =>
          obtain ⟨rfl, rfl⟩ := Prod.mk.inj (Option.some.inj h)
          have hdefault := Value.takes_default n _ _ _ hparse'
          have htook := htype.andThen (hdefault.andThen (.single .parenR))
          refine (((htook.token .colon).token (.name name)).token .dollar).later.imp ?_ ?_
          · rintro ⟨-, hname, -, hprintable, hformed, -⟩
            exact List.forall_mem_singleton.mpr ⟨hname, hprintable, hformed⟩
          · rintro _ others ⟨more, rfl, -, hagain, -, hagain', -⟩
            simp only [List.cons_append, parseList] at hagain' ⊢
            simp only [hagain, hagain']
        · next default behind' hclose hparse' =>
          split at h
          · contradiction
          · next ds behind'' hparses =>
            obtain ⟨rfl, rfl⟩ := Prod.mk.inj (Option.some.inj h)
            have hdefault := Value.takes_default n _ _ _ hparse'
            have hds := ih n (by omega) _ _ _ hparses
            have htook := htype.andThen (hdefault.andThen hds)
            refine (((htook.token .colon).token (.name name)).token .dollar).later.imp ?_ ?_
            · rintro ⟨-, hname, -, hprintable, hformed, hformeds⟩
              exact List.forall_mem_cons.mpr ⟨⟨hname, hprintable, hformed⟩, hformeds⟩
            · rintro _ others ⟨more, rfl, -, hagain, hne, hagain', hagains⟩
              have hopen := append_ne_cons hne hclose others
              simp only [List.cons_append, parseList, hagain, hagain', hagains]
    · contradiction

theorem takes_group (steps : Nat) :
    Takes false 0 (fun ds => ∀ d ∈ ds, d.Formed) parseGroup steps := by
  intro ts ds rest h
  unfold parseGroup at h
  split at h
  · have hds := takes_list steps _ _ _ h
    exact (hds.token .parenL).bound.imp And.right fun _ _ hagain => hagain
  · next hopen =>
    obtain ⟨rfl, rfl⟩ := Prod.mk.inj (Option.some.inj h)
    refine .nothing nofun fun more others hne => ?_
    rw [parseGroup]
    exact append_ne_cons hne hopen others

end VariableDefinition

end QueryCraft
