/-!
Computations that can fail: when they succeed, and with what.
-/

namespace QueryCraft

variable {ε ε' α α' β β' : Type} {x y : Except ε α}

theorem bind_eq_ok {f : α → Except ε β} {b : β} :
    x >>= f = .ok b ↔ ∃ a, x = .ok a ∧ f a = .ok b := by
  cases x <;> simp [bind, Except.bind]

theorem map_eq_ok {f : α → β} {b : β} : x.map f = .ok b ↔ ∃ a, x = .ok a ∧ f a = b := by
  cases x <;> simp [Except.map]

/-- Computations that succeed with the same values agree but for the errors. -/
theorem toOption_eq_of_ok_iff (h : ∀ a, x = .ok a ↔ y = .ok a) : x.toOption = y.toOption := by
  have htoOption (r : Except ε α) (a : α) : r.toOption = some a ↔ r = .ok a := by
    cases r <;> simp [Except.toOption]
  ext a
  rw [htoOption, htoOption, h]

theorem exists_of_toOption_any {p : α → Bool} (h : x.toOption.any p = true) :
    ∃ a, x = .ok a ∧ p a = true := by
  cases x with
  | error e => contradiction
  | ok a => exact ⟨a, rfl, h⟩

/-- What each step of a fold keeps, the whole fold keeps. -/
theorem foldlM_keeps {P : β → Prop} {f : β → α → Except ε β} {as : List α} {b c : β}
    (h : as.foldlM f b = .ok c) (hb : P b)
    (hstep : ∀ a ∈ as, ∀ b c, P b → f b a = .ok c → P c) : P c := by
  induction as generalizing b with
  | nil =>
    obtain rfl := Except.ok.inj h
    exact hb
  | cons a as ih =>
    rw [List.forall_mem_cons] at hstep
    rw [List.foldlM_cons, bind_eq_ok] at h
    obtain ⟨b', hfirst, hrest⟩ := h
    exact ih hrest (hstep.1 b b' hb hfirst) hstep.2

/-- The same outcome with its value and its error in other words. -/
def translate (f : α → α') (g : ε → ε') : Except ε α → Except ε' α'
  | .ok a => .ok (f a)
  | .error e => .error (g e)

theorem translate_id_eq_ok {g : ε → ε'} {a : α} : translate id g x = .ok a ↔ x = .ok a := by
  cases x <;> simp [translate]

theorem translate_bind {f : α → α'} {f' : β → β'} {g : ε → ε'} {k : α → Except ε β}
    (k' : α' → Except ε' β') (h : ∀ a, translate f' g (k a) = k' (f a)) :
    translate f' g (x >>= k) = translate f g x >>= k' := by
  cases x with
  | ok a => exact h a
  | error e => rfl

theorem translate_map {g : ε → ε'} (k : α → β) :
    translate id g (x.map k) = (translate id g x).map k := by
  cases x <;> rfl

/-- A fold whose steps can be put in other words can be put in these words as a whole. -/
theorem translate_foldlM {f : β → β'} {g : ε → ε'} {h : α → α'} {step : β → α → Except ε β}
    {step' : β' → α' → Except ε' β'} {as : List α}
    (hstep : ∀ a ∈ as, ∀ b, translate f g (step b a) = step' (f b) (h a)) (b : β) :
    translate f g (as.foldlM step b) = (as.map h).foldlM step' (f b) := by
  induction as generalizing b with
  | nil => rfl
  | cons a as ih =>
    rw [List.forall_mem_cons] at hstep
    rw [List.foldlM_cons, List.map_cons, List.foldlM_cons,
      translate_bind (fun c => (as.map h).foldlM step' c) (ih hstep.2), hstep.1]

end QueryCraft
