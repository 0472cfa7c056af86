import OosLite.Lib.Program

/-!
# Programs beside each other

Threads run programs over one machine, one operation at a time and in any order. What they agree on
is an invariant that all of them keep, and an order in which no operation leads back. A program
withstands the others if it keeps the agreement with each of its operations and ends as it should,
whatever the others do in between within the agreement.
-/

namespace Effect

/-- What threads agree on. -/
structure Agreement (σ : Type) where
  inv : σ → Prop
  le : σ → σ → Prop
  refl : ∀ s, le s s
  trans : ∀ s t u, le s t → le t u → le s u

section Threads

variable {Op : Type} {Res : Op → Type} {ε α β σ : Type}

/-- Before each operation, and before the program ends, others may have gone on. -/
def Withstands (M : Machine Op Res ε σ) (A : Agreement σ) (Q : Except ε α → σ → Prop) :
    Prog Op Res ε α → σ → Prop
  | .pure a, s => ∀ t, A.inv t → A.le s t → Q (.ok a) t
  | .throw e, s => ∀ t, A.inv t → A.le s t → Q (.error e) t
  | .op o k, s => ∀ t, A.inv t → A.le s t → ∀ r t', M.step o t r t' →
      A.inv t' ∧ A.le t t' ∧ Withstands M A Q (k r) t'

variable {M : Machine Op Res ε σ} {A : Agreement σ} {Q Q' : Except ε α → σ → Prop} {s t : σ}

/-- What a program withstands later. -/
theorem Withstands.later {p : Prog Op Res ε α} (h : Withstands M A Q p s) (le : A.le s t) :
    Withstands M A Q p t := by
  cases p with
  | pure a => exact fun u inv le' => h u inv (A.trans _ _ _ le le')
  | throw e => exact fun u inv le' => h u inv (A.trans _ _ _ le le')
  | op o k => exact fun u inv le' => h u inv (A.trans _ _ _ le le')

/-- It is enough to start from the states that others may leave. -/
theorem withstands_of_later {p : Prog Op Res ε α}
    (h : ∀ t, A.inv t → A.le s t → Withstands M A Q p t) : Withstands M A Q p s := by
  cases p with
  | pure a => exact fun t inv le => h t inv le t inv (A.refl t)
  | throw e => exact fun t inv le => h t inv le t inv (A.refl t)
  | op o k => exact fun t inv le => h t inv le t inv (A.refl t)

theorem Withstands.mono {p : Prog Op Res ε α} (h : Withstands M A Q p s)
    (le : ∀ r t, A.inv t → A.le s t → Q r t → Q' r t) : Withstands M A Q' p s := by
  induction p generalizing s with
  | pure a => exact fun t inv later => le _ t inv later (h t inv later)
  | throw e => exact fun t inv later => le _ t inv later (h t inv later)
  | op o k ih =>
    intro t inv later r t' step
    obtain ⟨inv', next, rest⟩ := h t inv later r t' step
    refine ⟨inv', next, ih r rest fun r' u inv'' later' => le r' u inv'' ?_⟩
    exact A.trans _ _ _ later (A.trans _ _ _ next later')

/-- What must hold after the first half of a sequence. -/
def thenWithstands (M : Machine Op Res ε σ) (A : Agreement σ) (Q : Except ε β → σ → Prop)
    (f : α → Prog Op Res ε β) : Except ε α → σ → Prop
  | .ok a, s => Withstands M A Q (f a) s
  | .error e, s => Q (.error e) s

@[simp] theorem thenWithstands_ok {Q : Except ε β → σ → Prop} (f : α → Prog Op Res ε β) (a : α) :
    thenWithstands M A Q f (.ok a) s ↔ Withstands M A Q (f a) s := Iff.rfl

@[simp] theorem thenWithstands_error {Q : Except ε β → σ → Prop} (f : α → Prog Op Res ε β) (e : ε) :
    thenWithstands M A Q f (.error e) s ↔ Q (.error e) s := Iff.rfl

theorem Withstands.bind {Q : Except ε β → σ → Prop} {p : Prog Op Res ε α} {f : α → Prog Op Res ε β}
    (h : Withstands M A (thenWithstands M A Q f) p s) : Withstands M A Q (p >>= f) s := by
  induction p generalizing s with
  | pure a => exact withstands_of_later h
  | throw e => exact h
  | op o k ih =>
    intro t inv later r t' step
    obtain ⟨inv', next, rest⟩ := h t inv later r t' step
    exact ⟨inv', next, ih r rest⟩

theorem withstands_pure {a : α} (h : ∀ t, A.inv t → A.le s t → Q (.ok a) t) :
    Withstands M A Q (Pure.pure a : Prog Op Res ε α) s := h

theorem withstands_throw {e : ε} (h : ∀ t, A.inv t → A.le s t → Q (.error e) t) :
    Withstands M A Q (Prog.throw e : Prog Op Res ε α) s := h

/-- One operation; what it gives must last. -/
theorem withstands_perform {o : Op} {Q : Except ε (Res o) → σ → Prop}
    (h : ∀ t, A.inv t → A.le s t → ∀ r t', M.step o t r t' →
      A.inv t' ∧ A.le t t' ∧ ∀ u, A.inv u → A.le t' u → Q r u) :
    Withstands M A Q (Prog.perform o) s := by
  intro t inv later r t' step
  obtain ⟨inv', next, rest⟩ := h t inv later r t' step
  refine ⟨inv', next, ?_⟩
  cases r with
  | ok a => exact rest
  | error e => exact rest

/-! ### Steps -/

/-- An operation of a thread. -/
theorem Withstands.step {o : Op} {k : Except ε (Res o) → Prog Op Res ε α}
    (h : Withstands M A Q (.op o k) s) (inv : A.inv s) {r : Except ε (Res o)} (step : M.step o s r t) :
    A.inv t ∧ A.le s t ∧ Withstands M A Q (k r) t :=
  h s inv (A.refl s) r t step

/-- The end of a thread. -/
theorem Withstands.returned {a : α} (h : Withstands M A Q (.pure a) s) (inv : A.inv s) : Q (.ok a) s :=
  h s inv (A.refl s)

theorem Withstands.failed {e : ε} (h : Withstands M A Q (.throw e) s) (inv : A.inv s) : Q (.error e) s :=
  h s inv (A.refl s)

/-- A thread that is alone. -/
theorem Withstands.returns {p : Prog Op Res ε α} (h : Withstands M A Q p s) (inv : A.inv s)
    {r : Except ε α} (run : Returns M p s r t) : Q r t := by
  induction run with
  | pure a s => exact h.returned inv
  | throw e s => exact h.failed inv
  | op step _ ih =>
    obtain ⟨inv', -, rest⟩ := h.step inv step
    exact ih rest inv'

end Threads

end Effect
