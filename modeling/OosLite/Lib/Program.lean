import Mathlib.Data.List.Basic
import Mathlib.Logic.Basic

/-!
# Programs over a crashing machine

A program is a tree of primitive operations. Each operation answers with a result or an
error, and the machine may stop in the middle of any of them. `Returns` and `Crashes` are
the two ways a run can end; `Safe` is the weakest precondition for both at once, so one
proof over the text of a program covers its return values and every state a crash can leave.
-/

namespace Effect

/-- A program: a value, an error, or an operation and what follows each of its answers. -/
inductive Prog (Op : Type) (Res : Op → Type) (ε α : Type) where
  | pure (value : α)
  | throw (error : ε)
  | op (operation : Op) (next : Except ε (Res operation) → Prog Op Res ε α)

namespace Prog

variable {Op : Type} {Res : Op → Type} {ε α β : Type}

/-- Sequencing; an error ends the program. -/
def bind : Prog Op Res ε α → (α → Prog Op Res ε β) → Prog Op Res ε β
  | .pure a, f => f a
  | .throw e, _ => .throw e
  | .op o k, f => .op o fun r => (k r).bind f

instance : Monad (Prog Op Res ε) where
  pure := .pure
  bind := .bind

/-- An error of the program goes to the handler. -/
def handle : Prog Op Res ε α → (ε → Prog Op Res ε α) → Prog Op Res ε α
  | .pure a, _ => .pure a
  | .throw e, h => h e
  | .op o k, h => .op o fun r => (k r).handle h

instance : MonadExceptOf ε (Prog Op Res ε) where
  throw := .throw
  tryCatch := .handle

/-- Run one operation; its error is the program's. -/
def perform (o : Op) : Prog Op Res ε (Res o) :=
  .op o fun
    | .ok a => .pure a
    | .error e => .throw e

/-- Run one operation and look at its answer, whichever it is. -/
def attempt (o : Op) : Prog Op Res ε (Except ε (Res o)) := .op o .pure

/-- Run a program and look at its result, whichever it is. -/
def result (p : Prog Op Res ε α) : Prog Op Res ε (Except ε α) :=
  (p.bind fun a => .pure (.ok a)).handle fun e => .pure (.error e)

/-- Turn a value that may be an error into a program. -/
def ofExcept : Except ε α → Prog Op Res ε α
  | .ok a => .pure a
  | .error e => .throw e

/-- Run a program if a condition holds. -/
def when (c : Prop) [Decidable c] (p : Prog Op Res ε Unit) : Prog Op Res ε Unit :=
  if c then p else .pure ()

/-- Run a program for each element of a list, passing a value along. -/
def forEach {τ : Type} (step : β → τ → Prog Op Res ε β) : β → List τ → Prog Op Res ε β
  | b, [] => .pure b
  | b, x :: xs => (step b x).bind fun b => forEach step b xs

@[simp] theorem bind_pure_eq (a : α) (f : α → Prog Op Res ε β) :
    (Pure.pure a : Prog Op Res ε α) >>= f = f a := rfl

@[simp] theorem bind_throw_eq (e : ε) (f : α → Prog Op Res ε β) :
    (Prog.throw e : Prog Op Res ε α) >>= f = .throw e := rfl

theorem bind_assoc {γ : Type} (p : Prog Op Res ε α) (f : α → Prog Op Res ε β)
    (g : β → Prog Op Res ε γ) : (p >>= f) >>= g = p >>= fun a => f a >>= g := by
  induction p with
  | pure a => rfl
  | throw e => rfl
  | op o k ih => exact congrArg (Prog.op o) (funext fun r => ih r)

end Prog

/-- What the operations do: `step` is one that runs to its answer, `cut` one during which
the machine stops. -/
structure Machine (Op : Type) (Res : Op → Type) (ε σ : Type) where
  step : (o : Op) → σ → Except ε (Res o) → σ → Prop
  cut : Op → σ → σ → Prop

section Runs

variable {Op : Type} {Res : Op → Type} {ε α β σ : Type}

/-- Every operation can give some answer in every state. -/
def Machine.Total (M : Machine Op Res ε σ) : Prop := ∀ o s, ∃ r s', M.step o s r s'

/-- `N` can do no more than `M`. -/
structure Machine.Le (N M : Machine Op Res ε σ) : Prop where
  step : ∀ o s r s', N.step o s r s' → M.step o s r s'
  cut : ∀ o s s', N.cut o s s' → M.cut o s s'

/-- The run of a program to its end. -/
inductive Returns (M : Machine Op Res ε σ) : Prog Op Res ε α → σ → Except ε α → σ → Prop where
  | pure (a : α) (s : σ) : Returns M (.pure a) s (.ok a) s
  | throw (e : ε) (s : σ) : Returns M (.throw e) s (.error e) s
  | op {o : Op} {k : Except ε (Res o) → Prog Op Res ε α} {s r s' result last} :
      M.step o s r s' → Returns M (k r) s' result last → Returns M (.op o k) s result last

/-- The run of a program that the machine stops during one of its operations. -/
inductive Crashes (M : Machine Op Res ε σ) : Prog Op Res ε α → σ → σ → Prop where
  | here {o : Op} {k : Except ε (Res o) → Prog Op Res ε α} {s s'} :
      M.cut o s s' → Crashes M (.op o k) s s'
  | later {o : Op} {k : Except ε (Res o) → Prog Op Res ε α} {s r s' last} :
      M.step o s r s' → Crashes M (k r) s' last → Crashes M (.op o k) s last

/-- The weakest precondition: every end satisfies `Q` and every crash leaves `C`. -/
def Safe (M : Machine Op Res ε σ) (Q : Except ε α → σ → Prop) (C : σ → Prop) :
    Prog Op Res ε α → σ → Prop
  | .pure a, s => Q (.ok a) s
  | .throw e, s => Q (.error e) s
  | .op o k, s => (∀ s', M.cut o s s' → C s') ∧ ∀ r s', M.step o s r s' → Safe M Q C (k r) s'

variable {M N : Machine Op Res ε σ} {Q Q' : Except ε α → σ → Prop} {C C' : σ → Prop}

theorem Safe.returns {p : Prog Op Res ε α} {s : σ} (h : Safe M Q C p s) {r : Except ε α} {s' : σ}
    (run : Returns M p s r s') : Q r s' := by
  induction run with
  | pure => exact h
  | throw => exact h
  | op step _ ih => exact ih (h.2 _ _ step)

theorem Safe.crashes {p : Prog Op Res ε α} {s : σ} (h : Safe M Q C p s) {s' : σ}
    (run : Crashes M p s s') : C s' := by
  induction run with
  | here stop => exact h.1 _ stop
  | later step _ ih => exact ih (h.2 _ _ step)

/-- `Safe` says exactly what the two kinds of run say. -/
theorem safe_iff (p : Prog Op Res ε α) (s : σ) :
    Safe M Q C p s ↔
      (∀ r s', Returns M p s r s' → Q r s') ∧ ∀ s', Crashes M p s s' → C s' := by
  refine ⟨fun h => ⟨fun _ _ run => h.returns run, fun _ run => h.crashes run⟩, ?_⟩
  induction p generalizing s with
  | pure a => exact fun h => h.1 _ _ (.pure a s)
  | throw e => exact fun h => h.1 _ _ (.throw e s)
  | op o k ih =>
    rintro ⟨ends, stops⟩
    refine ⟨fun s' stop => stops s' (.here stop), fun r s' step => ih r s' ⟨?_, ?_⟩⟩
    · exact fun result last run => ends result last (.op step run)
    · exact fun last run => stops last (.later step run)

theorem Safe.mono {p : Prog Op Res ε α} {s : σ} (h : Safe M Q C p s)
    (hQ : ∀ r s', Q r s' → Q' r s') (hC : ∀ s', C s' → C' s') : Safe M Q' C' p s := by
  induction p generalizing s with
  | pure a => exact hQ _ _ h
  | throw e => exact hQ _ _ h
  | op o k ih => exact ⟨fun s' stop => hC _ (h.1 s' stop), fun r s' step => ih r (h.2 r s' step)⟩

/-- Where nothing is asked of a run, every run is fine. -/
theorem safe_trivial (p : Prog Op Res ε α) (s : σ) :
    Safe M (fun _ _ => True) (fun _ => True) p s := by
  induction p generalizing s with
  | pure a => trivial
  | throw e => trivial
  | op o k ih => exact ⟨fun _ _ => trivial, fun r s' _ => ih r s'⟩

/-- Two specifications of one program hold together. -/
theorem Safe.and {p : Prog Op Res ε α} {s : σ} (h : Safe M Q C p s) (h' : Safe M Q' C' p s) :
    Safe M (fun r s => Q r s ∧ Q' r s) (fun s => C s ∧ C' s) p s := by
  induction p generalizing s with
  | pure a => exact ⟨h, h'⟩
  | throw e => exact ⟨h, h'⟩
  | op o k ih =>
    exact ⟨fun s' stop => ⟨h.1 s' stop, h'.1 s' stop⟩,
      fun r s' step => ih r (h.2 r s' step) (h'.2 r s' step)⟩

theorem Returns.mono {p : Prog Op Res ε α} {s : σ} {r : Except ε α} {s' : σ}
    (run : Returns N p s r s') (le : N.Le M) : Returns M p s r s' := by
  induction run with
  | pure a s => exact .pure a s
  | throw e s => exact .throw e s
  | op step _ ih => exact .op (le.step _ _ _ _ step) ih

theorem Crashes.mono {p : Prog Op Res ε α} {s s' : σ} (run : Crashes N p s s') (le : N.Le M) :
    Crashes M p s s' := by
  induction run with
  | here stop => exact .here (le.cut _ _ _ stop)
  | later step _ ih => exact .later (le.step _ _ _ _ step) ih

@[simp] theorem safe_pure (a : α) (s : σ) :
    Safe M Q C (Pure.pure a : Prog Op Res ε α) s ↔ Q (.ok a) s := Iff.rfl

@[simp] theorem safe_throw (e : ε) (s : σ) :
    Safe M Q C (Prog.throw e : Prog Op Res ε α) s ↔ Q (.error e) s := Iff.rfl

@[simp] theorem safe_throw' (e : ε) (s : σ) :
    Safe M Q C (MonadExcept.throw e : Prog Op Res ε α) s ↔ Q (.error e) s := Iff.rfl

/-- What must hold after the first half of a sequence. -/
def thenSafe (M : Machine Op Res ε σ) (Q : Except ε β → σ → Prop) (C : σ → Prop)
    (f : α → Prog Op Res ε β) : Except ε α → σ → Prop
  | .ok a, s => Safe M Q C (f a) s
  | .error e, s => Q (.error e) s

@[simp] theorem thenSafe_ok {Q : Except ε β → σ → Prop} (f : α → Prog Op Res ε β) (a : α) (s : σ) :
    thenSafe M Q C f (.ok a) s ↔ Safe M Q C (f a) s := Iff.rfl

@[simp] theorem thenSafe_error {Q : Except ε β → σ → Prop} (f : α → Prog Op Res ε β) (e : ε)
    (s : σ) : thenSafe M Q C f (.error e) s ↔ Q (.error e) s := Iff.rfl

theorem safe_bind {Q : Except ε β → σ → Prop} (p : Prog Op Res ε α) (f : α → Prog Op Res ε β)
    (s : σ) : Safe M Q C (p >>= f) s ↔ Safe M (thenSafe M Q C f) C p s := by
  induction p generalizing s with
  | pure a => rfl
  | throw e => rfl
  | op o k ih =>
    exact and_congr Iff.rfl (forall_congr' fun r => forall_congr' fun s' =>
      imp_congr_right fun _ => ih r s')

/-- The sequencing rule: specify the first half, then continue from each of its results. -/
theorem Safe.bind {Q : Except ε β → σ → Prop} {p : Prog Op Res ε α} {f : α → Prog Op Res ε β}
    {s : σ} {P : Except ε α → σ → Prop} (h : Safe M P C p s)
    (ok : ∀ a s', P (.ok a) s' → Safe M Q C (f a) s')
    (err : ∀ e s', P (.error e) s' → Q (.error e) s') : Safe M Q C (p >>= f) s := by
  rw [safe_bind]
  refine h.mono (fun r s' hr => ?_) fun _ hs => hs
  cases r with
  | ok a => exact ok a s' hr
  | error e => exact err e s' hr

theorem safe_perform (o : Op) (s : σ) {Q : Except ε (Res o) → σ → Prop} :
    Safe M Q C (Prog.perform o) s ↔
      (∀ s', M.cut o s s' → C s') ∧ ∀ r s', M.step o s r s' → Q r s' := by
  refine and_congr Iff.rfl (forall_congr' fun r => forall_congr' fun s' =>
    imp_congr_right fun _ => ?_)
  cases r <;> rfl

theorem safe_attempt (o : Op) (s : σ) {Q : Except ε (Except ε (Res o)) → σ → Prop} :
    Safe M Q C (Prog.attempt o) s ↔
      (∀ s', M.cut o s s' → C s') ∧ ∀ r s', M.step o s r s' → Q (.ok r) s' := Iff.rfl

@[simp] theorem safe_ofExcept (r : Except ε α) (s : σ) :
    Safe M Q C (Prog.ofExcept r) s ↔ Q r s := by cases r <;> rfl

theorem safe_when {c : Prop} [Decidable c] {p : Prog Op Res ε Unit} {s : σ}
    {Q : Except ε Unit → σ → Prop} (yes : c → Safe M Q C p s) (no : ¬c → Q (.ok ()) s) :
    Safe M Q C (Prog.when c p) s := by
  by_cases h : c
  · rw [Prog.when, if_pos h]
    exact yes h
  · rw [Prog.when, if_neg h]
    exact no h

/-- The loop rule: `I` holds between the elements, of those done and those to come. -/
theorem safe_forEach {τ : Type} {step : β → τ → Prog Op Res ε β} {Q : Except ε β → σ → Prop}
    (I : List τ → List τ → β → σ → Prop) {b : β} {xs : List τ} {s : σ} (init : I [] xs b s)
    (body : ∀ done x rest b s, done ++ x :: rest = xs → I done (x :: rest) b s →
      Safe M (fun r s => match r with
        | .ok b => I (done ++ [x]) rest b s
        | .error e => Q (.error e) s) C (step b x) s)
    (finish : ∀ b s, I xs [] b s → Q (.ok b) s) : Safe M Q C (Prog.forEach step b xs) s := by
  suffices all : ∀ done rest b s, done ++ rest = xs → I done rest b s →
      Safe M Q C (Prog.forEach step b rest) s from all [] xs b s rfl init
  intro done rest
  induction rest generalizing done with
  | nil =>
    rintro b s rfl inv
    rw [List.append_nil] at finish
    exact finish b s inv
  | cons x rest ih =>
    intro b s split inv
    refine Safe.bind (body done x rest b s split inv) ?_ fun _ _ h => h
    intro b' s' inv'
    exact ih (done ++ [x]) b' s' (by simpa using split) inv'

theorem returns_perform {o : Op} {s s' : σ} {r : Except ε (Res o)} :
    Returns M (Prog.perform o) s r s' ↔ M.step o s r s' := by
  constructor
  · intro run
    cases run with
    | @op _ _ _ r₀ _ _ _ step rest =>
      cases r₀ with
      | ok a =>
        cases rest
        exact step
      | error e =>
        cases rest
        exact step
  · intro step
    refine .op step ?_
    cases r with
    | ok a => exact .pure a s'
    | error e => exact .throw e s'

/-- On a machine whose operations always answer, a program always has a run to its end. -/
theorem Machine.Total.returns (total : M.Total) (p : Prog Op Res ε α) (s : σ) :
    ∃ r s', Returns M p s r s' := by
  induction p generalizing s with
  | pure a => exact ⟨_, _, .pure a s⟩
  | throw e => exact ⟨_, _, .throw e s⟩
  | op o k ih =>
    obtain ⟨r, s', step⟩ := total o s
    obtain ⟨result, last, run⟩ := ih r s'
    exact ⟨result, last, .op step run⟩

theorem returns_bind {p : Prog Op Res ε α} {f : α → Prog Op Res ε β} {s : σ} {r : Except ε β}
    {s' : σ} : Returns M (p >>= f) s r s' ↔
      (∃ a m, Returns M p s (.ok a) m ∧ Returns M (f a) m r s') ∨
      ∃ e, Returns M p s (.error e) s' ∧ r = .error e := by
  induction p generalizing s with
  | pure a =>
    constructor
    · exact fun run => .inl ⟨a, _, .pure a _, run⟩
    · rintro (⟨_, _, first, rest⟩ | ⟨_, first, -⟩)
      · cases first; exact rest
      · cases first
  | throw e =>
    constructor
    · intro run; cases run; exact .inr ⟨e, .throw e _, rfl⟩
    · rintro (⟨_, _, first, -⟩ | ⟨_, first, rfl⟩)
      · cases first
      · cases first; exact .throw e _
  | op o k ih =>
    constructor
    · intro run
      cases run with
      | op step run =>
        rcases (ih _).1 run with ⟨a, m, first, rest⟩ | ⟨e, first, rfl⟩
        · exact .inl ⟨a, m, .op step first, rest⟩
        · exact .inr ⟨e, .op step first, rfl⟩
    · rintro (⟨a, m, first, rest⟩ | ⟨e, first, rfl⟩)
      · cases first with
        | op step first => exact .op step ((ih _).2 (.inl ⟨a, m, first, rest⟩))
      · cases first with
        | op step first => exact .op step ((ih _).2 (.inr ⟨e, first, rfl⟩))

/-- A program ends, and however it ends `Q` holds. -/
structure Ends (M : Machine Op Res ε σ) (p : Prog Op Res ε α) (s : σ)
    (Q : Except ε α → σ → Prop) : Prop where
  some : ∃ r s', Returns M p s r s'
  all : ∀ r s', Returns M p s r s' → Q r s'

theorem Safe.ends {p : Prog Op Res ε α} {s : σ} (total : M.Total) (h : Safe M Q C p s) :
    Ends M p s Q :=
  ⟨total.returns p s, fun _ _ run => h.returns run⟩

theorem Ends.mono {p : Prog Op Res ε α} {s : σ} (h : Ends M p s Q) (le : ∀ r s', Q r s' → Q' r s') :
    Ends M p s Q' :=
  ⟨h.some, fun r s' run => le r s' (h.all r s' run)⟩

/-! ### Invariants -/

/-- A program that keeps `I` until it ends; where it is stopped, `C` holds. -/
def Upholds (M : Machine Op Res ε σ) (I C : σ → Prop) (p : Prog Op Res ε α) : Prop :=
  ∀ s, I s → Safe M (fun _ t => I t) C p s

namespace Upholds

variable {I : σ → Prop}

theorem pure (a : α) : Upholds M I C (Pure.pure a : Prog Op Res ε α) := fun _ h => h

theorem throw (e : ε) : Upholds M I C (Prog.throw e : Prog Op Res ε α) := fun _ h => h

theorem ofExcept (r : Except ε α) : Upholds M I C (Prog.ofExcept r : Prog Op Res ε α) :=
  fun s h => (safe_ofExcept r s).2 h

theorem bind {p : Prog Op Res ε α} {f : α → Prog Op Res ε β} (hp : Upholds M I C p)
    (hf : ∀ a, Upholds M I C (f a)) : Upholds M I C (p >>= f) :=
  fun s h => (hp s h).bind (fun a t ht => hf a t ht) fun _ _ ht => ht

theorem «when» {c : Prop} [Decidable c] {p : Prog Op Res ε Unit} (hp : Upholds M I C p) :
    Upholds M I C (Prog.when c p) :=
  fun s h => safe_when (fun _ => hp s h) fun _ => h

theorem forEach {τ : Type} {step : β → τ → Prog Op Res ε β} {xs : List τ}
    (body : ∀ b, ∀ x ∈ xs, Upholds M I C (step b x)) (b : β) :
    Upholds M I C (Prog.forEach step b xs) := by
  intro s h
  refine safe_forEach (fun _ _ _ t => I t) h (fun done x rest b t split ht => ?_) fun _ _ ht => ht
  refine (body b x (by rw [← split]; simp) t ht).mono (fun r u hu => ?_) fun _ hu => hu
  cases r <;> exact hu

end Upholds

/-- A program that keeps an invariant, whether it ends or is stopped. -/
def Maintains (M : Machine Op Res ε σ) (I : σ → Prop) (p : Prog Op Res ε α) : Prop :=
  ∀ s, I s → Safe M (fun _ t => I t) I p s

namespace Maintains

variable {I : σ → Prop}

theorem pure (a : α) : Maintains M I (Pure.pure a : Prog Op Res ε α) := Upholds.pure a

theorem throw (e : ε) : Maintains M I (Prog.throw e : Prog Op Res ε α) := Upholds.throw e

theorem ofExcept (r : Except ε α) : Maintains M I (Prog.ofExcept r : Prog Op Res ε α) :=
  Upholds.ofExcept r

theorem bind {p : Prog Op Res ε α} {f : α → Prog Op Res ε β} (hp : Maintains M I p)
    (hf : ∀ a, Maintains M I (f a)) : Maintains M I (p >>= f) := Upholds.bind hp hf

theorem «when» {c : Prop} [Decidable c] {p : Prog Op Res ε Unit} (hp : Maintains M I p) :
    Maintains M I (Prog.when c p) := Upholds.when hp

theorem forEach {τ : Type} {step : β → τ → Prog Op Res ε β} {xs : List τ}
    (body : ∀ b, ∀ x ∈ xs, Maintains M I (step b x)) (b : β) :
    Maintains M I (Prog.forEach step b xs) := Upholds.forEach body b

end Maintains

end Runs

/-! ## Histories

A machine that also notes down what it does runs every program as before, and what it has noted
only grows. -/

section Histories

variable {Op : Type} {Res : Op → Type} {ε α σ η : Type}

/-- The machine with a history, to which every operation that ends adds a note. -/
def Machine.noting (M : Machine Op Res ε σ) (note : (o : Op) → Except ε (Res o) → List η) :
    Machine Op Res ε (σ × List η) where
  step o u r v := M.step o u.1 r v.1 ∧ v.2 = u.2 ++ note o r
  cut o u v := M.cut o u.1 v.1 ∧ v.2 = u.2

variable {M : Machine Op Res ε σ} {note : (o : Op) → Except ε (Res o) → List η}

/-- Every run has a history. -/
theorem Returns.noted {p : Prog Op Res ε α} {s t : σ} {r : Except ε α} (run : Returns M p s r t)
    (history : List η) :
    ∃ history', Returns (M.noting note) p (s, history) r (t, history') := by
  induction run generalizing history with
  | pure a s => exact ⟨history, .pure a _⟩
  | throw e s => exact ⟨history, .throw e _⟩
  | @op o _ _ r _ _ _ step _ ih =>
    obtain ⟨history', run⟩ := ih (history ++ note o r)
    exact ⟨history', .op ⟨step, rfl⟩ run⟩

/-- What holds without the history holds with it. -/
theorem Safe.noting {Q : Except ε α → σ → Prop} {C : σ → Prop} {p : Prog Op Res ε α}
    {u : σ × List η} (h : Safe M Q C p u.1) :
    Safe (M.noting note) (fun r v => Q r v.1) (fun v => C v.1) p u := by
  induction p generalizing u with
  | pure a => exact h
  | throw e => exact h
  | op o k ih => exact ⟨fun v stop => h.1 v.1 stop.1, fun r v step => ih r (h.2 r v.1 step.1)⟩

theorem safe_noting_history (p : Prog Op Res ε α) (u : σ × List η) :
    Safe (M.noting note) (fun _ v => u.2 <+: v.2) (fun v => u.2 <+: v.2) p u := by
  induction p generalizing u with
  | pure a => exact List.prefix_rfl
  | throw e => exact List.prefix_rfl
  | op o k ih =>
    refine ⟨fun v stop => stop.2 ▸ List.prefix_rfl, fun r v step => ?_⟩
    have grown : u.2 <+: v.2 := step.2 ▸ List.prefix_append _ _
    exact (ih r v).mono (fun _ _ more => grown.trans more) fun _ more => grown.trans more

/-- The rule of one operation, from its rule without the history. -/
theorem safe_noting_perform {o : Op} {Q : Except ε (Res o) → σ × List η → Prop}
    {C : σ × List η → Prop} {u : σ × List η} :
    Safe (M.noting note) Q C (Prog.perform o) u ↔
      Safe M (fun r t => Q r (t, u.2 ++ note o r)) (fun t => C (t, u.2)) (Prog.perform o) u.1 := by
  rw [safe_perform, safe_perform]
  constructor
  · rintro ⟨stops, ends⟩
    exact ⟨fun t stop => stops (t, u.2) ⟨stop, rfl⟩, fun r t step => ends r (t, _) ⟨step, rfl⟩⟩
  · rintro ⟨stops, ends⟩
    constructor
    · rintro ⟨t, _⟩ ⟨stop, rfl⟩
      exact stops t stop
    · rintro r ⟨t, _⟩ ⟨step, rfl⟩
      exact ends r t step

end Histories

/-! ## Programs of a part, run by the whole

A machine whose state holds the state of a smaller one runs the smaller one's programs, and
what they do not see stays as it is. -/

section Parts

variable {Op Op' : Type} {Res : Op → Type} {Res' : Op' → Type} {ε α σ σ' : Type}

/-- The same program over a larger set of operations. -/
def Prog.lift (f : Op → Op') (g : ∀ o, Res' (f o) → Res o) :
    Prog Op Res ε α → Prog Op' Res' ε α
  | .pure a => .pure a
  | .throw e => .throw e
  | .op o k => .op (f o) fun r => (k (r.map (g o))).lift f g

/-- `M` is the part of `M'` that `get` reads and `set` writes, through the operations `f`. -/
structure Part (M : Machine Op Res ε σ) (M' : Machine Op' Res' ε σ') (f : Op → Op')
    (g : ∀ o, Res' (f o) → Res o) (get : σ' → σ) (set : σ' → σ → σ') : Prop where
  get_set : ∀ s a, get (set s a) = a
  set_set : ∀ s a b, set (set s a) b = set s b
  step : ∀ o s r s', M'.step (f o) s r s' →
    ∃ a, M.step o (get s) (r.map (g o)) a ∧ s' = set s a
  cut : ∀ o s s', M'.cut (f o) s s' → ∃ a, M.cut o (get s) a ∧ s' = set s a

theorem Part.safe_lift {M : Machine Op Res ε σ} {M' : Machine Op' Res' ε σ'} {f : Op → Op'}
    {g : ∀ o, Res' (f o) → Res o} {get : σ' → σ} {set : σ' → σ → σ'}
    (part : Part M M' f g get set) {Q : Except ε α → σ' → Prop} {C : σ' → Prop}
    (p : Prog Op Res ε α) (s : σ') (same : set s (get s) = s)
    (h : Safe M (fun r a => Q r (set s a)) (fun a => C (set s a)) p (get s)) :
    Safe M' Q C (p.lift f g) s := by
  suffices all : ∀ a, Safe M (fun r a => Q r (set s a)) (fun a => C (set s a)) p a →
      Safe M' Q C (p.lift f g) (set s a) by
    simpa only [same] using all (get s) h
  intro a ha
  clear h
  induction p generalizing a with
  | pure v => exact ha
  | throw e => exact ha
  | op o k ih =>
    refine ⟨fun t stop => ?_, fun r t step => ?_⟩
    · obtain ⟨b, inner, rfl⟩ := part.cut _ _ _ stop
      rw [part.get_set] at inner
      rw [part.set_set]
      exact ha.1 b inner
    · obtain ⟨b, inner, rfl⟩ := part.step _ _ _ _ step
      rw [part.get_set] at inner
      rw [part.set_set]
      exact ih _ b (ha.2 _ b inner)

end Parts

end Effect
