import OosLite.Lib.Process

/-!
# Running a program

One of the runs of a program, computed: what an outside question is answered with is given,
and a plan says which operations fail, and after how many the machine stops. Whatever it computes
is a run of the machine.
-/

namespace Effect.Proc

open Files

variable {π μ ι ε α : Type} [Ord π] [Std.TransOrd π] [DecidableEq π]

/-- What an operation answers and leaves when nothing goes wrong. -/
def perform (s : Fs π) : (o : FsOp π) → Except IoError o.Res × Fs π
  | .read p => ((s.file p).elim (.error .notFound) fun f => .ok f.data, s)
  | .exists p => (.ok (s.file p).isSome, s)
  | .list select => (.ok (s.listing select), s)
  | .create p =>
    (.ok (), (match s.file p with
      | some _ => s
      | none => s.put p ⟨[], []⟩).moveTo p 0)
  | .truncate p =>
    (.ok (), (match s.file p with
      | some f => s.put p { f with data := [] }
      | none => s.put p ⟨[], []⟩).moveTo p 0)
  | .seek p pos => (.ok (), s.moveTo p pos)
  | .seekEnd p => (.ok (), s.moveTo p ((s.file p).elim 0 (·.data.length)))
  | .write p new =>
    (s.file p).elim (.error .notFound, s) fun f => (.ok (), s.wrote p f new)
  | .setLen p len =>
    (s.file p).elim (.error .notFound, s) fun f =>
      (.ok (), s.put p { f with data := f.data.take len ++ List.replicate (len - f.data.length) 0 })
  | .sync p => (s.file p).elim (.error .notFound, s) fun f => (.ok (), s.put p ⟨f.data, f.data⟩)
  | .rename source target =>
    (s.file source).elim (.error .notFound, s) fun f => (.ok (), (s.drop source).put target f)
  | .remove p => (s.file p).elim (.error .notFound, s) fun _ => (.ok (), s.drop p)
  | .removeAll select => (.ok (), s.dropAll select)

theorem done_perform (s : Fs π) (o : FsOp π) : Fs.Done s o (perform s o).1 (perform s o).2 := by
  cases o with
  | read p =>
    refine ⟨rfl, ?_⟩
    simp only [perform]
    cases s.file p <;> rfl
  | list select => exact ⟨rfl, _, List.Perm.refl _, rfl⟩
  | «exists» p => exact ⟨rfl, rfl⟩
  | create p | truncate p | seek p pos | seekEnd p | removeAll select => exact ⟨rfl, rfl⟩
  | write p new | setLen p len | sync p | remove p =>
    simp only [perform, Fs.Done]
    cases s.file p <;> exact ⟨rfl, rfl⟩
  | rename source target =>
    simp only [perform, Fs.Done]
    cases s.file source <;> exact ⟨rfl, rfl⟩

/-- What an operation leaves when it fails, or is cut short, having written so many bytes. -/
def stopped (s : Fs π) (o : FsOp π) (count : Nat) : Fs π :=
  match o with
  | .write p new => (s.file p).elim s fun f => s.wrote p f (new.take count)
  | _ => s

theorem wrote_take (s : Fs π) (p : π) (f : File) (new : Bytes) (count : Nat) :
    ∃ n ≤ new.length, s.wrote p f (new.take count) = s.wrote p f (new.take n) := by
  refine ⟨min count new.length, Nat.min_le_right _ _, ?_⟩
  rcases Nat.le_total count new.length with h | h
  · rw [Nat.min_eq_left h]
  · rw [Nat.min_eq_right h, List.take_of_length_le h, List.take_length]

theorem step_stopped {faulty : FsOp π → Prop} {s : Fs π} {o : FsOp π} (h : faulty o)
    (count : Nat) : Fs.Step faulty s o (.error .other) (stopped s o count) := by
  refine .inr ⟨h, rfl, ?_⟩
  cases o with
  | write p new =>
    simp only [stopped, Fs.Cut]
    cases s.file p with
    | none => rfl
    | some f => exact wrote_take s p f new count
  | _ => rfl

variable {Ans : ι → Type}

/-- One run of a program: for each file operation in turn the plan says whether it fails, and after
how many bytes if it is a write. -/
def exec (err : IoError → ε) (faulty : FsOp π → Bool) (answer : ∀ q, Ans q) :
    ProcProg π μ ι Ans ε α → List (Option Nat) → Proc π μ → Except ε α × Proc π μ
  | .pure a, _, s => (.ok a, s)
  | .throw e, _, s => (.error e, s)
  | .op (.file o) k, plan, s =>
    match plan.headD none, faulty o with
    | some count, true =>
      exec err faulty answer (k (.error (err .other))) plan.tail (s.withFs (stopped s.fs o count))
    | _, _ =>
      exec err faulty answer (k ((perform s.fs o).1.mapError err)) plan.tail
        (s.withFs (perform s.fs o).2)
  | .op .load k, plan, s => exec err faulty answer (k (.ok s.mem)) plan s
  | .op (.save m) k, plan, s => exec err faulty answer (k (.ok ())) plan (s.withMem m)
  | .op (.ask q) k, plan, s => exec err faulty answer (k (.ok (answer q))) plan s

theorem returns_exec {err : IoError → ε} {faulty : FsOp π → Bool} {answer : ∀ q, Ans q}
    {allowed : ∀ q, Ans q → Prop} (legal : ∀ q, allowed q (answer q))
    (p : ProcProg π μ ι Ans ε α) (plan : List (Option Nat)) (s : Proc π μ) :
    Returns (machine Ans err (fun o => faulty o = true) allowed) p s
      (exec err faulty answer p plan s).1 (exec err faulty answer p plan s).2 := by
  induction p generalizing plan s with
  | pure a => exact .pure a s
  | throw e => exact .throw e s
  | op o k ih =>
    cases o with
    | load => exact .op ⟨rfl, rfl⟩ (ih _ _ _)
    | save m => exact .op ⟨rfl, rfl⟩ (ih _ _ _)
    | ask q => exact .op ⟨rfl, _, legal q, rfl⟩ (ih _ _ _)
    | file o =>
      rw [exec]
      split
      · rename_i count _ hf
        have failed : (machine Ans err (fun o => faulty o = true) allowed).step (.file o) s
            (.error (err .other)) (s.withFs (stopped s.fs o count)) :=
          ⟨rfl, .error .other, step_stopped hf count, rfl⟩
        exact .op failed (ih _ _ _)
      · have done : (machine Ans err (fun o => faulty o = true) allowed).step (.file o) s
            ((perform s.fs o).1.mapError err) (s.withFs (perform s.fs o).2) :=
          ⟨rfl, (perform s.fs o).1, .inl (done_perform s.fs o), rfl⟩
        exact .op done (ih _ _ _)

/-- What one operation answers and leaves, with such a fate if it may fail. -/
def respond (err : IoError → ε) (faulty : FsOp π → Bool) (answer : ∀ q, Ans q)
    (fate : Option Nat) : (o : ProcOp π μ ι) → Proc π μ → Except ε (ProcOp.Res Ans o) × Proc π μ
  | .file o, s =>
    match fate, faulty o with
    | some count, true => (.error (err .other), s.withFs (stopped s.fs o count))
    | _, _ => ((perform s.fs o).1.mapError err, s.withFs (perform s.fs o).2)
  | .load, s => (.ok s.mem, s)
  | .save m, s => (.ok (), s.withMem m)
  | .ask q, s => (.ok (answer q), s)

theorem step_respond {err : IoError → ε} {faulty : FsOp π → Bool} {answer : ∀ q, Ans q}
    {allowed : ∀ q, Ans q → Prop} (legal : ∀ q, allowed q (answer q)) (fate : Option Nat)
    (o : ProcOp π μ ι) (s : Proc π μ) :
    (machine Ans err (fun o => faulty o = true) allowed).step o s
      (respond err faulty answer fate o s).1 (respond err faulty answer fate o s).2 := by
  cases o with
  | load => exact ⟨rfl, rfl⟩
  | save m => exact ⟨rfl, rfl⟩
  | ask q => exact ⟨rfl, _, legal q, rfl⟩
  | file o =>
    have done : (machine Ans err (fun o => faulty o = true) allowed).step (.file o) s
        ((perform s.fs o).1.mapError err) (s.withFs (perform s.fs o).2) :=
      ⟨rfl, (perform s.fs o).1, .inl (done_perform s.fs o), rfl⟩
    cases fate with
    | none => exact done
    | some count =>
      cases hf : faulty o with
      | false =>
        simp only [respond, hf]
        exact done
      | true =>
        simp only [respond, hf]
        exact ⟨rfl, .error .other, step_stopped hf count, rfl⟩

/-! ### Stopping -/

/-- What is left when the machine stops in an operation: of a write so many bytes, of anything
else nothing. Operations that change no file are not stopped. -/
def halted (s : Fs π) : FsOp π → (count : Nat) → Option (Fs π)
  | .write p new, count => some ((s.file p).elim s fun f => s.wrote p f (new.take count))
  | .create _, _ | .truncate _, _ | .setLen .., _ | .sync _, _ | .rename .., _ | .remove _, _ =>
    some s
  | .read _, _ | .exists _, _ | .list _, _ | .seek .., _ | .seekEnd _, _ | .removeAll _, _ => none

theorem cut_halted {s s' : Fs π} {o : FsOp π} {count : Nat} (h : halted s o count = some s') :
    Fs.Cut s o s' := by
  cases o with
  | write p new =>
    obtain rfl := Option.some.inj h
    simp only [Fs.Cut]
    cases s.file p with
    | none => rfl
    | some f => exact wrote_take s p f new count
  | create | truncate | setLen | sync | rename | remove =>
    obtain rfl := Option.some.inj h
    exact .inl rfl
  | _ => cases h

/-- A run that stops in the file operation behind the planned ones. -/
def halt (err : IoError → ε) (faulty : FsOp π → Bool) (answer : ∀ q, Ans q) :
    ProcProg π μ ι Ans ε α → List (Option Nat) → (count : Nat) → Proc π μ → Option (Proc π μ)
  | .pure _, _, _, _ => none
  | .throw _, _, _, _ => none
  | .op (.file o) _, [], count, s => (halted s.fs o count).map s.withFs
  | .op (.file o) k, fate :: plan, count, s =>
    match fate, faulty o with
    | some n, true =>
      halt err faulty answer (k (.error (err .other))) plan count (s.withFs (stopped s.fs o n))
    | _, _ =>
      halt err faulty answer (k ((perform s.fs o).1.mapError err)) plan count
        (s.withFs (perform s.fs o).2)
  | .op .load k, plan, count, s => halt err faulty answer (k (.ok s.mem)) plan count s
  | .op (.save m) k, plan, count, s => halt err faulty answer (k (.ok ())) plan count (s.withMem m)
  | .op (.ask q) k, plan, count, s => halt err faulty answer (k (.ok (answer q))) plan count s

theorem crashes_halt {err : IoError → ε} {faulty : FsOp π → Bool} {answer : ∀ q, Ans q}
    {allowed : ∀ q, Ans q → Prop} (legal : ∀ q, allowed q (answer q))
    {p : ProcProg π μ ι Ans ε α} {plan : List (Option Nat)} {count : Nat} {s s' : Proc π μ}
    (h : halt err faulty answer p plan count s = some s') :
    Crashes (machine Ans err (fun o => faulty o = true) allowed) p s s' := by
  induction p generalizing plan s with
  | pure a => cases h
  | throw e => cases h
  | op o k ih =>
    cases o with
    | load => exact .later ⟨rfl, rfl⟩ (ih _ h)
    | save m => exact .later ⟨rfl, rfl⟩ (ih _ h)
    | ask q => exact .later ⟨rfl, _, legal q, rfl⟩ (ih _ h)
    | file o =>
      cases plan with
      | nil =>
        obtain ⟨fs, hfs, rfl⟩ := Option.map_eq_some_iff.1 h
        exact .here ⟨rfl, cut_halted hfs⟩
      | cons fate plan =>
        have done : (machine Ans err (fun o => faulty o = true) allowed).step (.file o) s
            ((perform s.fs o).1.mapError err) (s.withFs (perform s.fs o).2) :=
          ⟨rfl, (perform s.fs o).1, .inl (done_perform s.fs o), rfl⟩
        cases fate with
        | none => exact .later done (ih _ h)
        | some n =>
          cases hf : faulty o with
          | false =>
            simp only [halt, hf] at h
            exact .later done (ih _ h)
          | true =>
            simp only [halt, hf] at h
            have failed : (machine Ans err (fun o => faulty o = true) allowed).step (.file o) s
                (.error (err .other)) (s.withFs (stopped s.fs o n)) :=
              ⟨rfl, .error .other, step_stopped hf n, rfl⟩
            exact .later failed (ih _ h)

end Effect.Proc
