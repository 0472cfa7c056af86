import OosLite.Lib.Program
import OosLite.Lib.FileSystem

/-!
# Processes with files, a memory and answers from outside

The machine most storage code runs on: file operations that may fail and that a power cut may
stop, a memory that a restart loses, and questions (the time, random bytes, the order of a
hash table) whose answers are only known to lie in some set. The rules below are the
weakest preconditions of its operations.
-/

namespace Effect

open Files

variable {π μ ι ε α β : Type}

inductive ProcOp (π μ ι : Type) where
  | file (o : FsOp π)
  | load
  | save (m : μ)
  | ask (q : ι)

@[reducible] def ProcOp.Res (Ans : ι → Type) : ProcOp π μ ι → Type
  | .file o => o.Res
  | .load => μ
  | .save _ => Unit
  | .ask q => Ans q

/-- Programs of a process. -/
abbrev ProcProg (π μ ι : Type) (Ans : ι → Type) (ε α : Type) :=
  Prog (ProcOp π μ ι) (ProcOp.Res Ans) ε α

structure Proc (π μ : Type) [Ord π] where
  fs : Fs π
  mem : μ

namespace Proc

section Fields

variable [Ord π]

/-- Replace the files. -/
def withFs (s : Proc π μ) (fs : Fs π) : Proc π μ := { s with fs }

/-- Replace the memory. -/
def withMem (s : Proc π μ) (mem : μ) : Proc π μ := { s with mem }

@[simp] theorem withFs_fs (s : Proc π μ) (fs : Fs π) : (s.withFs fs).fs = fs := rfl
@[simp] theorem withFs_mem (s : Proc π μ) (fs : Fs π) : (s.withFs fs).mem = s.mem := rfl
@[simp] theorem withMem_fs (s : Proc π μ) (m : μ) : (s.withMem m).fs = s.fs := rfl
@[simp] theorem withMem_mem (s : Proc π μ) (m : μ) : (s.withMem m).mem = m := rfl
@[simp] theorem withFs_withFs (s : Proc π μ) (fs fs' : Fs π) :
    (s.withFs fs).withFs fs' = s.withFs fs' := rfl
@[simp] theorem withMem_withMem (s : Proc π μ) (m m' : μ) :
    (s.withMem m).withMem m' = s.withMem m' := rfl

theorem eq_withFs {s s' : Proc π μ} (h : s'.mem = s.mem) : s' = s.withFs s'.fs := by
  cases s; cases s'; cases h; rfl

end Fields

section Operations

variable {Ans : ι → Type}

/-- One operation on the files. -/
def fileOp (o : FsOp π) : ProcProg π μ ι Ans ε o.Res :=
  @Prog.perform (ProcOp π μ ι) (ProcOp.Res Ans) ε (.file o)

def read (p : π) : ProcProg π μ ι Ans ε Bytes := fileOp (.read p)
def exists? (p : π) : ProcProg π μ ι Ans ε Bool := fileOp (.exists p)
def list (select : π → Bool) : ProcProg π μ ι Ans ε (List π) :=
  fileOp (.list select)
def create (p : π) : ProcProg π μ ι Ans ε Unit := fileOp (.create p)
def truncate (p : π) : ProcProg π μ ι Ans ε Unit := fileOp (.truncate p)
def seek (p : π) (pos : Nat) : ProcProg π μ ι Ans ε Unit := fileOp (.seek p pos)
def seekEnd (p : π) : ProcProg π μ ι Ans ε Unit := fileOp (.seekEnd p)
def write (p : π) (new : Bytes) : ProcProg π μ ι Ans ε Unit :=
  fileOp (.write p new)
def setLen (p : π) (len : Nat) : ProcProg π μ ι Ans ε Unit :=
  fileOp (.setLen p len)
def sync (p : π) : ProcProg π μ ι Ans ε Unit := fileOp (.sync p)
def rename (source target : π) : ProcProg π μ ι Ans ε Unit :=
  fileOp (.rename source target)
def remove (p : π) : ProcProg π μ ι Ans ε Unit := fileOp (.remove p)
def removeAll (select : π → Bool) : ProcProg π μ ι Ans ε Unit :=
  fileOp (.removeAll select)
def load : ProcProg π μ ι Ans ε μ := @Prog.perform (ProcOp π μ ι) (ProcOp.Res Ans) ε .load
def save (m : μ) : ProcProg π μ ι Ans ε Unit :=
  @Prog.perform (ProcOp π μ ι) (ProcOp.Res Ans) ε (.save m)
def ask (q : ι) : ProcProg π μ ι Ans ε (Ans q) :=
  @Prog.perform (ProcOp π μ ι) (ProcOp.Res Ans) ε (.ask q)

/-- Run a program and go on whatever it answers (`let _ = ...`). -/
def ignore (p : ProcProg π μ ι Ans ε α) : ProcProg π μ ι Ans ε Unit :=
  Prog.handle (do let _ ← p; Pure.pure ()) fun _ => Pure.pure ()

end Operations

section Semantics

variable [Ord π] [Std.TransOrd π] [DecidableEq π] (Ans : ι → Type) (err : IoError → ε)
  (faulty : FsOp π → Prop) (allowed : ∀ q, Ans q → Prop)

/-- The machine: `err` names the file errors, `faulty` are the file operations that may fail
though nothing is wrong with the files, `allowed` are the possible answers. -/
def machine : Machine (ProcOp π μ ι) (ProcOp.Res Ans) ε (Proc π μ) where
  step
    | .file o, s, r, s' => s'.mem = s.mem ∧
        ∃ r₀ : Except IoError o.Res, Fs.Step faulty s.fs o r₀ s'.fs ∧ r = r₀.mapError err
    | .load, s, r, s' => s' = s ∧ r = .ok s.mem
    | .save m, s, r, s' => s' = { s with mem := m } ∧ r = .ok ()
    | .ask q, s, r, s' => s' = s ∧ ∃ a, allowed q a ∧ r = .ok a
  cut
    | .file o, s, s' => s'.mem = s.mem ∧ Fs.Cut s.fs o s'.fs
    | .load, _, _ | .save _, _, _ | .ask _, _, _ => False

theorem machine_total (answer : ∀ q, ∃ a, allowed q a) :
    (machine (μ := μ) Ans err faulty allowed).Total := by
  intro o s
  cases o with
  | file o =>
    obtain ⟨r, fs, done⟩ := Fs.done_total s.fs o
    exact ⟨_, ⟨fs, s.mem⟩, rfl, r, .inl done, rfl⟩
  | load => exact ⟨_, _, rfl, rfl⟩
  | save m => exact ⟨_, _, rfl, rfl⟩
  | ask q =>
    obtain ⟨a, ha⟩ := answer q
    exact ⟨_, s, rfl, a, ha, rfl⟩

/-- With fewer faults the machine can do less. -/
theorem machine_le {fewer : FsOp π → Prop} (h : ∀ o, fewer o → faulty o) :
    (machine (μ := μ) Ans err fewer allowed).Le (machine Ans err faulty allowed) where
  step o s r s' step := by
    cases o with
    | file o =>
      obtain ⟨mem, r₀, step, rfl⟩ := step
      exact ⟨mem, r₀, step.imp id (And.imp_left (h o)), rfl⟩
    | load | save _ | ask _ => exact step
  cut o s s' cut := cut

end Semantics

/-! ## Rules -/

section Rules

variable [Ord π] [Std.TransOrd π] [DecidableEq π] {Ans : ι → Type} {err : IoError → ε}
  {faulty : FsOp π → Prop} {allowed : ∀ q, Ans q → Prop} {C : Proc π μ → Prop}

theorem safe_file {o : FsOp π} {s : Proc π μ} {Q : Except ε o.Res → Proc π μ → Prop}
    (cut : ∀ fs, Fs.Cut s.fs o fs → C (s.withFs fs))
    (step : ∀ r fs, Fs.Step faulty s.fs o r fs → Q (r.mapError err) (s.withFs fs)) :
    Safe (machine Ans err faulty allowed) Q C (fileOp o) s := by
  refine (safe_perform _ _).2 ⟨?_, ?_⟩
  · rintro s' ⟨mem, h⟩
    rw [eq_withFs mem]
    exact cut _ h
  · rintro r s' ⟨mem, r₀, h, rfl⟩
    rw [eq_withFs mem]
    exact step _ _ h

theorem safe_load {s : Proc π μ} {Q : Except ε μ → Proc π μ → Prop} :
    Safe (machine Ans err faulty allowed) Q C load s ↔ Q (.ok s.mem) s := by
  refine (safe_perform _ _).trans ⟨fun h => h.2 _ _ ⟨rfl, rfl⟩, fun h => ⟨fun _ => False.elim, ?_⟩⟩
  rintro r s' ⟨rfl, rfl⟩
  exact h

theorem safe_save {m : μ} {s : Proc π μ} {Q : Except ε Unit → Proc π μ → Prop} :
    Safe (machine Ans err faulty allowed) Q C (save m) s ↔ Q (.ok ()) (s.withMem m) := by
  refine (safe_perform _ _).trans ⟨fun h => h.2 _ _ ⟨rfl, rfl⟩, fun h => ⟨fun _ => False.elim, ?_⟩⟩
  rintro r s' ⟨rfl, rfl⟩
  exact h

theorem safe_ask {q : ι} {s : Proc π μ} {Q : Except ε (Ans q) → Proc π μ → Prop} :
    Safe (machine Ans err faulty allowed) Q C (ask q) s ↔ ∀ a, allowed q a → Q (.ok a) s := by
  refine (safe_perform _ _).trans
    ⟨fun h a ha => h.2 _ _ ⟨rfl, a, ha, rfl⟩, fun h => ⟨fun _ => False.elim, ?_⟩⟩
  rintro r s' ⟨rfl, a, ha, rfl⟩
  exact h a ha

theorem safe_read {p : π} {s : Proc π μ} {Q : Except ε Bytes → Proc π μ → Prop}
    (done : ∀ f, s.fs.file p = some f → Q (.ok f.data) s)
    (absent : s.fs.file p = none → Q (.error (err .notFound)) s)
    (fault : faulty (.read p) → Q (.error (err .other)) s) :
    Safe (machine Ans err faulty allowed) Q C (read p) s := by
  refine safe_file (fun _ => False.elim) ?_
  rintro r fs (⟨rfl, rfl⟩ | ⟨hf, rfl, rfl⟩)
  · cases hp : s.fs.file p with
    | some f => exact done f hp
    | none => exact absent hp
  · exact fault hf

theorem safe_exists {p : π} {s : Proc π μ} {Q : Except ε Bool → Proc π μ → Prop}
    (done : Q (.ok (s.fs.file p).isSome) s)
    (fault : faulty (.exists p) → Q (.error (err .other)) s) :
    Safe (machine Ans err faulty allowed) Q C (exists? p) s := by
  refine safe_file (fun _ => False.elim) ?_
  rintro r fs (⟨rfl, rfl⟩ | ⟨hf, rfl, rfl⟩)
  · exact done
  · exact fault hf

theorem safe_list {select : π → Bool} {s : Proc π μ} {Q : Except ε (List π) → Proc π μ → Prop}
    (done : ∀ ps : List π, ps.Perm (s.fs.listing select) → Q (.ok ps) s)
    (fault : faulty (.list select) → Q (.error (err .other)) s) :
    Safe (machine Ans err faulty allowed) Q C (list select) s := by
  refine safe_file (fun _ => False.elim) ?_
  rintro r fs (⟨rfl, ps, perm, rfl⟩ | ⟨hf, rfl, rfl⟩)
  · exact done ps perm
  · exact fault hf

/-- An operation on the files that happens at once or not at all. -/
theorem safe_atomic {o : FsOp π} {s : Proc π μ} {Q : Except ε o.Res → Proc π μ → Prop}
    {r : Except IoError o.Res} {t : Fs π} (none : C s)
    (all : C (s.withFs t)) (done : Q (r.mapError err) (s.withFs t))
    (hdone : ∀ r' fs', Fs.Done s.fs o r' fs' → r' = r ∧ fs' = t)
    (hcut : ∀ fs', Fs.Cut s.fs o fs' → fs' = s.fs ∨ fs' = t)
    (hfault : faulty o → Q (.error (err .other)) s)
    (hkind : ∀ p new, o ≠ .write p new) :
    Safe (machine Ans err faulty allowed) Q C (fileOp o) s := by
  refine safe_file (fun fs' h => ?_) ?_
  · rcases hcut fs' h with rfl | rfl
    · exact none
    · exact all
  · rintro r' fs' (h | ⟨hf, rfl, h⟩)
    · obtain ⟨rfl, rfl⟩ := hdone r' fs' h
      exact done
    · cases o with
      | write p new => exact absurd rfl (hkind p new)
      | _ => cases h; exact hfault hf

theorem safe_create {p : π} {s : Proc π μ} {Q : Except ε Unit → Proc π μ → Prop} {fs : Fs π}
    (hfs : fs = s.fs.opened p)
    (none : C s) (all : C (s.withFs fs)) (done : Q (.ok ()) (s.withFs fs))
    (fault : faulty (.create p) → Q (.error (err .other)) s) :
    Safe (machine Ans err faulty allowed) Q C (create p) s := by
  subst hfs
  exact safe_atomic (r := .ok ()) none all done (fun _ _ h => h)
    (fun fs' h => h.imp id And.right) fault nofun

theorem safe_truncate {p : π} {s : Proc π μ} {Q : Except ε Unit → Proc π μ → Prop} {fs : Fs π}
    (hfs : fs = s.fs.emptied p)
    (none : C s) (all : C (s.withFs fs)) (done : Q (.ok ()) (s.withFs fs))
    (fault : faulty (.truncate p) → Q (.error (err .other)) s) :
    Safe (machine Ans err faulty allowed) Q C (truncate p) s := by
  subst hfs
  exact safe_atomic (r := .ok ()) none all done (fun _ _ h => h)
    (fun fs' h => h.imp id And.right) fault nofun

theorem safe_seek {p : π} {pos : Nat} {s : Proc π μ} {Q : Except ε Unit → Proc π μ → Prop}
    (done : Q (.ok ()) (s.withFs (s.fs.moveTo p pos)))
    (fault : faulty (.seek p pos) → Q (.error (err .other)) s) :
    Safe (machine Ans err faulty allowed) Q C (seek p pos) s := by
  refine safe_file (fun _ => False.elim) ?_
  rintro r fs (⟨rfl, rfl⟩ | ⟨hf, rfl, rfl⟩)
  · exact done
  · exact fault hf

theorem safe_seekEnd {p : π} {s : Proc π μ} {Q : Except ε Unit → Proc π μ → Prop}
    (done : Q (.ok ()) (s.withFs (s.fs.moveTo p ((s.fs.file p).elim 0 (·.data.length)))))
    (fault : faulty (.seekEnd p) → Q (.error (err .other)) s) :
    Safe (machine Ans err faulty allowed) Q C (seekEnd p) s := by
  refine safe_file (fun _ => False.elim) ?_
  rintro r fs (⟨rfl, rfl⟩ | ⟨hf, rfl, rfl⟩)
  · exact done
  · exact fault hf

/-- A write: any prefix of it may have reached the file when it stops or fails. -/
theorem safe_write {p : π} {new : Bytes} {f : File} {s : Proc π μ}
    {Q : Except ε Unit → Proc π μ → Prop} (hf : s.fs.file p = some f)
    (cut : ∀ n ≤ new.length, C (s.withFs (s.fs.wrote p f (new.take n))))
    (done : Q (.ok ()) (s.withFs (s.fs.wrote p f new)))
    (fault : faulty (.write p new) → ∀ n ≤ new.length,
      Q (.error (err .other)) (s.withFs (s.fs.wrote p f (new.take n)))) :
    Safe (machine Ans err faulty allowed) Q C (write p new) s := by
  refine safe_file (fun fs h => ?_) ?_
  · simp only [Fs.Cut, hf] at h
    obtain ⟨n, hn, rfl⟩ := h
    exact cut n hn
  · rintro r fs (h | ⟨hfault, rfl, h⟩)
    · simp only [Fs.Done, hf] at h
      obtain ⟨rfl, rfl⟩ := h
      exact done
    · simp only [Fs.Cut, hf] at h
      obtain ⟨n, hn, rfl⟩ := h
      exact fault hfault n hn

theorem safe_setLen {p : π} {len : Nat} {f : File} {s : Proc π μ}
    {Q : Except ε Unit → Proc π μ → Prop} (hf : s.fs.file p = some f) (hlen : len ≤ f.data.length)
    (none : C s) (all : C (s.withFs (s.fs.put p { f with data := f.data.take len })))
    (done : Q (.ok ()) (s.withFs (s.fs.put p { f with data := f.data.take len })))
    (fault : faulty (.setLen p len) → Q (.error (err .other)) s) :
    Safe (machine Ans err faulty allowed) Q C (setLen p len) s := by
  have noGap : len - f.data.length = 0 := by omega
  refine safe_atomic (r := .ok ()) none all done (fun _ _ h => ?_) (fun fs' h => ?_) fault nofun
  · simpa only [Fs.Done, hf, noGap, List.replicate_zero, List.append_nil] using h
  · simpa only [Fs.Cut, Fs.Done, hf, noGap, List.replicate_zero, List.append_nil,
      true_and] using h

theorem safe_sync {p : π} {f : File} {s : Proc π μ}
    {Q : Except ε Unit → Proc π μ → Prop} (hf : s.fs.file p = some f)
    (none : C s) (all : C (s.withFs (s.fs.put p ⟨f.data, f.data⟩)))
    (done : Q (.ok ()) (s.withFs (s.fs.put p ⟨f.data, f.data⟩)))
    (fault : faulty (.sync p) → Q (.error (err .other)) s) :
    Safe (machine Ans err faulty allowed) Q C (sync p) s := by
  refine safe_atomic (r := .ok ()) none all done (fun _ _ h => ?_) (fun fs' h => ?_) fault nofun
  · simpa only [Fs.Done, hf] using h
  · simpa only [Fs.Cut, Fs.Done, hf, true_and] using h

theorem safe_rename {source target : π} {f : File} {s : Proc π μ}
    {Q : Except ε Unit → Proc π μ → Prop} (hf : s.fs.file source = some f)
    (none : C s) (all : C (s.withFs ((s.fs.drop source).put target f)))
    (done : Q (.ok ()) (s.withFs ((s.fs.drop source).put target f)))
    (fault : faulty (.rename source target) → Q (.error (err .other)) s) :
    Safe (machine Ans err faulty allowed) Q C (rename source target) s := by
  refine safe_atomic (r := .ok ()) none all done (fun _ _ h => ?_) (fun fs' h => ?_) fault nofun
  · simpa only [Fs.Done, hf] using h
  · simpa only [Fs.Cut, Fs.Done, hf, true_and] using h

theorem safe_remove {p : π} {f : File} {s : Proc π μ}
    {Q : Except ε Unit → Proc π μ → Prop} (hf : s.fs.file p = some f)
    (none : C s) (all : C (s.withFs (s.fs.drop p)))
    (done : Q (.ok ()) (s.withFs (s.fs.drop p)))
    (fault : faulty (.remove p) → Q (.error (err .other)) s) :
    Safe (machine Ans err faulty allowed) Q C (remove p) s := by
  refine safe_atomic (r := .ok ()) none all done (fun _ _ h => ?_) (fun fs' h => ?_) fault nofun
  · simpa only [Fs.Done, hf] using h
  · simpa only [Fs.Cut, Fs.Done, hf, true_and] using h

/-- Removing a file that is not there is an error, and changes nothing. -/
theorem safe_remove_absent {p : π} {s : Proc π μ} {Q : Except ε Unit → Proc π μ → Prop}
    (hf : s.fs.file p = none) (same : C s) (done : Q (.error (err .notFound)) s)
    (fault : faulty (.remove p) → Q (.error (err .other)) s) :
    Safe (machine Ans err faulty allowed) Q C (remove p) s := by
  refine safe_atomic (r := .error .notFound) (t := s.fs) same same done (fun _ _ h => ?_)
    (fun fs' h => ?_) fault nofun
  · simpa only [Fs.Done, hf] using h
  · simpa [Fs.Cut, Fs.Done, hf] using h

theorem safe_removeAll {select : π → Bool} {s : Proc π μ}
    {Q : Except ε Unit → Proc π μ → Prop}
    (cut : ∀ gone : π → Bool, (∀ p, gone p = true → select p = true) →
      C (s.withFs (s.fs.dropAll gone)))
    (done : Q (.ok ()) (s.withFs (s.fs.dropAll select)))
    (fault : faulty (.removeAll select) → Q (.error (err .other)) s) :
    Safe (machine Ans err faulty allowed) Q C (removeAll select) s := by
  refine safe_file (fun fs h => ?_) ?_
  · obtain ⟨gone, sub, rfl⟩ := h
    exact cut gone sub
  · rintro r fs (⟨rfl, rfl⟩ | ⟨hf, rfl, rfl⟩)
    · exact done
    · exact fault hf

end Rules

end Proc

/-- The rule of `handle`: an error goes on with the handler. -/
theorem safe_handle {Op : Type} {Res : Op → Type} {σ : Type} {M : Machine Op Res ε σ}
    {Q : Except ε α → σ → Prop} {C : σ → Prop} (p : Prog Op Res ε α) (h : ε → Prog Op Res ε α)
    (s : σ) :
    Safe M Q C (p.handle h) s ↔
      Safe M (fun r s' => match r with
        | .ok a => Q (.ok a) s'
        | .error e => Safe M Q C (h e) s') C p s := by
  induction p generalizing s with
  | pure a => rfl
  | throw e => rfl
  | op o k ih =>
    exact and_congr Iff.rfl (forall_congr' fun r => forall_congr' fun s' =>
      imp_congr_right fun _ => ih r s')

/-- The rule of `result`: what comes next sees the error. -/
theorem safe_result {Op : Type} {Res : Op → Type} {σ : Type} {M : Machine Op Res ε σ}
    {Q : Except ε (Except ε α) → σ → Prop} {C : σ → Prop} (p : Prog Op Res ε α) (s : σ) :
    Safe M Q C p.result s ↔ Safe M (fun r s' => Q (.ok r) s') C p s := by
  unfold Prog.result
  rw [safe_handle, show (p.bind fun a => Prog.pure (.ok a)) =
    (p >>= fun a => (Pure.pure (.ok a) : Prog Op Res ε (Except ε α))) from rfl, safe_bind]
  constructor <;> refine fun h => h.mono (fun r s' hr => ?_) fun _ hc => hc
  all_goals cases r <;> exact hr

theorem Proc.safe_ignore {Ans : ι → Type} {σ : Type}
    {M : Machine (ProcOp π μ ι) (ProcOp.Res Ans) ε σ} {Q : Except ε Unit → σ → Prop} {C : σ → Prop}
    (p : ProcProg π μ ι Ans ε α) (s : σ) :
    Safe M Q C (Proc.ignore p) s ↔ Safe M (fun _ s' => Q (.ok ()) s') C p s := by
  rw [Proc.ignore, safe_handle, safe_bind]
  constructor <;> refine fun h => h.mono (fun r s' hr => ?_) fun _ hc => hc
  all_goals cases r <;> exact hr

theorem Upholds.handle {Op : Type} {Res : Op → Type} {σ : Type} {M : Machine Op Res ε σ}
    {I C : σ → Prop} {p : Prog Op Res ε α} {h : ε → Prog Op Res ε α} (hp : Upholds M I C p)
    (hh : ∀ e, Upholds M I C (h e)) : Upholds M I C (p.handle h) := by
  intro s hs
  rw [safe_handle]
  refine (hp s hs).mono (fun r t ht => ?_) fun _ ht => ht
  cases r with
  | ok a => exact ht
  | error e => exact hh e t ht

theorem Upholds.ignore {Ans : ι → Type} {σ : Type} {M : Machine (ProcOp π μ ι) (ProcOp.Res Ans) ε σ}
    {I C : σ → Prop} {p : ProcProg π μ ι Ans ε α} (hp : Upholds M I C p) : Upholds M I C (Proc.ignore p) :=
  .handle (.bind hp fun _ => .pure _) fun _ => .pure _

theorem Maintains.handle {Op : Type} {Res : Op → Type} {σ : Type} {M : Machine Op Res ε σ}
    {I : σ → Prop} {p : Prog Op Res ε α} {h : ε → Prog Op Res ε α} (hp : Maintains M I p)
    (hh : ∀ e, Maintains M I (h e)) : Maintains M I (p.handle h) := Upholds.handle hp hh

/-! ### Invariants of the files -/

section Invariants

variable [Ord π] [Std.TransOrd π] [DecidableEq π] {Ans : ι → Type} {err : IoError → ε}
  {faulty : FsOp π → Prop} {allowed : ∀ q, Ans q → Prop} {J : Fs π → Prop}

/-- A program that keeps an invariant of the files. -/
abbrev Proc.Guards (err : IoError → ε) (faulty : FsOp π → Prop) (allowed : ∀ q, Ans q → Prop)
    (J : Fs π → Prop) (p : ProcProg π μ ι Ans ε α) : Prop :=
  Maintains (Proc.machine Ans err faulty allowed) (fun s : Proc π μ => J s.fs) p

namespace Maintains

theorem load : Proc.Guards err faulty allowed J (Proc.load : ProcProg π μ ι Ans ε μ) :=
  fun _ h => Proc.safe_load.2 h

theorem save (m : μ) : Proc.Guards err faulty allowed J (Proc.save m : ProcProg π μ ι Ans ε Unit) :=
  fun _ h => Proc.safe_save.2 h

theorem ask (q : ι) : Proc.Guards err faulty allowed J (Proc.ask q : ProcProg π μ ι Ans ε (Ans q)) :=
  fun _ h => Proc.safe_ask.2 fun _ _ => h

theorem fileOp {o : FsOp π} (keeps : ∀ fs fs', J fs → Fs.Leads fs o fs' → J fs') :
    Proc.Guards err faulty allowed J (Proc.fileOp o : ProcProg π μ ι Ans ε o.Res) :=
  fun s h => Proc.safe_file (fun fs hf => keeps s.fs fs h (.cut hf))
    fun _ fs hf => keeps s.fs fs h hf.leads

theorem ignore {p : ProcProg π μ ι Ans ε α} (hp : Proc.Guards err faulty allowed J p) :
    Proc.Guards err faulty allowed J (Proc.ignore p) :=
  Maintains.handle (Maintains.bind hp fun _ => .pure _) fun _ => .pure _

/-- An operation that does not touch a file keeps what is known of it. -/
theorem untouched [Std.LawfulEqOrd π] {o : FsOp π} {q : π} {f : Option File}
    (hq : ¬ Fs.Touches o q) :
    Proc.Guards err faulty allowed (Fs.Shows q f)
      (Proc.fileOp o : ProcProg π μ ι Ans ε o.Res) :=
  fileOp fun _ _ h leads => (leads.untouched hq).trans h

end Maintains

end Invariants

/-! ### Histories of the files -/

section Histories

/-- What is noted of an operation: on the files, which it was and whether it succeeded. -/
def Proc.note {Ans : ι → Type} :
    (o : ProcOp π μ ι) → Except ε (ProcOp.Res Ans o) → List (FsOp π × Bool)
  | .file o, r => [(o, r.isOk)]
  | .load, _ | .save _, _ | .ask _, _ => []

variable [Ord π] [Std.TransOrd π] [DecidableEq π] {Ans : ι → Type} {err : IoError → ε}
  {faulty : FsOp π → Prop} {allowed : ∀ q, Ans q → Prop} {C : Proc π μ × List (FsOp π × Bool) → Prop}
  {u : Proc π μ × List (FsOp π × Bool)}

theorem Proc.safe_noted_file {o : FsOp π}
    {Q : Except ε o.Res → Proc π μ × List (FsOp π × Bool) → Prop}
    (cut : ∀ fs, Fs.Cut u.1.fs o fs → C (u.1.withFs fs, u.2))
    (step : ∀ r fs, Fs.Step faulty u.1.fs o r fs →
      Q (r.mapError err) (u.1.withFs fs, u.2 ++ [(o, r.isOk)])) :
    Safe ((Proc.machine Ans err faulty allowed).noting Proc.note) Q C (Proc.fileOp o) u := by
  refine safe_noting_perform.2 (Proc.safe_file cut fun r fs done => ?_)
  have same : (r.mapError err).isOk = r.isOk := by cases r <;> rfl
  simpa only [Proc.note, same] using step r fs done

theorem Proc.safe_noted_load {Q : Except ε μ → Proc π μ × List (FsOp π × Bool) → Prop} :
    Safe ((Proc.machine Ans err faulty allowed).noting Proc.note) Q C Proc.load u ↔
      Q (.ok u.1.mem) u := by
  refine (safe_noting_perform.trans Proc.safe_load).trans ?_
  rw [Proc.note, List.append_nil]

theorem Proc.safe_noted_save {m : μ} {Q : Except ε Unit → Proc π μ × List (FsOp π × Bool) → Prop} :
    Safe ((Proc.machine Ans err faulty allowed).noting Proc.note) Q C (Proc.save m) u ↔
      Q (.ok ()) (u.1.withMem m, u.2) := by
  refine (safe_noting_perform.trans Proc.safe_save).trans ?_
  rw [Proc.note, List.append_nil]

theorem Proc.safe_noted_ask {q : ι} {Q : Except ε (Ans q) → Proc π μ × List (FsOp π × Bool) → Prop} :
    Safe ((Proc.machine Ans err faulty allowed).noting Proc.note) Q C (Proc.ask q) u ↔
      ∀ a, allowed q a → Q (.ok a) u := by
  refine (safe_noting_perform.trans Proc.safe_ask).trans (forall₂_congr fun a _ => ?_)
  rw [Proc.note, List.append_nil]

end Histories

/-- Removing a file whose removal may fail: it is gone or it stays. -/
theorem Proc.safe_ignore_remove [Ord π] [Std.TransOrd π] [DecidableEq π] {Ans : ι → Type}
    {err : IoError → ε} {faulty : FsOp π → Prop} {allowed : ∀ q, Ans q → Prop}
    {C : Proc π μ → Prop} {Q : Except ε Unit → Proc π μ → Prop} {p : π} {s : Proc π μ}
    (stay : C s) (gone : C (s.withFs (s.fs.drop p))) (done : Q (.ok ()) (s.withFs (s.fs.drop p)))
    (fail : faulty (.remove p) ∨ s.fs.file p = none → Q (.ok ()) s) :
    Safe (machine Ans err faulty allowed) Q C (Proc.ignore (Proc.remove p)) s := by
  rw [Proc.safe_ignore]
  cases hf : s.fs.file p with
  | none => exact Proc.safe_remove_absent hf stay (fail (.inr hf)) fun _ => fail (.inr hf)
  | some f => exact Proc.safe_remove hf stay gone done fun h => fail (.inl h)

end Effect
