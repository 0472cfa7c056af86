import OosLite.Engine.Execution
import OosLite.Vfs.Ranges

/-!
# Running readers

The run of a reader that is alone, computed.
-/

namespace OosLite

open Files Effect

namespace VfsTree

variable {env : Env} {α : Type}

/-- An operation in which nothing fails. -/
def respond (env : Env) (answers : StorageEngine.Answers) :
    (o : TreeOp) → TreeState → Except OosLiteError o.Res × TreeState
  | .manifest id, t =>
    let r := StorageEngine.exec false answers
      (StorageEngine.query fun m => m.getManifest env id) [] t.engine
    (r.1, ⟨r.2, t.cache⟩)
  | .location id, t => (.ok (t.engine.segmentStore.mem.index .own)[id]?, t)
  | .chunk id, t =>
    let r := StorageEngine.exec false answers
      (StorageEngine.segments (SegmentStore.getChunk env id)) [] t.engine
    (r.1, ⟨r.2, t.cache⟩)
  | .cached id, t => (.ok (t.cache.get id).1, ⟨t.engine, (t.cache.get id).2⟩)
  | .cache id data, t => (.ok (t.cache.insert id data).1, ⟨t.engine, (t.cache.insert id data).2⟩)

/-- The run of a program to its end. -/
def exec (env : Env) (answers : StorageEngine.Answers) : TreeProg α → TreeState → Result α × TreeState
  | .pure a, t => (.ok a, t)
  | .throw e, t => (.error e, t)
  | .op o k, t => exec env answers (k (respond env answers o t).1) (respond env answers o t).2

theorem step_respond (answers : StorageEngine.Answers) (o : TreeOp) (t : TreeState) :
    (treeMachine env (.all false)).step o t (respond env answers o t).1 (respond env answers o t).2 := by
  cases o with
  | manifest id => exact ⟨_, StorageEngine.returns_exec false answers _ [] t.engine, rfl⟩
  | location id => exact ⟨rfl, rfl⟩
  | chunk id => exact ⟨_, StorageEngine.returns_exec false answers _ [] t.engine, rfl⟩
  | cached id => exact ⟨rfl, rfl⟩
  | cache id data => exact ⟨rfl, rfl⟩

theorem returns_exec (answers : StorageEngine.Answers) (p : TreeProg α) (t : TreeState) :
    Returns (treeMachine env (.all false)) p t (exec env answers p t).1 (exec env answers p t).2 := by
  induction p generalizing t with
  | pure a => exact .pure a t
  | throw e => exact .throw e t
  | op o k ih => exact .op (step_respond answers o t) (ih _ _)

/-- So many operations of a program: what is left to do, and the state. -/
def advance (env : Env) (answers : StorageEngine.Answers) :
    (count : Nat) → TreeProg α → TreeState → TreeProg α × TreeState
  | count + 1, .op o k, t =>
    advance env answers count (k (respond env answers o t).1) (respond env answers o t).2
  | _, p, t => (p, t)

end VfsTree

section Readers

variable {env : Env} {f : Faults} {allowed : EngineAct → Prop} {g : EngineHistory}
  {answers : List RangeAnswer} {q : RangeRequest} {began : MetadataStore} {before after : List RangeReader}
  {t t' : TreeState}

/-- A reader goes on until it returns, while the others wait. -/
theorem MountedReachable.finish {p : TreeProg Bytes} {r : Result Bytes}
    (h : MountedReachable env f allowed
      ⟨⟨.running t.engine, g⟩, some t.cache, before ++ ⟨q, began, p⟩ :: after, answers⟩)
    (run : Returns (treeMachine env f) p t r t') :
    MountedReachable env f allowed
      ⟨⟨.running t'.engine, g⟩, some t'.cache, before ++ after,
        ⟨q, began, t'.engine.metadataStore, r⟩ :: answers⟩ := by
  induction run with
  | pure a t => exact h.step (.returned rfl) trivial
  | throw e t => exact h.step (.failed rfl) trivial
  | op step _ ih => exact ih (h.step (.read rfl step) trivial)

/-- A reader makes some operations, while the others wait. -/
theorem MountedReachable.advance {answers' : StorageEngine.Answers} (count : Nat) {p : TreeProg Bytes}
    (h : MountedReachable env (.all false) allowed
      ⟨⟨.running t.engine, g⟩, some t.cache, before ++ ⟨q, began, p⟩ :: after, answers⟩) :
    MountedReachable env (.all false) allowed
      ⟨⟨.running (VfsTree.advance env answers' count p t).2.engine, g⟩,
        some (VfsTree.advance env answers' count p t).2.cache,
        before ++ ⟨q, began, (VfsTree.advance env answers' count p t).1⟩ :: after, answers⟩ := by
  induction count generalizing p t with
  | zero => exact h
  | succ count ih =>
    cases p with
    | pure a | throw e => exact h
    | op o k => exact ih (h.step (.read rfl (VfsTree.step_respond answers' o t)) trivial)

/-- A whole read, in a tree without other readers. -/
theorem MountedReachable.readRange {r : Result Bytes} (q : RangeRequest)
    (h : MountedReachable env f allowed ⟨⟨.running t.engine, g⟩, some t.cache, [], answers⟩)
    (run : Returns (treeMachine env f) (VfsTree.readRange q.manifestId q.offset q.size) t r t') :
    MountedReachable env f allowed
      ⟨⟨.running t'.engine, g⟩, some t'.cache, [],
        ⟨q, t.engine.metadataStore, t'.engine.metadataStore, r⟩ :: answers⟩ := by
  have called : MountedReachable env f allowed ⟨⟨.running t.engine, g⟩, some t.cache,
      [] ++ ⟨q, t.engine.metadataStore, VfsTree.readRange q.manifestId q.offset q.size⟩ :: [], answers⟩ :=
    h.step (.called rfl rfl) trivial
  exact called.finish run

end Readers

end OosLite
