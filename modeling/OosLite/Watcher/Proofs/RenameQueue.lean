import OosLite.Watcher.Proofs.Steps
import Mathlib.Data.List.TakeWhile

/-!
# The queue of renames

When `process_renames` empties its queue: an action that cannot be applied stays in front, and is
tried again by every later call.
-/

namespace OosLite

open Files (IoError)

namespace MetadataStore

/-- `update_watched_prefix` succeeds unless it is rejected. -/
theorem updateWatchedPrefix_of_not_rejected {m : MetadataStore} {root source : String}
    {target : Option String} {included : String → Bool}
    (h : ¬ m.Rejected source target included) :
    ∃ changes, m.updateWatchedPrefix root source target included =
      .ok (changes, m.afterMove root source target included) := by
  unfold Rejected at h
  rw [not_or, not_not, not_not] at h
  obtain ⟨changes, m', result⟩ := updateWatchedPrefix_isOk h.1 h.2
  refine ⟨changes, ?_⟩
  unfold afterMove
  rw [result]

theorem updateWatchedPrefix_of_rejected {m : MetadataStore} {source : String}
    {target : Option String} {included : String → Bool} (root : String)
    (h : m.Rejected source target included) :
    ∃ e, m.updateWatchedPrefix root source target included = .error e := by
  cases result : m.updateWatchedPrefix root source target included with
  | error e => exact ⟨e, rfl⟩
  | ok found =>
    obtain ⟨changes, moved⟩ := found
    obtain ⟨readable, valid, _⟩ := updateWatchedPrefix_ok result
    rcases h with h | h
    · exact absurd readable h
    · exact absurd valid h

end MetadataStore

namespace Pending

variable (p : Pending)

/-- The `From` halves that wait for their other half, with the times they came. -/
def halves : List (FilePath × Nat) := p.trackedFrom.map Prod.snd ++ p.untrackedFrom

/-- What is to be applied if no other half comes: a half that has waited too long is a removal. -/
def waiting : List Rename := p.renames ++ p.halves.map fun half => ⟨half.1, none⟩

theorem hasRenames_iff_waiting : p.hasRenames = false ↔ p.waiting = [] := by
  simp [hasRenames, waiting, halves, and_assoc]

/-- What a look at the clock makes of the halves. -/
theorem exists_expired (now : Nat) : ∃ expired : List (FilePath × Nat),
    (p.expireRenames now).renames = p.renames ++ expired.map (fun half => ⟨half.1, none⟩) ∧
      p.halves.Perm (expired ++ (p.expireRenames now).halves) ∧
      ((∀ half ∈ p.halves, half.2 + renameTimeout ≤ now) → (p.expireRenames now).halves = []) := by
  have tracked : (p.expireRenames now).trackedFrom =
      p.trackedFrom.filter fun e => !isExpired now e.2.2 := by
    unfold expireRenames
    rw [List.partition_eq_filter_filter]
    rfl
  have untracked : (p.expireRenames now).untrackedFrom =
      p.untrackedFrom.dropWhile fun e => isExpired now e.2 := by
    simp [expireRenames, List.span_eq_takeWhile_dropWhile]
  refine ⟨(p.trackedFrom.filter fun e => isExpired now e.2.2).map Prod.snd ++
    p.untrackedFrom.takeWhile fun e => isExpired now e.2, ?_, ?_, ?_⟩
  · simp [expireRenames, List.span_eq_takeWhile_dropWhile, List.map_map, Function.comp_def]
  · unfold halves
    rw [tracked, untracked]
    have first := (List.filter_append_perm (fun e => isExpired now e.2.2) p.trackedFrom).map Prod.snd
    have second : p.untrackedFrom.takeWhile (fun e => isExpired now e.2) ++
        p.untrackedFrom.dropWhile (fun e => isExpired now e.2) = p.untrackedFrom :=
      List.takeWhile_append_dropWhile
    rw [List.map_append] at first
    rw [← second]
    apply (first.symm.append_right _).trans
    rw [second, List.append_assoc, List.append_assoc]
    apply List.Perm.append_left
    nth_rewrite 1 [← second]
    exact List.perm_append_comm_assoc _ _ _
  · intro passed
    have late {path : FilePath} {time : Nat} (there : (path, time) ∈ p.halves) :
        isExpired now time = true := by
      have waited : time + renameTimeout ≤ now := passed _ there
      unfold isExpired
      exact decide_eq_true (by omega)
    unfold halves
    rw [tracked, untracked, List.append_eq_nil_iff, List.map_eq_nil_iff, List.filter_eq_nil_iff,
      List.dropWhile_eq_nil_iff]
    constructor
    · intro e there
      simp [late (List.mem_append_left _ (List.mem_map_of_mem there))]
    · intro e there
      exact late (List.mem_append_right _ there)

end Pending

/-- The host at another time. -/
def Host.at (host : Host) (now : Nat) : Host := { host with now }

namespace Worker

section Actions

variable (host : Host) (w : Worker) (action : Rename)

/-- Something is at the source of a deletion again. -/
def isBack : Bool :=
  action.target.isNone && (w.sourceName action).isSome && (host.metadata action.source).isOk

/-- The tables once the names below the source are moved. -/
def movedTables : MetadataStore :=
  match w.sourceName action with
  | some source =>
    w.engine.store.afterMove w.watchKey source (w.targetName action)
      fun name => !w.rules.isIgnored name
  | none => w.engine.store

/-- The tables once the action is applied. -/
def tablesAfter : MetadataStore :=
  if w.isBack host action then w.engine.store else w.movedTables action

/-- A path that is there, or is not. -/
def Visible (path : FilePath) : Prop :=
  (∃ metadata, host.metadata path = .ok metadata) ∨ host.metadata path = .error .notFound

/-- A path that is there, or is not; a directory that is there can be walked. -/
def Reachable (path : FilePath) : Prop :=
  Visible host path ∧
    ∀ metadata, host.metadata path = .ok metadata → metadata.fileType = .dir →
      ∀ entry ∈ host.walkIncluded path w.included, entry.2.isOk

/-- The move of the names is rejected. -/
def MoveRejected : Prop :=
  ∃ source, w.sourceName action = some source ∧
    w.engine.store.Rejected source (w.targetName action)
      fun name => !w.rules.isIgnored name

/-- What an action needs. -/
structure Passable : Prop where
  /-- Whether a deleted source is back can be told. -/
  source : action.target = none → (w.sourceName action).isSome → Visible host action.source
  /-- The records of all named objects can be read, and every new name is valid. -/
  names : w.isBack host action = false → ¬ w.MoveRejected action
  /-- What is at the target can be told. -/
  target : ∀ target, action.target = some target → w.included target → w.Reachable host target

end Actions

section Apply

variable (host : Host) {w : Worker} {action : Rename}

theorem moveRejected_none_iff (w : Worker) (path : FilePath) :
    w.MoveRejected ⟨path, none⟩ ↔
      (w.sourceName ⟨path, none⟩).isSome ∧ ¬ w.engine.store.Readable := by
  unfold MoveRejected
  rw [Option.isSome_iff_exists]
  constructor
  · intro h
    obtain ⟨source, name, rejected⟩ := h
    exact ⟨⟨source, name⟩, (MetadataStore.rejected_none_iff _ _ _).1 rejected⟩
  · intro h
    obtain ⟨⟨source, name⟩, unreadable⟩ := h
    exact ⟨source, name, (MetadataStore.rejected_none_iff _ _ _).2 unreadable⟩

theorem enqueueEntries_ok (w : Worker) (entries : List (FilePath × Except IoError FileType)) :
    (w.enqueueEntries host entries).1 = .ok () ↔ ∀ entry ∈ entries, entry.2.isOk := by
  fun_induction enqueueEntries host w entries with
  | case1 w => simp
  | case2 w => simp [Except.isOk, Except.toBool]
  | case3 w path rest ih => simp [ih, Except.isOk, Except.toBool]
  | case4 w path _ rest _ ih => simp [ih, Except.isOk, Except.toBool]

/-- The end of `apply_rename` asks only what is at the target. -/
theorem lookUpTarget_ok (w : Worker) :
    (w.lookUpTarget host action).1 = .ok () ↔
      ∀ target, action.target = some target → w.included target → w.Reachable host target := by
  unfold lookUpTarget
  cases action.target with
  | none => simp
  | some target =>
    simp only [Option.some.injEq, forall_eq']
    by_cases inside : w.included target
    · rw [if_pos inside]
      unfold Reachable Visible
      cases found : host.metadata target with
      | error e => cases e <;> simp [inside]
      | ok metadata =>
        simp only
        cases kind : metadata.fileType with
        | dir => simp [enqueueTree, enqueueEntries_ok, inside, kind]
        | file => simp [inside, kind]
        | other => simp [inside, kind]
    · simp [inside]

theorem included_congr {w w' : Worker} (config : w'.config = w.config) (rules : w'.rules = w.rules) :
    w'.included = w.included := by
  funext path
  unfold included logicalName
  rw [config, rules]

theorem sourceName_congr {w w' : Worker} (config : w'.config = w.config)
    (rules : w'.rules = w.rules) : w'.sourceName action = w.sourceName action := by
  unfold sourceName logicalName
  rw [included_congr config rules, config]

theorem targetName_congr {w w' : Worker} (config : w'.config = w.config)
    (rules : w'.rules = w.rules) : w'.targetName action = w.targetName action := by
  unfold targetName logicalName
  rw [config, rules]

/-- The worker with other tables. -/
def withTables (w : Worker) (store : MetadataStore) : Worker :=
  { w with engine := { w.engine with store } }

theorem applyMove_of_rejected (h : w.MoveRejected action) :
    ∃ e, w.applyMove host action = (.error e, w) := by
  obtain ⟨source, name, rejected⟩ := h
  obtain ⟨e, result⟩ := MetadataStore.updateWatchedPrefix_of_rejected w.watchKey rejected
  refine ⟨e, ?_⟩
  unfold applyMove moveNames
  rw [name]
  simp only [result]

theorem applyMove_of_not_rejected (h : ¬ w.MoveRejected action) :
    ∃ w', Requeues (w.withTables (w.movedTables action)) w' ∧
      w.applyMove host action = w'.lookUpTarget host action := by
  have moved : ∃ changes, w.moveNames action = .ok (changes, w.movedTables action) := by
    unfold moveNames movedTables
    cases name : w.sourceName action with
    | none => exact ⟨[], rfl⟩
    | some source =>
      apply MetadataStore.updateWatchedPrefix_of_not_rejected
      intro rejected
      exact h ⟨source, name, rejected⟩
  obtain ⟨changes, moved⟩ := moved
  refine ⟨changes.foldl (remapChange host) ((w.withTables (w.movedTables action)).remapUpdates action),
    requeues_remap _ action changes, ?_⟩
  unfold applyMove
  rw [moved]
  rfl

theorem reachable_congr {w w' : Worker} (config : w'.config = w.config) (rules : w'.rules = w.rules)
    (path : FilePath) : w'.Reachable host path ↔ w.Reachable host path := by
  unfold Reachable
  rw [included_congr config rules]

theorem applyMove_ok :
    (w.applyMove host action).1 = .ok () ↔ ¬ w.MoveRejected action ∧
      ∀ target, action.target = some target → w.included target → w.Reachable host target := by
  by_cases rejected : w.MoveRejected action
  · obtain ⟨e, result⟩ := applyMove_of_rejected host rejected
    rw [result]
    simp [rejected]
  · obtain ⟨w', requeues, result⟩ := applyMove_of_not_rejected host rejected
    rw [result, lookUpTarget_ok, included_congr requeues.config requeues.rules]
    simp only [reachable_congr host requeues.config requeues.rules]
    constructor
    · intro h
      exact ⟨rejected, h⟩
    · intro h
      exact h.2

variable (w action) in
/-- An action whose source is back is taken off the queue, one whose source cannot be told fails,
and the others move the names. -/
theorem applyRename_cases :
    (action.target = none ∧ w.isBack host action = true ∧ ∃ due,
      w.applyRename host action = (.ok (), { w with pending := w.pending.enqueue action.source due })) ∨
    ((¬ (action.target = none → (w.sourceName action).isSome → Visible host action.source)) ∧
      ∃ e, w.applyRename host action = (.error e, w)) ∨
    (w.isBack host action = false ∧
      (action.target = none → (w.sourceName action).isSome → Visible host action.source) ∧
      w.applyRename host action = w.applyMove host action) := by
  unfold applyRename isBack Visible
  by_cases deleted : action.target = none ∧ (w.sourceName action).isSome
  · rw [if_pos deleted, deleted.1, deleted.2]
    cases found : host.metadata action.source with
    | ok metadata => exact .inl ⟨rfl, rfl, _, rfl⟩
    | error e => cases e <;> simp [Except.isOk, Except.toBool]
  · rw [if_neg deleted]
    apply Or.inr
    apply Or.inr
    refine ⟨?_, ?_, rfl⟩
    · cases target : action.target with
      | none => cases name : w.sourceName action <;> simp_all
      | some target => rfl
    · intro gone named
      exact absurd ⟨gone, named⟩ deleted

theorem applyRename_ok : (w.applyRename host action).1 = .ok () ↔ w.Passable host action := by
  rcases applyRename_cases host w action with ⟨gone, back, due, result⟩ | ⟨unknown, e, result⟩ |
    ⟨gone, known, result⟩
  · rw [result]
    constructor
    · intro _
      constructor
      · intro _ _
        unfold isBack at back
        cases found : host.metadata action.source with
        | ok metadata => exact .inl ⟨metadata, found⟩
        | error e => simp [found, Except.isOk, Except.toBool] at back
      · intro notBack
        rw [back] at notBack
        cases notBack
      · intro target some
        rw [gone] at some
        cases some
    · intro _
      rfl
  · rw [result]
    constructor
    · intro h
      cases h
    · intro h
      exact absurd h.source unknown
  · rw [result, applyMove_ok]
    constructor
    · intro h
      exact ⟨known, fun _ => h.1, h.2⟩
    · intro h
      exact ⟨h.names gone, h.target⟩

variable (w action) in
/-- An action changes the tables and what is queued, and nothing else of the worker. -/
theorem applyRename_requeues :
    ∃ store, Requeues (w.withTables store) (w.applyRename host action).2 := by
  rcases applyRename_cases host w action with ⟨_, _, due, result⟩ | ⟨_, e, result⟩ | ⟨_, _, result⟩
  · rw [result]
    exact ⟨w.engine.store, by constructor <;> rfl⟩
  · rw [result]
    exact ⟨w.engine.store, by constructor <;> rfl⟩
  · rw [result]
    by_cases rejected : w.MoveRejected action
    · obtain ⟨e, failed⟩ := applyMove_of_rejected host rejected
      rw [failed]
      exact ⟨w.engine.store, by constructor <;> rfl⟩
    · obtain ⟨w', requeues, moved⟩ := applyMove_of_not_rejected host rejected
      rw [moved]
      exact ⟨_, requeues.trans (requeues_lookUpTarget w' action)⟩

/-- The tables after an action that is taken off the queue. -/
theorem applyRename_tables (h : w.Passable host action) :
    Requeues (w.withTables (w.tablesAfter host action)) (w.applyRename host action).2 := by
  unfold tablesAfter
  rcases applyRename_cases host w action with ⟨_, back, due, result⟩ | ⟨unknown, _⟩ | ⟨gone, _, result⟩
  · rw [result, if_pos back]
    constructor <;> rfl
  · exact absurd h.source unknown
  · obtain ⟨w', requeues, moved⟩ := applyMove_of_not_rejected host (h.names gone)
    rw [result, moved, if_neg (by simp [gone])]
    exact requeues.trans (requeues_lookUpTarget w' action)

/-- An action that fails once fails again. -/
theorem applyRename_blocked (h : ¬ w.Passable host action) :
    ¬ (w.applyRename host action).2.Passable host action := by
  intro later
  obtain ⟨store, requeues⟩ := applyRename_requeues host w action
  have source : action.target = none → (w.sourceName action).isSome →
      Visible host action.source := by
    have source := later.source
    rw [sourceName_congr requeues.config requeues.rules] at source
    exact source
  have target : ∀ target, action.target = some target → w.included target →
      w.Reachable host target := by
    have target := later.target
    rw [included_congr requeues.config requeues.rules] at target
    simp only [reachable_congr host requeues.config requeues.rules] at target
    exact target
  have names : ¬ (w.isBack host action = false → ¬ w.MoveRejected action) := by
    intro names
    exact h ⟨source, names, target⟩
  rw [Classical.not_imp, not_not] at names
  obtain ⟨gone, rejected⟩ := names
  rcases applyRename_cases host w action with ⟨_, back, _⟩ | ⟨unknown, _⟩ | ⟨_, _, result⟩
  · rw [gone] at back
    cases back
  · exact unknown source
  · obtain ⟨e, failed⟩ := applyMove_of_rejected host rejected
    rw [result, failed] at later
    exact h later

end Apply

/-! ## The whole queue -/

section Queue

variable (host : Host)

/-- Each action in turn can be applied, to the tables that the ones before it leave. -/
def Flows : List Rename → Worker → Prop
  | [], _ => True
  | action :: rest, w =>
    w.Passable host action ∧ Flows rest (w.withTables (w.tablesAfter host action))

/-- The worker with the tables that these actions leave. -/
def afterAll : List Rename → Worker → Worker
  | [], w => w
  | action :: rest, w => afterAll rest (w.withTables (w.tablesAfter host action))

/-- The same tables, and the same names. -/
structure SameView (w w' : Worker) : Prop where
  store : w'.engine.store = w.engine.store
  config : w'.config = w.config
  rules : w'.rules = w.rules
  watchKey : w'.watchKey = w.watchKey

variable {w w' : Worker} {action : Rename}

theorem SameView.withTables (h : SameView w w') (store : MetadataStore) :
    SameView (w.withTables store) (w'.withTables store) :=
  ⟨rfl, h.config, h.rules, h.watchKey⟩

theorem SameView.symm (h : SameView w w') : SameView w' w :=
  ⟨h.store.symm, h.config.symm, h.rules.symm, h.watchKey.symm⟩

theorem SameView.trans {w'' : Worker} (h : SameView w w') (h' : SameView w' w'') : SameView w w'' :=
  ⟨h'.store.trans h.store, h'.config.trans h.config, h'.rules.trans h.rules,
    h'.watchKey.trans h.watchKey⟩

theorem SameView.isBack (h : SameView w w') : w'.isBack host action = w.isBack host action := by
  unfold Worker.isBack
  rw [sourceName_congr h.config h.rules]

theorem SameView.moveRejected (h : SameView w w') :
    w'.MoveRejected action ↔ w.MoveRejected action := by
  unfold MoveRejected
  rw [sourceName_congr h.config h.rules, targetName_congr h.config h.rules, h.store, h.rules]

theorem SameView.passable (h : SameView w w') (passable : w.Passable host action) :
    w'.Passable host action where
  source := by
    rw [sourceName_congr h.config h.rules]
    exact passable.source
  names := by
    rw [h.isBack, h.moveRejected]
    exact passable.names
  target := by
    rw [included_congr h.config h.rules]
    simp only [reachable_congr host h.config h.rules]
    exact passable.target

theorem SameView.tablesAfter (h : SameView w w') :
    w'.tablesAfter host action = w.tablesAfter host action := by
  unfold Worker.tablesAfter movedTables
  rw [h.isBack, sourceName_congr h.config h.rules, targetName_congr h.config h.rules, h.store,
    h.watchKey, h.rules]

theorem SameView.flows (h : SameView w w') {queue : List Rename} (flows : Flows host queue w) :
    Flows host queue w' := by
  induction queue generalizing w w' with
  | nil => trivial
  | cons action rest ih =>
    refine ⟨h.passable host flows.1, ?_⟩
    apply ih (h.withTables _)
    rw [h.tablesAfter host]
    exact flows.2

theorem flows_append {queue rest : List Rename} {w : Worker} :
    Flows host (queue ++ rest) w ↔ Flows host queue w ∧ Flows host rest (afterAll host queue w) := by
  induction queue generalizing w with
  | nil => exact (and_iff_right trivial).symm
  | cons action queue ih => exact (and_congr_right fun _ => ih).trans and_assoc.symm

theorem SameView.afterAll (h : SameView w w') (queue : List Rename) :
    SameView (afterAll host queue w) (afterAll host queue w') := by
  induction queue generalizing w w' with
  | nil => exact h
  | cons action rest ih =>
    apply ih
    rw [← h.tablesAfter host]
    exact h.withTables _

/-! ### Removals -/

/-- A removal needs to tell whether its source is there, and the records if it is not. -/
theorem passable_removal {path : FilePath} : w.Passable host ⟨path, none⟩ ↔
    ((w.sourceName ⟨path, none⟩).isSome → Visible host path) ∧
      (w.isBack host ⟨path, none⟩ = false → (w.sourceName ⟨path, none⟩).isSome →
        w.engine.store.Readable) := by
  constructor
  · intro h
    refine ⟨h.source rfl, fun gone named => ?_⟩
    by_contra unreadable
    exact h.names gone ((moveRejected_none_iff w path).2 ⟨named, unreadable⟩)
  · intro ⟨source, readable⟩
    refine ⟨fun _ => source, fun gone rejected => ?_, nofun⟩
    obtain ⟨named, unreadable⟩ := (moveRejected_none_iff w path).1 rejected
    exact unreadable (readable gone named)

/-- A removal that is applied leaves the records of the named objects as readable as they were. -/
theorem Passable.readable_iff {path : FilePath} (h : w.Passable host ⟨path, none⟩) :
    (w.tablesAfter host ⟨path, none⟩).Readable ↔ w.engine.store.Readable := by
  unfold Worker.tablesAfter
  cases back : w.isBack host ⟨path, none⟩ with
  | true => rw [if_pos rfl]
  | false =>
    rw [if_neg (by decide)]
    unfold movedTables
    cases named : w.sourceName ⟨path, none⟩ with
    | none => exact Iff.rfl
    | some source =>
      have readable := (passable_removal host).1 h |>.2 back (by rw [named]; rfl)
      exact iff_of_true (MetadataStore.unbound_readable _ _ _ readable) readable

/-- In what order removals are applied makes no difference. -/
theorem flows_removals {paths : List FilePath} {w : Worker} :
    Flows host (paths.map fun path => ⟨path, none⟩) w ↔
      ∀ path ∈ paths, w.Passable host ⟨path, none⟩ := by
  induction paths generalizing w with
  | nil => simp [Flows]
  | cons path rest ih =>
    rw [List.forall_mem_cons]
    refine and_congr_right fun passable => ih.trans (forall₂_congr fun other _ => ?_)
    rw [passable_removal, passable_removal]
    apply and_congr Iff.rfl
    exact imp_congr Iff.rfl (imp_congr Iff.rfl (passable.readable_iff host))

theorem flows_waiting_perm (queue : List Rename) {paths paths' : List FilePath}
    (perm : paths.Perm paths') :
    Flows host (queue ++ paths.map fun path => ⟨path, none⟩) w ↔
      Flows host (queue ++ paths'.map fun path => ⟨path, none⟩) w := by
  rw [flows_append, flows_append, flows_removals, flows_removals]
  exact and_congr_right fun _ => forall_congr' fun path => imp_congr perm.mem_iff Iff.rfl

/-! ### Calls -/

theorem renameLoop_error {rest : List Rename} {e : OosLiteError}
    (h : (w.applyRename host action).1 = .error e) :
    renameLoop host (action :: rest) w = (.error e, (w.applyRename host action).2) := by
  unfold renameLoop
  simp only [h]

theorem renameLoop_ok {rest : List Rename} (h : (w.applyRename host action).1 = .ok ()) :
    renameLoop host (action :: rest) w =
      renameLoop host rest ((w.applyRename host action).2.withRenames rest) := by
  conv => lhs; unfold renameLoop
  simp only [h]

/-- The loop empties the queue if every action can be applied, and else stops at one that
cannot. -/
theorem renameLoop_spec (queue : List Rename) (w : Worker) (holds : w.pending.renames = queue) :
    (renameLoop host queue w).2.cancelled = w.cancelled ∧
      (renameLoop host queue w).2.pending.halves = w.pending.halves ∧
      (Flows host queue w ∧ (renameLoop host queue w).2.pending.renames = [] ∧
          SameView (afterAll host queue w) (renameLoop host queue w).2 ∨
        ¬ Flows host queue w ∧ ∃ action rest,
          (renameLoop host queue w).2.pending.renames = action :: rest ∧
            ¬ (renameLoop host queue w).2.Passable host action) := by
  induction queue generalizing w with
  | nil => exact ⟨rfl, rfl, .inl ⟨trivial, holds, rfl, rfl, rfl, rfl⟩⟩
  | cons action rest ih =>
    obtain ⟨store, requeues⟩ := applyRename_requeues host w action
    have running : (w.applyRename host action).2.cancelled = w.cancelled := by
      unfold cancelled
      rw [requeues.running, requeues.cancellable]
      rfl
    have halves : (w.applyRename host action).2.pending.halves = w.pending.halves := by
      unfold Pending.halves
      rw [requeues.trackedFrom, requeues.untrackedFrom]
      rfl
    by_cases passable : w.Passable host action
    · have tables := applyRename_tables host passable
      rw [renameLoop_ok host ((applyRename_ok host).2 passable)]
      generalize next : (w.applyRename host action).2.withRenames rest = w'
      have same : SameView (w.withTables (w.tablesAfter host action)) w' := by
        subst next
        exact ⟨congrArg Engine.store tables.engine, tables.config, tables.rules, tables.watchKey⟩
      obtain ⟨cancelled, kept, outcome⟩ := ih w' (by subst next; rfl)
      have same' : w'.cancelled = w.cancelled ∧ w'.pending.halves = w.pending.halves := by
        subst next
        exact ⟨running, halves⟩
      refine ⟨cancelled.trans same'.1, kept.trans same'.2, ?_⟩
      rcases outcome with ⟨flows, emptied, view⟩ | ⟨blocked, stuck⟩
      · exact .inl ⟨⟨passable, same.symm.flows host flows⟩, emptied, (same.afterAll host rest).trans view⟩
      · exact .inr ⟨fun flows => blocked (same.flows host flows.2), stuck⟩
    · cases applied : (w.applyRename host action).1 with
      | ok value => exact absurd ((applyRename_ok host).1 applied) passable
      | error e =>
        rw [renameLoop_error host applied]
        refine ⟨running, halves, .inr ⟨fun flows => passable flows.1, action, rest, ?_, ?_⟩⟩
        · rw [requeues.renames]
          exact holds
        · exact applyRename_blocked host passable

theorem passable_at (now : Nat) : w.Passable (host.at now) action ↔ w.Passable host action := by
  constructor
  · intro h
    exact ⟨h.source, h.names, h.target⟩
  · intro h
    exact ⟨h.source, h.names, h.target⟩

theorem flows_at (now : Nat) {queue : List Rename} {w : Worker} :
    Flows (host.at now) queue w ↔ Flows host queue w := by
  induction queue generalizing w with
  | nil => exact Iff.rfl
  | cons action rest ih => exact and_congr (passable_at host now) ih

theorem afterAll_at (now : Nat) (queue : List Rename) (w : Worker) :
    afterAll (host.at now) queue w = afterAll host queue w := by
  induction queue generalizing w with
  | nil => rfl
  | cons action rest ih => exact ih _

/-- So many calls of `process_renames`, while nothing else happens. -/
def calls (clock : Nat → Nat) : Nat → Worker → Worker
  | 0, w => w
  | n + 1, w => ((calls clock n w).processRenames (host.at (clock n))).2

/-- What one call does: what waits afterwards can be applied if what waited before could, and then the
queue is empty. -/
theorem processRenames_spec (now : Nat) (running : w.cancelled = false) :
    let w' := (w.processRenames (host.at now)).2
    w'.cancelled = false ∧ (∀ half ∈ w'.pending.halves, half ∈ w.pending.halves) ∧
      ((∀ half ∈ w.pending.halves, half.2 + renameTimeout ≤ now) → w'.pending.halves = []) ∧
      (Flows host w'.pending.waiting w' ↔ Flows host w.pending.waiting w) ∧
      (Flows host w.pending.waiting w → w'.pending.renames = []) := by
  intro w'
  obtain ⟨expired, renames, perm, late⟩ := w.pending.exists_expired now
  generalize start : ({ w with pending := w.pending.expireRenames now } : Worker) = w₀
  have same : SameView w w₀ := by
    subst start
    exact ⟨rfl, rfl, rfl, rfl⟩
  have result : w' = (renameLoop (host.at now) (w.pending.expireRenames now).renames w₀).2 := by
    subst start
    show (w.processRenames (host.at now)).2 = _
    unfold processRenames
    rw [if_neg (by simp [running])]
    rfl
  obtain ⟨cancelled, halves, outcome⟩ := renameLoop_spec (host.at now)
    (w.pending.expireRenames now).renames w₀ (by subst start; rfl)
  rw [← result] at cancelled halves outcome
  have halves : w'.pending.halves = (w.pending.expireRenames now).halves := by
    subst start
    exact halves
  -- what waits is what is in the queue now, and the halves that have not expired
  have all : Flows host w.pending.waiting w ↔ Flows host ((w.pending.expireRenames now).renames ++
      w'.pending.halves.map fun half => ⟨half.1, none⟩) w := by
    have order := flows_waiting_perm host (w := w) w.pending.renames (perm.map Prod.fst)
    simp only [List.map_map, Function.comp_def, List.map_append] at order
    unfold Pending.waiting
    rw [order, renames, List.append_assoc, halves]
  simp only [flows_at, passable_at, afterAll_at] at outcome
  refine ⟨?_, ?_, fun waited => halves.trans (late waited), ?_⟩
  · subst start
    exact cancelled.trans running
  · intro half there
    exact perm.mem_iff.2 (List.mem_append_right _ (halves ▸ there))
  rw [all, flows_append]
  rcases outcome with ⟨flows, emptied, view⟩ | ⟨blocked, action, rest, front, refused⟩
  · have view' := (same.afterAll host (w.pending.expireRenames now).renames).trans view
    refine ⟨?_, fun _ => emptied⟩
    unfold Pending.waiting
    rw [emptied, List.nil_append]
    constructor
    · exact fun later => ⟨same.symm.flows host flows, view'.symm.flows host later⟩
    · exact fun h => view'.flows host h.2
  · have stays : ¬ Flows host (w.pending.expireRenames now).renames w :=
      fun flows => blocked (same.flows host flows)
    refine ⟨iff_of_false ?_ fun h => stays h.1, fun h => absurd h.1 stays⟩
    unfold Pending.waiting
    rw [front]
    exact fun h => refused h.1

/-- What many calls do. -/
theorem calls_spec (clock : Nat → Nat) (running : w.cancelled = false) (n : Nat) :
    (calls host clock n w).cancelled = false ∧
      (∀ half ∈ (calls host clock n w).pending.halves, half ∈ w.pending.halves) ∧
      (Flows host (calls host clock n w).pending.waiting (calls host clock n w) ↔
        Flows host w.pending.waiting w) := by
  induction n with
  | zero => exact ⟨running, fun _ there => there, Iff.rfl⟩
  | succ n ih =>
    obtain ⟨running', halves, flows⟩ := ih
    obtain ⟨running'', halves', -, flows', -⟩ := processRenames_spec host (clock n) running'
    exact ⟨running'', fun half there => halves half (halves' half there), flows'.trans flows⟩

/-- A worker that is cancelled does nothing. -/
theorem calls_cancelled (clock : Nat → Nat) (cancelled : w.cancelled = true) (n : Nat) :
    calls host clock n w = w := by
  induction n with
  | zero => rfl
  | succ n ih =>
    unfold calls Worker.processRenames
    rw [ih, if_pos cancelled]

/-- If time passes until no half waits any more, calls of `process_renames` come to a state without
renames, in which updates are processed again, exactly if each action that is queued or waits as a half
can be applied in turn. A worker that is cancelled leaves its queue as it is. -/
theorem calls_empty_queue_iff (host : Host) (clock : Nat → Nat) (w : Worker)
    (passes : ∃ n, ∀ half ∈ w.pending.halves, half.2 + renameTimeout ≤ clock n) :
    (∃ n, (calls host clock n w).pending.hasRenames = false) ↔
      w.cancelled = true ∧ w.pending.hasRenames = false ∨
        w.cancelled = false ∧ Flows host w.pending.waiting w := by
  cases running : w.cancelled with
  | true => simp [calls_cancelled host clock running]
  | false =>
    simp only [Bool.false_eq_true, false_and, true_and, false_or]
    constructor
    · rintro ⟨n, none⟩
      obtain ⟨-, -, flows⟩ := calls_spec host clock running n
      rw [Pending.hasRenames_iff_waiting] at none
      rw [none] at flows
      exact flows.1 trivial
    · intro flows
      obtain ⟨n, late⟩ := passes
      obtain ⟨running', halves, flows'⟩ := calls_spec host clock running n
      obtain ⟨-, -, gone, -, emptied⟩ := processRenames_spec host (clock n) running'
      refine ⟨n + 1, (Pending.hasRenames_iff_waiting _).2 ?_⟩
      unfold Pending.waiting calls
      rw [emptied (flows'.2 flows), gone fun half there => late half (halves half there)]
      rfl

end Queue

end Worker

/-! ## A rename that is never done with -/

namespace RenameSample

/-- The file `a` has been renamed to a name with a colon. -/
def host : Host where
  now := 0
  seconds := 0
  metadata path := if path = ["watched", "b:c"] then .ok ⟨.file, 0⟩ else .error .notFound
  symlinkMetadata path := if path = ["watched", "b:c"] then .ok ⟨.file, 0⟩ else .error .notFound
  walk _ := []
  read path := if path = ["watched", "b:c"] then .ok [] else .error .notFound
  fault _ := none

def idOf (n : UInt8) : ObjectId := FixedBytes.ofBytes 16 [n]

/-- Tracked files, each with an object of its own. -/
def stored (files : List (String × ObjectId)) : MetadataStore :=
  files.foldl (fun m file => ((m.putObject ⟨file.2, 1, [⟨1, "", 0, 0⟩]⟩).bindName file.1 file.2).markWatcherFile
    "/watched" file.1) .empty

def rename : Rename := ⟨["watched", "a"], some ["watched", "b:c"]⟩

def worker (files : List (String × ObjectId)) (renames : List Rename) : Worker where
  engine := ⟨stored files, fun _ => idOf 0, 0⟩
  config := ⟨["watched"], 0, 0⟩
  rules := ⟨[]⟩
  watchKey := "/watched"
  running := true
  pending := { Pending.empty with renames }
  lastSynced := ∅
  cancellable := true

/-- The queue with a rename to an invalid name. -/
def blocked : Worker := worker [("a", idOf 1)] [rename]

/-- The file `a` has been renamed to `b`, and the two halves are of files that are gone. -/
def quietHost : Host :=
  { host with metadata := fun path => if path = ["watched", "b"] then .ok ⟨.file, 0⟩ else .error .notFound }

def flowing : Worker :=
  { worker [("a", idOf 1), ("c", idOf 2), ("d", idOf 3)] [] with
    pending :=
      { Pending.empty with
        renames := [⟨["watched", "a"], some ["watched", "b"]⟩]
        trackedFrom := [(7, ["watched", "b"], 0), (8, ["watched", "c"], 1500)]
        untrackedFrom := [(["watched", "d"], 800)] } }

end RenameSample

/-- A rename and three halves, with a call each second. -/
theorem calls_empty_queue_iff_flowing : ∃ n, (RenameSample.flowing.calls RenameSample.quietHost
    (fun n => 1000 * n) n).pending.hasRenames = false := by
  have passable {w : Worker} {action : Rename}
      (applied : (w.applyRename RenameSample.quietHost action).1.isOk = true) :
      w.Passable RenameSample.quietHost action := by
    apply (Worker.applyRename_ok RenameSample.quietHost).1
    cases result : (w.applyRename RenameSample.quietHost action).1 with
    | error e =>
      rw [result] at applied
      cases applied
    | ok done => rfl
  apply (Worker.calls_empty_queue_iff RenameSample.quietHost (fun n => 1000 * n) RenameSample.flowing
    ⟨4, by decide⟩).2
  refine .inr ⟨rfl, passable ?_, passable ?_, passable ?_, passable ?_, trivial⟩ <;> decide +kernel

/-- No call of `process_renames` gets past a rename to an invalid name. -/
theorem invalid_target_blocks_queue :
    ¬ ∃ clock n, (RenameSample.blocked.calls RenameSample.host clock n).pending.renames = [] := by
  rintro ⟨clock, n, empty⟩
  obtain ⟨-, halves, flows⟩ := Worker.calls_spec RenameSample.host (w := RenameSample.blocked) clock rfl n
  have none : (RenameSample.blocked.calls RenameSample.host clock n).pending.halves = [] :=
    List.eq_nil_iff_forall_not_mem.2 fun half there => List.not_mem_nil (halves half there)
  have waiting : (RenameSample.blocked.calls RenameSample.host clock n).pending.waiting = [] := by
    unfold Pending.waiting
    rw [empty, none]
    rfl
  rw [waiting] at flows
  have passable : RenameSample.blocked.Passable RenameSample.host RenameSample.rename :=
    (flows.1 trivial).1
  have applied := (Worker.applyRename_ok RenameSample.host).2 passable
  have failed : (RenameSample.blocked.applyRename RenameSample.host RenameSample.rename).1.isOk =
      false := by decide +kernel
  rw [applied] at failed
  cases failed

end OosLite
