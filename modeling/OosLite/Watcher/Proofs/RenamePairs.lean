import OosLite.Lib.WaitingRoom
import OosLite.Watcher.Halves

/-!
# Renames are neither lost nor made up

The two tables of halves are a waiting room, and so are the tables with the halves of a run in place of
their paths.
-/

namespace OosLite

open WaitingRoom (Moves Tagged)

/-! ## The tables of halves are a waiting room -/

namespace Pending

variable (p : Pending)

/-- The halves that are held back. -/
def room : WaitingRoom Nat FilePath := ⟨p.trackedFrom, p.untrackedFrom⟩

theorem expireRenames_room (now : Nat) :
    (p.expireRenames now).room = (p.room.lapse renameTimeout now).2 := rfl

theorem expireRenames_renames (now : Nat) : (p.expireRenames now).renames =
    p.renames ++ (p.room.lapse renameTimeout now).1.map fun source => ⟨source, none⟩ := rfl

theorem renameSource_room (path : FilePath) (tracker : Option Nat) (now : Nat) :
    (p.renameSource path tracker now).room = (p.room.enter tracker path now).2 := by
  cases tracker <;> rfl

theorem renameSource_renames (path : FilePath) (tracker : Option Nat) (now : Nat) :
    (p.renameSource path tracker now).renames =
      p.renames ++ (p.room.enter tracker path now).1.toList.map fun source => ⟨source, none⟩ := by
  cases tracker with
  | some tracker =>
    show p.renames ++ ((p.trackedFrom.lookup tracker).map _).toList =
      p.renames ++ ((p.trackedFrom.lookup tracker).map _).toList.map _
    cases p.trackedFrom.lookup tracker <;> rfl
  | none => simp [renameSource, WaitingRoom.enter]

theorem renameSource_updates (path : FilePath) (tracker : Option Nat) (now : Nat) :
    (p.renameSource path tracker now).updates = p.updates := by
  cases tracker <;> rfl

/-- A `To` half takes the half that waits for it, or is an update. -/
theorem renameTarget_eq (target : FilePath) (tracker : Option Nat) (due : Nat) :
    p.renameTarget target tracker due =
      match p.room.leave tracker with
      | (some source, room) =>
        { p with trackedFrom := room.keyed, untrackedFrom := room.queued
                 renames := p.renames ++ [⟨source, some target⟩] }
      | (none, _) => p.enqueue target due := by
  cases tracker with
  | some tracker =>
    unfold renameTarget WaitingRoom.leave room
    simp only
    cases p.trackedFrom.lookup tracker <;> rfl
  | none =>
    unfold renameTarget WaitingRoom.leave room
    simp only
    cases p.untrackedFrom <;> rfl

theorem enqueue_all (paths : List FilePath) (due : Nat) :
    (paths.foldl (fun p path => p.enqueue path due) p).room = p.room ∧
      (paths.foldl (fun p path => p.enqueue path due) p).renames = p.renames := by
  induction paths generalizing p with
  | nil => exact ⟨rfl, rfl⟩
  | cons path paths ih => exact ih (p.enqueue path due)

theorem mem_enqueue {key : List String} (there : key ∈ p.updates) (path : FilePath) (due : Nat) :
    key ∈ (p.enqueue path due).updates :=
  Std.ExtTreeMap.mem_insert.2 (.inr there)

theorem mem_enqueue_all {key : List String} (there : key ∈ p.updates) (paths : List FilePath)
    (due : Nat) : key ∈ (paths.foldl (fun p path => p.enqueue path due) p).updates := by
  induction paths generalizing p with
  | nil => exact there
  | cons path paths ih => exact ih (p.enqueue path due) (p.mem_enqueue there path due)

end Pending

/-! ## What becomes of the halves -/

/-- The halves that wait, what the actions are made of, and the `To` halves that are updates. -/
structure Ledger where
  room : WaitingRoom Nat Half
  log : List Origin
  alone : List Half

/-- What has come is where the ledger says, up to step `n`. -/
structure Ledger.Keeps (steps : List PendingStep) (taken : Half → Bool) (n : Nat)
    (froms tos : List Half) (told : List (Half × Option Half)) (s : PendingRun) (l : Ledger) :
    Prop where
  room : s.pending.room = l.room.map Half.path
  actions : s.actions = l.log.map Origin.action
  moves : Moves Half.tracker ⟨[], []⟩ froms (l.log.filterMap Origin.first) l.room
  keyedTimes : ∀ e ∈ l.room.keyed, e.2.2 = e.2.1.time
  queuedTimes : ∀ e ∈ l.room.queued, e.2 = e.1.time
  latest : ∀ e ∈ l.room.keyed, ∀ half ∈ froms, half.tracker = some e.1 →
    half.step ≤ e.2.1.step
  seconds : (l.log.filterMap Origin.second ++ l.alone).Perm tos
  told : l.log.filterMap Origin.told = told
  sound : ∀ o ∈ l.log, o.Sound steps froms tos
  past : ∀ o ∈ l.log, o.step ≤ n
  ordered : l.log.Pairwise fun o o' => o.step ≤ o'.step
  used : ∀ t ∈ l.log.filterMap Origin.second, taken t = true
  unused : ∀ t ∈ l.alone, taken t = false
  alone : ∀ t ∈ l.alone, ∀ half ∈ froms, half.tracker = t.tracker → half.step < t.step →
    ∃ o ∈ l.log, o.first = some half ∧ o.step ≤ t.step

/-- Halves that come later do not matter. -/
theorem Origin.Sound.mono {steps : List PendingStep} {n : Nat} {froms tos come tos' : List Half}
    {o : Origin} (h : o.Sound steps froms tos) (past : o.step ≤ n)
    (came : ∀ half ∈ come, half.step = n) : o.Sound steps (froms ++ come) (tos ++ tos') := by
  cases o with
  | paired source target =>
    obtain ⟨first, second, after, same, inTime, latest⟩ := h
    refine ⟨List.mem_append_left _ first, List.mem_append_left _ second, after, same, inTime, ?_⟩
    intro tracked half there its
    rcases List.mem_append.1 there with there | there
    · exact latest tracked half there its
    · exact .inr ((came half there).symm ▸ past)
  | lapsed source m => exact ⟨List.mem_append_left _ h.1, h.2⟩
  | replaced source m =>
    obtain ⟨first, tracked, after, half, there, again⟩ := h
    exact ⟨List.mem_append_left _ first, tracked, after, half, List.mem_append_left _ there, again⟩
  | whole source target => trivial

namespace Ledger.Keeps

variable {steps : List PendingStep} {taken : Half → Bool} {n : Nat} {froms tos : List Half}
  {told : List (Half × Option Half)} {s : PendingRun} {l : Ledger}

theorem mem_waiting (k : l.Keeps steps taken n froms tos told s) {half : Half}
    (waits : half ∈ l.room.waiting) : half ∈ froms := by
  have all := k.moves.all.subset (List.mem_append_right _ waits)
  simpa [WaitingRoom.waiting] using all

theorem mem_keyed (k : l.Keeps steps taken n froms tos told s) {e : Nat × Half × Nat}
    (waits : e ∈ l.room.keyed) : e.2.1 ∈ froms :=
  k.mem_waiting (List.mem_append_left _ (List.mem_map_of_mem waits))

theorem mem_queued (k : l.Keeps steps taken n froms tos told s) {e : Half × Nat}
    (waits : e ∈ l.room.queued) : e.1 ∈ froms :=
  k.mem_waiting (List.mem_append_right _ (List.mem_map_of_mem waits))

/-- What a part of a step has to say for itself. -/
theorem extend (k : l.Keeps steps taken n froms tos told s)
    (early : ∀ half ∈ froms, half.step < n) (early' : ∀ half ∈ tos, half.step < n)
    (s' : PendingRun) (room' : WaitingRoom Nat Half) (new : List Origin)
    (come tos' alone' : List Half)
    (room : s'.pending.room = room'.map Half.path)
    (actions : s'.actions = s.actions ++ new.map Origin.action)
    (moves : Moves Half.tracker l.room come (new.filterMap Origin.first) room')
    (keyed : ∀ e ∈ room'.keyed, e ∈ l.room.keyed ∧ (∀ half ∈ come, half.tracker ≠ some e.1) ∨
      e.2.1 ∈ come ∧ e.2.2 = e.2.1.time)
    (queued : ∀ e ∈ room'.queued, e ∈ l.room.queued ∨ e.2 = e.1.time)
    (came : ∀ half ∈ come, half.step = n)
    (seconds : (new.filterMap Origin.second ++ alone').Perm tos')
    (sound : ∀ o ∈ new, o.Sound steps (froms ++ come) (tos ++ tos') ∧ o.step = n)
    (used : ∀ t ∈ new.filterMap Origin.second, taken t = true)
    (unused : ∀ t ∈ alone', taken t = false ∧ t.step = n ∧ ∀ half ∈ l.room.waiting,
      half.tracker ≠ t.tracker) :
    Keeps steps taken n (froms ++ come) (tos ++ tos') (told ++ new.filterMap Origin.told) s'
      ⟨room', l.log ++ new, l.alone ++ alone'⟩ where
  room := room
  actions := by rw [actions, k.actions, List.map_append]
  moves := by
    rw [List.filterMap_append]
    exact k.moves.trans moves
  keyedTimes := by
    intro e there
    rcases keyed e there with old | new
    · exact k.keyedTimes e old.1
    · exact new.2
  queuedTimes := by
    intro e there
    rcases queued e there with old | new
    · exact k.queuedTimes e old
    · exact new
  latest := by
    intro e there half member its
    rcases keyed e there with old | new
    · rcases List.mem_append.1 member with member | member
      · exact k.latest e old.1 half member its
      · exact absurd its (old.2 half member)
    · rw [came _ new.1]
      rcases List.mem_append.1 member with member | member
      · exact Nat.le_of_lt (early half member)
      · exact Nat.le_of_eq (came half member)
  seconds := by
    rw [List.filterMap_append]
    have both := k.seconds.append seconds
    refine List.Perm.trans ?_ both
    simp only [List.append_assoc]
    refine List.Perm.append_left _ ?_
    rw [← List.append_assoc, ← List.append_assoc]
    exact List.perm_append_comm.append_right _
  told := by rw [List.filterMap_append, k.told]
  sound := by
    intro o there
    rcases List.mem_append.1 there with there | there
    · exact (k.sound o there).mono (k.past o there) came
    · exact (sound o there).1
  past := by
    intro o there
    rcases List.mem_append.1 there with there | there
    · exact k.past o there
    · exact Nat.le_of_eq (sound o there).2
  ordered := by
    rw [List.pairwise_append]
    refine ⟨k.ordered, List.pairwise_of_forall_mem_list ?_, ?_⟩
    · intro o there o' there'
      rw [(sound o there).2, (sound o' there').2]
    · intro o there o' there'
      rw [(sound o' there').2]
      exact k.past o there
  used := by
    intro t there
    rw [List.filterMap_append] at there
    rcases List.mem_append.1 there with there | there
    · exact k.used t there
    · exact used t there
  unused := by
    intro t there
    rcases List.mem_append.1 there with there | there
    · exact k.unused t there
    · exact (unused t there).1
  alone := by
    intro t there half member its before
    rcases List.mem_append.1 there with there | there
    · have second := early' t (k.seconds.subset (List.mem_append_right _ there))
      rcases List.mem_append.1 member with member | member
      · obtain ⟨o, logged, made⟩ := k.alone t there half member its before
        exact ⟨o, List.mem_append_left _ logged, made⟩
      · rw [came half member] at before
        omega
    · obtain ⟨-, now, nobody⟩ := unused t there
      rcases List.mem_append.1 member with member | member
      · have all := k.moves.all.symm.subset (List.mem_append_right _ member)
        rcases List.mem_append.1 all with left | waits
        · obtain ⟨o, logged, made⟩ := List.mem_filterMap.1 left
          exact ⟨o, List.mem_append_left _ logged, made, now ▸ k.past o logged⟩
        · exact absurd its (nobody half waits)
      · rw [came half member, now] at before
        omega

/-- Nobody comes and no action is made. -/
theorem quiet (k : l.Keeps steps taken n froms tos told s) {s' : PendingRun}
    {room' : WaitingRoom Nat Half} (room : s'.pending.room = room'.map Half.path)
    (actions : s'.actions = s.actions) (moves : Moves Half.tracker l.room [] [] room')
    (keyed : room'.keyed ⊆ l.room.keyed) (queued : room'.queued ⊆ l.room.queued) :
    Keeps steps taken n froms tos told s' ⟨room', l.log, l.alone⟩ where
  room := room
  actions := actions.trans k.actions
  moves := by simpa using k.moves.trans moves
  keyedTimes := fun e there => k.keyedTimes e (keyed there)
  queuedTimes := fun e there => k.queuedTimes e (queued there)
  latest := fun e there => k.latest e (keyed there)
  seconds := k.seconds
  told := k.told
  sound := k.sound
  past := k.past
  ordered := k.ordered
  used := k.used
  unused := k.unused
  alone := k.alone

/-- Halves that have waited too long become removals. -/
theorem expire (k : l.Keeps steps taken n froms tos told s) (early : ∀ half ∈ froms, half.step < n)
    (early' : ∀ half ∈ tos, half.step < n) {step : PendingStep} {now : Nat}
    (here : steps[n]? = some step) (clock : step.clock = some now) :
    Keeps steps taken n froms tos told { s with pending := s.pending.expireRenames now }
      ⟨(l.room.lapse renameTimeout now).2,
        l.log ++ (l.room.lapse renameTimeout now).1.map fun half => .lapsed half n, l.alone⟩ := by
  have firsts : ((l.room.lapse renameTimeout now).1.map fun half => Origin.lapsed half n).filterMap
      Origin.first = (l.room.lapse renameTimeout now).1 := by
    rw [List.filterMap_map]
    exact List.filterMap_some
  have seconds : ((l.room.lapse renameTimeout now).1.map fun half => Origin.lapsed half n).filterMap
      Origin.second = [] := by
    rw [List.filterMap_map, List.filterMap_eq_nil_iff]
    exact fun _ _ => rfl
  have wholes : ((l.room.lapse renameTimeout now).1.map fun half => Origin.lapsed half n).filterMap
      Origin.told = [] := by
    rw [List.filterMap_map, List.filterMap_eq_nil_iff]
    exact fun _ _ => rfl
  have extended := k.extend early early' { s with pending := s.pending.expireRenames now }
    (l.room.lapse renameTimeout now).2
    ((l.room.lapse renameTimeout now).1.map fun half => .lapsed half n) [] [] [] ?_ ?_ ?_ ?_ ?_ nofun ?_ ?_ ?_ nofun
  · simpa [wholes] using extended
  · rw [Pending.expireRenames_room, k.room, WaitingRoom.lapse_map]
  · show s.applied ++ (s.pending.expireRenames now).renames = _
    rw [Pending.expireRenames_renames, k.room, WaitingRoom.lapse_map, ← List.append_assoc,
      List.map_map, List.map_map]
    rfl
  · rw [firsts]
    exact k.moves.tagged.lapse renameTimeout now
  · intro e there
    rw [WaitingRoom.lapse_room] at there
    exact .inl ⟨List.mem_of_mem_filter there, nofun⟩
  · intro e there
    rw [WaitingRoom.lapse_room] at there
    exact .inl ((List.dropWhile_suffix _).subset there)
  · rw [seconds]
    exact .refl []
  · intro o there
    obtain ⟨half, left, rfl⟩ := List.mem_map.1 there
    obtain ⟨since, waits, late⟩ := WaitingRoom.late_of_lapse left
    have known : half ∈ froms ∧ since = half.time := by
      rcases waits with ⟨key, waits⟩ | waits
      · exact ⟨k.mem_keyed waits, k.keyedTimes _ waits⟩
      · exact ⟨k.mem_queued waits, k.queuedTimes _ waits⟩
    refine ⟨⟨by simpa using known.1, early half known.1, step, now, here, clock, ?_⟩, rfl⟩
    have timeout : 0 < renameTimeout := by decide
    rw [← known.2]
    omega
  · rw [seconds]
    exact nofun

/-- A `From` half is held back, and a half with its tracker becomes a removal. -/
theorem source (k : l.Keeps steps taken n froms tos told s) (early : ∀ half ∈ froms, half.step < n)
    (early' : ∀ half ∈ tos, half.step < n) {half : Half} (now : half.step = n) :
    Keeps steps taken n (froms ++ [half]) tos told
      { s with pending := s.pending.renameSource half.path half.tracker half.time }
      ⟨(l.room.enter half.tracker half half.time).2,
        l.log ++ (l.room.enter half.tracker half half.time).1.toList.map fun old => .replaced old n,
        l.alone⟩ := by
  have image := WaitingRoom.enter_map Half.path l.room half.tracker half half.time
  rw [← k.room] at image
  have firsts (old : Option Half) :
      (old.toList.map fun old => Origin.replaced old n).filterMap Origin.first = old.toList := by
    cases old <;> rfl
  have seconds (old : Option Half) :
      (old.toList.map fun old => Origin.replaced old n).filterMap Origin.second = [] := by
    cases old <;> rfl
  have wholes (old : Option Half) :
      (old.toList.map fun old => Origin.replaced old n).filterMap Origin.told = [] := by
    cases old <;> rfl
  have extended := k.extend early early'
    { s with pending := s.pending.renameSource half.path half.tracker half.time }
    (l.room.enter half.tracker half half.time).2
    ((l.room.enter half.tracker half half.time).1.toList.map fun old => .replaced old n)
    [half] [] [] ?_ ?_ ?_ ?_ ?_ ?_ ?_ ?_ ?_ nofun
  · simpa [wholes] using extended
  · rw [Pending.renameSource_room, image]
  · show s.applied ++ (s.pending.renameSource half.path half.tracker half.time).renames = _
    rw [Pending.renameSource_renames, image, ← List.append_assoc]
    cases (l.room.enter half.tracker half half.time).1 <;> rfl
  · rw [firsts]
    exact k.moves.tagged.enter rfl half.time
  · intro e there
    rcases WaitingRoom.keyed_of_enter there with ⟨old, other⟩ | ⟨-, new⟩
    · refine .inl ⟨old, fun half' member => ?_⟩
      rw [List.mem_singleton.1 member]
      exact other
    · rw [new]
      exact .inr ⟨List.mem_singleton_self half, rfl⟩
  · intro e there
    rcases WaitingRoom.queued_of_enter there with old | new
    · exact .inl old
    · rw [new]
      exact .inr rfl
  · intro half' member
    rw [List.mem_singleton.1 member]
    exact now
  · rw [seconds]
    exact .refl []
  · intro o there
    obtain ⟨old, left, rfl⟩ := List.mem_map.1 there
    obtain ⟨key, since, its, waits⟩ := WaitingRoom.mem_of_enter (Option.mem_toList.1 left)
    have tracked : old.tracker = some key := k.moves.tagged.keyed _ waits
    have known := k.mem_keyed waits
    refine ⟨⟨List.mem_append_left _ known, ?_, early old known, half, ?_, now, ?_⟩, rfl⟩
    · rw [tracked]
      exact Option.some_ne_none key
    · exact List.mem_append_right _ (List.mem_singleton_self half)
    · rw [tracked, its]
  · rw [seconds]
    exact nofun

/-- A `To` half makes a pair with the half that waits for it, or is an update. -/
theorem target (k : l.Keeps steps taken n froms tos told s) (early : ∀ half ∈ froms, half.step < n)
    (early' : ∀ half ∈ tos, half.step < n) {half : Half} (now : half.step = n) (due : Nat)
    (inTime : ∀ old, (l.room.leave half.tracker).1 = some old →
      half.time < old.time + renameTimeout)
    (its : taken half = (s.pending.room.leave half.tracker).1.isSome) :
    ∃ l' : Ledger, l.log <+: l'.log ∧ l'.Keeps steps taken n froms (tos ++ [half]) told
      { s with pending := s.pending.renameTarget half.path half.tracker due } := by
  have image := WaitingRoom.leave_map Half.path l.room half.tracker
  rw [← k.room] at image
  have moves := k.moves.tagged.leave half.tracker
  cases left : (l.room.leave half.tracker).1 with
  | some old =>
    rw [left] at image moves
    have waits : old ∈ froms ∧ old.tracker = half.tracker ∧
        (old.tracker ≠ none → ∀ half' ∈ froms, half'.tracker = old.tracker →
          half'.step ≤ old.step) := by
      obtain ⟨since, ⟨key, tracked, there⟩ | ⟨untracked, first⟩⟩ := WaitingRoom.mem_of_leave left
      · have same : old.tracker = some key := k.moves.tagged.keyed _ there
        refine ⟨k.mem_keyed there, same.trans tracked.symm, fun _ half' member its => ?_⟩
        exact k.latest _ there half' member (its.trans same)
      · have there : (old, since) ∈ l.room.queued := List.mem_of_mem_head? first
        have same : old.tracker = none := k.moves.tagged.queued _ there
        exact ⟨k.mem_queued there, same.trans untracked.symm, fun tracked => absurd same tracked⟩
    obtain ⟨known, same, latest⟩ := waits
    have whole := Pending.renameTarget_eq s.pending half.path half.tracker due
    rw [image] at whole
    refine ⟨⟨(l.room.leave half.tracker).2, l.log ++ [.paired old half], l.alone⟩,
      List.prefix_append _ _, ?_⟩
    have extended := k.extend early early'
      { s with pending := s.pending.renameTarget half.path half.tracker due }
      (l.room.leave half.tracker).2 [.paired old half] [] [half] [] ?_ ?_ moves ?_ ?_ nofun (.refl _) ?_ ?_ nofun
    · have none : [Origin.paired old half].filterMap Origin.told = [] := rfl
      simpa [none] using extended
    · rw [whole]
      rfl
    · rw [whole]
      show s.applied ++ (s.pending.renames ++ _) = _
      rw [← List.append_assoc]
      rfl
    · exact fun e there => .inl ⟨(WaitingRoom.keyed_of_leave there).1, nofun⟩
    · exact fun e there => .inl (WaitingRoom.queued_of_leave there)
    · intro o there
      obtain rfl := List.mem_singleton.1 there
      refine ⟨⟨List.mem_append_left _ known, ?_, ?_, same, inTime old left, ?_⟩, now⟩
      · exact List.mem_append_right _ (List.mem_singleton_self half)
      · rw [now]
        exact early old known
      · intro tracked half' member its
        rw [List.append_nil] at member
        exact .inl (latest tracked half' member its)
    · intro t there
      obtain rfl := List.mem_singleton.1 there
      rw [its, image]
      rfl
  | none =>
    obtain ⟨-, nobody⟩ := k.moves.tagged.not_waiting left
    rw [left] at image
    have whole := Pending.renameTarget_eq s.pending half.path half.tracker due
    rw [image] at whole
    refine ⟨⟨l.room, l.log, l.alone ++ [half]⟩, List.prefix_rfl, ?_⟩
    have extended := k.extend early early'
      { s with pending := s.pending.renameTarget half.path half.tracker due }
      l.room [] [] [half] [half]
      ?_ ?_ (.refl k.moves.tagged) (fun e there => .inl ⟨there, nofun⟩)
      (fun e there => .inl there) nofun (.refl _) nofun nofun ?_
    · simpa using extended
    · rw [whole]
      exact k.room
    · rw [whole]
      exact (List.append_nil _).symm
    · intro t there
      obtain rfl := List.mem_singleton.1 there
      exact ⟨by rw [its, image]; rfl, now, nobody⟩

/-- An event that tells the whole is an action. -/
theorem whole (k : l.Keeps steps taken n froms tos told s) (early : ∀ half ∈ froms, half.step < n)
    (early' : ∀ half ∈ tos, half.step < n) {wholes : List (Half × Option Half)}
    (now : ∀ w ∈ wholes, w.1.step = n) {s' : PendingRun} (room : s'.pending.room = s.pending.room)
    (actions : s'.actions = s.actions ++ wholes.map fun w => ⟨w.1.path, w.2.map Half.path⟩) :
    Keeps steps taken n froms tos (told ++ wholes) s'
      ⟨l.room, l.log ++ wholes.map fun w => .whole w.1 w.2, l.alone⟩ := by
  have firsts : (wholes.map fun w => Origin.whole w.1 w.2).filterMap Origin.first = [] := by
    rw [List.filterMap_map, List.filterMap_eq_nil_iff]
    exact fun _ _ => rfl
  have seconds : (wholes.map fun w => Origin.whole w.1 w.2).filterMap Origin.second = [] := by
    rw [List.filterMap_map, List.filterMap_eq_nil_iff]
    exact fun _ _ => rfl
  have same : (wholes.map fun w => Origin.whole w.1 w.2).filterMap Origin.told = wholes := by
    rw [List.filterMap_map]
    exact List.filterMap_some
  have extended := k.extend early early' s' l.room (wholes.map fun w => .whole w.1 w.2) [] [] []
    (room.trans k.room) ?_ ?_ (fun e there => .inl ⟨there, nofun⟩) (fun e there => .inl there)
    nofun ?_ ?_ ?_ nofun
  · simpa [same] using extended
  · rw [actions, List.map_map]
    rfl
  · rw [firsts]
    exact .refl k.moves.tagged
  · rw [seconds]
    exact .refl []
  · intro o there
    obtain ⟨w, member, rfl⟩ := List.mem_map.1 there
    exact ⟨trivial, now w member⟩
  · rw [seconds]
    exact nofun

end Ledger.Keeps

/-! ## The halves of a step -/

section

variable {root : FilePath} {steps : List PendingStep} {n : Nat} {step : PendingStep}

theorem step_of_mem_halves {half : Half} (h : half ∈ step.halves root n) : half.step = n := by
  cases step with
  | receive event now =>
    obtain ⟨e, -, rfl⟩ := List.mem_map.1 h
    rfl
  | _ => cases h

theorem step_of_fromHalf {half : Half} (h : step.fromHalf root n = some half) : half.step = n := by
  unfold PendingStep.fromHalf at h
  split at h
  · exact step_of_mem_halves (List.mem_of_mem_head? h)
  · cases h

theorem step_of_toHalf {half : Half} (h : step.toHalf root n = some half) : half.step = n := by
  unfold PendingStep.toHalf at h
  split at h
  · exact step_of_mem_halves (List.mem_of_mem_head? h)
  · cases h

theorem step_of_mem_wholes {w : Half × Option Half} (h : w ∈ step.wholes root n) :
    w.1.step = n := by
  unfold PendingStep.wholes at h
  split at h
  · rename_i source target _ halves
    obtain rfl := List.mem_singleton.1 h
    exact step_of_mem_halves (halves ▸ List.mem_cons_self)
  · obtain ⟨half, there, rfl⟩ := List.mem_map.1 h
    exact step_of_mem_halves there
  · cases h

theorem take_succ (here : steps[n]? = some step) :
    steps.take (n + 1) = steps.take n ++ [step] ∧ (steps.take n).length = n := by
  obtain ⟨inside, rfl⟩ := List.getElem?_eq_some_iff.1 here
  refine ⟨(List.take_append_getElem inside).symm, ?_⟩
  rw [List.length_take, Nat.min_eq_left (Nat.le_of_lt inside)]

theorem fromHalves_take_succ (here : steps[n]? = some step) :
    fromHalves root (steps.take (n + 1)) =
      fromHalves root (steps.take n) ++ (step.fromHalf root n).toList := by
  obtain ⟨split, length⟩ := take_succ here
  unfold fromHalves
  rw [split, List.zipIdx_append, List.filterMap_append, length, Nat.zero_add]
  cases found : step.fromHalf root n with
  | none => simp [found]
  | some half => simp [found]

theorem toHalves_take_succ (here : steps[n]? = some step) :
    toHalves root (steps.take (n + 1)) =
      toHalves root (steps.take n) ++ (step.toHalf root n).toList := by
  obtain ⟨split, length⟩ := take_succ here
  unfold toHalves
  rw [split, List.zipIdx_append, List.filterMap_append, length, Nat.zero_add]
  cases found : step.toHalf root n with
  | none => simp [found]
  | some half => simp [found]

theorem wholeRenames_take_succ (here : steps[n]? = some step) :
    wholeRenames root (steps.take (n + 1)) =
      wholeRenames root (steps.take n) ++ step.wholes root n := by
  obtain ⟨split, length⟩ := take_succ here
  unfold wholeRenames
  rw [split, List.zipIdx_append, List.flatMap_append, length, Nat.zero_add]
  simp

end

/-! ## What an event does -/

/-- The queues as an event finds them. -/
def Pending.found (p : Pending) (now : Nat) : Pending :=
  { p with generation := p.generation + 1 }.expireRenames now

/-- An event brings a `From` half, a `To` half, or actions. -/
theorem Pending.receiveEvent_cases (p : Pending) {event : Event} (root : FilePath)
    (debounce now n : Nat) (concerns : event.kind ≠ .other) {step : PendingStep}
    (here : step = .receive event now) :
    (∃ half, step.fromHalf root n = some half ∧ step.toHalf root n = none ∧
      step.wholes root n = [] ∧ half.time = now ∧ p.receiveEvent event root debounce now =
        (p.found now).renameSource half.path half.tracker half.time) ∨
    (∃ half, step.fromHalf root n = none ∧ step.toHalf root n = some half ∧
      step.wholes root n = [] ∧ half.time = now ∧ p.receiveEvent event root debounce now =
        (p.found now).renameTarget half.path half.tracker (half.time + debounce)) ∨
    step.fromHalf root n = none ∧ step.toHalf root n = none ∧
      (p.receiveEvent event root debounce now).room = (p.found now).room ∧
      (p.receiveEvent event root debounce now).renames = (p.found now).renames ++
        (step.wholes root n).map (fun w => ⟨w.1.path, w.2.map Half.path⟩) ∧
      ∀ key ∈ p.updates, key ∈ (p.receiveEvent event root debounce now).updates := by
  subst here
  obtain ⟨kind, paths, tracker⟩ := event
  obtain ⟨room, renames⟩ :=
    Pending.enqueue_all (p.found now) (paths.map (eventPath root)) (now + debounce)
  have renames := renames.trans (List.append_nil _).symm
  have keys : ∀ key ∈ p.updates, key ∈ ((paths.map (eventPath root)).foldl
      (fun p path => p.enqueue path (now + debounce)) (p.found now)).updates := fun _ there =>
    Pending.mem_enqueue_all (p.found now) there (paths.map (eventPath root)) (now + debounce)
  cases kind with
  | other => exact absurd rfl concerns
  | create => exact .inr (.inr ⟨rfl, rfl, room, renames, keys⟩)
  | modify => exact .inr (.inr ⟨rfl, rfl, room, renames, keys⟩)
  | remove =>
    refine .inr (.inr ⟨rfl, rfl, rfl, congrArg ((p.found now).renames ++ ·) ?_, fun _ there => there⟩)
    show (paths.map (eventPath root)).map _ = ((paths.zipIdx.map _).map _).map _
    rw [List.map_map, List.map_map, List.map_map]
    conv_lhs => rw [← List.zipIdx_map_fst 0 paths, List.map_map]
    rfl
  | modifyName mode =>
    cases mode with
    | other => exact .inr (.inr ⟨rfl, rfl, room, renames, keys⟩)
    | both =>
      rcases paths with _ | ⟨source, _ | ⟨target, _ | ⟨_, _⟩⟩⟩
      · exact .inr (.inr ⟨rfl, rfl, room, renames, keys⟩)
      · exact .inr (.inr ⟨rfl, rfl, room, renames, keys⟩)
      · exact .inr (.inr ⟨rfl, rfl, rfl, rfl, fun _ there => there⟩)
      · exact .inr (.inr ⟨rfl, rfl, room, renames, keys⟩)
    | source =>
      match paths with
      | [] => exact .inr (.inr ⟨rfl, rfl, rfl, (List.append_nil _).symm, fun _ there => there⟩)
      | path :: rest => exact .inl ⟨⟨n, 0, eventPath root path, tracker, now⟩, rfl, rfl, rfl, rfl, rfl⟩
    | target =>
      match paths with
      | [] => exact .inr (.inr ⟨rfl, rfl, rfl, (List.append_nil _).symm, fun _ there => there⟩)
      | path :: rest =>
        exact .inr (.inl ⟨⟨n, 0, eventPath root path, tracker, now⟩, rfl, rfl, rfl, rfl, rfl⟩)

/-! ## Every step accounts for its halves -/

namespace Ledger.Keeps

variable {root : FilePath} {debounce : Nat} {steps : List PendingStep} {taken : Half → Bool}
  {n : Nat} {froms tos : List Half} {told : List (Half × Option Half)} {s : PendingRun} {l : Ledger}

/-- An event of the kinds that are looked at. -/
theorem receive (k : l.Keeps steps taken n froms tos told s) (early : ∀ half ∈ froms, half.step < n)
    (early' : ∀ half ∈ tos, half.step < n) {event : Event} {now : Nat} {step : PendingStep}
    (same : step = .receive event now) (here : steps[n]? = some step)
    (concerns : event.kind ≠ .other)
    (its : ∀ t, step.toHalf root n = some t →
      taken t = ((s.pending.expireRenames t.time).room.leave t.tracker).1.isSome) :
    ∃ l' : Ledger, l.log <+: l'.log ∧ l'.Keeps steps taken n
      (froms ++ (step.fromHalf root n).toList) (tos ++ (step.toHalf root n).toList)
      (told ++ step.wholes root n) (s.step root debounce step) := by
  have clock : step.clock = some now := same ▸ if_neg concerns
  have counted : l.Keeps steps taken n froms tos told { s with pending :=
      { s.pending with generation := s.pending.generation + 1 } } :=
    k.quiet k.room rfl (.refl k.moves.tagged) (List.Subset.refl _) (List.Subset.refl _)
  have found := counted.expire early early' here clock
  have after : s.step root debounce step =
      { s with pending := s.pending.receiveEvent event root debounce now } := by rw [same]; rfl
  rw [after]
  rcases s.pending.receiveEvent_cases root debounce now n concerns same with
    ⟨half, first, second, whole, -, becomes⟩ | ⟨half, first, second, whole, time, becomes⟩ |
    ⟨first, second, room, renames, -⟩
  · rw [first, second, whole, becomes]
    have held := found.source early early' (step_of_fromHalf first)
    simp only [Option.toList_none, Option.toList_some, List.append_nil]
    exact ⟨_, (List.prefix_append _ _).trans (List.prefix_append _ _), held⟩
  · rw [first, second, whole, becomes]
    simp only [Option.toList_none, Option.toList_some, List.append_nil]
    have used : taken half =
        ((s.pending.found now).room.leave half.tracker).1.isSome := by
      rw [its half second, time]
      rfl
    have inTime : ∀ old, ((l.room.lapse renameTimeout now).2.leave half.tracker).1 = some old →
        half.time < old.time + renameTimeout := by
      intro old left
      obtain ⟨since, waits, inTime⟩ := WaitingRoom.in_time_of_leave left
      have known : since = old.time := by
        rcases waits with ⟨key, waits⟩ | waits
        · exact k.keyedTimes _ waits
        · exact k.queuedTimes _ waits
      have timeout : 0 < renameTimeout := by decide
      rw [known] at inTime
      omega
    obtain ⟨l', grows, kept⟩ := found.target early early' (step_of_toHalf second)
      (half.time + debounce) inTime used
    exact ⟨l', (List.prefix_append _ _).trans grows, kept⟩
  · rw [first, second]
    simp only [Option.toList_none, List.append_nil]
    exact ⟨_, (List.prefix_append _ _).trans (List.prefix_append _ _),
      found.whole early early' (fun w => step_of_mem_wholes) room
        ((congrArg (s.applied ++ ·) renames).trans (List.append_assoc _ _ _).symm)⟩

variable (root debounce) in
/-- One step of a run. -/
theorem step (k : l.Keeps steps taken n froms tos told s) (early : ∀ half ∈ froms, half.step < n)
    (early' : ∀ half ∈ tos, half.step < n) {step : PendingStep} (here : steps[n]? = some step)
    (its : ∀ t, step.toHalf root n = some t →
      taken t = ((s.pending.expireRenames t.time).room.leave t.tracker).1.isSome) :
    ∃ l' : Ledger, l.log <+: l'.log ∧ l'.Keeps steps taken n
      (froms ++ (step.fromHalf root n).toList) (tos ++ (step.toHalf root n).toList)
      (told ++ step.wholes root n) (s.step root debounce step) := by
  have silent {step : PendingStep} (kind : step.kind = .other) :
      step.fromHalf root n = none ∧ step.toHalf root n = none ∧ step.wholes root n = [] := by
    unfold PendingStep.fromHalf PendingStep.toHalf PendingStep.wholes
    rw [kind]
    exact ⟨rfl, rfl, rfl⟩
  have still (kind : step.kind = .other)
      (kept : ∃ l' : Ledger, l.log <+: l'.log ∧
        l'.Keeps steps taken n froms tos told (s.step root debounce step)) :
      ∃ l' : Ledger, l.log <+: l'.log ∧ l'.Keeps steps taken n
        (froms ++ (step.fromHalf root n).toList) (tos ++ (step.toHalf root n).toList)
        (told ++ step.wholes root n) (s.step root debounce step) := by
    obtain ⟨first, second, whole⟩ := silent kind
    rw [first, second, whole]
    simpa using kept
  cases found : step with
  | receive event now =>
    by_cases other : event.kind = .other
    · rw [found] at still
      apply still other
      have same : s.pending.receiveEvent event root debounce now = s.pending := if_pos other
      show ∃ l' : Ledger, l.log <+: l'.log ∧ l'.Keeps steps taken n froms tos told
        { s with pending := s.pending.receiveEvent event root debounce now }
      rw [same]
      exact ⟨l, List.prefix_rfl, k⟩
    · rw [← found]
      exact k.receive early early' found here other its
  | expire now =>
    rw [found] at still
    exact still rfl ⟨_, List.prefix_append _ _, k.expire early early' here (found ▸ rfl)⟩
  | applied =>
    rw [found] at still
    apply still rfl
    unfold PendingRun.step
    cases queue : s.pending.renames with
    | nil => exact ⟨l, List.prefix_rfl, by simpa [queue] using k⟩
    | cons action renames =>
      refine ⟨_, List.prefix_rfl, k.quiet k.room ?_ (.refl k.moves.tagged) (List.Subset.refl _)
        (List.Subset.refl _)⟩
      simp [PendingRun.actions, queue]
  | rehash order =>
    rw [found] at still
    apply still rfl
    unfold PendingRun.step
    simp only
    split
    · rename_i same
      have tracked : s.pending.trackedFrom = (l.room.map Half.path).keyed :=
        congrArg WaitingRoom.keyed k.room
      rw [tracked] at same
      obtain ⟨keyed, perm, image⟩ := WaitingRoom.exists_map_of_perm same
      refine ⟨⟨{ l.room with keyed }, l.log, l.alone⟩, List.prefix_rfl, k.quiet ?_ rfl
        (k.moves.tagged.reorder perm) perm.subset (List.Subset.refl _)⟩
      have queue : s.pending.untrackedFrom = (l.room.map Half.path).queued :=
        congrArg WaitingRoom.queued k.room
      show (⟨order, s.pending.untrackedFrom⟩ : WaitingRoom Nat FilePath) = _
      rw [queue, ← image]
      rfl
    · exact ⟨l, List.prefix_rfl, k⟩

/-- Time goes on. -/
theorem succ (k : l.Keeps steps taken n froms tos told s) :
    l.Keeps steps taken (n + 1) froms tos told s :=
  { k with past := fun o there => Nat.le_succ_of_le (k.past o there) }

end Ledger.Keeps

end OosLite
