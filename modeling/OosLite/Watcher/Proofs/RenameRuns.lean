import OosLite.Watcher.Proofs.RenamePairs

/-!
# Runs of renames

What the ledger says after a whole run, and what it says about the queues.
-/

namespace OosLite

/-! ## The halves of a run -/

section

variable (root : FilePath) (steps : List PendingStep)

/-- The steps are numbered. -/
theorem pairwise_zipIdx : steps.zipIdx.Pairwise fun e e' => e.2 < e'.2 := by
  have numbers : (steps.zipIdx.map Prod.snd).Pairwise (· < ·) := by
    rw [List.zipIdx_map_snd]
    exact List.pairwise_lt_range'
  exact List.pairwise_map.1 numbers

theorem nodup_fromHalves : (fromHalves root steps).Nodup := by
  refine List.pairwise_filterMap.2 ((pairwise_zipIdx steps).imp ?_)
  rintro e e' before half first _ first' rfl
  rw [← step_of_fromHalf first, ← step_of_fromHalf first'] at before
  exact Nat.lt_irrefl _ before

theorem nodup_toHalves : (toHalves root steps).Nodup := by
  refine List.pairwise_filterMap.2 ((pairwise_zipIdx steps).imp ?_)
  rintro e e' before half second _ second' rfl
  rw [← step_of_toHalf second, ← step_of_toHalf second'] at before
  exact Nat.lt_irrefl _ before

theorem nodup_halves (n : Nat) (step : PendingStep) : (step.halves root n).Nodup := by
  cases step with
  | receive event now =>
    have numbers : (event.paths.zipIdx.map Prod.snd).Nodup := by
      rw [List.zipIdx_map_snd]
      exact List.nodup_range'
    refine List.pairwise_map.2 ((List.pairwise_map.1 numbers).imp ?_)
    intro e e' different same
    exact different (congrArg Half.place same)
  | _ => exact .nil

theorem nodup_wholeRenames : (wholeRenames root steps).Nodup := by
  refine List.pairwise_flatMap.2 ⟨?_, (pairwise_zipIdx steps).imp ?_⟩
  · rintro ⟨step, n⟩ -
    unfold PendingStep.wholes
    split
    · exact List.nodup_singleton _
    · exact (nodup_halves root n step).map fun a b same => (Prod.mk.inj same).1
    · exact .nil
  · rintro e e' before w whole _ whole' rfl
    rw [← step_of_mem_wholes whole, ← step_of_mem_wholes whole'] at before
    exact Nat.lt_irrefl _ before

variable {root steps}

theorem step_lt_of_mem_fromHalves {half : Half} (h : half ∈ fromHalves root steps) :
    half.step < steps.length := by
  obtain ⟨e, there, first⟩ := List.mem_filterMap.1 h
  rw [step_of_fromHalf first]
  exact List.snd_lt_of_mem_zipIdx there

/-- A `To` half has come in its step. -/
theorem step_of_mem_toHalves {half : Half} (h : half ∈ toHalves root steps) :
    half.step < steps.length ∧
      ∃ step, steps[half.step]? = some step ∧ step.toHalf root half.step = some half := by
  obtain ⟨e, there, second⟩ := List.mem_filterMap.1 h
  rw [step_of_toHalf second]
  exact ⟨List.snd_lt_of_mem_zipIdx there, e.1, List.mem_zipIdx_iff_getElem?.1 there, second⟩

end

/-! ## What one step does to the queues -/

theorem Pending.renameTarget_room (p : Pending) (target : FilePath) (tracker : Option Nat)
    (due : Nat) : (p.renameTarget target tracker due).room = (p.room.leave tracker).2 := by
  rw [p.renameTarget_eq]
  rcases WaitingRoom.leave_cases tracker p.room with ⟨key, e, -, -, same⟩ | ⟨e, rest, -, -, same⟩ |
    ⟨-, -, same⟩
  · rw [same]
    rfl
  · rw [same]
    rfl
  · rw [same]
    rfl

namespace PendingRun

variable {root : FilePath} {debounce : Nat} {s : PendingRun} {step : PendingStep}

/-- When the time is told and the halves without trackers are late, who is held back is not. -/
theorem fresh_step {now : Nat} (clock : step.clock = some now)
    (late : ∀ e ∈ s.pending.untrackedFrom, renameTimeout ≤ now - e.2) :
    (s.step root debounce step).pending.room.Fresh renameTimeout now := by
  have fresh : (s.pending.room.lapse renameTimeout now).2.Fresh renameTimeout now :=
    WaitingRoom.fresh_lapse late
  cases step with
  | receive event time =>
    by_cases other : event.kind = .other
    · have none := clock.symm.trans (if_pos other)
      cases none
    · obtain rfl : time = now := Option.some.inj ((if_neg other).symm.trans clock)
      have found : (s.pending.found time).room.Fresh renameTimeout time := fresh
      show (s.pending.receiveEvent event root debounce time).room.Fresh renameTimeout time
      rcases s.pending.receiveEvent_cases root debounce time 0 other rfl with
        ⟨half, -, -, -, its, becomes⟩ | ⟨half, -, -, -, -, becomes⟩ | ⟨-, -, room, -, -⟩
      · rw [becomes, Pending.renameSource_room, its]
        exact found.enter (by decide) half.tracker half.path
      · rw [becomes, Pending.renameTarget_room]
        exact found.leave half.tracker
      · rwa [room]
  | expire time =>
    obtain rfl : time = now := Option.some.inj clock
    exact fresh
  | applied => cases clock
  | rehash order => cases clock

/-- Updates stay. -/
theorem mem_updates_step {key : List String} (there : key ∈ s.pending.updates) :
    key ∈ (s.step root debounce step).pending.updates := by
  cases step with
  | receive event now =>
    show key ∈ (s.pending.receiveEvent event root debounce now).updates
    by_cases other : event.kind = .other
    · have same : s.pending.receiveEvent event root debounce now = s.pending := if_pos other
      rwa [same]
    · rcases s.pending.receiveEvent_cases root debounce now 0 other rfl with
        ⟨half, -, -, -, -, becomes⟩ | ⟨half, -, -, -, -, becomes⟩ | ⟨-, -, -, -, keys⟩
      · rw [becomes, Pending.renameSource_updates]
        exact there
      · rw [becomes, Pending.renameTarget_eq]
        split
        · exact there
        · exact Pending.mem_enqueue _ there _ _
      · exact keys key there
  | expire now => exact there
  | applied =>
    unfold PendingRun.step
    simp only
    split
    · exact there
    · exact there
  | rehash order =>
    unfold PendingRun.step
    simp only
    split
    · exact there
    · exact there

/-- A `To` half for which no half waits is an update. -/
theorem updates_step {n : Nat} {half : Half} (second : step.toHalf root n = some half) :
    (s.step root debounce step).pending.updates =
      if ((s.pending.expireRenames half.time).room.leave half.tracker).1.isSome then
        s.pending.updates
      else (s.pending.enqueue half.path (half.time + debounce)).updates := by
  cases step with
  | receive event now =>
    have other : event.kind ≠ .other := by
      intro same
      simp [PendingStep.toHalf, PendingStep.kind, same] at second
    show (s.pending.receiveEvent event root debounce now).updates = _
    rcases s.pending.receiveEvent_cases root debounce now n other rfl with
      ⟨half', -, no, -⟩ | ⟨half', -, its, -, time, becomes⟩ | ⟨-, no, -⟩
    · rw [no] at second
      cases second
    · obtain rfl : half' = half := Option.some.inj (its.symm.trans second)
      have room : (s.pending.found now).room = (s.pending.expireRenames half'.time).room := by
        rw [time]
        rfl
      rw [becomes, Pending.renameTarget_eq, room]
      rcases (s.pending.expireRenames half'.time).room.leave half'.tracker with ⟨_ | old, rest⟩
      · rfl
      · rfl
    · rw [no] at second
      cases second
  | _ => simp [PendingStep.toHalf, PendingStep.kind] at second

end PendingRun

/-! ## What the ledger says -/

namespace Ledger.Keeps

variable {root : FilePath} {debounce : Nat} {steps : List PendingStep} {taken : Half → Bool}
  {n : Nat} {froms tos : List Half} {told : List (Half × Option Half)} {s : PendingRun} {l : Ledger}

/-- Nothing has come. -/
theorem empty : Keeps steps taken 0 [] [] [] ⟨Pending.empty, []⟩ ⟨⟨[], []⟩, [], []⟩ where
  room := rfl
  actions := rfl
  moves := .refl ⟨.nil, nofun, nofun⟩
  keyedTimes := nofun
  queuedTimes := nofun
  latest := nofun
  seconds := .refl _
  told := rfl
  sound := nofun
  past := nofun
  ordered := .nil
  used := nofun
  unused := nofun
  alone := nofun

theorem trackedFrom (k : l.Keeps steps taken n froms tos told s) :
    s.pending.trackedFrom = l.room.keyed.map fun e => (e.1, e.2.1.path, e.2.2) :=
  congrArg WaitingRoom.keyed k.room

theorem untrackedFrom (k : l.Keeps steps taken n froms tos told s) :
    s.pending.untrackedFrom = l.room.queued.map fun e => (e.1.path, e.2) :=
  congrArg WaitingRoom.queued k.room

theorem waits (k : l.Keeps steps taken n froms tos told s) {half : Half}
    (there : half ∈ l.room.waiting) : half.Waits s.pending := by
  unfold Half.Waits
  rcases List.mem_append.1 there with there | there
  · obtain ⟨e, member, rfl⟩ := List.mem_map.1 there
    have tracked : e.2.1.tracker = some e.1 := k.moves.tagged.keyed e member
    rw [tracked, k.trackedFrom, ← k.keyedTimes e member]
    exact List.mem_map_of_mem member
  · obtain ⟨e, member, rfl⟩ := List.mem_map.1 there
    have untracked : e.1.tracker = none := k.moves.tagged.queued e member
    rw [untracked, k.untrackedFrom, ← k.queuedTimes e member]
    exact List.mem_map_of_mem member

theorem mem_first_or_waiting (k : l.Keeps steps taken n froms tos told s) {half : Half}
    (there : half ∈ froms) : half ∈ l.log.filterMap Origin.first ∨ half ∈ l.room.waiting :=
  List.mem_append.1 (k.moves.all.symm.subset (List.mem_append_right _ there))

theorem nodup (k : l.Keeps steps taken n froms tos told s) (distinct : froms.Nodup) :
    (l.log.filterMap Origin.first ++ l.room.waiting).Nodup :=
  k.moves.all.nodup_iff.2 distinct

/-- Halves that are late when the time is told are not held back any longer. -/
theorem settled (k : l.Keeps steps taken n froms tos told s) {step : PendingStep} {now : Nat}
    {come tos' : List Half} {told' : List (Half × Option Half)} {l' : Ledger}
    (k' : l'.Keeps steps taken n (froms ++ come) tos' told' (s.step root debounce step))
    (clock : step.clock = some now) (late : ∀ half ∈ froms, half.time + renameTimeout ≤ now)
    {half : Half} (there : half ∈ froms) : half ∈ l'.log.filterMap Origin.first := by
  have fresh : (l'.room.map Half.path).Fresh renameTimeout now := by
    rw [← k'.room]
    refine PendingRun.fresh_step clock ?_
    rw [k.untrackedFrom]
    intro e waits
    obtain ⟨e, member, rfl⟩ := List.mem_map.1 waits
    have known := late e.1 (k.mem_queued member)
    rw [← k.queuedTimes e member] at known
    exact Nat.le_sub_of_add_le' known
  have known := late half there
  rcases k'.mem_first_or_waiting (List.mem_append_left come there) with left | waits
  · exact left
  · rcases List.mem_append.1 waits with waits | waits
    · obtain ⟨e, member, rfl⟩ := List.mem_map.1 waits
      have early := fresh.keyed _ (List.mem_map_of_mem member)
      have time := k'.keyedTimes e member
      simp only at early
      omega
    · obtain ⟨e, member, rfl⟩ := List.mem_map.1 waits
      have early := fresh.queued _ (List.mem_map_of_mem member)
      have time := k'.queuedTimes e member
      simp only at early
      omega

/-- The actions that have not been applied. -/
theorem renames (k : l.Keeps steps taken n froms tos told s) :
    s.pending.renames = (l.log.drop s.applied.length).map Origin.action := by
  rw [List.map_drop, ← k.actions, PendingRun.actions, List.drop_left]

theorem hasRenames_iff (k : l.Keeps steps taken n froms tos told s) :
    s.pending.hasRenames = true ↔ l.log.drop s.applied.length ≠ [] ∨ l.room.waiting ≠ [] := by
  unfold Pending.hasRenames WaitingRoom.waiting
  rw [k.renames, k.trackedFrom, k.untrackedFrom]
  simp only [Bool.or_eq_true, Bool.not_eq_true', List.isEmpty_eq_false_iff, ne_eq,
    List.map_eq_nil_iff, List.append_eq_nil_iff, Classical.not_and_iff_not_or_not, or_assoc]

end Ledger.Keeps

/-- An action is made of a half, or is told in one. -/
theorem Origin.first_or_told (o : Origin) :
    (∃ half, o.first = some half) ∨ ∃ w, o.told = some w := by
  cases o with
  | paired source target => exact .inl ⟨source, rfl⟩
  | lapsed source n => exact .inl ⟨source, rfl⟩
  | replaced source n => exact .inl ⟨source, rfl⟩
  | whole source target => exact .inr ⟨(source, target), rfl⟩

/-- What is behind in a list is not in front. -/
theorem not_mem_filterMap_take {α β : Type} {f : α → Option β} {as : List α} {b : β} {n : Nat}
    (distinct : (as.filterMap f).Nodup) (behind : b ∈ (as.drop n).filterMap f) :
    b ∉ (as.take n).filterMap f := by
  rw [← List.take_append_drop n as, List.filterMap_append] at distinct
  exact fun before => List.disjoint_of_nodup_append distinct before behind

theorem mem_filterMap_drop {α β : Type} {f : α → Option β} {as : List α} {b : β} {n : Nat}
    (member : b ∈ as.filterMap f) (behind : b ∉ (as.take n).filterMap f) :
    b ∈ (as.drop n).filterMap f := by
  rw [← List.take_append_drop n as, List.filterMap_append] at member
  exact (List.mem_append.1 member).resolve_left behind

/-- There are renames while something is not in an action that has been applied. -/
theorem Ledger.Keeps.outstanding {steps : List PendingStep} {taken : Half → Bool} {n : Nat}
    {froms tos : List Half} {told : List (Half × Option Half)} {s : PendingRun} {l : Ledger}
    (k : l.Keeps steps taken n froms tos told s) (distinct : froms.Nodup) (distinct' : told.Nodup) :
    s.pending.hasRenames = true ↔
      (∃ half ∈ froms, half ∉ (l.log.take s.applied.length).filterMap Origin.first) ∨
        ∃ w ∈ told, w ∉ (l.log.take s.applied.length).filterMap Origin.told := by
  have nodup := k.nodup distinct
  rw [k.hasRenames_iff]
  constructor
  · rintro (behind | waits)
    · obtain ⟨o, there⟩ := List.exists_mem_of_ne_nil _ behind
      rcases o.first_or_told with ⟨half, first⟩ | ⟨w, whole⟩
      · have member : half ∈ (l.log.drop s.applied.length).filterMap Origin.first :=
          List.mem_filterMap.2 ⟨o, there, first⟩
        refine .inl ⟨half, ?_, not_mem_filterMap_take (List.nodup_append.1 nodup).1 member⟩
        have all := k.moves.all.subset (List.mem_append_left _
          (((List.drop_sublist _ _).filterMap _).subset member))
        simpa [WaitingRoom.waiting] using all
      · have member : w ∈ (l.log.drop s.applied.length).filterMap Origin.told :=
          List.mem_filterMap.2 ⟨o, there, whole⟩
        refine .inr ⟨w, ?_, not_mem_filterMap_take (k.told ▸ distinct') member⟩
        rw [← k.told]
        exact ((List.drop_sublist _ _).filterMap _).subset member
    · obtain ⟨half, there⟩ := List.exists_mem_of_ne_nil _ waits
      refine .inl ⟨half, k.mem_waiting there, fun before => ?_⟩
      exact List.disjoint_of_nodup_append nodup
        (((List.take_sublist _ _).filterMap _).subset before) there
  · rintro (⟨half, there, behind⟩ | ⟨w, there, behind⟩)
    · rcases k.mem_first_or_waiting there with left | waits
      · obtain ⟨o, member, -⟩ := List.mem_filterMap.1 (mem_filterMap_drop left behind)
        exact .inl (List.ne_nil_of_mem member)
      · exact .inr (List.ne_nil_of_mem waits)
    · rw [← k.told] at there
      obtain ⟨o, member, -⟩ := List.mem_filterMap.1 (mem_filterMap_drop there behind)
      exact .inl (List.ne_nil_of_mem member)

/-! ## Whole runs -/

section

variable (root : FilePath) (debounce : Nat) (steps : List PendingStep)

/-- A half waits when the `To` half comes. -/
def PendingRun.finds (half : Half) : Bool :=
  let before := (run root debounce (steps.take half.step)).pending
  ((before.expireRenames half.time).room.leave half.tracker).1.isSome

variable {steps}

theorem PendingRun.run_take_succ {n : Nat} {step : PendingStep} (here : steps[n]? = some step) :
    run root debounce (steps.take (n + 1)) =
      (run root debounce (steps.take n)).step root debounce step := by
  unfold run
  rw [(take_succ here).1, List.foldl_append]
  rfl

/-- A `To` half that finds no half is an update. -/
theorem PendingRun.updates_run {half : Half} (there : half ∈ toHalves root steps) :
    (run root debounce (steps.take (half.step + 1))).pending.updates =
      if finds root debounce steps half then
        (run root debounce (steps.take half.step)).pending.updates
      else
        ((run root debounce (steps.take half.step)).pending.enqueue half.path
          (half.time + debounce)).updates := by
  obtain ⟨-, step, here, second⟩ := step_of_mem_toHalves there
  rw [run_take_succ root debounce here]
  exact updates_step second

/-- Updates stay to the end of a run. -/
theorem PendingRun.mem_updates_run {key : List String} {n : Nat}
    (there : key ∈ (run root debounce (steps.take n)).pending.updates) :
    key ∈ (run root debounce steps).pending.updates := by
  rw [← List.take_append_drop n steps]
  unfold run at there ⊢
  rw [List.foldl_append]
  generalize (steps.take n).foldl (step root debounce) ⟨Pending.empty, []⟩ = s at there ⊢
  induction steps.drop n generalizing s with
  | nil => exact there
  | cons step rest ih => exact ih _ (mem_updates_step there)

/-- There is a ledger of what has happened so far, and late halves have left when the time was told. -/
theorem exists_keeps {n : Nat} (inside : n ≤ steps.length) :
    ∃ l : Ledger, l.Keeps steps (PendingRun.finds root debounce steps) n
        (fromHalves root (steps.take n)) (toHalves root (steps.take n))
        (wholeRenames root (steps.take n)) (PendingRun.run root debounce (steps.take n)) ∧
      ∀ m < n, ∀ step now, steps[m]? = some step → step.clock = some now →
        (∀ half ∈ fromHalves root (steps.take m), half.time + renameTimeout ≤ now) →
        ∀ half ∈ fromHalves root (steps.take m), half ∈ l.log.filterMap Origin.first := by
  induction n with
  | zero => exact ⟨_, Ledger.Keeps.empty, nofun⟩
  | succ n ih =>
    obtain ⟨l, k, settled⟩ := ih (Nat.le_of_succ_le inside)
    obtain ⟨step, here⟩ : ∃ step, steps[n]? = some step := ⟨_, List.getElem?_eq_getElem inside⟩
    have early : ∀ half ∈ fromHalves root (steps.take n), half.step < n := by
      intro half there
      have below := step_lt_of_mem_fromHalves there
      rwa [(take_succ here).2] at below
    have early' : ∀ half ∈ toHalves root (steps.take n), half.step < n := by
      intro half there
      have below := (step_of_mem_toHalves there).1
      rwa [(take_succ here).2] at below
    have its : ∀ t, step.toHalf root n = some t → PendingRun.finds root debounce steps t =
        (((PendingRun.run root debounce (steps.take n)).pending.expireRenames t.time).room.leave
          t.tracker).1.isSome := by
      intro t second
      unfold PendingRun.finds
      rw [step_of_toHalf second]
    obtain ⟨l', grows, k'⟩ := k.step root debounce early early' here its
    rw [fromHalves_take_succ here, toHalves_take_succ here, wholeRenames_take_succ here,
      PendingRun.run_take_succ root debounce here]
    refine ⟨l', k'.succ, ?_⟩
    intro m below step' now there clock late half member
    rcases Nat.lt_succ_iff_lt_or_eq.1 below with before | rfl
    · exact (grows.sublist.filterMap _).subset (settled m before step' now there clock late half member)
    · obtain rfl : step = step' := Option.some.inj (here.symm.trans there)
      exact k.settled k' clock late member

end

/-- Renames are neither lost nor made up, in any run. -/
theorem rename_halves_conserved (root : FilePath) (debounce : Nat) (steps : List PendingStep) :
    ∃ log, Accounted root debounce steps log := by
  obtain ⟨l, k, settled⟩ := exists_keeps root debounce (Nat.le_refl steps.length)
  rw [List.take_length] at k
  have distinct := k.nodup (nodup_fromHalves root steps)
  have distinct' := (k.seconds.nodup_iff).2 (nodup_toHalves root steps)
  have once := (List.nodup_append.1 distinct).1
  refine ⟨l.log, ?_⟩
  constructor
  case actions => exact k.actions
  case ordered => exact k.ordered
  case sound => exact k.sound
  case told => exact k.told
  case firsts =>
    intro half there
    by_cases left : half ∈ l.log.filterMap Origin.first
    · exact .inl (List.count_eq_one_of_mem once left)
    · exact .inr ⟨List.count_eq_zero.2 left,
        k.waits ((k.mem_first_or_waiting there).resolve_left left)⟩
  case settled =>
    rintro before step after now rfl clock late half there
    have inside : before.length < (before ++ step :: after).length := by simp
    have left := settled before.length inside step now (by simp) clock
    rw [List.take_left] at left
    exact List.count_eq_one_of_mem once (left late half there)
  case inOrder =>
    exact ⟨_, k.moves.inOrder⟩
  case seconds =>
    intro half there
    have updates := PendingRun.updates_run root debounce there
    have member := List.mem_append.1 (k.seconds.symm.subset there)
    by_cases found : PendingRun.finds root debounce steps half = true
    · rw [if_pos found] at updates
      have used := member.resolve_right fun other => by
        rw [k.unused half other] at found
        cases found
      exact .inl ⟨List.count_eq_one_of_mem (List.nodup_append.1 distinct').1 used, updates⟩
    · rw [if_neg found] at updates
      have left : half ∉ l.log.filterMap Origin.second := fun other => found (k.used half other)
      refine .inr ⟨List.count_eq_zero.2 left, updates, ?_, k.alone half (member.resolve_left left)⟩
      apply PendingRun.mem_updates_run root debounce (n := half.step + 1)
      rw [updates]
      exact Std.ExtTreeMap.mem_insert_self
  case hasRenames =>
    exact k.outstanding (nodup_fromHalves root steps) (nodup_wholeRenames root steps)

end OosLite
