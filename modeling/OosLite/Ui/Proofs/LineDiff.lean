import OosLite.Ui.Proofs.Myers

/-!
# The version diff shows both texts

What the three loops over the lines build up shows the lines of both texts that were gone through so
far; the edits in the middle lead from the one middle to the other on every path.
-/

namespace OosLite

open Edit

/-! ## Lines -/

/-- The lines of a text: behind each but the last there is a break, and a return before a break
belongs to the break. -/
inductive Lines : List Char → List (List Char) → Prop where
  | last {line} : '\n' ∉ line → Lines line [line]
  | lf {line rest lines} : '\n' ∉ line → line.getLast? ≠ some '\r' → Lines rest lines →
      Lines (line ++ '\n' :: rest) (line :: lines)
  | crlf {line rest lines} : '\n' ∉ line → Lines rest lines →
      Lines (line ++ '\r' :: '\n' :: rest) (line :: lines)

/-- Every text has lines. -/
theorem exists_lines (text : List Char) : ∃ lines, Lines text lines := by
  induction size : text.length using Nat.strongRecOn generalizing text with
  | ind n ih =>
    by_cases broken : '\n' ∈ text
    · obtain ⟨line, rest, rfl, single⟩ := List.eq_append_cons_of_mem broken
      have shorter : rest.length < n := by
        rw [← size, List.length_append, List.length_cons]
        omega
      obtain ⟨lines, below⟩ := ih rest.length shorter rest rfl
      by_cases returned : line.getLast? = some '\r'
      · obtain ⟨front, rfl⟩ := List.getLast?_eq_some_iff.1 returned
        rw [List.append_assoc]
        exact ⟨_, .crlf (fun there => single (List.mem_append_left _ there)) below⟩
      · exact ⟨_, .lf single returned below⟩
    · exact ⟨[text], .last broken⟩

/-- A line in front of others. -/
theorem splitOn_line {line : List Char} (single : '\n' ∉ line) (rest : List Char) :
    let parts := (line ++ '\n' :: rest).splitOn '\n'
    parts.dropLast = line :: (rest.splitOn '\n').dropLast ∧
      parts.getLast? = (rest.splitOn '\n').getLast? := by
  intro parts
  have front : parts = line :: rest.splitOn '\n' := by
    show List.splitOn '\n' _ = _
    rw [List.splitOn_append_cons_self, List.splitOn_eq_singleton single]
    rfl
  obtain ⟨last, others, more⟩ := List.exists_cons_of_ne_nil (List.splitOn_ne_nil '\n' rest)
  rw [front, more]
  exact ⟨rfl, List.getLast?_cons_cons⟩

/-- What is split off are the lines. -/
theorem Lines.splitLines {text : List Char} {lines : List (List Char)} (h : Lines text lines) :
    splitLines (String.ofList text) = lines.map String.ofList := by
  unfold OosLite.splitLines
  rw [String.toList_ofList]
  simp only
  congr 1
  induction h with
  | last single =>
    rw [List.splitOn_eq_singleton single]
    rfl
  | lf single plain _ ih =>
    obtain ⟨front, last⟩ := splitOn_line single _
    rw [front, last, List.map_cons, if_neg plain, List.cons_append, ih]
  | @crlf line rest lines single _ ih =>
    have within : '\n' ∉ line ++ ['\r'] := by
      rw [List.mem_append, List.mem_singleton]
      exact not_or.2 ⟨single, by decide⟩
    obtain ⟨front, last⟩ := splitOn_line within rest
    rw [List.append_cons, front, last, List.map_cons, List.getLast?_concat, if_pos rfl,
      List.dropLast_concat, List.cons_append, ih]

theorem splitLines_eq_iff {text : String} {lines : List String} :
    splitLines text = lines ↔ Lines text.toList (lines.map String.toList) := by
  have back (l : List (List Char)) : (l.map String.ofList).map String.toList = l := by
    rw [List.map_map]
    exact (List.map_congr_left fun _ _ => String.toList_ofList).trans (List.map_id l)
  constructor
  · intro same
    obtain ⟨l, h⟩ := exists_lines text.toList
    have split := h.splitLines
    rw [String.ofList_toList, same] at split
    rw [split, back]
    exact h
  · intro h
    have split := h.splitLines
    rw [String.ofList_toList, List.map_map] at split
    exact split.trans ((List.map_congr_left fun _ _ => String.ofList_toList).trans (List.map_id lines))

/-- Lines with their numbers, from 1. -/
def numbered (texts : List String) : List (Option Nat × String) :=
  texts.mapIdx fun i text => (some (i + 1), text)

theorem numbered_injective {texts texts' : List String} (same : numbered texts = numbered texts') :
    texts = texts' := by
  have back (texts : List String) : (numbered texts).map Prod.snd = texts := by
    unfold numbered
    rw [List.mapIdx_eq_zipIdx_map, List.map_map]
    exact List.zipIdx_map_fst 0 texts
  rw [← back texts, same, back]

@[simp] theorem numbered_nil : numbered [] = [] := rfl

theorem numbered_concat (texts : List String) (text : String) :
    numbered (texts ++ [text]) = numbered texts ++ [(some (texts.length + 1), text)] := by
  unfold numbered
  rw [List.mapIdx_concat]

namespace DiffLine

/-- The lines of the selected text, with their numbers. -/
def selected (lines : List DiffLine) : List (Option Nat × String) :=
  (lines.filter (·.type ≠ .del)).map fun l => (l.oldNum, l.text)

/-- The lines of the current text, with their numbers. -/
def current (lines : List DiffLine) : List (Option Nat × String) :=
  (lines.filter (·.type ≠ .add)).map fun l => (l.newNum, l.text)

theorem selected_concat (lines : List DiffLine) (l : DiffLine) : selected (lines ++ [l]) =
    if l.type = .del then selected lines else selected lines ++ [(l.oldNum, l.text)] := by
  unfold selected
  cases h : l.type <;> simp [h]

theorem current_concat (lines : List DiffLine) (l : DiffLine) : current (lines ++ [l]) =
    if l.type = .add then current lines else current lines ++ [(l.newNum, l.text)] := by
  unfold current
  cases h : l.type <;> simp [h]

end DiffLine

namespace DiffState

variable {s : DiffState} {selected current : List String}

/-- What is built up shows these lines of the two texts. -/
structure Shows (s : DiffState) (selected current : List String) : Prop where
  ofSelected : DiffLine.selected s.resultLines = numbered selected
  ofCurrent : DiffLine.current s.resultLines = numbered current
  curOldNum : s.curOldNum = selected.length + 1
  curNewNum : s.curNewNum = current.length + 1
  added : s.addedCount = s.resultLines.countP (·.type = .add)
  removed : s.removedCount = s.resultLines.countP (·.type = .del)

theorem Shows.pushSame (shows' : s.Shows selected current) (text : String) :
    (s.pushSame text).Shows (selected ++ [text]) (current ++ [text]) := by
  unfold DiffState.pushSame
  constructor
  · show DiffLine.selected (_ ++ [_]) = _
    rw [DiffLine.selected_concat, numbered_concat, shows'.ofSelected, shows'.curOldNum]
    rfl
  · show DiffLine.current (_ ++ [_]) = _
    rw [DiffLine.current_concat, numbered_concat, shows'.ofCurrent, shows'.curNewNum]
    rfl
  · rw [List.length_append, shows'.curOldNum]
    rfl
  · rw [List.length_append, shows'.curNewNum]
    rfl
  · rw [List.countP_append, ← shows'.added]
    rfl
  · rw [List.countP_append, ← shows'.removed]
    rfl

theorem Shows.pushEdit (shows' : s.Shows selected current) (e : Edit String) :
    (s.pushEdit e).Shows (selected ++ news [e]) (current ++ olds [e]) := by
  unfold DiffState.pushEdit
  rw [news_cons, olds_cons, news_nil, olds_nil]
  cases e.type with
  | same => exact shows'.pushSame e.text
  | del =>
    simp only [reduceCtorEq, if_true, if_false, List.append_nil]
    constructor
    · show DiffLine.selected (_ ++ [_]) = _
      rw [DiffLine.selected_concat, shows'.ofSelected]
      rfl
    · show DiffLine.current (_ ++ [_]) = _
      rw [DiffLine.current_concat, numbered_concat, shows'.ofCurrent, shows'.curNewNum]
      rfl
    · exact shows'.curOldNum
    · rw [List.length_append, shows'.curNewNum]
      rfl
    · rw [List.countP_append, ← shows'.added]
      rfl
    · rw [List.countP_append, ← shows'.removed]
      rfl
  | add =>
    simp only [reduceCtorEq, if_true, if_false, List.append_nil]
    constructor
    · show DiffLine.selected (_ ++ [_]) = _
      rw [DiffLine.selected_concat, numbered_concat, shows'.ofSelected, shows'.curOldNum]
      rfl
    · show DiffLine.current (_ ++ [_]) = _
      rw [DiffLine.current_concat, shows'.ofCurrent]
      rfl
    · rw [List.length_append, shows'.curOldNum]
      rfl
    · exact shows'.curNewNum
    · rw [List.countP_append, ← shows'.added]
      rfl
    · rw [List.countP_append, ← shows'.removed]
      rfl

/-- A loop over lines of both texts. -/
theorem Shows.foldl_pushSame (shows' : s.Shows selected current) (texts : List String) :
    (texts.foldl .pushSame s).Shows (selected ++ texts) (current ++ texts) := by
  induction texts generalizing s selected current with
  | nil =>
    rw [List.append_nil, List.append_nil]
    exact shows'
  | cons text texts ih =>
    have next := ih (shows'.pushSame text)
    rw [List.append_assoc, List.append_assoc] at next
    exact next

/-- The loop over the edits. -/
theorem Shows.foldl_pushEdit (shows' : s.Shows selected current) (edits : List (Edit String)) :
    (edits.foldl .pushEdit s).Shows (selected ++ news edits) (current ++ olds edits) := by
  induction edits generalizing s selected current with
  | nil =>
    rw [news_nil, olds_nil, List.append_nil, List.append_nil]
    exact shows'
  | cons e edits ih =>
    have next := ih (shows'.pushEdit e)
    have after : news (e :: edits) = news [e] ++ news edits := by
      rw [news_cons, news_cons]
      split <;> rfl
    have before : olds (e :: edits) = olds [e] ++ olds edits := by
      rw [olds_cons, olds_cons]
      split <;> rfl
    rw [List.append_assoc, List.append_assoc, ← after, ← before] at next
    exact next

end DiffState

/-! ## The middle -/

theorem olds_dels (texts : List String) : olds (texts.map fun l => ⟨.del, l⟩) = texts := by
  induction texts with
  | nil => rfl
  | cons text texts ih => rw [List.map_cons, olds_cons, ih]; rfl

theorem news_dels (texts : List String) : news (texts.map fun l => ⟨.del, l⟩) = [] := by
  induction texts with
  | nil => rfl
  | cons text texts ih => rw [List.map_cons, news_cons, ih]; rfl

theorem olds_adds (texts : List String) : olds (texts.map fun l => ⟨.add, l⟩) = [] := by
  induction texts with
  | nil => rfl
  | cons text texts ih => rw [List.map_cons, olds_cons, ih]; rfl

theorem news_adds (texts : List String) : news (texts.map fun l => ⟨.add, l⟩) = texts := by
  induction texts with
  | nil => rfl
  | cons text texts ih => rw [List.map_cons, news_cons, ih]; rfl

/-- On every path the edits lead from the one middle to the other. -/
theorem middleEdits_spec (midSelected midCurrent : List String) : ∃ edits,
    middleEdits midSelected midCurrent = some edits ∧
      news edits = midSelected ∧ olds edits = midCurrent := by
  unfold middleEdits
  by_cases noneSelected : midSelected.length = 0
  · rw [if_pos noneSelected, List.length_eq_zero_iff.1 noneSelected]
    exact ⟨_, rfl, news_dels midCurrent, olds_dels midCurrent⟩
  rw [if_neg noneSelected]
  by_cases noneCurrent : midCurrent.length = 0
  · rw [if_pos noneCurrent, List.length_eq_zero_iff.1 noneCurrent]
    exact ⟨_, rfl, news_adds midSelected, olds_adds midSelected⟩
  rw [if_neg noneCurrent]
  by_cases many : midSelected.length + midCurrent.length > 2000
  · rw [if_pos many]
    refine ⟨_, rfl, ?_, ?_⟩
    · unfold news
      rw [List.filter_append, List.map_append]
      show news _ ++ news _ = _
      rw [news_dels, news_adds, List.nil_append]
    · unfold olds
      rw [List.filter_append, List.map_append]
      show olds _ ++ olds _ = _
      rw [olds_dels, olds_adds, List.append_nil]
  · rw [if_neg many]
    obtain ⟨edits, d, result, before, after, -⟩ := runMyersLoop_spec midCurrent midSelected
    refine ⟨edits, ?_, after, before⟩
    unfold runMyers
    rw [result]
    rfl

/-! ## What both texts have in common -/

theorem take_commonPrefix (xs ys : List String) :
    xs.take (commonPrefix xs ys) = ys.take (commonPrefix xs ys) := by
  induction xs generalizing ys with
  | nil => rfl
  | cons x xs ih =>
    cases ys with
    | nil => rfl
    | cons y ys =>
      unfold commonPrefix
      by_cases same : x = y
      · rw [if_pos same, List.take_succ_cons, List.take_succ_cons, same, ih]
      · rw [if_neg same]
        rfl

theorem commonPrefix_le (xs ys : List String) :
    commonPrefix xs ys ≤ xs.length ∧ commonPrefix xs ys ≤ ys.length := by
  induction xs generalizing ys with
  | nil => exact ⟨Nat.zero_le _, Nat.zero_le _⟩
  | cons x xs ih =>
    cases ys with
    | nil => exact ⟨Nat.zero_le _, Nat.zero_le _⟩
    | cons y ys =>
      unfold commonPrefix
      have shorter := ih ys
      rw [List.length_cons, List.length_cons]
      split <;> omega

/-- A list in three parts, with so much in front and so much at the end. -/
theorem three_parts {xs : List String} {front suffix : Nat} (fits : front + suffix ≤ xs.length) :
    xs.take front ++ (xs.take (xs.length - suffix)).drop front ++ xs.drop (xs.length - suffix) =
      xs := by
  have first : (xs.take (xs.length - suffix)).take front = xs.take front := by
    rw [List.take_take, Nat.min_eq_left (by omega)]
  rw [← first, List.take_append_drop, List.take_append_drop]

/-- In front and at the end the two texts have the same lines. -/
theorem common_parts (xs ys : List String) :
    let front := commonPrefix xs ys
    let suffix := commonSuffix xs ys front
    front + suffix ≤ xs.length ∧ front + suffix ≤ ys.length ∧ xs.take front = ys.take front ∧
      xs.drop (xs.length - suffix) = ys.drop (ys.length - suffix) := by
  intro front suffix
  have le := commonPrefix_le xs ys
  have le' := commonPrefix_le (xs.drop front).reverse (ys.drop front).reverse
  have same := take_commonPrefix (xs.drop front).reverse (ys.drop front).reverse
  change front ≤ _ ∧ front ≤ _ at le
  change suffix ≤ _ ∧ suffix ≤ _ at le'
  change List.take suffix _ = List.take suffix _ at same
  rw [List.length_reverse, List.length_reverse, List.length_drop, List.length_drop] at le'
  refine ⟨by omega, by omega, take_commonPrefix xs ys, ?_⟩
  have atEnd (zs : List String) (fits : front + suffix ≤ zs.length) :
      ((zs.drop front).reverse.take suffix).reverse = zs.drop (zs.length - suffix) := by
    have start : front + (zs.length - front - suffix) = zs.length - suffix := by omega
    rw [List.reverse_take, List.reverse_reverse, List.length_reverse, List.length_drop,
      List.drop_drop, start]
  rw [← atEnd xs (by omega), ← atEnd ys (by omega), same]

/-! ## The diff -/

/-- Lines that are all in both texts. -/
theorem identical_lines (texts : List String) :
    let lines : List DiffLine := texts.mapIdx fun i l => ⟨.same, some (i + 1), some (i + 1), l⟩
    DiffLine.selected lines = numbered texts ∧ DiffLine.current lines = numbered texts ∧
      0 = lines.countP (·.type = .add) ∧ 0 = lines.countP (·.type = .del) := by
  intro lines
  have numbers : lines = texts.zipIdx.map fun x => ⟨.same, some (x.2 + 1), some (x.2 + 1), x.1⟩ :=
    List.mapIdx_eq_zipIdx_map
  have same : ∀ l ∈ lines, l.type = .same := by
    intro l there
    obtain ⟨i, small, rfl⟩ := List.mem_mapIdx.1 there
    rfl
  have all (other : EditType) (differs : other ≠ .same) :
      lines.filter (·.type ≠ other) = lines := by
    apply List.filter_eq_self.2
    intro l there
    rw [same l there]
    exact decide_eq_true differs.symm
  have none (other : EditType) (differs : other ≠ .same) : 0 = lines.countP (·.type = other) := by
    symm
    apply List.countP_eq_zero.2
    intro l there
    rw [same l there, decide_eq_true_eq]
    exact differs.symm
  refine ⟨?_, ?_, none .add (by decide), none .del (by decide)⟩
  · unfold DiffLine.selected numbered
    rw [all .del (by decide), numbers, List.mapIdx_eq_zipIdx_map, List.map_map]
    rfl
  · unfold DiffLine.current numbered
    rw [all .add (by decide), numbers, List.mapIdx_eq_zipIdx_map, List.map_map]
    rfl

/-- What the diff shows of the lines that are split off. -/
theorem computeLineDiff_shows (textSelected textCurrent : String) : ∃ diff,
    computeLineDiff textSelected textCurrent = some diff ∧
      DiffLine.selected diff.lines = numbered (splitLines textSelected) ∧
      DiffLine.current diff.lines = numbered (splitLines textCurrent) ∧
      diff.stats.added = diff.lines.countP (·.type = .add) ∧
      diff.stats.removed = diff.lines.countP (·.type = .del) := by
  unfold computeLineDiff
  by_cases same : textSelected = textCurrent
  · rw [if_pos same, ← same]
    exact ⟨_, rfl, identical_lines (splitLines textSelected)⟩
  · rw [if_neg same]
    generalize splitLines textSelected = linesSelected
    generalize splitLines textCurrent = linesCurrent
    obtain ⟨fits, fits', inFront, atEnd⟩ := common_parts linesSelected linesCurrent
    have parts := three_parts fits
    have parts' := three_parts fits'
    simp only
    generalize commonPrefix linesSelected linesCurrent = front at *
    generalize commonSuffix linesSelected linesCurrent front = suffix at *
    obtain ⟨edits, result, after, before⟩ := middleEdits_spec
      ((linesSelected.take (linesSelected.length - suffix)).drop front)
      ((linesCurrent.take (linesCurrent.length - suffix)).drop front)
    rw [result]
    have start : DiffState.Shows ⟨[], 1, 1, 0, 0⟩ [] [] := ⟨rfl, rfl, rfl, rfl, rfl, rfl⟩
    have shown := ((start.foldl_pushSame (linesSelected.take front)).foldl_pushEdit
      edits).foldl_pushSame (linesSelected.drop (linesSelected.length - suffix))
    rw [← inFront, ← atEnd] at parts'
    rw [List.nil_append, after, before, parts, parts'] at shown
    exact ⟨_, rfl, shown.ofSelected, shown.ofCurrent, shown.added, shown.removed⟩

/-- The lines of both texts, in order and with their numbers, are in the diff, and so are the counts of
those that are in one of them only. -/
theorem line_diff_shows (textSelected textCurrent : String) : ∃ diff,
    computeLineDiff textSelected textCurrent = some diff ∧
      (∀ texts, DiffLine.selected diff.lines = numbered texts ↔
        Lines textSelected.toList (texts.map String.toList)) ∧
      (∀ texts, DiffLine.current diff.lines = numbered texts ↔
        Lines textCurrent.toList (texts.map String.toList)) ∧
      diff.stats.added = diff.lines.countP (·.type = .add) ∧
      diff.stats.removed = diff.lines.countP (·.type = .del) := by
  obtain ⟨diff, result, selected, current, counts⟩ := computeLineDiff_shows textSelected textCurrent
  have only (shown : List (Option Nat × String)) (text : String)
      (all : shown = numbered (splitLines text)) (texts : List String) :
      shown = numbered texts ↔ Lines text.toList (texts.map String.toList) := by
    rw [all, ← splitLines_eq_iff]
    exact ⟨numbered_injective, congrArg numbered⟩
  exact ⟨diff, result, only _ _ selected, only _ _ current, counts⟩

end OosLite
