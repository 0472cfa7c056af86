import OosLite.Watcher.Ignore
import OosLite.Watcher.Proofs.PathNames

/-!
# What lies below an ignored directory

A scan does not look into an ignored directory, and events are checked by the whole path of their
file. The two agree if everything below an ignored path is ignored; a pattern with a dot and
without a slash at its end is where they may not.
-/

namespace OosLite

open FileTree (IsFileName)
open Files (IoError)
open FilePath

/-! ## Paths and their components -/

theorem Component.ofPath_text {p : FilePath} (h : Normal p) (nonempty : p ≠ []) :
    Component.ofPath (text p) = p.map .normal := by
  have parts : p.filterMap Component.ofPart = p.map .normal := by
    rw [← List.filterMap_eq_map]
    apply List.filterMap_congr
    intro name there
    obtain ⟨empty, dot, dots, -⟩ := h name there
    unfold Component.ofPart
    rw [if_neg (fun e => e.elim empty dot), if_neg dots]
    rfl
  unfold Component.ofPath
  simp only
  rw [split_text h nonempty, if_neg (text_ne_empty h nonempty), parts]
  cases p with
  | nil => exact absurd rfl nonempty
  | cons name rest =>
    obtain ⟨empty, dot, -⟩ := h name List.mem_cons_self
    split
    · rename_i same
      exact absurd (List.cons.inj same).1 empty
    · rename_i same
      exact absurd (List.cons.inj same).1 dot
    · rfl

theorem withSlashes_withSlashes (s : String) : withSlashes (withSlashes s) = withSlashes s := by
  unfold withSlashes
  rw [String.toList_ofList, List.map_map]
  congr 2
  funext c
  simp only [Function.comp_apply]
  by_cases backslash : c = '\\'
  · rw [if_pos backslash]
    rfl
  · rw [if_neg backslash, if_neg backslash]

theorem withSlashes_append (s t : String) :
    withSlashes (s ++ "/" ++ t) = withSlashes s ++ "/" ++ withSlashes t := by
  unfold withSlashes
  rw [← String.toList_inj]
  simp

namespace IgnoreRules

variable {glob : Glob} {rules : IgnoreRules}

/-- A pattern matches one of these names. -/
def MatchesName (rules : IgnoreRules) (names : List String) : Prop :=
  ∃ pat ∈ rules.patterns, ∃ name ∈ names, pat name = true

/-- A pattern matches this text as a whole. -/
def MatchesWhole (rules : IgnoreRules) (s : String) : Prop := ∃ pat ∈ rules.patterns, pat s = true

/-- The names of a logical name as `is_ignored` looks at them: a file name, or nothing, and the
components. -/
def namesOf (name : String) : List String :=
  fileName name :: (Component.ofPath name).filterMap fun component =>
    match component with
    | .normal text => some text
    | _ => none

theorem isIgnored_iff (name : String) : rules.isIgnored name = true ↔
    rules.MatchesWhole (withSlashes name) ∨ rules.MatchesName (namesOf name) := by
  unfold isIgnored MatchesWhole MatchesName namesOf
  simp only [List.any_eq_true, Bool.or_eq_true, List.mem_cons, List.mem_filterMap]
  constructor
  · intro h
    obtain ⟨pat, there, (file | whole) | ⟨component, member, hit⟩⟩ := h
    · exact .inr ⟨pat, there, _, .inl rfl, file⟩
    · exact .inl ⟨pat, there, whole⟩
    · cases component with
      | normal text => exact .inr ⟨pat, there, text, .inr ⟨_, member, rfl⟩, hit⟩
      | rootDir | curDir | parentDir => cases hit
  · intro h
    rcases h with ⟨pat, there, whole⟩ | ⟨pat, there, name', same | ⟨component, member, same⟩, hit⟩
    · exact ⟨pat, there, .inl (.inr whole)⟩
    · subst same
      exact ⟨pat, there, .inl (.inl hit)⟩
    · cases component with
      | normal text =>
        cases same
        exact ⟨pat, there, .inr ⟨_, member, hit⟩⟩
      | rootDir | curDir | parentDir => cases same

/-- The names of a path are what it is made of. -/
theorem mem_namesOf_text {p : FilePath} (h : Normal p) (nonempty : p ≠ []) (name : String) :
    name ∈ namesOf (text p) ↔ name ∈ p := by
  have components := Component.ofPath_text h nonempty
  have last : fileName (text p) ∈ p := by
    unfold fileName
    rw [components, List.getLast?_map, List.getLast?_eq_some_getLast nonempty]
    exact List.getLast_mem nonempty
  unfold namesOf
  rw [components, List.filterMap_map, List.mem_cons]
  constructor
  · intro there
    rcases there with rfl | there
    · exact last
    · obtain ⟨name', there, same⟩ := List.mem_filterMap.1 there
      cases same
      exact there
  · intro there
    exact .inr (List.mem_filterMap.2 ⟨name, there, rfl⟩)

theorem isIgnored_text {p : FilePath} (h : Normal p) (nonempty : p ≠ []) :
    rules.isIgnored (text p) = true ↔
      rules.MatchesWhole (withSlashes (text p)) ∨ rules.MatchesName p := by
  rw [isIgnored_iff]
  unfold MatchesName
  simp only [mem_namesOf_text h nonempty]

/-! ## The patterns of the rules -/

/-- The texts that `add_pattern` tries to make a pattern of. -/
def patternTexts (patternStr : String) : List String :=
  if Text.trim patternStr = "" then []
  else if coversBelow patternStr then
    [clean patternStr, clean patternStr ++ "/**", "**/" ++ clean patternStr ++ "/**"]
  else [clean patternStr]

theorem push_patterns (pattern : String) :
    (rules.push glob pattern).patterns = rules.patterns ++ (glob.new pattern).toList := by
  unfold push
  cases glob.new pattern with
  | none => exact (List.append_nil _).symm
  | some pat => rfl

theorem addPattern_patterns (patternStr : String) : (rules.addPattern glob patternStr).patterns =
    rules.patterns ++ (patternTexts patternStr).filterMap glob.new := by
  unfold addPattern patternTexts
  by_cases empty : Text.trim patternStr = ""
  · rw [if_pos empty, if_pos empty, List.filterMap_nil, List.append_nil]
  · rw [if_neg empty, if_neg empty]
    by_cases covers : coversBelow patternStr = true
    · simp only [if_pos covers, push_patterns, List.filterMap_cons, List.filterMap_nil]
      cases glob.new (clean patternStr) <;> cases glob.new (clean patternStr ++ "/**") <;>
        cases glob.new ("**/" ++ clean patternStr ++ "/**") <;> simp
    · simp only [if_neg covers, push_patterns, List.filterMap_cons, List.filterMap_nil]
      cases glob.new (clean patternStr) <;> rfl

theorem mem_ofPatterns {patterns : List String} {pat : String → Bool} :
    pat ∈ (ofPatterns glob patterns).patterns ↔
      ∃ s ∈ patterns, ∃ t ∈ patternTexts s, glob.new t = some pat := by
  have all : ∀ rules : IgnoreRules, pat ∈ (patterns.foldl (addPattern glob) rules).patterns ↔
      pat ∈ rules.patterns ∨ ∃ s ∈ patterns, ∃ t ∈ patternTexts s, glob.new t = some pat := by
    induction patterns with
    | nil => simp
    | cons s patterns ih =>
      intro rules
      rw [List.foldl_cons, ih, addPattern_patterns, List.mem_append, List.mem_filterMap, or_assoc]
      simp only [List.mem_cons, exists_eq_or_imp]
  unfold ofPatterns
  rw [all]
  simp

/-- A pattern with a dot and without a slash at its end matches this text as a whole. -/
def MatchesOnlyItself (glob : Glob) (patterns : List String) (s : String) : Prop :=
  ∃ patternStr ∈ patterns, Text.trim patternStr ≠ "" ∧ coversBelow patternStr = false ∧
    ∃ pat, glob.new (clean patternStr) = some pat ∧ pat s = true

/-- Any other match is a match of everything below. -/
theorem matchesWhole_below {patterns : List String} {s : String}
    (h : (ofPatterns glob patterns).MatchesWhole s) :
    MatchesOnlyItself glob patterns s ∨
      ∀ rest, (ofPatterns glob patterns).MatchesWhole (s ++ "/" ++ rest) := by
  obtain ⟨pat, there, hit⟩ := h
  obtain ⟨patternStr, member, t, ht, made⟩ := mem_ofPatterns.1 there
  by_cases empty : Text.trim patternStr = ""
  · rw [patternTexts, if_pos empty] at ht
    cases ht
  by_cases covers : coversBelow patternStr = true
  · right
    intro rest
    rw [patternTexts, if_neg empty, if_pos covers] at ht
    simp only [List.mem_cons, List.not_mem_nil, or_false] at ht
    rcases ht with rfl | rfl | rfl
    · obtain ⟨all, made', deeper⟩ := glob.below _ _ made
      have there' : clean patternStr ++ "/**" ∈ patternTexts patternStr := by
        rw [patternTexts, if_neg empty, if_pos covers]
        exact List.mem_cons_of_mem _ List.mem_cons_self
      exact ⟨all, mem_ofPatterns.2 ⟨patternStr, member, _, there', made'⟩, deeper s rest hit⟩
    · exact ⟨pat, there, glob.further _ _ made s rest hit⟩
    · exact ⟨pat, there, glob.further _ _ made s rest hit⟩
  · rw [patternTexts, if_neg empty, if_neg covers, List.mem_singleton] at ht
    subst ht
    left
    exact ⟨patternStr, member, empty, Bool.eq_false_iff.2 covers, pat, made, hit⟩

theorem MatchesOnlyItself.matchesWhole {patterns : List String} {s : String}
    (h : MatchesOnlyItself glob patterns s) : (ofPatterns glob patterns).MatchesWhole s := by
  obtain ⟨patternStr, member, nonempty, covers, pat, made, hit⟩ := h
  refine ⟨pat, mem_ofPatterns.2 ⟨patternStr, member, _, ?_, made⟩, hit⟩
  rw [patternTexts, if_neg nonempty, if_neg (by rw [covers]; exact Bool.false_ne_true)]
  exact List.mem_singleton_self _

/-! ## Below an ignored directory -/

variable (glob) in
/-- A directory above a path is matched as a whole by a pattern that does not cover what is below. -/
def LeaksAbove (patterns : List String) (p : FilePath) : Prop :=
  ∃ d c : FilePath, p = d ++ c ∧ d ≠ [] ∧ c ≠ [] ∧
    MatchesOnlyItself glob patterns (withSlashes (text d))

/-- A path is ignored if any directory above it is. -/
def ClosedAt (rules : IgnoreRules) (p : FilePath) : Prop :=
  ∀ d c : FilePath, p = d ++ c → d ≠ [] → c ≠ [] →
    rules.isIgnored (text d) = true → rules.isIgnored (text p) = true

theorem MatchesName.append {d c : FilePath} (h : rules.MatchesName d) :
    rules.MatchesName (d ++ c) := by
  obtain ⟨pat, there, name, member, hit⟩ := h
  exact ⟨pat, there, name, List.mem_append_left c member, hit⟩

/-- An ignored directory passes it on, unless by a match of its own path only. -/
theorem ignored_below {patterns : List String} {d c : FilePath} (normal : Normal (d ++ c))
    (hd : d ≠ []) (hc : c ≠ [])
    (h : (ofPatterns glob patterns).isIgnored (text d) = true) :
    (ofPatterns glob patterns).isIgnored (text (d ++ c)) = true ∨
      MatchesOnlyItself glob patterns (withSlashes (text d)) := by
  have nonempty : d ++ c ≠ [] := List.append_ne_nil_of_left_ne_nil hd c
  rw [isIgnored_text (Normal.append.1 normal).1 hd] at h
  rw [isIgnored_text normal nonempty, text_append hd hc, withSlashes_append]
  rcases h with whole | name
  · rcases matchesWhole_below whole with only | below
    · exact .inr only
    · exact .inl (.inl (below _))
  · exact .inl (.inr name.append)

theorem closedAt_iff {patterns : List String} {p : FilePath} (normal : Normal p)
    (nonempty : p ≠ []) : (ofPatterns glob patterns).ClosedAt p ↔
      (LeaksAbove glob patterns p → (ofPatterns glob patterns).isIgnored (text p) = true) := by
  constructor
  · intro closed leaks
    obtain ⟨d, c, rfl, hd, hc, only⟩ := leaks
    apply closed d c rfl hd hc
    rw [isIgnored_text (Normal.append.1 normal).1 hd]
    exact .inl only.matchesWhole
  · intro passes d c same hd hc ignored
    subst same
    rcases ignored_below normal hd hc ignored with below | only
    · exact below
    · exact passes ⟨d, c, rfl, hd, hc, only⟩

end IgnoreRules

/-! ## The walk and the check of a path -/

namespace Worker

open IgnoreRules

variable {glob : Glob} {w : Worker} {host : Host}

/-- The walk gets to a path if no part of it from the watched directory on is ignored. -/
theorem mem_walkIncluded {p : FilePath} {t : Except IoError FileType}
    (root : Normal w.config.watchDir) (normal : Normal p) :
    (w.config.watchDir ++ p, t) ∈ host.walkIncluded w.config.watchDir w.scanIncludes ↔
      (w.config.watchDir ++ p, t) ∈ host.walk w.config.watchDir ∧
        ∀ d c : FilePath, p = d ++ c → d ≠ [] → w.rules.isIgnored (text d) = false := by
  have includes : ∀ d c : FilePath, p = d ++ c →
      (w.scanIncludes (w.config.watchDir ++ d) = true ↔
        (d ≠ [] → w.rules.isIgnored (text d) = false)) := by
    intro d c same
    subst same
    unfold scanIncludes
    rw [Normal.stripPrefix root (Normal.append.1 normal).1]
    simp only
    cases d with
    | nil => simp
    | cons name rest => simp
  unfold Host.walkIncluded
  rw [List.mem_filter, List.all_eq_true]
  apply and_congr Iff.rfl
  constructor
  · intro all d c same hd
    have bound : w.config.watchDir.length + d.length ∈
        List.range ((w.config.watchDir ++ p).length + 1) := by
      rw [List.mem_range, List.length_append, same, List.length_append]
      omega
    have here := all _ bound
    rw [Bool.or_eq_true, decide_eq_true_iff] at here
    rcases here with short | here
    · omega
    · have taken : (w.config.watchDir ++ p).take (w.config.watchDir.length + d.length) =
          w.config.watchDir ++ d := by
        rw [List.take_length_add_append, same, List.take_left]
      rw [taken] at here
      exact (includes d c same).1 here hd
  · intro free n _
    rw [Bool.or_eq_true, decide_eq_true_iff]
    by_cases short : n < w.config.watchDir.length
    · exact .inl short
    · right
      have taken : (w.config.watchDir ++ p).take n =
          w.config.watchDir ++ p.take (n - w.config.watchDir.length) := by
        rw [List.take_append, List.take_of_length_le (Nat.le_of_not_lt short)]
      have split : p = p.take (n - w.config.watchDir.length) ++
          p.drop (n - w.config.watchDir.length) := (List.take_append_drop _ p).symm
      rw [taken]
      exact (includes _ _ split).2 fun hd => free _ _ split hd

theorem included_iff {p : FilePath} (root : Normal w.config.watchDir) (normal : Normal p) :
    w.included (w.config.watchDir ++ p) = true ↔
      w.rules.isIgnored (withSlashes (text p)) = false := by
  unfold included logicalName
  rw [Normal.stripPrefix root normal]
  simp

/-- Scan and event paths agree on a file: what is below an ignored directory is ignored, and the
walk of a scan gets to the file exactly if an event for it is looked at. -/
structure AgreesOn (w : Worker) (host : Host) (p : FilePath) (t : Except IoError FileType) :
    Prop where
  closed : w.rules.ClosedAt p
  reached : (w.config.watchDir ++ p, t) ∈ host.walkIncluded w.config.watchDir w.scanIncludes ↔
    w.included (w.config.watchDir ++ p) = true

/-- They agree exactly if a pattern matches the path of the file as a whole, or cutting its names at
backslashes changes nothing and no pattern that matches a directory above only by itself is all
there is. -/
theorem agreesOn_iff (glob : Glob) (patterns : List String) (w : Worker) (host : Host)
    (p : FilePath) (t : Except IoError FileType) (rules : w.rules = ofPatterns glob patterns)
    (root : Normal w.config.watchDir) (normal : Normal p) (nonempty : p ≠ [])
    (entry : (w.config.watchDir ++ p, t) ∈ host.walk w.config.watchDir) :
    w.AgreesOn host p t ↔
      w.rules.MatchesWhole (withSlashes (text p)) ∨
        (LeaksAbove glob patterns p → w.rules.MatchesName p) ∧
          (w.rules.MatchesName (namesOf (withSlashes (text p))) ↔ w.rules.MatchesName p) := by
  have closed := @closedAt_iff glob patterns p normal nonempty
  have here := @isIgnored_text w.rules p normal nonempty
  have logical := @isIgnored_iff w.rules (withSlashes (text p))
  rw [withSlashes_withSlashes] at logical
  have accepted := included_iff (w := w) root normal
  -- once everything below an ignored directory is ignored, the walk looks at the whole path only
  have reached : w.rules.ClosedAt p →
      ((w.config.watchDir ++ p, t) ∈ host.walkIncluded w.config.watchDir w.scanIncludes ↔
        w.rules.isIgnored (text p) = false) := by
    intro closed
    rw [mem_walkIncluded root normal]
    constructor
    · intro h
      exact h.2 p [] (List.append_nil p).symm nonempty
    · intro free
      refine ⟨entry, fun d c same hd => ?_⟩
      by_cases hc : c = []
      · subst hc
        rw [List.append_nil] at same
        rw [← same]
        exact free
      · cases ignored : w.rules.isIgnored (text d) with
        | false => rfl
        | true =>
          rw [closed d c same hd hc ignored] at free
          cases free
  rw [← rules] at closed
  constructor
  · intro agrees
    have same := agrees.reached
    rw [reached agrees.closed, accepted, ← Bool.not_eq_true, ← Bool.not_eq_true, not_iff_not, here,
      logical] at same
    have leaks := closed.1 agrees.closed
    rw [here] at leaks
    by_cases whole : w.rules.MatchesWhole (withSlashes (text p))
    · exact .inl whole
    · right
      simp only [whole, false_or] at leaks same
      exact ⟨leaks, same.symm⟩
  · intro cond
    have closedHere : w.rules.ClosedAt p := by
      rw [closed, here]
      rcases cond with whole | cond
      · exact fun _ => .inl whole
      · exact fun leaks => .inr (cond.1 leaks)
    refine ⟨closedHere, ?_⟩
    rw [reached closedHere, accepted, ← Bool.not_eq_true, ← Bool.not_eq_true, not_iff_not, here,
      logical]
    rcases cond with whole | cond
    · exact ⟨fun _ => .inl whole, fun _ => .inl whole⟩
    · exact or_congr Iff.rfl cond.2.symm

end Worker

namespace IgnoreSample

/-- Whether a pattern matches a text: literally, but for `/**` at its end. The pattern is read from
its end. -/
def globMatch : (pattern : List Char) → (text : List Char) → Bool
  | '*' :: '*' :: '/' :: pattern, text =>
    (List.range text.length).any fun k => text[k]? == some '/' && globMatch pattern (text.take k)
  | pattern, text => pattern.reverse == text

def matcher (pattern text : String) : Bool := globMatch pattern.toList.reverse text.toList

theorem matcher_literal {pattern : String} (h : ∀ c ∈ pattern.toList, c ∉ globMetaCharacters)
    (text : String) : matcher pattern text = true ↔ text = pattern := by
  have plain : globMatch pattern.toList.reverse text.toList =
      (pattern.toList.reverse.reverse == text.toList) := by
    unfold globMatch
    split
    · rename_i rest same
      have star : '*' ∈ pattern.toList := by
        rw [← List.mem_reverse, same]
        exact List.mem_cons_self
      exact absurd (by decide) (h '*' star)
    · rfl
  unfold matcher
  rw [plain, List.reverse_reverse, beq_iff_eq, String.toList_inj, eq_comm]

theorem matcher_below (pattern text : String) : matcher (pattern ++ "/**") text = true ↔
    ∃ k, text.toList[k]? = some '/' ∧ globMatch pattern.toList.reverse (text.toList.take k) = true := by
  unfold matcher
  have tail : (pattern ++ "/**").toList.reverse = '*' :: '*' :: '/' :: pattern.toList.reverse := by
    simp
  rw [tail, globMatch, List.any_eq_true]
  constructor
  · intro h
    obtain ⟨k, -, hit⟩ := h
    rw [Bool.and_eq_true, beq_iff_eq] at hit
    exact ⟨k, hit⟩
  · intro h
    obtain ⟨k, slash, hit⟩ := h
    have bound := (List.getElem?_eq_some_iff.1 slash).1
    refine ⟨k, List.mem_range.2 bound, ?_⟩
    rw [Bool.and_eq_true, beq_iff_eq]
    exact ⟨slash, hit⟩

/-- A glob crate that knows literal patterns and `/**` at their end. -/
def glob : Glob where
  new pattern := some (matcher pattern)
  literal pattern plain := ⟨matcher pattern, rfl, matcher_literal plain⟩
  below pattern pat made := by
    cases made
    refine ⟨_, rfl, fun text rest hit => ?_⟩
    rw [matcher_below]
    refine ⟨text.toList.length, by simp, ?_⟩
    rw [String.toList_append, String.toList_append, List.append_assoc, List.take_left]
    exact hit
  further pattern all made text rest hit := by
    cases made
    rw [matcher_below] at hit ⊢
    obtain ⟨k, slash, hit⟩ := hit
    have bound := (List.getElem?_eq_some_iff.1 slash).1
    refine ⟨k, ?_, ?_⟩
    · rw [String.toList_append, String.toList_append, List.append_assoc,
        List.getElem?_append_left bound]
      exact slash
    · rw [String.toList_append, String.toList_append, List.append_assoc,
        List.take_append_of_le_length (Nat.le_of_lt bound)]
      exact hit

/-- The watched directory, with two directories and a file in each. -/
def host : Host where
  now := 0
  seconds := 0
  metadata _ := .error .notFound
  symlinkMetadata _ := .error .notFound
  walk _ := [(["watched"], .ok .dir), (["watched", "build"], .ok .dir),
    (["watched", "build", "x.txt"], .ok .file), (["watched", "target"], .ok .dir),
    (["watched", "target", "x.txt"], .ok .file)]
  read _ := .error .notFound
  fault _ := none

/-- The second directory is ignored. -/
def worker : Worker where
  engine := ⟨MetadataStore.empty, fun _ => FixedBytes.ofBytes 16 [], 0⟩
  config := ⟨["watched"], 0, 0⟩
  rules := IgnoreRules.ofPatterns glob ["target/", "build/out.d"]
  watchKey := "/watched"
  running := true
  pending := Pending.empty
  lastSynced := ∅
  cancellable := true

end IgnoreSample

/-- A file in an ignored directory, and one in a directory that is not. -/
theorem Worker.agreesOn_sample :
    IgnoreSample.worker.rules.isIgnored (text ["target"]) = true ∧
      IgnoreSample.worker.AgreesOn IgnoreSample.host ["target", "x.txt"] (.ok .file) ∧
      IgnoreSample.worker.AgreesOn IgnoreSample.host ["build", "x.txt"] (.ok .file) := by
  have noLeak : ¬ IgnoreRules.LeaksAbove IgnoreSample.glob ["target/", "build/out.d"]
      ["build", "x.txt"] := by
    intro leaks
    obtain ⟨d, c, same, hd, hc, patternStr, member, -, covers, pat, made, hit⟩ := leaks
    have other : IgnoreRules.coversBelow "target/" = true := by decide +kernel
    rcases List.mem_pair.1 member with rfl | rfl
    · rw [other] at covers
      cases covers
    cases made
    obtain rfl : d = ["build"] := by
      cases d with
      | nil => exact absurd rfl hd
      | cons name rest =>
        cases rest with
        | nil => rw [(List.cons.inj same).1]
        | cons name' rest =>
          have tail := (List.cons.inj (List.cons.inj same).2).2
          exact absurd (List.append_eq_nil_iff.1 tail.symm).2 hc
    revert hit
    decide +kernel
  have names : IgnoreRules.namesOf (withSlashes (text ["build", "x.txt"])) =
      ["x.txt", "build", "x.txt"] := by decide +kernel
  have same : ∀ name, name ∈ ["x.txt", "build", "x.txt"] ↔ name ∈ ["build", "x.txt"] := by grind
  refine ⟨by decide +kernel, ?_, ?_⟩
  · refine (Worker.agreesOn_iff IgnoreSample.glob ["target/", "build/out.d"] _ _ _ _ rfl (by decide)
      (by decide) (by decide) (by simp [IgnoreSample.host, IgnoreSample.worker])).2 (.inl ?_)
    refine ⟨IgnoreSample.matcher "target/**", IgnoreRules.mem_ofPatterns.2
      ⟨"target/", List.mem_cons_self, "target/**", ?_, rfl⟩, ?_⟩
    · decide +kernel
    · decide +kernel
  · refine (Worker.agreesOn_iff IgnoreSample.glob ["target/", "build/out.d"] _ _ _ _ rfl (by decide)
      (by decide) (by decide) (by simp [IgnoreSample.host, IgnoreSample.worker])).2
      (.inr ⟨fun leaks => absurd leaks noLeak, ?_⟩)
    rw [names]
    unfold IgnoreRules.MatchesName
    simp only [same]

/-- The directory that a pattern with a dot names is ignored, and the files in it are not. -/
theorem dotted_pattern_leaks : ¬ ∀ (glob : Glob) (patterns : List String) (d c : FilePath),
    Normal d → Normal c → d ≠ [] → c ≠ [] →
    (IgnoreRules.ofPatterns glob patterns).isIgnored (text d) = true →
    (IgnoreRules.ofPatterns glob patterns).isIgnored (text (d ++ c)) = true := by
  intro all
  have below := all IgnoreSample.glob ["build/out.d"] ["build", "out.d"] ["x.txt"] (by decide)
    (by decide) (by decide) (by decide) (by decide +kernel)
  revert below
  decide +kernel

end OosLite
