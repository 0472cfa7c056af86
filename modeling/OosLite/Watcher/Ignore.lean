import OosLite.Watcher.Scan

/-!
# Adding ignore patterns

`add_pattern`, which makes up to three glob patterns of one line of an ignore file.
-/

namespace OosLite

/-- The characters with a meaning in a glob pattern. -/
def globMetaCharacters : List Char := ['?', '*', '[', ']']

/-- The glob crate: which patterns there are and what they match, as far as the rules rely on it. -/
structure Glob where
  /-- `glob::Pattern::new`, and `matches` of the pattern. -/
  new : String → Option (String → Bool)
  /-- A pattern without metacharacters matches exactly itself. -/
  literal : ∀ pattern : String, (∀ c ∈ pattern.toList, c ∉ globMetaCharacters) →
    ∃ pat, new pattern = some pat ∧ ∀ text, pat text = true ↔ text = pattern
  /-- `P/**` is a pattern if `P` is, and matches what lies below a match of `P`. -/
  below : ∀ pattern pat, new pattern = some pat →
    ∃ all, new (pattern ++ "/**") = some all ∧
      ∀ text rest, pat text = true → all (text ++ "/" ++ rest) = true
  /-- What lies below a match of `P/**` lies below a match of `P`, too. -/
  further : ∀ pattern all, new (pattern ++ "/**") = some all →
    ∀ text rest, all text = true → all (text ++ "/" ++ rest) = true

namespace IgnoreRules

/-- `replace('\\', "/")` of a trimmed pattern. -/
def normalized (patternStr : String) : String := withSlashes (Text.trim patternStr)

/-- `ends_with('/')`. -/
def isDirPattern (patternStr : String) : Bool :=
  (normalized patternStr).toList.getLast? = some '/'

/-- `trim_end_matches('/')`. -/
def clean (patternStr : String) : String :=
  String.ofList ((normalized patternStr).toList.reverse.dropWhile (· = '/')).reverse

/-- Whether `add_pattern` also adds patterns for what lies below a match. -/
def coversBelow (patternStr : String) : Bool :=
  isDirPattern patternStr || '.' ∉ (clean patternStr).toList

variable (glob : Glob) (rules : IgnoreRules)

/-- One push of `add_pattern`: a text that is no glob pattern is skipped. -/
def push (pattern : String) : IgnoreRules :=
  match glob.new pattern with
  | some pat => { rules with patterns := rules.patterns ++ [pat] }
  | none => rules

/-- `add_pattern`. -/
def addPattern (patternStr : String) : IgnoreRules :=
  if Text.trim patternStr = "" then rules
  else
    let rules := rules.push glob (clean patternStr)
    if coversBelow patternStr then
      (rules.push glob (clean patternStr ++ "/**")).push glob ("**/" ++ clean patternStr ++ "/**")
    else rules

/-- The rules of these patterns, added one after the other. -/
def ofPatterns (patterns : List String) : IgnoreRules :=
  patterns.foldl (addPattern glob) ⟨[]⟩

end IgnoreRules

end OosLite
