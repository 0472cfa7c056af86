import OosLite.Lib.EditGraph

/-!
# The version diff

`runMyers` and `computeLineDiff` of the user interface. A property of an object that is not there is
`none`, and what goes on with it as a number or as a text fails.
-/

namespace OosLite

open EditGraph (entry)

inductive EditType where
  | same
  | add
  | del
  deriving DecidableEq

structure Edit (α : Type) where
  type : EditType
  text : α
  deriving DecidableEq

/-- The object `v`: the furthest `x` on the diagonals, by their numbers. -/
abbrev Furthests := Int → Option Int

namespace Myers

variable {α : Type} [DecidableEq α] (a b : List α)

/-- `v[k] = x`. -/
def setAt (v : Furthests) (k x : Int) : Furthests := fun j => if j = k then some x else v j

/-- `v[j] < v[k]`, where what is not there is `-Infinity`. -/
def isLess : Option Int → Option Int → Bool
  | none, none => false
  | none, some _ => true
  | some _, none => false
  | some x, some y => x < y

/-- The condition to come from the diagonal above. -/
def goesDown (v : Furthests) (d k : Int) : Bool :=
  k = -d || (k ≠ d && isLess (v (k - 1)) (v (k + 1)))

/-- The condition of the loop over equal elements. -/
def isSame (x y : Int) : Bool := x < a.length && y < b.length && entry a x = entry b y

/-- The loop over equal elements, with fuel. -/
def snake : (fuel : Nat) → (x y : Int) → Int
  | 0, x, _ => x
  | fuel + 1, x, y => if isSame a b x y then snake fuel (x + 1) (y + 1) else x

/-- The loop body for a diagonal: the new `x`. -/
def advance (v : Furthests) (d k : Int) : Option Int := do
  let x ← if goesDown v d k then v (k + 1) else (v (k - 1)).map (· + 1)
  return snake a b (a.length - x).toNat x (x - k)

/-- The loop back over equal elements, with fuel. -/
def unwind (prevX prevY : Int) : (fuel : Nat) → (curX curY : Int) → List (Edit α) →
    Option (Int × Int × List (Edit α))
  | 0, curX, curY, edits => some (curX, curY, edits)
  | fuel + 1, curX, curY, edits =>
    if curX > prevX ∧ curY > prevY then do
      let text ← entry a (curX - 1)
      unwind prevX prevY fuel (curX - 1) (curY - 1) (⟨.same, text⟩ :: edits)
    else some (curX, curY, edits)

/-- The loop back through the stored objects. -/
def backtrack (trace : List Furthests) : (cd : Nat) → (curX curY : Int) → List (Edit α) →
    Option (List (Edit α))
  | 0, curX, curY, edits => do
    let (_, _, edits) ← unwind a 0 0 curX.toNat curX curY edits
    return edits
  | cd + 1, curX, curY, edits => do
    let prevV ← (trace)[cd + 1]?
    let curK := curX - curY
    let prevK := if goesDown prevV (cd + 1) curK then curK + 1 else curK - 1
    let prevX ← prevV prevK
    let prevY := prevX - prevK
    let (curX, curY, edits) ← unwind a prevX prevY (curX - prevX).toNat curX curY edits
    if curX = prevX then
      let text ← entry b (curY - 1)
      backtrack trace cd curX (curY - 1) (⟨.add, text⟩ :: edits)
    else
      let text ← entry a (curX - 1)
      backtrack trace cd (curX - 1) curY (⟨.del, text⟩ :: edits)

/-- The loop over the diagonals: the edits, or the object after it. -/
def round (trace : List Furthests) (d : Nat) : (ks : List Int) → Furthests →
    Option (List (Edit α) ⊕ Furthests)
  | [], v => some (.inr v)
  | k :: ks, v => do
    let x ← advance a b v d k
    if x ≥ a.length ∧ x - k ≥ b.length then
      let edits ← backtrack a b trace d a.length b.length []
      return .inl edits
    else round trace d ks (setAt v k x)

/-- `-d`, `-d + 2` and so on up to `d`. -/
def diagonals (d : Nat) : List Int := (List.range (d + 1)).map fun i : Nat => -(d : Int) + 2 * i

/-- The main loop, for so many more `d`; nothing if it ends without edits. -/
def search : (count : Nat) → (d : Nat) → Furthests → List Furthests →
    Option (Option (List (Edit α)))
  | 0, _, _, _ => some none
  | count + 1, d, v, trace => do
    let trace := trace ++ [v]
    match ← round a b trace d (diagonals d) v with
    | .inl edits => return some edits
    | .inr v => search count (d + 1) v trace

end Myers

open Myers

/-- `runMyers` before its fallback. -/
def runMyersLoop {α : Type} [DecidableEq α] (a b : List α) : Option (Option (List (Edit α))) :=
  search a b (a.length + b.length + 1) 0 (setAt (fun _ => none) 1 0) []

/-- `runMyers`. -/
def runMyers {α : Type} [DecidableEq α] (a b : List α) : Option (List (Edit α)) := do
  match ← runMyersLoop a b with
  | some edits => return edits
  | none => return a.map (fun l => ⟨.del, l⟩) ++ b.map (fun l => ⟨.add, l⟩)

/-! ## Lines -/

/-- `split(/\r?\n/)`. -/
def splitLines (text : String) : List String :=
  let parts := text.toList.splitOn '\n'
  let withoutReturn (part : List Char) : List Char :=
    if part.getLast? = some '\r' then part.dropLast else part
  (parts.dropLast.map withoutReturn ++ parts.getLast?.toList).map String.ofList

structure DiffLine where
  type : EditType
  oldNum : Option Nat
  newNum : Option Nat
  text : String
  deriving DecidableEq

structure DiffStats where
  added : Nat
  removed : Nat
  deriving DecidableEq

structure LineDiff where
  identical : Bool
  stats : DiffStats
  lines : List DiffLine
  deriving DecidableEq

/-- How many lines two lists begin with in common. -/
def commonPrefix : List String → List String → Nat
  | x :: xs, y :: ys => if x = y then commonPrefix xs ys + 1 else 0
  | _, _ => 0

/-- How many lines they end with in common, behind those. -/
def commonSuffix (linesSelected linesCurrent : List String) (front : Nat) : Nat :=
  commonPrefix (linesSelected.drop front).reverse (linesCurrent.drop front).reverse

/-- The edits between what is in common. -/
def middleEdits (midSelected midCurrent : List String) : Option (List (Edit String)) :=
  if midSelected.length = 0 then some (midCurrent.map fun l => ⟨.del, l⟩)
  else if midCurrent.length = 0 then some (midSelected.map fun l => ⟨.add, l⟩)
  else if midSelected.length + midCurrent.length > 2000 then
    some (midCurrent.map (fun l => ⟨.del, l⟩) ++ midSelected.map fun l => ⟨.add, l⟩)
  else runMyers midCurrent midSelected

/-- What is built up: the lines, the next two numbers, and the two counts. -/
structure DiffState where
  resultLines : List DiffLine
  curOldNum : Nat
  curNewNum : Nat
  addedCount : Nat
  removedCount : Nat

namespace DiffState

variable (s : DiffState)

/-- A line of both texts. -/
def pushSame (text : String) : DiffState :=
  { s with
    resultLines := s.resultLines ++ [⟨.same, some s.curOldNum, some s.curNewNum, text⟩]
    curOldNum := s.curOldNum + 1
    curNewNum := s.curNewNum + 1 }

/-- The loop body for an edit. -/
def pushEdit (edit : Edit String) : DiffState :=
  match edit.type with
  | .same => s.pushSame edit.text
  | .del =>
    { s with
      removedCount := s.removedCount + 1
      resultLines := s.resultLines ++ [⟨.del, none, some s.curNewNum, edit.text⟩]
      curNewNum := s.curNewNum + 1 }
  | .add =>
    { s with
      addedCount := s.addedCount + 1
      resultLines := s.resultLines ++ [⟨.add, some s.curOldNum, none, edit.text⟩]
      curOldNum := s.curOldNum + 1 }

end DiffState

/-- `computeLineDiff`. -/
def computeLineDiff (textSelected textCurrent : String) : Option LineDiff :=
  let linesSelected := splitLines textSelected
  if textSelected = textCurrent then
    some ⟨true, ⟨0, 0⟩,
      linesSelected.mapIdx fun i l => ⟨.same, some (i + 1), some (i + 1), l⟩⟩
  else do
    let linesCurrent := splitLines textCurrent
    let front := commonPrefix linesSelected linesCurrent
    let suffix := commonSuffix linesSelected linesCurrent front
    let suffixStart := linesSelected.length - suffix
    let midSelected := (linesSelected.take suffixStart).drop front
    let midCurrent := (linesCurrent.take (linesCurrent.length - suffix)).drop front
    let midEdits ← middleEdits midSelected midCurrent
    let s : DiffState := ⟨[], 1, 1, 0, 0⟩
    let s := (linesSelected.take front).foldl .pushSame s
    let s := midEdits.foldl .pushEdit s
    let s := (linesSelected.drop suffixStart).foldl .pushSame s
    return ⟨false, ⟨s.addedCount, s.removedCount⟩, s.resultLines⟩

end OosLite
