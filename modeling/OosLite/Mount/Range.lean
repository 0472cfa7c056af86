import OosLite.Lib.Checked
import OosLite.Lib.Decimal

/-!
# Ranges of HTTP

`parse_range_header`, and what `handle_get` answers for a file.
-/

namespace OosLite

/-- The end of a range: the last byte, or what is asked for if that is before it. -/
def rangeEnd (endStr : String) (total : Nat) : Checked Empty (Option Nat) :=
  if endStr = "" then do return some (← Checked.sub total 1)
  else match Decimal.parse 64 endStr.toList with
  | none => pure none
  | some e => do return some (min e (← Checked.sub total 1))

/-- `parse_range_header`: the start and the length. -/
def parseRangeHeader (header : String) (totalSize : UInt64) : Checked Empty (Option (Nat × Nat)) :=
  let total := totalSize.toNat
  if total = 0 then pure (some (0, 0))
  else match Text.stripPrefix "bytes=" header with
  | none => pure none
  | some rangeStr =>
    match Text.split '-' rangeStr with
    | [first, last] =>
      let startStr := Text.trim first
      let endStr := Text.trim last
      if startStr = "" then
        -- the last bytes
        match Decimal.parse 64 endStr.toList with
        | none => pure none
        | some suffixLen => do
          let start := total - suffixLen
          return some (start, ← Checked.sub total start)
      else match Decimal.parse 64 startStr.toList with
      | none => pure none
      | some start =>
        if start ≥ total then pure none
        else do
          match ← rangeEnd endStr total with
          | none => return none
          | some stop =>
            if stop < start then return none
            else return some (start, ← Checked.add (← Checked.sub stop start) 1)
    | _ => pure none

/-- The value of `Content-Range`. -/
def contentRange (start last total : Nat) : String :=
  "bytes " ++ toString start ++ "-" ++ toString last ++ "/" ++ toString total

/-- What `handle_get` answers for a file that can be read. -/
structure GetResponse where
  status : Nat
  start : Nat
  length : Nat
  contentRange : Option String
  deriving DecidableEq

/-- The answer for a range, and its `Content-Range`. -/
def partialResponse (start length total : Nat) : Checked Empty GetResponse := do
  let last ← Checked.sub (← Checked.add start length) 1
  return ⟨206, start, length, some (contentRange start last total)⟩

/-- `handle_get` on a file, with the value of its `Range` header. -/
def handleGet (rangeHdr : Option String) (totalSize : UInt64) : Checked Empty GetResponse := do
  match rangeHdr with
  | none => return ⟨200, 0, totalSize.toNat, none⟩
  | some value =>
    match ← parseRangeHeader (Text.trim value) totalSize with
    | none => return ⟨416, 0, 0, some ("bytes */" ++ toString totalSize.toNat)⟩
    | some (start, length) => partialResponse start length totalSize.toNat

end OosLite
