import OosLite.Mount.Range

/-!
# Ranges against their grammar

What a `Range` header asks for, as the grammar of HTTP has it, what the parser takes instead, and
where the two differ.
-/

namespace OosLite

open Decimal

/-- What is asked for: from a byte to another, from a byte on, or so many last bytes. -/
inductive RangeSpec where
  | fromTo (first last : Nat)
  | fromOn (first : Nat)
  | suffix (length : Nat)
  deriving DecidableEq

namespace RangeSpec

/-- There is something of it in so many bytes. -/
def Satisfiable (total : Nat) : RangeSpec → Prop
  | fromTo first last => first ≤ last ∧ first < total
  | fromOn first => first < total
  | suffix length => 0 < length

def start (total : Nat) : RangeSpec → Nat
  | fromTo first _ => first
  | fromOn first => first
  | suffix length => total - length

def length (total : Nat) : RangeSpec → Nat
  | fromTo first last => min last (total - 1) + 1 - first
  | fromOn first => total - first
  | suffix length => min length total

/-- All its numbers have 64 bits. -/
def Fits : RangeSpec → Prop
  | fromTo first last => first < 2 ^ 64 ∧ last < 2 ^ 64
  | fromOn first => first < 2 ^ 64
  | suffix length => length < 2 ^ 64

/-- A satisfiable range is a part of the bytes that is not empty. -/
theorem Satisfiable.within {total : Nat} {spec : RangeSpec} (h : spec.Satisfiable total)
    (nonempty : total ≠ 0) :
    1 ≤ spec.length total ∧ spec.start total + spec.length total ≤ total := by
  cases spec with
  | fromTo first last =>
    obtain ⟨le, lt⟩ := h
    show 1 ≤ min last (total - 1) + 1 - first ∧ first + (min last (total - 1) + 1 - first) ≤ total
    omega
  | fromOn first =>
    have lt : first < total := h
    show 1 ≤ total - first ∧ first + (total - first) ≤ total
    omega
  | suffix length =>
    have lt : 0 < length := h
    show 1 ≤ min length total ∧ total - length + min length total ≤ total
    omega

end RangeSpec

/-- A way to read the two sides of the hyphen, given how blanks and numbers are written. -/
inductive Reads (Blank : List Char → Prop) (Number : List Char → Nat → Prop)
    (first last : List Char) : RangeSpec → Prop where
  | fromTo {a b : Nat} : Number first a → Number last b → Reads Blank Number first last (.fromTo a b)
  | fromOn {a : Nat} : Number first a → Blank last → Reads Blank Number first last (.fromOn a)
  | suffix {n : Nat} : Blank first → Number last n → Reads Blank Number first last (.suffix n)

/-- The unit, in either case. -/
def IsBytesUnit (unit : List Char) : Prop := unit.map Char.toLower = "bytes".toList

/-- A header with a unit, an equals sign, and two sides of a hyphen. -/
def Parts (header : String) (unit first last : List Char) : Prop :=
  header.toList = unit ++ '=' :: (first ++ '-' :: last)

/-- A header with a single range, as the grammar of HTTP has it: nothing or digits on each side. -/
def Written (header : String) (spec : RangeSpec) : Prop :=
  ∃ unit first last, Parts header unit first last ∧ IsBytesUnit unit ∧
    Reads (· = []) (fun cs n => IsDigits cs ∧ value cs = n) first last spec

/-- White space at most. -/
def Blank (cs : List Char) : Prop := Text.trimList cs = []

/-- A number with a plus sign and white space around it, if at all. -/
def Loose (cs : List Char) (n : Nat) : Prop := Signed (Text.trimList cs) n

/-- Nothing but digits. -/
def OnlyDigits (cs : List Char) : Prop := ∀ c ∈ cs, c.isDigit = true

/-! ## White space and digits -/

theorem not_whiteSpace {c : Char} (digit : c.isDigit = true) : Text.isWhiteSpace c = false := by
  unfold Char.isDigit at digit
  simp only [Bool.and_eq_true, decide_eq_true_eq] at digit
  obtain ⟨low, high⟩ := digit
  have low' : 48 ≤ c.toNat := low
  have high' : c.toNat ≤ 57 := high
  unfold Text.isWhiteSpace
  simp only [Bool.or_eq_false_iff, Bool.and_eq_false_iff, decide_eq_false_iff_not, beq_eq_false_iff_ne]
  omega

theorem OnlyDigits.trimList {cs : List Char} (plain : OnlyDigits cs) : Text.trimList cs = cs := by
  have same := Text.trim_of_none fun c hc => not_whiteSpace (plain c hc)
  have lists := congrArg String.toList same
  unfold Text.trim at lists
  simpa only [String.toList_ofList] using lists

/-- Whatever is taken for a number or for nothing has no hyphen. -/
theorem hyphen_notMem {cs : List Char} (h : Blank cs ∨ ∃ n, Loose cs n) : '-' ∉ cs := by
  intro there
  obtain ⟨front, back, split, before, behind⟩ := Text.trimList_padded cs
  have hyphen : Text.isWhiteSpace '-' = false := by decide
  have inside : '-' ∈ Text.trimList cs := by
    rw [split] at there
    rcases List.mem_append.1 there with there | there
    · rw [before _ there] at hyphen
      cases hyphen
    · rcases List.mem_append.1 there with there | there
      · exact there
      · rw [behind _ there] at hyphen
        cases hyphen
  rcases h with blank | ⟨n, digits, same, all, -⟩
  · rw [blank] at inside
    exact List.not_mem_nil inside
  · have digit : '-' ∈ digits := by
      rcases same with same | same
      · exact same ▸ inside
      · rw [same] at inside
        exact (List.mem_cons.1 inside).resolve_left (by decide)
    exact absurd (all.2 _ digit) (by decide)

namespace Reads

variable {first last first' last' : List Char} {spec spec' : RangeSpec}

theorem hyphens (reads : Reads Blank Loose first last spec) : '-' ∉ first ∧ '-' ∉ last := by
  cases reads with
  | fromTo a b => exact ⟨hyphen_notMem (.inr ⟨_, a⟩), hyphen_notMem (.inr ⟨_, b⟩)⟩
  | fromOn a b => exact ⟨hyphen_notMem (.inr ⟨_, a⟩), hyphen_notMem (.inl b)⟩
  | suffix a b => exact ⟨hyphen_notMem (.inl a), hyphen_notMem (.inr ⟨_, b⟩)⟩

theorem blank_ne {cs : List Char} {n : Nat} (number : Loose cs n) (blank : Blank cs) : False := by
  unfold Loose at number
  rw [blank] at number
  exact Signed.ne_nil number

/-- There is one way to read two sides. -/
theorem unique (h : Reads Blank Loose first last spec) (h' : Reads Blank Loose first last spec') :
    spec = spec' := by
  cases h with
  | fromTo a b =>
    cases h' with
    | fromTo a' b' => rw [Signed.unique a a', Signed.unique b b']
    | fromOn a' b' => exact (blank_ne b b').elim
    | suffix a' b' => exact (blank_ne a a').elim
  | fromOn a b =>
    cases h' with
    | fromTo a' b' => exact (blank_ne b' b).elim
    | fromOn a' b' => rw [Signed.unique a a']
    | suffix a' b' => exact (blank_ne a a').elim
  | suffix a b =>
    cases h' with
    | fromTo a' b' => exact (blank_ne a' a).elim
    | fromOn a' b' => exact (blank_ne a' a).elim
    | suffix a' b' => rw [Signed.unique b b']

/-- What the grammar has is what is read loosely without white space and signs. -/
theorem grammar_iff : Reads (· = []) (fun cs n => IsDigits cs ∧ value cs = n) first last spec ↔
    Reads Blank Loose first last spec ∧ OnlyDigits first ∧ OnlyDigits last := by
  have blank {cs : List Char} : cs = [] ↔ Blank cs ∧ OnlyDigits cs := by
    constructor
    · rintro rfl
      exact ⟨rfl, nofun⟩
    · intro h
      exact h.2.trimList.symm.trans h.1
  have number {cs : List Char} {n : Nat} : IsDigits cs ∧ value cs = n ↔ Loose cs n ∧ OnlyDigits cs := by
    constructor
    · intro h
      have plain : OnlyDigits cs := h.1.2
      refine ⟨?_, plain⟩
      unfold Loose
      rw [plain.trimList, ← h.2]
      exact h.1.signed
    · intro h
      have signed := h.1
      unfold Loose at signed
      rw [h.2.trimList] at signed
      have some : cs ≠ [] := fun none => Signed.ne_nil (none ▸ signed)
      have digits : IsDigits cs := ⟨some, h.2⟩
      exact ⟨digits, digits.signed.unique signed⟩
  constructor
  · intro h
    cases h with
    | fromTo a b => exact ⟨.fromTo (number.1 a).1 (number.1 b).1, (number.1 a).2, (number.1 b).2⟩
    | fromOn a b => exact ⟨.fromOn (number.1 a).1 (blank.1 b).1, (number.1 a).2, (blank.1 b).2⟩
    | suffix a b => exact ⟨.suffix (blank.1 a).1 (number.1 b).1, (blank.1 a).2, (number.1 b).2⟩
  · intro h
    obtain ⟨h, plain, plain'⟩ := h
    cases h with
    | fromTo a b => exact .fromTo (number.2 ⟨a, plain⟩) (number.2 ⟨b, plain'⟩)
    | fromOn a b => exact .fromOn (number.2 ⟨a, plain⟩) (blank.2 ⟨b, plain'⟩)
    | suffix a b => exact .suffix (blank.2 ⟨a, plain⟩) (number.2 ⟨b, plain'⟩)

end Reads

/-- A header has its parts in one way. -/
theorem Parts.unique {header : String} {unit first last unit' first' last' : List Char}
    (h : Parts header unit first last) (h' : Parts header unit' first' last')
    (bytes : IsBytesUnit unit) (bytes' : IsBytesUnit unit') (hyphen : '-' ∉ first)
    (hyphen' : '-' ∉ first') : unit = unit' ∧ first = first' ∧ last = last' := by
  have other {unit : List Char} (bytes : IsBytesUnit unit) : '=' ∉ unit := by
    intro there
    have lower := List.mem_map_of_mem (f := Char.toLower) there
    rw [bytes] at lower
    exact absurd lower (by decide)
  obtain ⟨rfl, rest⟩ := Text.append_cons_inj (other bytes) (other bytes') (h.symm.trans h')
  obtain ⟨rfl, rfl⟩ := Text.append_cons_inj hyphen hyphen' rest
  exact ⟨rfl, rfl, rfl⟩

/-! ## The parser -/

/-- The parser takes more: nothing is too long for its file, and no last bytes are a range too. -/
def RangeSpec.Begins (total : Nat) (spec : RangeSpec) : Prop :=
  spec.Satisfiable total ∨ spec = .suffix 0

/-- The last byte of a range, if the other side of the hyphen can be read. -/
def readStop (last : List Char) (total : Nat) : Option Nat :=
  if Text.trimList last = [] then some (total - 1)
  else (parse 64 (Text.trimList last)).map fun e => min e (total - 1)

/-- What the parser makes of the two sides. -/
def readSides (first last : List Char) (total : Nat) : Option (Nat × Nat) :=
  if Text.trimList first = [] then
    (parse 64 (Text.trimList last)).map fun n => (total - n, total - (total - n))
  else
    (parse 64 (Text.trimList first)).bind fun start =>
      if start ≥ total then none
      else (readStop last total).bind fun stop =>
        if stop < start then none else some (start, stop - start + 1)

section Sides

variable {first last : List Char} {total start length : Nat}

theorem readStop_eq_some {stop : Nat} : readStop last total = some stop ↔
    Blank last ∧ stop = total - 1 ∨
      ∃ e, Loose last e ∧ e < 2 ^ 64 ∧ stop = min e (total - 1) := by
  unfold readStop
  constructor
  · intro h
    by_cases blank : Text.trimList last = []
    · rw [if_pos blank] at h
      exact .inl ⟨blank, (Option.some.inj h).symm⟩
    · rw [if_neg blank] at h
      obtain ⟨e, number, same⟩ := Option.map_eq_some_iff.1 h
      obtain ⟨number, fits⟩ := parse_eq_some.1 number
      exact .inr ⟨e, number, fits, same.symm⟩
  · intro h
    rcases h with ⟨blank, same⟩ | ⟨e, number, fits, same⟩
    · rw [if_pos (show Text.trimList last = [] from blank), same]
    · have some : Text.trimList last ≠ [] := fun none => Reads.blank_ne number none
      rw [if_neg some, parse_eq_some.2 ⟨number, fits⟩, same]
      rfl

/-- The sides as the parser reads them: loosely, in 64 bits, and with ranges that begin in the file. -/
theorem readSides_of_reads {spec : RangeSpec}
    (reads : Reads Blank Loose first last spec) (fits : spec.Fits) (begins : spec.Begins total) :
    readSides first last total = some (spec.start total, spec.length total) := by
  have filled {cs : List Char} {n : Nat} (number : Loose cs n) : Text.trimList cs ≠ [] :=
    fun none => Reads.blank_ne number none
  unfold readSides
  cases reads with
  | suffix blank number =>
    rename_i n
    have same : total - (total - n) = min n total := by omega
    rw [if_pos (show Text.trimList first = [] from blank), parse_eq_some.2 ⟨number, fits⟩,
      Option.map_some, same]
    rfl
  | fromOn number blank =>
    rename_i a
    have lt : a < total := begins.resolve_right nofun
    have stop : readStop last total = some (total - 1) := readStop_eq_some.2 (.inl ⟨blank, rfl⟩)
    have size : total - 1 - a + 1 = total - a := by omega
    rw [if_neg (filled number), parse_eq_some.2 ⟨number, fits⟩, Option.bind_some,
      if_neg (Nat.not_le.2 lt), stop, Option.bind_some, if_neg (by omega), size]
    rfl
  | fromTo number number' =>
    rename_i a b
    obtain ⟨le, lt⟩ : a ≤ b ∧ a < total := begins.resolve_right nofun
    have stop : readStop last total = some (min b (total - 1)) :=
      readStop_eq_some.2 (.inr ⟨b, number', fits.2, rfl⟩)
    have size : min b (total - 1) - a + 1 = min b (total - 1) + 1 - a := by omega
    rw [if_neg (filled number), parse_eq_some.2 ⟨number, fits.1⟩, Option.bind_some,
      if_neg (Nat.not_le.2 lt), stop, Option.bind_some, if_neg (by omega), size]
    rfl

theorem reads_of_readSides (h : readSides first last total = some (start, length)) :
    ∃ spec : RangeSpec, Reads Blank Loose first last spec ∧ spec.Fits ∧ spec.Begins total := by
  unfold readSides at h
  by_cases blank : Text.trimList first = []
  · rw [if_pos blank] at h
    obtain ⟨n, number, -⟩ := Option.map_eq_some_iff.1 h
    obtain ⟨number, fits⟩ := parse_eq_some.1 number
    refine ⟨.suffix n, .suffix blank number, fits, ?_⟩
    by_cases zero : n = 0
    · exact .inr (by rw [zero])
    · exact .inl (Nat.pos_of_ne_zero zero)
  · rw [if_neg blank] at h
    obtain ⟨a, number, h⟩ := Option.bind_eq_some_iff.1 h
    obtain ⟨number, fits⟩ := parse_eq_some.1 number
    by_cases beyond : a ≥ total
    · rw [if_pos beyond] at h
      cases h
    rw [if_neg beyond] at h
    obtain ⟨stop, ends, h⟩ := Option.bind_eq_some_iff.1 h
    by_cases before : stop < a
    · rw [if_pos before] at h
      cases h
    rcases readStop_eq_some.1 ends with ⟨blank', -⟩ | ⟨e, number', fits', rfl⟩
    · exact ⟨.fromOn a, .fromOn number blank', fits, .inl (Nat.lt_of_not_le beyond)⟩
    · refine ⟨.fromTo a e, .fromTo number number', ⟨fits, fits'⟩, .inl ⟨?_, Nat.lt_of_not_le beyond⟩⟩
      omega

end Sides

/-- The parser on two sides of a hyphen; none of its operations panics. -/
theorem parseRangeHeader_parts {header : String} {first last : List Char} {totalSize : UInt64}
    (parts : Parts header "bytes".toList first last) (hyphens : '-' ∉ first ∧ '-' ∉ last)
    (nonempty : totalSize.toNat ≠ 0) :
    parseRangeHeader header totalSize =
      Checked.ends (.ok (readSides first last totalSize.toNat)) := by
  have bound := totalSize.toNat_lt
  have stripped : Text.stripPrefix "bytes=" header = some (String.ofList (first ++ '-' :: last)) := by
    have unit : "bytes=".toList = "bytes".toList ++ ['='] := by decide
    have sides : (String.ofList (first ++ '-' :: last)).toList = first ++ '-' :: last :=
      String.toList_ofList
    rw [Text.stripPrefix_eq_some, ← String.toList_inj, parts, String.toList_append, sides, unit,
      List.append_assoc]
    rfl
  have sides : Text.split '-' (String.ofList (first ++ '-' :: last)) =
      [String.ofList first, String.ofList last] := by
    unfold Text.split
    rw [String.toList_ofList, Text.splitOn_eq_pair.2 ⟨rfl, hyphens⟩]
    rfl
  have ofList_eq {cs : List Char} : String.ofList cs = "" ↔ cs = [] := by
    rw [← String.toList_inj, String.toList_ofList]
    rfl
  unfold parseRangeHeader
  simp only [stripped, sides, if_neg nonempty, Text.trim, String.toList_ofList, ofList_eq]
  unfold readSides
  by_cases blank : Text.trimList first = []
  · rw [if_pos blank, if_pos blank]
    cases parse 64 (Text.trimList last) with
    | none => rfl
    | some n =>
      simp only [Option.map_some]
      rw [Checked.sub_eq (Nat.sub_le _ _)]
      rfl
  rw [if_neg blank, if_neg blank]
  cases parse 64 (Text.trimList first) with
  | none => rfl
  | some start =>
    simp only [Option.bind_some]
    by_cases beyond : start ≥ totalSize.toNat
    · rw [if_pos beyond, if_pos beyond]
      rfl
    rw [if_neg beyond, if_neg beyond]
    have stop : rangeEnd (String.ofList (Text.trimList last)) totalSize.toNat =
        Checked.ends (.ok (readStop last totalSize.toNat)) := by
      unfold rangeEnd readStop
      simp only [ofList_eq, String.toList_ofList]
      by_cases blank' : Text.trimList last = []
      · rw [if_pos blank', if_pos blank', Checked.sub_eq (Nat.pos_of_ne_zero nonempty)]
        rfl
      · rw [if_neg blank', if_neg blank']
        cases parse 64 (Text.trimList last) with
        | none => rfl
        | some e =>
          simp only
          rw [Checked.sub_eq (Nat.pos_of_ne_zero nonempty)]
          rfl
    rw [stop, Checked.ends_bind]
    cases ends : readStop last totalSize.toNat with
    | none => rfl
    | some stop =>
      have small : stop ≤ totalSize.toNat - 1 := by
        rcases readStop_eq_some.1 ends with ⟨-, rfl⟩ | ⟨e, -, -, rfl⟩
        · exact Nat.le_refl _
        · exact Nat.min_le_right _ _
      simp only [Option.bind_some]
      by_cases before : stop < start
      · rw [if_pos before, if_pos before]
        rfl
      · rw [if_neg before, if_neg before, Checked.sub_eq (Nat.le_of_not_lt before), pure_bind,
          Checked.add_eq (by omega), pure_bind]
        rfl

/-- A header that is not such a thing is refused. -/
theorem parts_of_parseRangeHeader {header : String} {totalSize : UInt64} {start length : Nat}
    (nonempty : totalSize.toNat ≠ 0)
    (h : parseRangeHeader header totalSize = Checked.ends (.ok (some (start, length)))) :
    ∃ first last, Parts header "bytes".toList first last ∧ '-' ∉ first ∧ '-' ∉ last := by
  unfold parseRangeHeader at h
  simp only [if_neg nonempty] at h
  cases stripped : Text.stripPrefix "bytes=" header with
  | none =>
    rw [stripped] at h
    cases h
  | some rangeStr =>
    rw [stripped] at h
    simp only at h
    split at h
    · rename_i first last sides
      have lists := congrArg (List.map String.toList) sides
      unfold Text.split at lists
      rw [List.map_map, Function.comp_def] at lists
      simp only [String.toList_ofList, List.map_id'] at lists
      obtain ⟨same, hyphens⟩ := Text.splitOn_eq_pair.1 lists
      refine ⟨first.toList, last.toList, ?_, hyphens⟩
      have unit : "bytes=".toList = "bytes".toList ++ ['='] := by decide
      unfold Parts
      rw [Text.stripPrefix_eq_some.1 stripped, String.toList_append, same, unit, List.append_assoc]
      rfl
    · cases h

/-- What the parser takes for a range, in a file that is not empty. -/
theorem parseRangeHeader_eq_some {header : String} {totalSize : UInt64} {start length : Nat}
    (nonempty : totalSize.toNat ≠ 0) :
    parseRangeHeader header totalSize = Checked.ends (.ok (some (start, length))) ↔
      ∃ first last spec, Parts header "bytes".toList first last ∧ Reads Blank Loose first last spec ∧
        spec.Fits ∧ spec.Begins totalSize.toNat ∧ start = spec.start totalSize.toNat ∧
        length = spec.length totalSize.toNat := by
  constructor
  · intro h
    obtain ⟨first, last, parts, hyphens⟩ := parts_of_parseRangeHeader nonempty h
    rw [parseRangeHeader_parts parts hyphens nonempty] at h
    have sides : readSides first last totalSize.toNat = some (start, length) := by
      have inner := Option.some.inj h
      exact Except.ok.inj inner
    obtain ⟨spec, reads, fits, begins⟩ := reads_of_readSides sides
    have same := readSides_of_reads reads fits begins
    rw [sides] at same
    obtain ⟨first', last'⟩ := Prod.mk.inj (Option.some.inj same)
    exact ⟨first, last, spec, parts, reads, fits, begins, first', last'⟩
  · intro h
    obtain ⟨first, last, spec, parts, reads, fits, begins, rfl, rfl⟩ := h
    rw [parseRangeHeader_parts parts reads.hyphens nonempty,
      readSides_of_reads reads fits begins]

/-! ## What is right -/

/-- The header is right for the handler: a range is found exactly where the grammar has one that can
be satisfied, it is a part of the file that is not empty, and its `Content-Range` says so. -/
def RangeCorrect (header : String) (totalSize : UInt64) : Prop :=
  ∀ start length,
    (parseRangeHeader header totalSize = Checked.ends (.ok (some (start, length))) ↔
      ∃ spec, Written header spec ∧ spec.Satisfiable totalSize.toNat ∧
        start = spec.start totalSize.toNat ∧ length = spec.length totalSize.toNat) ∧
    (parseRangeHeader header totalSize = Checked.ends (.ok (some (start, length))) →
      1 ≤ length ∧ start + length ≤ totalSize.toNat ∧
      partialResponse start length totalSize.toNat = Checked.ends (.ok ⟨206, start, length,
        some (contentRange start (start + length - 1) totalSize.toNat)⟩))

/-- Where the grammar and the parser agree: the file is not empty; what reads like a satisfiable range
has only digits around its hyphen if and only if its unit is in lower case and its numbers have 64
bits; and no last 0 bytes are asked for. -/
def RangeClear (header : String) (totalSize : UInt64) : Prop :=
  totalSize ≠ 0 ∧
  ∀ unit first last spec, Parts header unit first last → IsBytesUnit unit →
    Reads Blank Loose first last spec →
    (spec.Satisfiable totalSize.toNat →
      (OnlyDigits first ∧ OnlyDigits last ↔ unit = "bytes".toList ∧ spec.Fits)) ∧
    (unit = "bytes".toList → spec ≠ .suffix 0)

theorem isBytesUnit_bytes : IsBytesUnit "bytes".toList := by
  unfold IsBytesUnit
  decide

/-- A range that is a part of the file has a well formed `Content-Range`. -/
theorem partialResponse_eq {start length total : Nat} (some : 1 ≤ length)
    (within : start + length ≤ total) (size : total < 2 ^ 64) :
    partialResponse start length total = Checked.ends (.ok ⟨206, start, length,
      Option.some (contentRange start (start + length - 1) total)⟩) := by
  unfold partialResponse
  rw [Checked.add_eq (by omega), pure_bind, Checked.sub_eq (by omega), pure_bind]
  rfl

/-- The parser and its handler are right about a header if and only if it is clear. -/
theorem range_correct_iff (header : String) (totalSize : UInt64) :
    RangeCorrect header totalSize ↔ RangeClear header totalSize := by
  have bound := totalSize.toNat_lt
  constructor
  · intro correct
    have nonempty : totalSize.toNat ≠ 0 := by
      intro empty
      have parsed : parseRangeHeader header totalSize = Checked.ends (.ok (some (0, 0))) := by
        unfold parseRangeHeader
        simp only [if_pos empty]
        rfl
      exact absurd ((correct 0 0).2 parsed).1 (by decide)
    refine ⟨fun zero => nonempty (by rw [zero]; rfl), ?_⟩
    intro unit first last spec parts bytes reads
    have found := @parseRangeHeader_eq_some header totalSize (spec.start totalSize.toNat)
      (spec.length totalSize.toNat) nonempty
    refine ⟨fun satisfiable => ⟨fun plain => ?_, fun lower => ?_⟩, fun lower zero => ?_⟩
    · -- written in the grammar, so it is taken
      have written : Written header spec :=
        ⟨unit, first, last, parts, bytes, Reads.grammar_iff.2 ⟨reads, plain⟩⟩
      obtain ⟨first', last', spec', parts', reads', fits, -⟩ :=
        found.1 ((correct _ _).1.2 ⟨spec, written, satisfiable, rfl, rfl⟩)
      obtain ⟨rfl, rfl, rfl⟩ := parts.unique parts' bytes isBytesUnit_bytes reads.hyphens.1
        reads'.hyphens.1
      rw [reads.unique reads']
      exact ⟨rfl, fits⟩
    · -- taken, so it is written in the grammar
      obtain ⟨rfl, fits⟩ := lower
      have parsed := found.2 ⟨first, last, spec, parts, reads, fits, .inl satisfiable, rfl, rfl⟩
      obtain ⟨spec', ⟨unit', first', last', parts', bytes', reads'⟩, -⟩ := (correct _ _).1.1 parsed
      obtain ⟨loose, plain⟩ := Reads.grammar_iff.1 reads'
      obtain ⟨-, rfl, rfl⟩ := parts.unique parts' bytes bytes' reads.hyphens.1 loose.hyphens.1
      exact plain
    · subst lower zero
      have fits : (RangeSpec.suffix 0).Fits := by
        show 0 < 2 ^ 64
        decide
      have parsed := found.2 ⟨first, last, _, parts, reads, fits, .inr rfl, rfl, rfl⟩
      have positive : 1 ≤ min 0 totalSize.toNat := ((correct _ _).2 parsed).1
      rw [Nat.zero_min] at positive
      omega
  · intro clear start length
    obtain ⟨zero, clear⟩ := clear
    have nonempty : totalSize.toNat ≠ 0 := fun empty => zero (UInt64.toNat_inj.1 empty)
    have taken := @parseRangeHeader_eq_some header totalSize start length nonempty
    have satisfied (h : parseRangeHeader header totalSize = Checked.ends (.ok (some (start, length)))) :
        ∃ spec, Written header spec ∧ spec.Satisfiable totalSize.toNat ∧
          start = spec.start totalSize.toNat ∧ length = spec.length totalSize.toNat := by
      obtain ⟨first, last, spec, parts, reads, fits, begins, same⟩ := taken.1 h
      obtain ⟨agree, other⟩ := clear _ _ _ _ parts isBytesUnit_bytes reads
      have satisfiable := begins.resolve_right (other rfl)
      have plain := (agree satisfiable).2 ⟨rfl, fits⟩
      exact ⟨spec, ⟨_, first, last, parts, isBytesUnit_bytes, Reads.grammar_iff.2 ⟨reads, plain⟩⟩,
        satisfiable, same⟩
    refine ⟨⟨satisfied, fun asked => ?_⟩, fun h => ?_⟩
    · obtain ⟨spec, ⟨unit, first, last, parts, bytes, reads⟩, satisfiable, same⟩ := asked
      obtain ⟨loose, plain⟩ := Reads.grammar_iff.1 reads
      obtain ⟨rfl, fits⟩ := ((clear _ _ _ _ parts bytes loose).1 satisfiable).1 plain
      exact taken.2 ⟨first, last, spec, parts, loose, fits, .inl satisfiable, same⟩
    · obtain ⟨spec, -, satisfiable, rfl, rfl⟩ := satisfied h
      obtain ⟨some, within⟩ := satisfiable.within nonempty
      exact ⟨some, within, partialResponse_eq some within bound⟩

/-- A range of an empty file is found, and the handler subtracts from 0. -/
theorem empty_file_range :
    parseRangeHeader "bytes=0-0" 0 = Checked.ends (.ok (some (0, 0))) ∧
      handleGet (some "bytes=0-0") 0 = Checked.panic ∧ ¬ RangeCorrect "bytes=0-0" 0 := by
  refine ⟨rfl, by with_unfolding_all rfl, fun correct => ?_⟩
  exact absurd ((correct 0 0).2 rfl).1 (by decide)

end OosLite
