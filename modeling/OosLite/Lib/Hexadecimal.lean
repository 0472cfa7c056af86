import OosLite.Lib.Utf8

/-!
# Hexadecimal numbers

How Rust reads bytes from texts of two digits each, which texts it takes, and what is written for the
bytes it reads.
-/

namespace Text

/-! ## Integers -/

/-- `ParseIntError`, as far as an unsigned integer is refused with it. -/
inductive ParseIntError where
  | empty
  | invalidDigit
  | posOverflow
  deriving DecidableEq

/-- The text of an error. -/
def ParseIntError.display : ParseIntError → String
  | .empty => "cannot parse integer from empty string"
  | .invalidDigit => "invalid digit found in string"
  | .posOverflow => "number too large to fit in target type"

/-- The value of the digits behind some digits of this value. -/
def readDigits (value : Nat) : Bytes → Except ParseIntError UInt8
  | [] => .ok (UInt8.ofNat value)
  | digit :: rest =>
    match digitValue digit with
    | none => .error .invalidDigit
    | some d =>
      if 256 ≤ 16 * value + d then .error .posOverflow else readDigits (16 * value + d) rest

/-- `u8::from_str_radix` with radix 16, on the bytes of its text. -/
def fromStrRadix16 : Bytes → Except ParseIntError UInt8
  | [] => .error .empty
  | [b] => if b = 43 ∨ b = 45 then .error .invalidDigit else readDigits 0 [b]
  | b :: rest => if b = 43 then readDigits 0 rest else readDigits 0 (b :: rest)

/-! ## Bytes that are no text -/

/-- `Utf8Error`. -/
structure Utf8Error where
  validUpTo : Nat
  errorLen : Option Nat
  deriving DecidableEq

/-- The text of an error. -/
def Utf8Error.display (e : Utf8Error) : String :=
  match e.errorLen with
  | some n => s!"invalid utf-8 sequence of {n} bytes from index {e.validUpTo}"
  | none => s!"incomplete utf-8 byte sequence from index {e.validUpTo}"

/-- The length of what is no character, or nothing where more bytes could make it one. -/
def errorLen (bs : Bytes) : Option Nat :=
  let leads := bs.head?.any fun first => 0xC2 ≤ first && first ≤ 0xF4
  if brokenLength bs = bs.length ∧ leads then none else some (brokenLength bs)

/-- `str::from_utf8`. -/
def strFromUtf8 (bs : Bytes) : Except Utf8Error String :=
  match fromUtf8 bs with
  | some s => .ok s
  | none =>
    let valid := (List.range bs.length).filter fun n => (fromUtf8 (bs.take n)).isSome
    let validUpTo := valid.getLast?.getD 0
    .error { validUpTo, errorLen := errorLen (bs.drop validUpTo) }

/-! ## Digits -/

/-- `char::is_ascii_hexdigit`. -/
def isHexDigit (c : Char) : Bool := c.toNat < 128 && (digitValue (UInt8.ofNat c.toNat)).isSome

/-- Pairs of digits, where a plus sign may take the place of the first of the two. -/
def isPairs : List Char → Bool
  | [] => true
  | [_] => false
  | high :: low :: rest => (isHexDigit high || high == '+') && isHexDigit low && isPairs rest

/-- The digit that a plus sign amounts to. -/
def unsigned (c : Char) : Char := if c = '+' then '0' else c

/-- The places of the plus signs. -/
def signs (cs : List Char) : List Bool := cs.map fun c => c == '+'

/-- What the ASCII characters have in common. -/
theorem ascii_forall {P : Char → Prop} (all : ∀ k : Fin 128, P (Char.ofNat k)) {c : Char}
    (ascii : c.toNat < 128) : P c := by
  have here := all ⟨c.toNat, ascii⟩
  rwa [Char.ofNat_toNat] at here

/-- Bytes below 128 are text. -/
theorem fromUtf8_pair {high low : UInt8} (ascii : high.toNat < 128) (ascii' : low.toNat < 128) :
    fromUtf8 [high, low] = some (String.ofList [Char.ofNat high.toNat, Char.ofNat low.toNat]) := by
  have char {b : UInt8} (ascii : b.toNat < 128) :
      String.utf8EncodeChar (Char.ofNat b.toNat) = [b] := by
    have value : (Char.ofNat b.toNat).toNat = b.toNat := by
      unfold Char.ofNat
      rw [dif_pos (.inl (Nat.lt_trans ascii (by decide)))]
      rfl
    have small : (Char.ofNat b.toNat).toNat < 128 := by rwa [value]
    rw [encode_ascii small, value, UInt8.ofNat_toNat]
  rw [← fromUtf8_encode, encode_cons, encode_cons, char ascii, char ascii']
  rfl

/-- A digit in lower case is the digit that is written for its value. -/
theorem toLower_of_digitValue {c : Char} {n : Nat} (ascii : c.toNat < 128)
    (value : digitValue (UInt8.ofNat c.toNat) = some n) : n < 16 ∧ c.toLower = hexDigit n := by
  have all := ascii_forall
    (P := fun c => (digitValue (UInt8.ofNat c.toNat)).all fun n => n < 16 ∧ c.toLower = hexDigit n)
    (by decide +kernel) ascii
  rw [value] at all
  simpa using all

theorem isHexDigit_iff {c : Char} : isHexDigit c = true ↔
    c.toNat < 128 ∧ ∃ n, digitValue (UInt8.ofNat c.toNat) = some n := by
  simp [isHexDigit, Option.isSome_iff_exists]

theorem unsigned_of_ne {c : Char} (h : c ≠ '+') : unsigned c = c := if_neg h

/-- What stands for a digit, once a plus sign is read as the digit it amounts to. -/
theorem isHexDigit_unsigned {c : Char} :
    (isHexDigit c || c == '+') = true ↔ isHexDigit (unsigned c) = true := by
  by_cases plus : c = '+'
  · rw [plus]
    decide
  · rw [unsigned_of_ne plus]
    simp [plus]

/-! ## One byte -/

theorem digitValue_high {b : UInt8} (high : 128 ≤ b.toNat) : digitValue b = none := by
  unfold digitValue
  rw [if_neg (by omega), if_neg (by omega), if_neg (by omega)]

/-- A plus sign in the first place amounts to nought. -/
theorem byteOfDigits_unsigned (high : Char) (low : UInt8) (ascii : high.toNat < 128) :
    byteOfDigits (UInt8.ofNat high.toNat) low =
      (digitValue (UInt8.ofNat (unsigned high).toNat)).bind fun n =>
        (digitValue low).map fun m => UInt8.ofNat (16 * n + m) := by
  by_cases plus : high = '+'
  · subst plus
    have nought : digitValue (UInt8.ofNat (unsigned '+').toNat) = some 0 := rfl
    have sign : UInt8.ofNat '+'.toNat = 43 := rfl
    rw [nought, sign, byteOfDigits, if_pos rfl]
    simp
  · have other : UInt8.ofNat high.toNat ≠ 43 := by
      intro same
      have value := congrArg UInt8.toNat same
      rw [UInt8.toNat_ofNat_of_lt' (Nat.lt_trans ascii (by decide))] at value
      apply plus
      rw [← Char.ofNat_toNat high, value]
      rfl
    rw [byteOfDigits, if_neg other, unsigned_of_ne plus]
    cases digitValue (UInt8.ofNat high.toNat) with
    | none => rfl
    | some n => cases digitValue low <;> rfl

theorem hexByte_ofNat {n m : Nat} (hn : n < 16) (hm : m < 16) :
    hexByte (UInt8.ofNat (16 * n + m)) = [hexDigit n, hexDigit m] := by
  have whole : (UInt8.ofNat (16 * n + m)).toNat = 16 * n + m := by
    apply UInt8.toNat_ofNat_of_lt'
    show 16 * n + m < 256
    omega
  have first : (16 * n + m) / 16 = n := by omega
  have last : (16 * n + m) % 16 = m := by omega
  unfold hexByte
  rw [whole, first, last]

/-- Two digits are read as the byte for which they are written in lower case. -/
theorem byteOfDigits_of_digits {high low : Char} (first : isHexDigit (unsigned high) = true)
    (last : isHexDigit low = true) (ascii : high.toNat < 128) : ∃ b,
    byteOfDigits (UInt8.ofNat high.toNat) (UInt8.ofNat low.toNat) = some b ∧
      hexByte b = [(unsigned high).toLower, low.toLower] := by
  obtain ⟨ascii₁, n, value₁⟩ := isHexDigit_iff.1 first
  obtain ⟨ascii₂, m, value₂⟩ := isHexDigit_iff.1 last
  obtain ⟨small₁, written₁⟩ := toLower_of_digitValue ascii₁ value₁
  obtain ⟨small₂, written₂⟩ := toLower_of_digitValue ascii₂ value₂
  refine ⟨UInt8.ofNat (16 * n + m), ?_, ?_⟩
  · rw [byteOfDigits_unsigned _ _ ascii, value₁, value₂]
    rfl
  · rw [hexByte_ofNat small₁ small₂, written₁, written₂]

theorem digits_of_byteOfDigits {high low : Char} {b : UInt8} (ascii₁ : high.toNat < 128)
    (ascii₂ : low.toNat < 128)
    (found : byteOfDigits (UInt8.ofNat high.toNat) (UInt8.ofNat low.toNat) = some b) :
    isHexDigit (unsigned high) = true ∧ isHexDigit low = true := by
  rw [byteOfDigits_unsigned _ _ ascii₁] at found
  obtain ⟨n, value₁, found⟩ := Option.bind_eq_some_iff.1 found
  obtain ⟨m, value₂, -⟩ := Option.map_eq_some_iff.1 found
  refine ⟨isHexDigit_iff.2 ⟨?_, n, value₁⟩, isHexDigit_iff.2 ⟨ascii₂, m, value₂⟩⟩
  unfold unsigned
  split
  · decide
  · exact ascii₁

theorem byteOfDigits_high {high low : UInt8} (beyond : 128 ≤ high.toNat ∨ 128 ≤ low.toNat) :
    byteOfDigits high low = none := by
  unfold byteOfDigits
  rcases beyond with beyond | beyond
  · have other : high ≠ 43 := by
      rintro rfl
      exact absurd beyond (by decide)
    rw [if_neg other, digitValue_high beyond]
    rfl
  · rw [digitValue_high beyond]
    cases digitValue high <;> simp

theorem digitValue_lt {b : UInt8} {n : Nat} (value : digitValue b = some n) : n < 16 := by
  unfold digitValue at value
  grind

/-- A last digit does not go beyond a byte. -/
theorem readDigits_last {value : Nat} (small : value < 16) (low : UInt8) :
    (readDigits value [low]).toOption =
      (digitValue low).map fun m => UInt8.ofNat (16 * value + m) := by
  cases last : digitValue low with
  | none =>
    rw [readDigits, last]
    rfl
  | some m =>
    have fits : ¬ 256 ≤ 16 * value + m := by
      have small' := digitValue_lt last
      omega
    simp only [readDigits, last, if_neg fits]
    rfl

/-- What `from_str_radix` makes of two bytes. -/
theorem fromStrRadix16_pair (high low : UInt8) :
    (fromStrRadix16 [high, low]).toOption = byteOfDigits high low := by
  show (if high = 43 then readDigits 0 [low] else readDigits 0 [high, low]).toOption = _
  unfold byteOfDigits
  split
  · rw [readDigits_last (by decide)]
    simp
  · cases first : digitValue high with
    | none =>
      rw [readDigits, first]
      rfl
    | some n =>
      have small := digitValue_lt first
      have fits : ¬ 256 ≤ 16 * 0 + n := by omega
      have next : readDigits 0 [high, low] = readDigits n [low] := by
        rw [readDigits, first]
        simp only [if_neg fits]
        rw [Nat.mul_zero, Nat.zero_add]
      rw [next, readDigits_last small]
      cases digitValue low <;> rfl

/-! ## Texts of pairs -/

theorem ofHex_cons_high {b : UInt8} (beyond : 128 ≤ b.toNat) (rest : Bytes) :
    ofHex (b :: rest) = none := by
  cases rest with
  | nil => rfl
  | cons low rest =>
    rw [ofHex, byteOfDigits_high (.inl beyond)]
    rfl

theorem length_of_ofHex {bs out : Bytes} (read : ofHex bs = some out) :
    bs.length = 2 * out.length := by
  induction bs using ofHex.induct generalizing out with
  | case1 =>
    cases read
    rfl
  | case2 b => cases read
  | case3 high low rest ih =>
    rw [ofHex] at read
    obtain ⟨b, -, read⟩ := Option.bind_eq_some_iff.1 read
    obtain ⟨out', others, same⟩ := Option.bind_eq_some_iff.1 read
    cases same
    have length := ih others
    simp only [List.length_cons, length]
    omega

theorem length_hex (bs : Bytes) : (hex bs).length = 2 * bs.length := by
  rw [hex, String.length_ofList]
  induction bs with
  | nil => rfl
  | cons b bs ih =>
    rw [List.flatMap_cons, List.length_append, ih, hexByte, List.length_cons, List.length_cons]
    simp
    omega

/-- Only pairs of digits are read as bytes. -/
theorem isPairs_of_ofHex {cs : List Char} {out : Bytes} (read : ofHex (encode cs) = some out) :
    isPairs cs = true := by
  have front {c : Char} {rest : List Char} {out : Bytes}
      (read : ofHex (encode (c :: rest)) = some out) : c.toNat < 128 := by
    by_contra beyond
    obtain ⟨b, more, split⟩ := List.exists_cons_of_length_pos (length_encode_pos c)
    have high := high_of_encode (Nat.not_lt.1 beyond) (split ▸ List.mem_cons_self)
    rw [encode_cons, split, List.cons_append, ofHex_cons_high high] at read
    cases read
  induction cs using isPairs.induct generalizing out with
  | case1 => rfl
  | case2 c =>
    rw [encode_cons, encode_ascii (front read)] at read
    cases read
  | case3 high low rest ih =>
    have ascii := front read
    rw [encode_cons, encode_ascii ascii, List.singleton_append, encode_cons] at read
    have ascii' : low.toNat < 128 := by
      by_contra beyond
      obtain ⟨b, more, split⟩ := List.exists_cons_of_length_pos (length_encode_pos low)
      have high := high_of_encode (Nat.not_lt.1 beyond) (split ▸ List.mem_cons_self)
      rw [split, List.cons_append, ofHex, byteOfDigits_high (.inr high)] at read
      cases read
    rw [encode_ascii ascii', List.singleton_append, ofHex] at read
    obtain ⟨b, first, read⟩ := Option.bind_eq_some_iff.1 read
    obtain ⟨out', others, -⟩ := Option.bind_eq_some_iff.1 read
    obtain ⟨digit, digit'⟩ := digits_of_byteOfDigits ascii ascii' first
    rw [isPairs, isHexDigit_unsigned.2 digit, digit', ih others]
    rfl

/-- Pairs of digits are read as the bytes for which they are written in lower case. -/
theorem ofHex_of_isPairs {cs : List Char} (pairs : isPairs cs = true) : ∃ out,
    ofHex (encode cs) = some out ∧ out.flatMap hexByte = cs.map fun c => (unsigned c).toLower := by
  induction cs using isPairs.induct with
  | case1 => exact ⟨[], rfl, rfl⟩
  | case2 c => cases pairs
  | case3 high low rest ih =>
    rw [isPairs, Bool.and_eq_true, Bool.and_eq_true] at pairs
    obtain ⟨⟨first, last⟩, others⟩ := pairs
    obtain ⟨out, read, written⟩ := ih others
    have ascii : high.toNat < 128 := by
      by_cases plus : high = '+'
      · rw [plus]
        decide
      · have digit := isHexDigit_unsigned.1 first
        rw [unsigned_of_ne plus] at digit
        exact (isHexDigit_iff.1 digit).1
    have ascii' := (isHexDigit_iff.1 last).1
    obtain ⟨b, byte, digits⟩ := byteOfDigits_of_digits (isHexDigit_unsigned.1 first) last ascii
    refine ⟨b :: out, ?_, ?_⟩
    · rw [encode_cons, encode_cons, encode_ascii ascii, encode_ascii ascii', List.singleton_append,
        List.singleton_append, ofHex, byte, read]
      rfl
    · have plain : low ≠ '+' := by
        rintro rfl
        cases last
      rw [List.flatMap_cons, digits, written, List.map_cons, List.map_cons, unsigned_of_ne plain]
      rfl

theorem toList_toLower (s : String) : s.toLower.toList = s.toList.map Char.toLower :=
  String.toList_map

/-- A text is read as these bytes exactly if it consists of pairs of digits that are written so, plus
signs aside. -/
theorem ofHex_utf8_eq_some {s : String} {out : Bytes} : ofHex (utf8 s) = some out ↔
    isPairs s.toList = true ∧ (replace '+' '0' s).toLower = hex out := by
  have chars : (replace '+' '0' s).toLower.toList = s.toList.map fun c => (unsigned c).toLower := by
    rw [toList_toLower, replace, String.toList_ofList, List.map_map]
    rfl
  rw [utf8_eq_encode]
  constructor
  · intro read
    have pairs := isPairs_of_ofHex read
    obtain ⟨out', read', written⟩ := ofHex_of_isPairs pairs
    rw [read', Option.some.injEq] at read
    refine ⟨pairs, String.toList_inj.1 ?_⟩
    rw [chars, ← written, read, hex, String.toList_ofList]
  · intro h
    obtain ⟨pairs, same⟩ := h
    obtain ⟨out', read, written⟩ := ofHex_of_isPairs pairs
    rw [read, Option.some.injEq]
    apply hex_injective
    rw [← same, ← String.toList_inj, chars, ← written, hex, String.toList_ofList]

/-! ## Plus signs -/

/-- Hexadecimal digits only. -/
def isHexadecimal (s : String) : Bool := s.toList.all isHexDigit

/-- Without a plus sign, pairs of digits are digits only. -/
theorem all_isHexDigit_iff {cs : List Char} (pairs : isPairs cs = true) :
    cs.all isHexDigit = true ↔ '+' ∉ cs := by
  constructor
  · intro digits sign
    exact absurd (List.all_eq_true.1 digits _ sign) (by decide)
  · intro plain
    induction cs using isPairs.induct with
    | case1 => rfl
    | case2 c => cases pairs
    | case3 high low rest ih =>
      rw [isPairs, Bool.and_eq_true, Bool.and_eq_true] at pairs
      obtain ⟨⟨first, last⟩, others⟩ := pairs
      simp only [List.mem_cons, not_or] at plain
      have digit := isHexDigit_unsigned.1 first
      rw [unsigned_of_ne (Ne.symm plain.1)] at digit
      rw [List.all_cons, List.all_cons, digit, last, ih others plain.2.2]
      rfl

theorem replace_of_not_mem {old new : Char} {s : String} (other : old ∉ s.toList) :
    replace old new s = s := by
  have same : s.toList.map (fun c => if c = old then new else c) = s.toList := by
    conv_rhs => rw [← List.map_id' s.toList]
    apply List.map_congr_left
    intro c member
    rw [if_neg]
    rintro rfl
    exact other member
  rw [replace, same, String.ofList_toList]

theorem length_toLower_replace (old new : Char) (s : String) :
    (replace old new s).toLower.length = s.length := by
  rw [← String.length_toList, toList_toLower, List.length_map, replace, String.toList_ofList,
    List.length_map, String.length_toList]

theorem toLower_ne_plus {c : Char} (h : c ≠ '+') : c.toLower ≠ '+' := by
  unfold Char.toLower
  split
  · rename_i upper
    intro same
    have value : (c.val + 32).toNat = 43 := congrArg (fun d => d.val.toNat) same
    have low : 65 ≤ c.val.toNat := UInt32.le_iff_toNat_le.1 upper.1
    have high : c.val.toNat ≤ 90 := UInt32.le_iff_toNat_le.1 upper.2
    have gap : (32 : UInt32).toNat = 32 := rfl
    rw [UInt32.toNat_add, gap] at value
    omega
  · exact h

/-- Texts that agree up to letter case once plus signs are read as digits agree before exactly if
their plus signs are at the same places. -/
theorem map_toLower_eq_iff {cs ds : List Char}
    (same : cs.map (fun c => (unsigned c).toLower) = ds.map fun c => (unsigned c).toLower) :
    cs.map Char.toLower = ds.map Char.toLower ↔ signs cs = signs ds := by
  induction cs generalizing ds with
  | nil =>
    obtain rfl : ds = [] := by simpa using same.symm
    simp [signs]
  | cons c cs ih =>
    cases ds with
    | nil => cases same
    | cons d ds =>
      obtain ⟨first, others⟩ := List.cons.inj same
      have head : c.toLower = d.toLower ↔ (c == '+') = (d == '+') := by
        by_cases plus : c = '+'
        · by_cases plus' : d = '+'
          · rw [plus, plus']
            exact iff_of_true rfl rfl
          · have other : ('+' : Char) ≠ d.toLower := (toLower_ne_plus plus').symm
            simpa [plus, plus'] using other
        · by_cases plus' : d = '+'
          · simpa [plus, plus'] using toLower_ne_plus plus
          · simp only [unsigned_of_ne plus, unsigned_of_ne plus'] at first
            simp [first, plus, plus']
      have tail := ih others
      unfold signs at tail ⊢
      rw [List.map_cons, List.map_cons, List.map_cons, List.map_cons, List.cons.injEq,
        List.cons.injEq, head, tail]

end Text
