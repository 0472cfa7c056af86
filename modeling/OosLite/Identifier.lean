import OosLite.Env
import OosLite.Lib.Hexadecimal

/-!
# Identifiers as texts

How identifiers are read back from what is printed for them, and which other texts name the same
identifier.  `u8::from_str_radix` takes a plus sign in front of its digits, so a pair of characters may
be a plus sign and a digit.
-/

namespace OosLite

/-! ## Reading -/

/-- The loop of `from_str`, over the pairs of bytes of its text. -/
def readPairs (type : String) : Bytes → Result Bytes
  | high :: low :: rest => do
    let byte ← match Text.strFromUtf8 [high, low] with
      | .error e => .error (.internal ("Invalid UTF-8 in " ++ type ++ " hex: " ++ e.display))
      | .ok pair =>
        match Text.fromStrRadix16 (Text.utf8 pair) with
        | .error e => .error (.internal ("Invalid hex in " ++ type ++ ": " ++ e.display))
        | .ok byte => .ok byte
    return byte :: (← readPairs type rest)
  | _ => .ok []

/-- `from_str` of an identifier of `n` bytes, with the words of its errors. -/
def readIdentifier (type unit : String) (n : Nat) (s : String) : Result (FixedBytes n) :=
  let bytes := Text.utf8 s
  if bytes.length ≠ 2 * n then
    .error (.internal ("Invalid " ++ type ++ " length: expected " ++ toString (2 * n) ++ " hex " ++
      unit ++ ", got " ++ toString bytes.length))
  else (readPairs type bytes).map (FixedBytes.ofBytes n)

/-- `ObjectId::from_str`. -/
def ObjectId.fromStr (s : String) : Result ObjectId :=
  readIdentifier "ObjectId" "chars" 16 (Text.trim s)

/-- `ChunkId::from_str`. -/
def ChunkId.fromStr (s : String) : Result ChunkId := readIdentifier "ChunkId" "characters" 32 s

/-! ## What is read -/

/-- A pair of bytes that is no text is no pair of digits either. -/
theorem pair_toOption (high low : UInt8) :
    (match Text.strFromUtf8 [high, low] with
      | .error _ => none
      | .ok pair => (Text.fromStrRadix16 (Text.utf8 pair)).toOption) =
      Text.byteOfDigits high low := by
  unfold Text.strFromUtf8
  cases text : Text.fromUtf8 [high, low] with
  | some pair =>
    simp only
    rw [Text.utf8_of_fromUtf8 text, Text.fromStrRadix16_pair]
  | none =>
    simp only
    cases found : Text.byteOfDigits high low with
    | none => rfl
    | some b =>
      have ascii : high.toNat < 128 ∧ low.toNat < 128 := by
        by_contra beyond
        rw [Text.byteOfDigits_high (by omega)] at found
        cases found
      rw [Text.fromUtf8_pair ascii.1 ascii.2] at text
      cases text

/-- The bytes that are read do not depend on the words of the errors. -/
theorem readPairs_toOption (type : String) {bytes : Bytes} (even : bytes.length % 2 = 0) :
    (readPairs type bytes).toOption = Text.ofHex bytes := by
  induction bytes using Text.ofHex.induct with
  | case1 => rfl
  | case2 b => cases even
  | case3 high low rest ih =>
    have first := pair_toOption high low
    have others := ih (by rw [List.length_cons, List.length_cons] at even; omega)
    rw [Text.ofHex, ← first, ← others, readPairs]
    cases Text.strFromUtf8 [high, low] with
    | error e => rfl
    | ok pair =>
      simp only
      cases Text.fromStrRadix16 (Text.utf8 pair) with
      | error e => rfl
      | ok byte => cases readPairs type rest <;> rfl

/-- An identifier is read exactly from pairs of digits that are printed for it, letter case and plus
signs aside. -/
theorem readIdentifier_eq_ok {type unit : String} {n : Nat} {s : String} {id : FixedBytes n} :
    readIdentifier type unit n s = .ok id ↔
      Text.isPairs s.toList = true ∧ (Text.replace '+' '0' s).toLower = Text.hex id.bytes := by
  have whole {bytes : Bytes} (read : Text.ofHex (Text.utf8 s) = some bytes) :
      (Text.utf8 s).length = 2 * bytes.length := Text.length_of_ofHex read
  rw [← Text.ofHex_utf8_eq_some]
  unfold readIdentifier
  constructor
  · intro read
    simp only at read
    split at read
    · cases read
    · rename_i length
      have even : (Text.utf8 s).length % 2 = 0 := by omega
      have bytes := readPairs_toOption type even
      cases pairs : readPairs type (Text.utf8 s) with
      | error e =>
        rw [pairs] at read
        cases read
      | ok bs =>
        rw [pairs] at bytes read
        have fits := whole bytes.symm
        cases read
        rw [← bytes, FixedBytes.bytes_ofBytes (by omega)]
        rfl
  · intro read
    have length := whole read
    rw [id.length_eq] at length
    have even : (Text.utf8 s).length % 2 = 0 := by omega
    have bytes := readPairs_toOption type even
    rw [read] at bytes
    simp only [length, ne_eq, not_true_eq_false, if_false]
    cases pairs : readPairs type (Text.utf8 s) with
    | error e =>
      rw [pairs] at bytes
      cases bytes
    | ok bs =>
      rw [pairs] at bytes
      cases bytes
      show Except.ok (FixedBytes.ofBytes n id.bytes) = _
      rw [FixedBytes.ofBytes_bytes]

/-- The engine asks for an identifier in the same way. -/
theorem ObjectId.parse_eq (s : String) : ObjectId.parse s = (ObjectId.fromStr s).toOption := by
  unfold ObjectId.parse ObjectId.fromStr readIdentifier
  simp only
  split
  · rfl
  · rename_i length
    rw [← readPairs_toOption "ObjectId" (by omega)]
    cases readPairs "ObjectId" (Text.utf8 (Text.trim s)) <;> rfl

/-! ## Which texts are read exactly -/

/-- Pairs of digits for `n` bytes, some with a plus sign in the place of their first digit. -/
structure SignedPairs (n : Nat) (s : String) : Prop where
  pairs : Text.isPairs s.toList = true
  length : s.length = 2 * n
  sign : '+' ∈ s.toList

/-- Pairs of digits for the same `n` bytes, with plus signs at different places. -/
structure SignsDiffer (n : Nat) (s t : String) : Prop where
  pairs : Text.isPairs s.toList = true
  pairs' : Text.isPairs t.toList = true
  length : s.length = 2 * n
  same : (Text.replace '+' '0' s).toLower = (Text.replace '+' '0' t).toLower
  places : Text.signs s.toList ≠ Text.signs t.toList

section

variable {type unit : String} {n : Nat} {s t : String}

/-- All pairs of digits are read, if there are enough. -/
theorem exists_readIdentifier :
    (∃ id, readIdentifier type unit n s = .ok id) ↔
      Text.isPairs s.toList = true ∧ s.length = 2 * n := by
  constructor
  · intro h
    obtain ⟨id, read⟩ := h
    obtain ⟨pairs, same⟩ := readIdentifier_eq_ok.1 read
    refine ⟨pairs, ?_⟩
    rw [← Text.length_toLower_replace '+' '0' s, same, Text.length_hex, id.length_eq]
  · intro h
    obtain ⟨pairs, length⟩ := h
    obtain ⟨out, read, -⟩ := Text.ofHex_of_isPairs pairs
    rw [← Text.utf8_eq_encode] at read
    obtain ⟨-, same⟩ := Text.ofHex_utf8_eq_some.1 read
    have fits : out.length = n := by
      have count := congrArg String.length same
      rw [Text.length_hex, Text.length_toLower_replace] at count
      omega
    exact ⟨⟨out, fits⟩, readIdentifier_eq_ok.2 ⟨pairs, same⟩⟩

theorem readIdentifier_hex (id : FixedBytes n) :
    readIdentifier type unit n (Text.hex id.bytes) = .ok id := by
  rw [readIdentifier_eq_ok, ← Text.ofHex_utf8_eq_some]
  exact Text.ofHex_hex id.bytes

/-- A text that is read is the text that is printed, letter case aside, unless it has plus signs. -/
theorem readIdentifier_exact :
    (∀ id, readIdentifier type unit n s = .ok id →
      Text.isHexadecimal s = true ∧ s.toLower = Text.hex id.bytes) ↔ ¬ SignedPairs n s := by
  constructor
  · intro exact signed
    obtain ⟨id, read⟩ := exists_readIdentifier.2 ⟨signed.pairs, signed.length⟩
    exact (Text.all_isHexDigit_iff signed.pairs).1 (exact id read).1 signed.sign
  · intro unsigned id read
    obtain ⟨pairs, same⟩ := readIdentifier_eq_ok.1 read
    have plain : '+' ∉ s.toList := by
      intro sign
      exact unsigned ⟨pairs, (exists_readIdentifier.1 ⟨id, read⟩).2, sign⟩
    rw [Text.replace_of_not_mem plain] at same
    exact ⟨(Text.all_isHexDigit_iff pairs).2 plain, same⟩

/-- Two texts that are read as one identifier agree up to letter case, unless their plus signs are at
different places. -/
theorem readIdentifier_unique :
    (∀ id, readIdentifier type unit n s = .ok id → readIdentifier type unit n t = .ok id →
      s.toLower = t.toLower) ↔ ¬ SignsDiffer n s t := by
  have agree (same : (Text.replace '+' '0' s).toLower = (Text.replace '+' '0' t).toLower) :
      s.toLower = t.toLower ↔ Text.signs s.toList = Text.signs t.toList := by
    have chars := congrArg String.toList same
    simp only [Text.toList_toLower, Text.replace, String.toList_ofList, List.map_map] at chars
    rw [← Text.map_toLower_eq_iff chars, ← String.toList_inj, Text.toList_toLower,
      Text.toList_toLower]
  constructor
  · intro unique differ
    obtain ⟨id, read⟩ := exists_readIdentifier.2 ⟨differ.pairs, differ.length⟩
    have written := (readIdentifier_eq_ok.1 read).2
    have read' : readIdentifier type unit n t = .ok id :=
      readIdentifier_eq_ok.2 ⟨differ.pairs', differ.same ▸ written⟩
    exact differ.places ((agree differ.same).1 (unique id read read'))
  · intro alike id read read'
    obtain ⟨pairs, written⟩ := readIdentifier_eq_ok.1 read
    obtain ⟨pairs', written'⟩ := readIdentifier_eq_ok.1 read'
    have same := written.trans written'.symm
    rw [agree same]
    by_contra places
    exact alike ⟨pairs, pairs', (exists_readIdentifier.1 ⟨id, read⟩).2, same, places⟩

end

/-- What is printed is read back, and what is read is what is printed, up to letter case and white
space, exactly as long as there are no plus signs. -/
theorem identifiers_exact_iff (object : ObjectId) (chunk : ChunkId) (s t : String) :
    ObjectId.fromStr object.toHex = .ok object ∧ ChunkId.fromStr chunk.toHex = .ok chunk ∧
      ((∀ id : ObjectId, ObjectId.fromStr s = .ok id →
        Text.isHexadecimal (Text.trim s) = true ∧ (Text.trim s).toLower = id.toHex) ↔
        ¬ SignedPairs 16 (Text.trim s)) ∧
      ((∀ id : ChunkId, ChunkId.fromStr s = .ok id →
        Text.isHexadecimal s = true ∧ s.toLower = id.toHex) ↔ ¬ SignedPairs 32 s) ∧
      ((∀ id : ObjectId, ObjectId.fromStr s = .ok id → ObjectId.fromStr t = .ok id →
        (Text.trim s).toLower = (Text.trim t).toLower) ↔
        ¬ SignsDiffer 16 (Text.trim s) (Text.trim t)) := by
  refine ⟨?_, readIdentifier_hex chunk, readIdentifier_exact, readIdentifier_exact,
    readIdentifier_unique⟩
  unfold ObjectId.fromStr ObjectId.toHex
  rw [Text.trim_hex]
  exact readIdentifier_hex object

/-- The objects and chunks whose texts begin with `0f`, and are nought from there on. -/
def fifteen (n : Nat) : FixedBytes n := FixedBytes.ofBytes n [15]

/-- `+f` is read as `0f`. -/
theorem plus_sign_is_read :
    ObjectId.fromStr "+f000000000000000000000000000000" = .ok (fifteen 16) ∧
      ObjectId.fromStr "0f000000000000000000000000000000" = .ok (fifteen 16) ∧
      Text.isHexadecimal (Text.trim "+f000000000000000000000000000000") = false ∧
      (Text.trim "+f000000000000000000000000000000").toLower ≠ ObjectId.toHex (fifteen 16) ∧
      (Text.trim "+f000000000000000000000000000000").toLower ≠
        (Text.trim "0f000000000000000000000000000000").toLower ∧
      ChunkId.fromStr "+f00000000000000000000000000000000000000000000000000000000000000" =
        .ok (fifteen 32) ∧
      Text.isHexadecimal "+f00000000000000000000000000000000000000000000000000000000000000" =
        false := by
  decide +kernel

end OosLite
