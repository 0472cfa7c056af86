import OosLite.Lib.Text

/-!
# UTF-8 with replacement

How `fromUtf8Lossy` reads a text, character by character, and what it keeps of bytes that are none.
-/

namespace Text

/-- The bytes of characters. -/
def encode (cs : List Char) : Bytes := cs.flatMap String.utf8EncodeChar

/-- The characters of `fromUtf8Lossy`. -/
def decode (bs : Bytes) : List Char := (fromUtf8Lossy bs).toList

@[simp] theorem encode_nil : encode [] = [] := rfl

@[simp] theorem encode_cons (c : Char) (cs : List Char) :
    encode (c :: cs) = String.utf8EncodeChar c ++ encode cs := List.flatMap_cons

@[simp] theorem encode_append (cs ds : List Char) : encode (cs ++ ds) = encode cs ++ encode ds :=
  List.flatMap_append

theorem utf8_eq_encode (s : String) : utf8 s = encode s.toList := by
  unfold utf8 encode
  rw [← String.utf8Encode_toList]
  simp [List.utf8Encode]

theorem fromUtf8_encode (cs : List Char) : fromUtf8 (encode cs) = some (String.ofList cs) := by
  have text := fromUtf8_utf8 (String.ofList cs)
  rw [utf8_eq_encode, String.toList_ofList] at text
  exact text

/-- What is valid is the bytes of some characters. -/
theorem exists_of_fromUtf8 {bs : Bytes} {s : String} (valid : fromUtf8 bs = some s) :
    bs = encode s.toList := by
  rw [← utf8_of_fromUtf8 valid, utf8_eq_encode]

/-! ## The bytes of one character -/

theorem encode_cons_inj {c c' : Char} {x y : Bytes}
    (same : String.utf8EncodeChar c ++ x = String.utf8EncodeChar c' ++ y) : c = c' := by
  have first : ((String.utf8EncodeChar c).toByteArray ++ x.toByteArray).utf8DecodeChar? 0 =
      some c := ByteArray.utf8DecodeChar?_utf8EncodeChar_append
  have second : ((String.utf8EncodeChar c').toByteArray ++ y.toByteArray).utf8DecodeChar? 0 =
      some c' := ByteArray.utf8DecodeChar?_utf8EncodeChar_append
  have whole : (String.utf8EncodeChar c).toByteArray ++ x.toByteArray =
      (String.utf8EncodeChar c').toByteArray ++ y.toByteArray := by
    rw [← List.toByteArray_append, ← List.toByteArray_append, same]
  rw [whole, second] at first
  exact (Option.some.inj first).symm

theorem utf8Size_eq_one {c : Char} (ascii : c.toNat < 128) : c.utf8Size = 1 := by
  have small : c.toNat ≤ 127 := Nat.le_of_lt_succ ascii
  exact Char.utf8Size_eq_one_iff.2 (UInt32.le_iff_toNat_le.2 small)

theorem encode_ascii {c : Char} (ascii : c.toNat < 128) :
    String.utf8EncodeChar c = [UInt8.ofNat c.toNat] := by
  rw [String.utf8EncodeChar_eq_singleton (utf8Size_eq_one ascii)]
  rfl

theorem length_encode_pos (c : Char) : 0 < (String.utf8EncodeChar c).length := by
  rw [String.length_utf8EncodeChar]
  exact c.utf8Size_pos

/-- Only the first byte of a character may be the first of one. -/
theorem first_of_cons {c : Char} {b : UInt8} {rest : Bytes}
    (split : String.utf8EncodeChar c = b :: rest) :
    b.IsUTF8FirstByte ∧ ∀ b' ∈ rest, ¬ b'.IsUTF8FirstByte := by
  constructor
  · have first := UInt8.isUTF8FirstByte_getElem_zero_utf8EncodeChar (c := c)
    simp only [split, List.getElem_cons_zero] at first
    exact first
  · intro b' member first
    obtain ⟨i, small, rfl⟩ := List.mem_iff_getElem.1 member
    have inside : i + 1 < (String.utf8EncodeChar c).length := by
      rw [split, List.length_cons]
      exact Nat.succ_lt_succ small
    have same : (String.utf8EncodeChar c)[i + 1] = rest[i] := by
      simp only [split, List.getElem_cons_succ]
    rw [← same, UInt8.isUTF8FirstByte_getElem_utf8EncodeChar] at first
    exact Nat.succ_ne_zero i first

/-- A byte below 128 is a character of its own. -/
theorem isFirst_of_ascii {b : UInt8} (ascii : b.toNat < 128) : b.IsUTF8FirstByte := by
  have all : ∀ n : Fin 128, UInt8.ofNat n &&& 0x80 = 0 := by decide
  left
  have small := all ⟨b.toNat, ascii⟩
  rw [UInt8.ofNat_toNat] at small
  exact small

/-- The bytes of a character beyond ASCII are beyond it. -/
theorem high_of_encode {c : Char} (beyond : 128 ≤ c.toNat) {b : UInt8}
    (member : b ∈ String.utf8EncodeChar c) : 128 ≤ b.toNat := by
  have marked (x h : UInt8) (high : 128 ≤ h.toNat) : 128 ≤ (x ||| h).toNat := by
    rw [UInt8.toNat_or]
    exact Nat.le_trans high Nat.right_le_or
  rcases c.utf8Size_eq with one | two | three | four
  · have small := UInt32.le_iff_toNat_le.1 (Char.utf8Size_eq_one_iff.1 one)
    exact absurd (Nat.le_trans beyond small) (by decide)
  · rw [String.utf8EncodeChar_eq_cons_cons two] at member
    simp only [List.mem_cons, List.not_mem_nil, or_false] at member
    rcases member with rfl | rfl
    · exact marked _ _ (by decide)
    · exact marked _ _ (by decide)
  · rw [String.utf8EncodeChar_eq_cons_cons_cons three] at member
    simp only [List.mem_cons, List.not_mem_nil, or_false] at member
    rcases member with rfl | rfl | rfl
    · exact marked _ _ (by decide)
    · exact marked _ _ (by decide)
    · exact marked _ _ (by decide)
  · rw [String.utf8EncodeChar_eq_cons_cons_cons_cons four] at member
    simp only [List.mem_cons, List.not_mem_nil, or_false] at member
    rcases member with rfl | rfl | rfl | rfl
    · exact marked _ _ (by decide)
    · exact marked _ _ (by decide)
    · exact marked _ _ (by decide)
    · exact marked _ _ (by decide)

/-- An ASCII character occurs as often as its byte. -/
theorem count_encode {a : Char} (ascii : a.toNat < 128) (cs : List Char) :
    (encode cs).count (UInt8.ofNat a.toNat) = cs.count a := by
  have byte : (UInt8.ofNat a.toNat).toNat = a.toNat := by
    rw [UInt8.toNat_ofNat']
    omega
  induction cs with
  | nil => rfl
  | cons c cs ih =>
    rw [encode_cons, List.count_append, ih, List.count_cons]
    by_cases beyond : 128 ≤ c.toNat
    · have none : (String.utf8EncodeChar c).count (UInt8.ofNat a.toNat) = 0 := by
        apply List.count_eq_zero.2
        intro member
        have high := high_of_encode beyond member
        omega
      have other : ¬ (c == a) = true := by
        intro same
        rw [eq_of_beq same] at beyond
        omega
      rw [none, if_neg other]
      omega
    · rw [encode_ascii (Nat.lt_of_not_le beyond), List.count_singleton]
      have iff : (UInt8.ofNat c.toNat == UInt8.ofNat a.toNat) = (c == a) := by
        have small : (UInt8.ofNat c.toNat).toNat = c.toNat := by
          rw [UInt8.toNat_ofNat']
          omega
        rw [Bool.eq_iff_iff, beq_iff_eq, beq_iff_eq]
        constructor
        · intro same
          have number := congrArg UInt8.toNat same
          rw [small, byte] at number
          exact Char.toNat_inj.1 number
        · intro same
          rw [same]
      rw [iff]
      omega

/-! ## Reading -/

/-- A byte that is not the first of a character is read alone. -/
theorem brokenLength_of_not_first {b : UInt8} (follows : ¬ b.IsUTF8FirstByte) (rest : Bytes) :
    brokenLength (b :: rest) = 1 := by
  have range : (0x80 ≤ b.toNat ∧ b.toNat < 0xC0) ∨ 0xF8 ≤ b.toNat := by
    have all : ∀ n : Fin 256, ¬ (UInt8.ofNat n).IsUTF8FirstByte →
        (0x80 ≤ n.val ∧ n.val < 0xC0) ∨ 0xF8 ≤ n.val := by decide +kernel
    apply all ⟨b.toNat, b.toNat_lt⟩
    rw [UInt8.ofNat_toNat]
    exact follows
  have none (second : UInt8) : secondByte b second = false := by
    have ne (x : UInt8) (h : 0xC0 ≤ x.toNat ∧ x.toNat < 0xF8) : b ≠ x := by
      intro same
      rw [same] at range
      omega
    unfold secondByte
    rw [if_neg (ne 0xE0 (by decide)), if_neg (ne 0xED (by decide)), if_neg (ne 0xF0 (by decide)),
      if_neg (ne 0xF4 (by decide))]
    have outside : (0xE1 ≤ b && b ≤ 0xF3) = false := by
      rw [Bool.and_eq_false_iff, decide_eq_false_iff_not, decide_eq_false_iff_not,
        UInt8.le_iff_toNat_le, UInt8.le_iff_toNat_le]
      show ¬ 0xE1 ≤ b.toNat ∨ ¬ b.toNat ≤ 0xF3
      omega
    rw [outside, Bool.false_and]
  rcases rest with _ | ⟨second, _ | ⟨third, rest⟩⟩
  · rfl
  · show (if secondByte b second then 2 else 1) = 1
    rw [none, if_neg Bool.false_ne_true]
  · show (if secondByte b second then _ else 1) = 1
    rw [none, if_neg Bool.false_ne_true]

theorem brokenLength_pos (bs : Bytes) : 0 < brokenLength bs := by
  unfold brokenLength
  split
  · split
    · split <;> decide
    · decide
  · split <;> decide
  · decide

theorem firstChar_pos (bs : Bytes) : 0 < (firstChar bs).2 := by
  unfold firstChar
  split
  · rename_i n found
    have member := List.mem_of_find?_eq_some found
    simp only [List.mem_cons, List.not_mem_nil, or_false] at member
    show 0 < n
    omega
  · exact brokenLength_pos bs

theorem go_eq_go {n m : Nat} {bs : Bytes} (enough : bs.length ≤ n) (enough' : bs.length ≤ m) :
    fromUtf8Lossy.go n bs = fromUtf8Lossy.go m bs := by
  induction n generalizing m bs with
  | zero =>
    obtain rfl := List.length_eq_zero_iff.1 (Nat.le_zero.1 enough)
    cases m <;> rfl
  | succ n ih =>
    cases bs with
    | nil => cases m <;> rfl
    | cons b bs =>
      obtain ⟨m, rfl⟩ : ∃ k, m = k + 1 := ⟨m - 1, by rw [List.length_cons] at enough'; omega⟩
      have shorter := firstChar_pos (b :: bs)
      have length := List.length_drop (i := (firstChar (b :: bs)).2) (l := b :: bs)
      rw [List.length_cons] at enough enough' length
      unfold fromUtf8Lossy.go
      rw [ih (m := m) (by omega) (by omega)]

@[simp] theorem decode_nil : decode [] = [] := rfl

theorem decode_cons (b : UInt8) (bs : Bytes) : decode (b :: bs) =
    (firstChar (b :: bs)).1.toList ++ decode ((b :: bs).drop (firstChar (b :: bs)).2) := by
  have shorter := firstChar_pos (b :: bs)
  have length := List.length_drop (i := (firstChar (b :: bs)).2) (l := b :: bs)
  rw [List.length_cons] at length
  unfold decode
  rw [← String.toList_append]
  congr 1
  show (firstChar (b :: bs)).1 ++ fromUtf8Lossy.go bs.length _ = _
  congr 1
  exact go_eq_go (by omega) (Nat.le_refl _)

/-- The bytes of a character are read as that character. -/
theorem firstChar_encode (c : Char) (rest : Bytes) :
    firstChar (String.utf8EncodeChar c ++ rest) = (String.ofList [c], c.utf8Size) := by
  have length := String.length_utf8EncodeChar c
  have small := c.utf8Size_le_four
  have pos := c.utf8Size_pos
  have whole : fromUtf8 ((String.utf8EncodeChar c ++ rest).take c.utf8Size) =
      some (String.ofList [c]) := by
    rw [← length, List.take_left, ← fromUtf8_encode, encode_cons, encode_nil, List.append_nil]
  -- fewer bytes are not valid
  have fewer {n : Nat} (less : n < c.utf8Size) (some : 0 < n) :
      fromUtf8 ((String.utf8EncodeChar c ++ rest).take n) = none := by
    cases valid : fromUtf8 ((String.utf8EncodeChar c ++ rest).take n) with
    | none => rfl
    | some s =>
      exfalso
      have bytes := exists_of_fromUtf8 valid
      have split := List.take_append_drop n (String.utf8EncodeChar c ++ rest)
      have count := List.length_take (i := n) (l := String.utf8EncodeChar c ++ rest)
      rw [List.length_append, length] at count
      cases chars : s.toList with
      | nil =>
        rw [chars, encode_nil] at bytes
        rw [bytes, List.length_nil] at count
        omega
      | cons c' cs =>
        rw [chars, encode_cons] at bytes
        rw [bytes, List.append_assoc] at split
        obtain rfl := encode_cons_inj split
        rw [bytes, List.length_append, length] at count
        omega
  have test (n : Nat) (inside : 0 < n) (le : n ≤ c.utf8Size) :
      (decide (n ≤ (String.utf8EncodeChar c ++ rest).length) &&
        (fromUtf8 ((String.utf8EncodeChar c ++ rest).take n)).isSome) = decide (n = c.utf8Size) := by
    by_cases last : n = c.utf8Size
    · subst last
      rw [whole, List.length_append, length]
      simp
    · rw [fewer (by omega) inside, decide_eq_false last]
      simp
  have found : [1, 2, 3, 4].find? (fun n => n ≤ (String.utf8EncodeChar c ++ rest).length &&
      (fromUtf8 ((String.utf8EncodeChar c ++ rest).take n)).isSome) = some c.utf8Size := by
    rcases c.utf8Size_eq with one | two | three | four
    · rw [List.find?_cons, test 1 (by decide) (by omega), decide_eq_true one.symm, one]
    · rw [List.find?_cons, test 1 (by decide) (by omega), decide_eq_false (by omega),
        List.find?_cons, test 2 (by decide) (by omega), decide_eq_true two.symm, two]
    · rw [List.find?_cons, test 1 (by decide) (by omega), decide_eq_false (by omega),
        List.find?_cons, test 2 (by decide) (by omega), decide_eq_false (by omega),
        List.find?_cons, test 3 (by decide) (by omega), decide_eq_true three.symm, three]
    · rw [List.find?_cons, test 1 (by decide) (by omega), decide_eq_false (by omega),
        List.find?_cons, test 2 (by decide) (by omega), decide_eq_false (by omega),
        List.find?_cons, test 3 (by decide) (by omega), decide_eq_false (by omega),
        List.find?_cons, test 4 (by decide) (by omega), decide_eq_true four.symm, four]
  unfold firstChar
  rw [found]
  simp only [whole, Option.getD_some]

theorem decode_encode_append (c : Char) (rest : Bytes) :
    decode (String.utf8EncodeChar c ++ rest) = c :: decode rest := by
  have pos := length_encode_pos c
  have first := firstChar_encode c rest
  cases bytes : String.utf8EncodeChar c with
  | nil =>
    rw [bytes] at pos
    exact absurd pos (by decide)
  | cons b bs =>
    rw [bytes] at first
    rw [List.cons_append] at first ⊢
    rw [decode_cons, first, String.toList_ofList, ← List.cons_append, ← bytes,
      ← String.length_utf8EncodeChar, List.drop_left]
    rfl

/-- What is valid and not empty begins with the first byte of a character. -/
theorem isFirst_of_fromUtf8 {b : UInt8} {bs : Bytes} {s : String}
    (valid : fromUtf8 (b :: bs) = some s) : b.IsUTF8FirstByte := by
  have bytes := exists_of_fromUtf8 valid
  cases chars : s.toList with
  | nil =>
    rw [chars] at bytes
    cases bytes
  | cons c cs =>
    have pos := length_encode_pos c
    rw [chars, encode_cons] at bytes
    cases first : String.utf8EncodeChar c with
    | nil =>
      rw [first] at pos
      exact absurd pos (by decide)
    | cons b' rest =>
      rw [first, List.cons_append] at bytes
      rw [(List.cons.inj bytes).1]
      exact (first_of_cons first).1

/-- A byte that is not the first of a character is replaced. -/
theorem decode_of_not_first {b : UInt8} (follows : ¬ b.IsUTF8FirstByte) (rest : Bytes) :
    decode (b :: rest) = '\uFFFD' :: decode rest := by
  have none : [1, 2, 3, 4].find? (fun n => n ≤ (b :: rest).length &&
      (fromUtf8 ((b :: rest).take n)).isSome) = none := by
    apply List.find?_eq_none.2
    intro n member valid
    obtain ⟨s, valid⟩ := Option.isSome_iff_exists.1 (Bool.and_eq_true_iff.1 valid).2
    obtain ⟨k, rfl⟩ : ∃ k, n = k + 1 := by
      simp only [List.mem_cons, List.not_mem_nil, or_false] at member
      exact ⟨n - 1, by omega⟩
    exact follows (isFirst_of_fromUtf8 valid)
  rw [decode_cons]
  unfold firstChar
  rw [none]
  simp only [brokenLength_of_not_first follows]
  rfl

/-- Reading makes no ASCII character that was not there. -/
theorem count_decode_le {a : Char} (ascii : a.toNat < 128) (bs : Bytes) :
    (decode bs).count a ≤ bs.count (UInt8.ofNat a.toNat) := by
  generalize size : bs.length = n
  induction n using Nat.strongRecOn generalizing bs with
  | ind n ih =>
    cases bs with
    | nil => exact Nat.zero_le _
    | cons b bs =>
      have pos := firstChar_pos (b :: bs)
      have shorter := List.length_drop (i := (firstChar (b :: bs)).2) (l := b :: bs)
      have rest := ih _ (by rw [List.length_cons] at shorter size; omega)
        ((b :: bs).drop (firstChar (b :: bs)).2) rfl
      have split := List.take_append_drop (firstChar (b :: bs)).2 (b :: bs)
      have first : (firstChar (b :: bs)).1.toList.count a ≤
          ((b :: bs).take (firstChar (b :: bs)).2).count (UInt8.ofNat a.toNat) := by
        unfold firstChar
        split
        · rename_i k found
          have valid := List.find?_some found
          obtain ⟨s, valid⟩ := Option.isSome_iff_exists.1 (Bool.and_eq_true_iff.1 valid).2
          simp only [valid, Option.getD_some]
          rw [exists_of_fromUtf8 valid, count_encode ascii]
        · have other : ['\uFFFD'].count a = 0 := by
            apply List.count_eq_zero.2
            intro member
            rw [List.mem_singleton.1 member] at ascii
            exact absurd ascii (by decide)
          have literal : ("\uFFFD" : String).toList = ['\uFFFD'] := rfl
          rw [literal, other]
          exact Nat.zero_le _
      rw [decode_cons, List.count_append]
      conv => rhs; rw [← split, List.count_append]
      exact Nat.add_le_add first rest

/-! ## A slash at the end -/

/-- The test for a character of so many bytes. -/
def holdsChar (bs : Bytes) (n : Nat) : Bool :=
  n ≤ bs.length && (fromUtf8 (bs.take n)).isSome

theorem firstChar_eq (bs : Bytes) : firstChar bs = match [1, 2, 3, 4].find? (holdsChar bs) with
    | some n => ((fromUtf8 (bs.take n)).getD "", n)
    | none => ("\uFFFD", brokenLength bs) := rfl

/-- What is valid with an ASCII byte at the end is valid without it. -/
theorem valid_of_append {bs : Bytes} {a : Char} (ascii : a.toNat < 128)
    (valid : (fromUtf8 (bs ++ [UInt8.ofNat a.toNat])).isSome) : (fromUtf8 bs).isSome := by
  obtain ⟨s, valid⟩ := Option.isSome_iff_exists.1 valid
  have bytes := exists_of_fromUtf8 valid
  rcases List.eq_nil_or_concat s.toList with none | ⟨cs, c, chars⟩
  · rw [none] at bytes
    simp at bytes
  rw [chars, List.concat_eq_append, encode_append, encode_cons, encode_nil, List.append_nil] at bytes
  rcases List.eq_nil_or_concat (String.utf8EncodeChar c) with none | ⟨front, last, split⟩
  · have pos := length_encode_pos c
    rw [none] at pos
    exact absurd pos (by decide)
  rw [split, List.concat_eq_append, ← List.append_assoc] at bytes
  obtain ⟨before, same⟩ := List.append_inj' bytes rfl
  -- the last byte is a first byte, so it is all of its character
  have first : last.IsUTF8FirstByte := by
    rw [← (List.cons.inj same).1]
    apply isFirst_of_ascii
    rw [UInt8.toNat_ofNat']
    omega
  cases front with
  | nil =>
    rw [before, List.append_nil, fromUtf8_encode]
    rfl
  | cons b rest =>
    have parts : String.utf8EncodeChar c = b :: (rest ++ [last]) := by
      rw [split, List.concat_eq_append, List.cons_append]
    exact absurd first ((first_of_cons parts).2 last (by simp))

variable {a : Char} (ascii : a.toNat < 128) {bs : Bytes} (nonempty : bs ≠ [])

include ascii nonempty

theorem find_holdsChar_append :
    [1, 2, 3, 4].find? (holdsChar (bs ++ [UInt8.ofNat a.toNat])) =
      [1, 2, 3, 4].find? (holdsChar bs) := by
  have pos := List.length_pos_iff.2 nonempty
  have within {n : Nat} (le : n ≤ bs.length) :
      holdsChar (bs ++ [UInt8.ofNat a.toNat]) n = holdsChar bs n := by
    unfold holdsChar
    rw [List.length_append, List.take_append_of_le_length le, decide_eq_true le,
      decide_eq_true (Nat.le_add_right_of_le le)]
  have next (n : Nat) : holdsChar (bs ++ [UInt8.ofNat a.toNat]) (n + 1) = holdsChar bs (n + 1) ∨
      holdsChar bs n = true := by
    by_cases le : n + 1 ≤ bs.length
    · exact .inl (within le)
    · have none : holdsChar bs (n + 1) = false := by
        unfold holdsChar
        rw [decide_eq_false le, Bool.false_and]
      rw [none]
      cases holds : holdsChar (bs ++ [UInt8.ofNat a.toNat]) (n + 1) with
      | false => exact .inl rfl
      | true =>
        right
        unfold holdsChar at holds
        obtain ⟨fits, valid⟩ := Bool.and_eq_true_iff.1 holds
        have small := of_decide_eq_true fits
        rw [List.length_append, List.length_singleton] at small
        have size : n = bs.length := by omega
        rw [size, ← List.length_singleton (a := UInt8.ofNat a.toNat), ← List.length_append,
          List.take_length] at valid
        unfold holdsChar
        rw [size, List.take_length, valid_of_append ascii valid, decide_eq_true (Nat.le_refl _)]
        rfl
  have agree {n : Nat} (none : holdsChar bs n = false) :
      holdsChar (bs ++ [UInt8.ofNat a.toNat]) (n + 1) = holdsChar bs (n + 1) :=
    (next n).resolve_right (Bool.eq_false_iff.1 none)
  simp only [List.find?_cons, List.find?_nil]
  rw [within pos]
  cases one : holdsChar bs 1 with
  | true => rfl
  | false =>
    rw [agree one]
    cases two : holdsChar bs 2 with
    | true => rfl
    | false =>
      rw [agree two]
      cases three : holdsChar bs 3 with
      | true => rfl
      | false => rw [agree three]

omit nonempty in
theorem brokenLength_append (b : UInt8) :
    brokenLength (b :: (bs ++ [UInt8.ofNat a.toNat])) = brokenLength (b :: bs) := by
  have byte : (UInt8.ofNat a.toNat).toNat < 128 := by
    rw [UInt8.toNat_ofNat']
    omega
  have low {x : UInt8} (high : 128 ≤ x.toNat) : decide (x ≤ UInt8.ofNat a.toNat) = false := by
    rw [decide_eq_false_iff_not, UInt8.le_iff_toNat_le]
    omega
  have noContinuation : isContinuation (UInt8.ofNat a.toNat) = false := by
    unfold isContinuation
    rw [low (by decide), Bool.false_and]
  have noSecond : secondByte b (UInt8.ofNat a.toNat) = false := by
    unfold secondByte
    rw [noContinuation, low (by decide), low (by decide), low (by decide)]
    simp
  rcases bs with _ | ⟨second, _ | ⟨third, rest⟩⟩
  · show (if secondByte b (UInt8.ofNat a.toNat) then 2 else 1) = 1
    rw [noSecond, if_neg Bool.false_ne_true]
  · show (if secondByte b second then
      (if 0xF0 ≤ b && isContinuation (UInt8.ofNat a.toNat) then 3 else 2) else 1) =
        if secondByte b second then 2 else 1
    rw [noContinuation, Bool.and_false, if_neg Bool.false_ne_true]
  · rfl

theorem firstChar_append :
    firstChar (bs ++ [UInt8.ofNat a.toNat]) = firstChar bs ∧ (firstChar bs).2 ≤ bs.length := by
  rw [firstChar_eq, firstChar_eq, find_holdsChar_append ascii nonempty]
  cases found : [1, 2, 3, 4].find? (holdsChar bs) with
  | some n =>
    have holds := List.find?_some found
    have le := of_decide_eq_true (Bool.and_eq_true_iff.1 holds).1
    simp only [List.take_append_of_le_length le, le, and_self]
  | none =>
    cases bs with
    | nil => exact absurd rfl nonempty
    | cons b bs =>
      rw [List.cons_append, brokenLength_append ascii]
      refine ⟨rfl, ?_⟩
      show brokenLength (b :: bs) ≤ _
      rcases bs with _ | ⟨second, _ | ⟨third, rest⟩⟩
      · exact Nat.le_refl 1
      · show (if secondByte b second then 2 else 1) ≤ 2
        split <;> decide
      · show (if secondByte b second then (if _ then 3 else 2) else 1) ≤ rest.length + 3
        split
        · split <;> omega
        · omega

omit nonempty in
/-- An ASCII character at the end stands for itself. -/
theorem decode_append (bs : Bytes) : decode (bs ++ [UInt8.ofNat a.toNat]) = decode bs ++ [a] := by
  generalize size : bs.length = n
  induction n using Nat.strongRecOn generalizing bs with
  | ind n ih =>
    cases bs with
    | nil =>
      have alone := decode_encode_append a []
      rw [encode_ascii ascii] at alone
      exact alone
    | cons b bs =>
      obtain ⟨same, within⟩ := firstChar_append ascii (List.cons_ne_nil b bs)
      have pos := firstChar_pos (b :: bs)
      have shorter := List.length_drop (i := (firstChar (b :: bs)).2) (l := b :: bs)
      rw [decode_cons, List.append_assoc, ← ih _ _ _ rfl, ← List.drop_append_of_le_length within]
      · rw [List.cons_append] at same ⊢
        rw [decode_cons, same]
      · omega

end Text
