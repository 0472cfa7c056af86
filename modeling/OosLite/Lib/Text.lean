import OosLite.Lib.Bytes

/-!
# Text as bytes

UTF-8, hexadecimal digits and surrounding white space.
-/

namespace Text

/-- The UTF-8 bytes of a string. -/
def utf8 (s : String) : Bytes := s.toByteArray.data.toList

/-- The string with these UTF-8 bytes, if they are valid. -/
def fromUtf8 (bs : Bytes) : Option String := String.fromUTF8? ⟨bs.toArray⟩

@[simp] theorem fromUtf8_utf8 (s : String) : fromUtf8 (utf8 s) = some s := by
  have valid : (ByteArray.mk (utf8 s).toArray) = s.toByteArray := by simp [utf8]
  rw [fromUtf8, valid, String.fromUTF8?, dif_pos s.isValidUTF8]
  rfl

theorem utf8_of_fromUtf8 {bs : Bytes} {s : String} (h : fromUtf8 bs = some s) : utf8 s = bs := by
  unfold fromUtf8 String.fromUTF8? at h
  split at h
  · cases h
    simp [utf8, String.fromUTF8]
  · cases h

/-! ## Bytes that need not be text -/

def isContinuation (b : UInt8) : Bool := 0x80 ≤ b && b ≤ 0xBF

/-- Whether a byte may follow the first byte of a character of three or four bytes. -/
def secondByte (first second : UInt8) : Bool :=
  if first = 0xE0 then 0xA0 ≤ second && second ≤ 0xBF
  else if first = 0xED then 0x80 ≤ second && second ≤ 0x9F
  else if first = 0xF0 then 0x90 ≤ second && second ≤ 0xBF
  else if first = 0xF4 then 0x80 ≤ second && second ≤ 0x8F
  else 0xE1 ≤ first && first ≤ 0xF3 && isContinuation second

/-- How many bytes one replacement character stands for: the start of a character that breaks off,
or a byte that starts none. -/
def brokenLength : Bytes → Nat
  | first :: second :: third :: _ =>
    if secondByte first second then (if 0xF0 ≤ first && isContinuation third then 3 else 2) else 1
  | [first, second] => if secondByte first second then 2 else 1
  | _ => 1

/-- The first character and the number of its bytes, or the replacement character. -/
def firstChar (bs : Bytes) : String × Nat :=
  match [1, 2, 3, 4].find? fun n => n ≤ bs.length && (fromUtf8 (bs.take n)).isSome with
  | some n => ((fromUtf8 (bs.take n)).getD "", n)
  | none => ("\uFFFD", brokenLength bs)

/-- `String::from_utf8_lossy`. -/
def fromUtf8Lossy (bs : Bytes) : String :=
  go bs.length bs
where
  go : Nat → Bytes → String
    | 0, _ | _, [] => ""
    | n + 1, bs => (firstChar bs).1 ++ go n (bs.drop (firstChar bs).2)

/-! ## Hexadecimal digits -/

/-- A digit as `{:02x}` writes it. -/
def hexDigit (n : Nat) : Char :=
  if n < 10 then Char.ofNat (n + 48) else Char.ofNat (n + 87)

def hexByte (b : UInt8) : List Char := [hexDigit (b.toNat / 16), hexDigit (b.toNat % 16)]

/-- Two digits for each byte. -/
def hex (bs : Bytes) : String := String.ofList (bs.flatMap hexByte)

/-- The value of a hexadecimal digit, in either case. -/
def digitValue (b : UInt8) : Option Nat :=
  if 48 ≤ b.toNat ∧ b.toNat ≤ 57 then some (b.toNat - 48)
  else if 97 ≤ b.toNat ∧ b.toNat ≤ 102 then some (b.toNat - 87)
  else if 65 ≤ b.toNat ∧ b.toNat ≤ 70 then some (b.toNat - 55)
  else none

/-- A byte from two characters, as `u8::from_str_radix` with radix 16 reads them: a plus sign
may take the place of the first digit. -/
def byteOfDigits (high low : UInt8) : Option UInt8 :=
  if high = 43 then (digitValue low).map UInt8.ofNat
  else do return UInt8.ofNat (16 * (← digitValue high) + (← digitValue low))

/-- Bytes from pairs of hexadecimal characters. -/
def ofHex : Bytes → Option Bytes
  | [] => some []
  | [_] => none
  | high :: low :: rest => do return (← byteOfDigits high low) :: (← ofHex rest)

theorem digitValue_hexDigit (n : Nat) (h : n < 16) :
    digitValue (UInt8.ofNat (hexDigit n).toNat) = some n := by
  have all : ∀ k : Fin 16, digitValue (UInt8.ofNat (hexDigit k).toNat) = some k.val := by decide
  exact all ⟨n, h⟩

theorem hexDigit_toNat (n : Nat) (h : n < 16) :
    48 ≤ (hexDigit n).toNat ∧ (hexDigit n).toNat < 128 := by
  have all : ∀ k : Fin 16, 48 ≤ (hexDigit k).toNat ∧ (hexDigit k).toNat < 128 := by decide
  exact all ⟨n, h⟩

theorem hexDigit_ne_plus (n : Nat) (h : n < 16) : UInt8.ofNat (hexDigit n).toNat ≠ 43 := by
  have all : ∀ k : Fin 16, UInt8.ofNat (hexDigit k).toNat ≠ 43 := by decide
  exact all ⟨n, h⟩

/-- The bytes of a string of characters that are one byte each. -/
theorem utf8_ofList {cs : List Char} (h : ∀ c ∈ cs, c.toNat < 128) :
    utf8 (String.ofList cs) = cs.map fun c => UInt8.ofNat c.toNat := by
  have each : ∀ c ∈ cs, String.utf8EncodeChar c = [UInt8.ofNat c.toNat] := by
    intro c hc
    have small : c.toNat ≤ 127 := Nat.le_of_lt_succ (h c hc)
    simp only [String.utf8EncodeChar]
    exact if_pos small
  have flat : cs.flatMap String.utf8EncodeChar = cs.map fun c => UInt8.ofNat c.toNat := by
    clear h
    induction cs with
    | nil => rfl
    | cons c cs ih =>
      rw [List.flatMap_cons, each c (by simp), ih fun d hd => each d (List.mem_cons_of_mem _ hd)]
      rfl
  simp only [utf8, String.toByteArray_ofList, List.utf8Encode, flat]
  simp

theorem byteOfDigits_hexByte (b : UInt8) :
    byteOfDigits (UInt8.ofNat (hexDigit (b.toNat / 16)).toNat)
      (UInt8.ofNat (hexDigit (b.toNat % 16)).toNat) = some b := by
  have hb := b.toNat_lt
  have high : b.toNat / 16 < 16 := by omega
  have low : b.toNat % 16 < 16 := by omega
  rw [byteOfDigits, if_neg (hexDigit_ne_plus _ high), digitValue_hexDigit _ high,
    digitValue_hexDigit _ low]
  have whole : 16 * (b.toNat / 16) + b.toNat % 16 = b.toNat := by omega
  change some (UInt8.ofNat (16 * (b.toNat / 16) + b.toNat % 16)) = some b
  rw [whole, UInt8.ofNat_toNat]

theorem utf8_hex (bs : Bytes) :
    utf8 (hex bs) = (bs.flatMap hexByte).map fun c => UInt8.ofNat c.toNat := by
  refine utf8_ofList fun c hc => ?_
  obtain ⟨b, -, hb⟩ := List.mem_flatMap.1 hc
  have := b.toNat_lt
  rcases List.mem_pair.1 hb with rfl | rfl
  · exact (hexDigit_toNat _ (by omega)).2
  · exact (hexDigit_toNat _ (by omega)).2

@[simp] theorem length_utf8_hex (bs : Bytes) : (utf8 (hex bs)).length = 2 * bs.length := by
  rw [utf8_hex]
  induction bs with
  | nil => rfl
  | cons b bs ih => simp [hexByte] at ih ⊢; omega

/-- Reading back what `hex` wrote. -/
theorem ofHex_hex (bs : Bytes) : ofHex (utf8 (hex bs)) = some bs := by
  rw [utf8_hex]
  induction bs with
  | nil => rfl
  | cons b bs ih =>
    simp only [List.flatMap_cons, hexByte, List.map_cons, List.cons_append,
      List.nil_append] at ih ⊢
    rw [ofHex, byteOfDigits_hexByte, ih]
    rfl

theorem hex_injective {as bs : Bytes} (h : hex as = hex bs) : as = bs := by
  have := congrArg (fun s => ofHex (utf8 s)) h
  simpa only [ofHex_hex, Option.some.injEq] using this

/-! ## Prefixes and separators -/

/-- `str::strip_prefix`. -/
def stripPrefix (start s : String) : Option String :=
  if start.toList.isPrefixOf s.toList then
    some (String.ofList (s.toList.drop start.toList.length))
  else none

theorem stripPrefix_eq_some {start s rest : String} :
    stripPrefix start s = some rest ↔ s = start ++ rest := by
  unfold stripPrefix
  constructor
  · intro h
    split at h
    · rename_i front
      obtain ⟨tail, same⟩ := List.isPrefixOf_iff_prefix.1 front
      rw [← Option.some.inj h, ← String.toList_inj, ← same]
      simp
    · cases h
  · rintro rfl
    simp

/-- The parts between the separators, `str::split`. -/
def split (separator : Char) (s : String) : List String :=
  (s.toList.splitOn separator).map String.ofList

/-- `str::replace` of one character by another. -/
def replace (old new : Char) (s : String) : String :=
  String.ofList (s.toList.map fun c => if c = old then new else c)

/-- `str::trim_start_matches` with a character. -/
def trimStartMatches (c : Char) (s : String) : String := String.ofList (s.toList.dropWhile (· = c))

/-- `str::trim_matches` with a character. -/
def trimMatches (c : Char) (s : String) : String :=
  String.ofList (((s.toList.dropWhile (· = c)).reverse.dropWhile (· = c)).reverse)

theorem splitOnP_or {α : Type} (p q : α → Bool) (xs : List α) :
    xs.splitOnP (fun x => p x || q x) = (xs.splitOnP p).flatMap (List.splitOnP q) := by
  induction xs with
  | nil => rfl
  | cons x xs ih =>
    obtain ⟨head, tail, parts⟩ := List.exists_cons_of_ne_nil (List.splitOnP_ne_nil p xs)
    rw [parts, List.flatMap_cons] at ih
    obtain ⟨head', tail', parts'⟩ := List.exists_cons_of_ne_nil (List.splitOnP_ne_nil q head)
    rw [parts', List.cons_append] at ih
    rw [List.splitOnP_cons_eq_if_modifyHead, List.splitOnP_cons_eq_if_modifyHead (p := p), ih, parts]
    cases hp : p x with
    | true => simp [parts']
    | false =>
      show _ = ((x :: head) :: tail).flatMap (List.splitOnP q)
      rw [List.flatMap_cons, List.splitOnP_cons_eq_if_modifyHead, parts']
      cases q x <;> rfl

theorem splitOnP_map {α β : Type} (p : β → Bool) (f : α → β) (xs : List α) :
    (xs.map f).splitOnP p = (xs.splitOnP fun x => p (f x)).map (List.map f) := by
  induction xs with
  | nil => rfl
  | cons x xs ih =>
    obtain ⟨head, tail, parts⟩ :=
      List.exists_cons_of_ne_nil (List.splitOnP_ne_nil (fun x => p (f x)) xs)
    rw [parts] at ih
    rw [List.map_cons, List.splitOnP_cons_eq_if_modifyHead, List.splitOnP_cons_eq_if_modifyHead,
      ih, parts]
    cases p (f x) <;> rfl

/-- A part consists of elements of the list that are not separators. -/
theorem of_mem_splitOnP {α : Type} (p : α → Bool) {xs part : List α}
    (h : part ∈ xs.splitOnP p) : ∀ x ∈ part, x ∈ xs ∧ p x = false := by
  induction xs generalizing part with
  | nil =>
    obtain rfl : part = [] := by simpa using h
    exact fun x hx => absurd hx List.not_mem_nil
  | cons x xs ih =>
    have later {part : List α} (h : part ∈ xs.splitOnP p) :
        ∀ y ∈ part, y ∈ x :: xs ∧ p y = false :=
      fun y hy => ⟨List.mem_cons_of_mem _ (ih h y hy).1, (ih h y hy).2⟩
    obtain ⟨head, tail, parts⟩ := List.exists_cons_of_ne_nil (List.splitOnP_ne_nil p xs)
    rw [parts] at later
    rw [List.splitOnP_cons_eq_if_modifyHead, parts] at h
    cases hp : p x with
    | true =>
      rw [hp, if_pos rfl] at h
      rcases List.mem_cons.1 h with rfl | h
      · exact fun y hy => absurd hy List.not_mem_nil
      · exact later h
    | false =>
      rw [hp, if_neg Bool.false_ne_true, List.modifyHead_cons] at h
      rcases List.mem_cons.1 h with rfl | h
      · intro y hy
        rcases List.mem_cons.1 hy with rfl | hy
        · exact ⟨List.mem_cons_self, hp⟩
        · exact later List.mem_cons_self y hy
      · exact later (List.mem_cons_of_mem head h)

theorem not_mem_split {separator : Char} {s part : String} (there : part ∈ split separator s) :
    separator ∉ part.toList := by
  obtain ⟨chars, among, rfl⟩ := List.mem_map.1 there
  rw [String.toList_ofList]
  intro member
  have other := (of_mem_splitOnP _ among separator member).2
  simp at other

/-- Between two texts the last part of the one and the first part of the other meet. -/
theorem splitOn_append (separator : Char) (front back : List Char) :
    ∃ before last first after, front.splitOn separator = before ++ [last] ∧
      back.splitOn separator = first :: after ∧
      (front ++ back).splitOn separator = before ++ (last ++ first) :: after := by
  obtain ⟨first, after, parts⟩ := List.exists_cons_of_ne_nil (List.splitOn_ne_nil separator back)
  induction front with
  | nil => exact ⟨[], [], first, after, rfl, parts, parts⟩
  | cons c front ih =>
    obtain ⟨before, last, first', after', parts', same, whole⟩ := ih
    rw [List.cons_append, List.splitOn_cons_eq_if_modifyHead, List.splitOn_cons_eq_if_modifyHead,
      parts', whole]
    by_cases hc : (c == separator) = true
    · rw [if_pos hc, if_pos hc]
      exact ⟨[] :: before, last, first', after', rfl, same, rfl⟩
    · rw [if_neg hc, if_neg hc]
      cases before with
      | nil => exact ⟨[], c :: last, first', after', rfl, same, rfl⟩
      | cons part before => exact ⟨(c :: part) :: before, last, first', after', rfl, same, rfl⟩

theorem mem_splitOn_of_front {separator : Char} {front back part : List Char}
    (other : ∀ c ∈ front, c ≠ separator ∧ c ∉ part)
    (h : part ∈ (front ++ back).splitOn separator) : part ∈ back.splitOn separator := by
  obtain ⟨before, last, first, after, parts, parts', whole⟩ := splitOn_append separator front back
  have none : separator ∉ front := fun there => (other separator there).1 rfl
  rw [List.splitOn_eq_singleton none] at parts
  obtain ⟨rfl, rfl⟩ : before = [] ∧ last = front := by
    cases before with
    | nil => exact ⟨rfl, (List.cons.inj parts).1.symm⟩
    | cons part before => simp at parts
  rw [whole, List.nil_append, List.mem_cons] at h
  rw [parts', List.mem_cons]
  cases last with
  | nil => exact h
  | cons c last =>
    cases h with
    | inl same => exact absurd (same ▸ List.mem_cons_self) (other c List.mem_cons_self).2
    | inr h => exact .inr h

theorem mem_splitOn_of_back {separator : Char} {front back part : List Char}
    (other : ∀ c ∈ back, c ≠ separator ∧ c ∉ part)
    (h : part ∈ (front ++ back).splitOn separator) : part ∈ front.splitOn separator := by
  obtain ⟨before, last, first, after, parts, parts', whole⟩ := splitOn_append separator front back
  have none : separator ∉ back := fun there => (other separator there).1 rfl
  rw [List.splitOn_eq_singleton none] at parts'
  obtain ⟨rfl, rfl⟩ := List.cons.inj parts'
  rw [whole, List.mem_append] at h
  rw [parts, List.mem_append]
  cases h with
  | inl h => exact .inl h
  | inr h =>
    have same := List.mem_singleton.1 h
    cases back with
    | nil => exact .inr (by rw [same, List.append_nil]; exact List.mem_singleton_self _)
    | cons c back =>
      have there : c ∈ part := by
        rw [same]
        exact List.mem_append_right _ List.mem_cons_self
      exact absurd there (other c List.mem_cons_self).2

/-- The first separator has one place. -/
theorem append_cons_inj {α : Type} [DecidableEq α] {a : α} {x y z w : List α} (hx : a ∉ x)
    (hz : a ∉ z) (same : x ++ a :: y = z ++ a :: w) : x = z ∧ y = w := by
  have parts := congrArg (List.splitOn a) same
  rw [List.splitOn_append_cons_self_of_not_mem hx, List.splitOn_append_cons_self_of_not_mem hz] at parts
  obtain rfl := (List.cons.inj parts).1
  exact ⟨rfl, (List.cons.inj (List.append_cancel_left same)).2⟩

/-- There is exactly one separator. -/
theorem splitOn_eq_pair {separator : Char} {cs x y : List Char} :
    cs.splitOn separator = [x, y] ↔ cs = x ++ separator :: y ∧ separator ∉ x ∧ separator ∉ y := by
  constructor
  · intro parts
    have other {part : List Char} (there : part ∈ cs.splitOn separator) : separator ∉ part := by
      intro member
      have none := (of_mem_splitOnP _ there separator member).2
      simp at none
    have whole : [separator].intercalate (cs.splitOn separator) = cs :=
      List.intercalate_splitOn separator
    rw [parts] at whole
    refine ⟨?_, other (by rw [parts]; simp), other (by rw [parts]; simp)⟩
    rw [← whole]
    simp [List.intercalate]
  · intro h
    obtain ⟨rfl, first, last⟩ := h
    rw [List.splitOn_append_cons_self_of_not_mem first, List.splitOn_eq_singleton last]

theorem split_append (s t : String) : split '/' (s ++ ("/" ++ t)) = split '/' s ++ split '/' t := by
  unfold split
  simp [List.splitOn_append_cons_self]

/-- The parts once another separator is replaced. -/
theorem split_replace (old separator : Char) (s : String) :
    split separator (replace old separator s) = (split separator s).flatMap (split old) := by
  have either : (fun c => (if c = old then separator else c) == separator) =
      fun c => c == separator || c == old := by
    funext c
    by_cases hc : c = old <;> simp [hc]
  have same (part : List Char) (h : part ∈ s.toList.splitOnP fun c => c == separator || c == old) :
      part.map (fun c => if c = old then separator else c) = part := by
    conv_rhs => rw [← List.map_id' part]
    apply List.map_congr_left
    intro c hc
    have other := (of_mem_splitOnP _ h c hc).2
    rw [if_neg]
    intro same
    subst same
    simp at other
  unfold split replace List.splitOn
  rw [String.toList_ofList, splitOnP_map, either, List.map_congr_left same, List.map_id',
    splitOnP_or, List.map_flatMap, List.flatMap_map]
  simp only [String.toList_ofList]

/-! ## White space -/

/-- The characters with the Unicode property `White_Space`. -/
def isWhiteSpace (c : Char) : Bool :=
  (9 ≤ c.toNat && c.toNat ≤ 13) || c.toNat == 0x20 || c.toNat == 0x85 || c.toNat == 0xA0 ||
    c.toNat == 0x1680 || (0x2000 ≤ c.toNat && c.toNat ≤ 0x200A) || c.toNat == 0x2028 ||
    c.toNat == 0x2029 || c.toNat == 0x202F || c.toNat == 0x205F || c.toNat == 0x3000

def trimList (cs : List Char) : List Char :=
  ((cs.dropWhile isWhiteSpace).reverse.dropWhile isWhiteSpace).reverse

/-- `str::trim`. -/
def trim (s : String) : String := String.ofList (trimList s.toList)

/-- What is trimmed off is white space. -/
theorem trimList_padded (cs : List Char) : ∃ front back, cs = front ++ (trimList cs ++ back) ∧
    (∀ c ∈ front, isWhiteSpace c = true) ∧ ∀ c ∈ back, isWhiteSpace c = true := by
  have core := List.takeWhile_append_dropWhile (p := isWhiteSpace)
    (l := (cs.dropWhile isWhiteSpace).reverse)
  refine ⟨cs.takeWhile isWhiteSpace,
    ((cs.dropWhile isWhiteSpace).reverse.takeWhile isWhiteSpace).reverse, ?_, ?_, ?_⟩
  · rw [trimList, ← List.reverse_append, core, List.reverse_reverse,
      List.takeWhile_append_dropWhile]
  · intro c hc
    exact List.all_eq_true.1 List.all_takeWhile c hc
  · intro c hc
    exact List.all_eq_true.1 List.all_takeWhile c (List.mem_reverse.1 hc)

theorem trim_of_none {cs : List Char} (h : ∀ c ∈ cs, isWhiteSpace c = false) :
    trim (String.ofList cs) = String.ofList cs := by
  have front : cs.dropWhile isWhiteSpace = cs := by
    cases cs with
    | nil => rfl
    | cons c cs => simp [h c (by simp)]
  have back : cs.reverse.dropWhile isWhiteSpace = cs.reverse := by
    cases hc : cs.reverse with
    | nil => rfl
    | cons c rest =>
      have : c ∈ cs := by rw [← List.mem_reverse, hc]; simp
      simp [h c this]
  simp [trim, trimList, front, back]

theorem trim_hex (bs : Bytes) : trim (hex bs) = hex bs := by
  refine trim_of_none fun c hc => ?_
  obtain ⟨b, -, hb⟩ := List.mem_flatMap.1 hc
  have hlt := b.toNat_lt
  have all : ∀ k : Fin 16, isWhiteSpace (hexDigit k) = false := by decide
  rcases List.mem_pair.1 hb with rfl | rfl
  · exact all ⟨b.toNat / 16, by omega⟩
  · exact all ⟨b.toNat % 16, by omega⟩

end Text
