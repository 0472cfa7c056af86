import OosLite.Lib.Utf8
import OosLite.Mount.WebDav
import OosLite.Vfs.Proofs.Lookup
import Mathlib.Data.List.TakeWhile

/-!
# What the path of a request keeps

Decoding makes no character that was not there, except from escapes, and those take a percent sign
away.  So a path that keeps all its characters has no escapes, and its percent signs are followed by
nothing that could be lost.
-/

namespace OosLite

open Text (encode decode)

/-! ## Bytes -/

section Bytes

theorem byteOfDigits_eq_some {h1 h2 val : UInt8} (found : Text.byteOfDigits h1 h2 = some val) :
    h1 ≠ 37 ∧ h2 ≠ 37 ∧ h2.toNat < 128 := by
  have digit {b : UInt8} {n : Nat} (value : Text.digitValue b = some n) :
      b ≠ 37 ∧ b.toNat < 128 := by
    have range : (48 ≤ b.toNat ∧ b.toNat ≤ 57) ∨ (97 ≤ b.toNat ∧ b.toNat ≤ 102) ∨
        65 ≤ b.toNat ∧ b.toNat ≤ 70 := by
      unfold Text.digitValue at value
      split at value
      · exact .inl ‹_›
      split at value
      · exact .inr (.inl ‹_›)
      split at value
      · exact .inr (.inr ‹_›)
      · cases value
    refine ⟨fun same => ?_, by omega⟩
    rw [same] at range
    exact absurd range (by decide)
  unfold Text.byteOfDigits at found
  by_cases plus : h1 = 43
  · rw [if_pos plus] at found
    obtain ⟨n, value, -⟩ := Option.map_eq_some_iff.1 found
    rw [plus]
    exact ⟨by decide, (digit value).1, (digit value).2⟩
  · rw [if_neg plus] at found
    obtain ⟨n, value, found⟩ := Option.bind_eq_some_iff.1 found
    obtain ⟨n', value', -⟩ := Option.bind_eq_some_iff.1 found
    exact ⟨(digit value).1, (digit value').1, (digit value').2⟩

theorem percentDecode_cons {b : UInt8} (other : b ≠ 37) (rest : Bytes) :
    percentDecode (b :: rest) = b :: percentDecode rest := by
  rw [percentDecode.eq_def]
  simp only [if_neg other]

theorem percentDecode_escape {h1 h2 val : UInt8} (found : Text.byteOfDigits h1 h2 = some val)
    (rest : Bytes) : percentDecode (37 :: h1 :: h2 :: rest) = val :: percentDecode rest := by
  rw [percentDecode, if_pos rfl]
  simp only [found]

theorem percentDecode_percent {h1 h2 : UInt8} (none : Text.byteOfDigits h1 h2 = none)
    (rest : Bytes) : percentDecode (37 :: h1 :: h2 :: rest) = 37 :: percentDecode rest := by
  rw [percentDecode, if_pos rfl]
  simp only [none]

/-- The cases of `urlencoding_decode`. -/
theorem percentCases {P : Bytes → Prop} (nil : P []) (other : ∀ b rest, b ≠ 37 → P rest → P (b :: rest))
    (last : P [37]) (pair : ∀ h1, P [37, h1])
    (escape : ∀ h1 h2 rest val, Text.byteOfDigits h1 h2 = some val → P rest →
      P (37 :: h1 :: h2 :: rest))
    (percent : ∀ h1 h2 rest, Text.byteOfDigits h1 h2 = none → P rest → P (37 :: h1 :: h2 :: rest))
    (bs : Bytes) : P bs := by
  generalize size : bs.length = n
  induction n using Nat.strongRecOn generalizing bs with
  | ind n ih =>
    rcases bs with _ | ⟨b, rest⟩
    · exact nil
    by_cases isPercent : b = 37
    · subst isPercent
      rcases rest with _ | ⟨h1, _ | ⟨h2, rest⟩⟩
      · exact last
      · exact pair h1
      · have shorter : rest.length < n := by
          rw [← size]
          simp only [List.length_cons]
          omega
        cases found : Text.byteOfDigits h1 h2 with
        | some val => exact escape h1 h2 rest val found (ih _ shorter rest rfl)
        | none => exact percent h1 h2 rest found (ih _ shorter rest rfl)
    · have shorter : rest.length < n := by
        rw [← size, List.length_cons]
        omega
      exact other b rest isPercent (ih _ shorter rest rfl)

/-- Decoding makes no percent signs. -/
theorem count_percentDecode_le (bs : Bytes) : (percentDecode bs).count 37 ≤ bs.count 37 := by
  induction bs using percentCases with
  | nil => exact Nat.le_refl _
  | other b rest other ih =>
    rw [percentDecode_cons other, List.count_cons, List.count_cons]
    omega
  | last => decide
  | pair h1 =>
    show [37].count 37 ≤ (37 :: [h1]).count 37
    rw [List.count_cons (l := [h1])]
    simp
  | escape h1 h2 rest val found ih =>
    rw [percentDecode_escape found, List.count_cons, List.count_cons, List.count_cons, List.count_cons]
    simp only [beq_self_eq_true, if_true]
    split <;> omega
  | percent h1 h2 rest none ih =>
    rw [percentDecode_percent none, List.count_cons, List.count_cons, List.count_cons,
      List.count_cons]
    omega

/-- If it keeps all percent signs, it makes no other byte. -/
theorem count_percentDecode_le_of_eq {bs : Bytes}
    (kept : bs.count 37 ≤ (percentDecode bs).count 37) (a : UInt8) :
    (percentDecode bs).count a ≤ bs.count a := by
  induction bs using percentCases with
  | nil => exact Nat.le_refl _
  | other b rest other ih =>
    rw [percentDecode_cons other, List.count_cons, List.count_cons] at kept ⊢
    have le := ih (by omega)
    omega
  | last => exact Nat.le_refl _
  | pair h1 =>
    show [37].count a ≤ (37 :: [h1]).count a
    rw [List.count_cons, List.count_cons]
    exact Nat.add_le_add_right (Nat.zero_le _) _
  | escape h1 h2 rest val found ih =>
    obtain ⟨other1, other2, -⟩ := byteOfDigits_eq_some found
    have le := count_percentDecode_le rest
    have ne1 : ¬ (h1 == 37) = true := fun same => other1 (eq_of_beq same)
    have ne2 : ¬ (h2 == 37) = true := fun same => other2 (eq_of_beq same)
    rw [percentDecode_escape found] at kept ⊢
    simp only [List.count_cons, beq_self_eq_true, if_true, if_neg ne1, if_neg ne2] at kept
    have same : val = 37 := by
      by_contra differs
      have ne : ¬ (val == 37) = true := fun same => differs (eq_of_beq same)
      rw [if_neg ne] at kept
      omega
    rw [same] at kept ⊢
    rw [if_pos (beq_self_eq_true _)] at kept
    have le' := ih (by omega)
    rw [List.count_cons, List.count_cons, List.count_cons, List.count_cons]
    omega
  | percent h1 h2 rest none ih =>
    have le := count_percentDecode_le rest
    rw [percentDecode_percent none] at kept ⊢
    simp only [List.count_cons, beq_self_eq_true, if_true] at kept
    have le' := ih (by omega)
    rw [List.count_cons, List.count_cons, List.count_cons, List.count_cons]
    omega

/-- The bytes that percent signs take are beyond ASCII. -/
inductive Untouched : Bytes → Prop where
  | nil : Untouched []
  | other {b : UInt8} {rest : Bytes} : b ≠ 37 → Untouched rest → Untouched (b :: rest)
  | last : Untouched [37]
  | pair {h1 : UInt8} : 128 ≤ h1.toNat → Untouched [37, h1]
  | percent {h1 h2 : UInt8} {rest : Bytes} : 128 ≤ h1.toNat → 128 ≤ h2.toNat → Untouched rest →
      Untouched (37 :: h1 :: h2 :: rest)

/-- So it is if all ASCII bytes are kept. -/
theorem untouched_of_count {bs : Bytes}
    (kept : ∀ a : UInt8, a.toNat < 128 → bs.count a ≤ (percentDecode bs).count a) :
    Untouched bs := by
  induction bs using percentCases with
  | nil => exact .nil
  | other b rest other ih =>
    refine .other other (ih fun a ascii => ?_)
    have all := kept a ascii
    rw [percentDecode_cons other, List.count_cons, List.count_cons] at all
    omega
  | last => exact .last
  | pair h1 =>
    refine .pair (Nat.le_of_not_lt fun ascii => ?_)
    have all := kept h1 ascii
    rw [show percentDecode [37, h1] = [37] from rfl, List.count_cons, List.count_cons,
      List.count_cons, beq_self_eq_true, if_pos rfl] at all
    omega
  | escape h1 h2 rest val found ih =>
    -- the second digit would be lost
    exfalso
    obtain ⟨other1, other2, ascii⟩ := byteOfDigits_eq_some found
    have le := count_percentDecode_le rest
    have ne1 : ¬ (h1 == 37) = true := fun same => other1 (eq_of_beq same)
    have ne2 : ¬ (h2 == 37) = true := fun same => other2 (eq_of_beq same)
    have ne3 : ¬ (37 == h2) = true := fun same => other2 (eq_of_beq same).symm
    have percents := kept 37 (by decide)
    have digits := kept h2 ascii
    rw [percentDecode_escape found] at percents digits
    simp only [List.count_cons, beq_self_eq_true, if_true, if_neg ne1, if_neg ne2] at percents
    have same : val = 37 := by
      by_contra differs
      have ne : ¬ (val == 37) = true := fun same => differs (eq_of_beq same)
      rw [if_neg ne] at percents
      omega
    rw [same] at percents digits
    rw [if_pos (beq_self_eq_true _)] at percents
    have kept' : rest.count 37 ≤ (percentDecode rest).count 37 := by omega
    have le' := count_percentDecode_le_of_eq kept' h2
    simp only [List.count_cons, beq_self_eq_true, if_true, if_neg ne3] at digits
    omega
  | percent h1 h2 rest none ih =>
    have percents := kept 37 (by decide)
    rw [percentDecode_percent none] at percents
    simp only [List.count_cons, beq_self_eq_true, if_true] at percents
    have kept' : rest.count 37 ≤ (percentDecode rest).count 37 := by omega
    have within := count_percentDecode_le_of_eq kept'
    have all (a : UInt8) (ascii : a.toNat < 128) : rest.count a +
        (if (h2 == a) = true then 1 else 0) + (if (h1 == a) = true then 1 else 0) ≤
          (percentDecode rest).count a := by
      have here := kept a ascii
      rw [percentDecode_percent none, List.count_cons, List.count_cons, List.count_cons,
        List.count_cons] at here
      omega
    refine .percent (Nat.le_of_not_lt fun ascii => ?_) (Nat.le_of_not_lt fun ascii => ?_)
      (ih fun a ascii => ?_)
    · have here := all h1 ascii
      have le := within h1
      rw [beq_self_eq_true, if_pos rfl] at here
      omega
    · have here := all h2 ascii
      have le := within h2
      rw [beq_self_eq_true, if_pos rfl] at here
      omega
    · have here := all a ascii
      omega

end Bytes

/-! ## Characters -/

/-- The characters of `urlencoding_decode`. -/
def readPath (cs : List Char) : List Char := decode (percentDecode (encode cs))

/-- Every percent sign is the last character or stands before a replacement character. -/
def Undisturbed (cs : List Char) : Prop :=
  ∀ front c back, cs = front ++ '%' :: c :: back → c = '\uFFFD'

section Characters

variable {c : Char} {cs : List Char}

theorem percentDecode_append {bs : Bytes} (none : 37 ∉ bs) (rest : Bytes) :
    percentDecode (bs ++ rest) = bs ++ percentDecode rest := by
  induction bs with
  | nil => rfl
  | cons b bs ih =>
    rw [List.cons_append, percentDecode_cons fun same => none (same ▸ List.mem_cons_self),
      ih fun member => none (List.mem_cons_of_mem _ member), List.cons_append]

theorem Untouched.of_append {bs rest : Bytes} (none : 37 ∉ bs) (h : Untouched (bs ++ rest)) :
    Untouched rest := by
  induction bs with
  | nil => exact h
  | cons b bs ih =>
    have other : b ≠ 37 := fun same => none (same ▸ List.mem_cons_self)
    apply ih fun member => none (List.mem_cons_of_mem _ member)
    rw [List.cons_append] at h
    generalize bs ++ rest = tail at h ⊢
    cases h with
    | other _ rest => exact rest
    | last => exact absurd rfl other
    | pair _ => exact absurd rfl other
    | percent _ _ _ => exact absurd rfl other

theorem not_mem_encode (other : c ≠ '%') : 37 ∉ String.utf8EncodeChar c := by
  intro member
  by_cases ascii : c.toNat < 128
  · rw [Text.encode_ascii ascii, List.mem_singleton] at member
    have number := congrArg UInt8.toNat member
    rw [UInt8.toNat_ofNat'] at number
    have same : c.toNat = '%'.toNat := by
      show c.toNat = 37
      have small : (37 : UInt8).toNat = 37 := rfl
      omega
    exact other (Char.toNat_inj.1 same)
  · exact absurd (Text.high_of_encode (Nat.le_of_not_lt ascii) member) (by decide)

theorem readPath_cons (other : c ≠ '%') (cs : List Char) :
    readPath (c :: cs) = c :: readPath cs := by
  unfold readPath
  rw [Text.encode_cons, percentDecode_append (not_mem_encode other), Text.decode_encode_append]

theorem encode_percent (cs : List Char) : encode ('%' :: cs) = 37 :: encode cs := by
  rw [Text.encode_cons, Text.encode_ascii (by decide)]
  rfl

theorem decode_percent (bs : Bytes) : decode (37 :: bs) = '%' :: decode bs := by
  have first := Text.decode_encode_append '%' bs
  rw [Text.encode_ascii (by decide)] at first
  exact first

theorem byteOfDigits_high {h1 h2 : UInt8} (high : 128 ≤ h2.toNat) :
    Text.byteOfDigits h1 h2 = none := by
  cases found : Text.byteOfDigits h1 h2 with
  | none => rfl
  | some val =>
    have ascii := (byteOfDigits_eq_some found).2.2
    omega

/-- The bytes of a character beyond ASCII: their number, and which of them may follow others. -/
theorem exists_bytes (beyond : 128 ≤ c.toNat) :
    (∃ b₁ b₂, String.utf8EncodeChar c = [b₁, b₂] ∧ c.utf8Size = 2) ∨
      (∃ b₁ b₂ b₃, String.utf8EncodeChar c = [b₁, b₂, b₃] ∧ c.utf8Size = 3) ∨
      ∃ b₁ b₂ b₃ b₄, String.utf8EncodeChar c = [b₁, b₂, b₃, b₄] ∧ c.utf8Size = 4 := by
  rcases c.utf8Size_eq with one | two | three | four
  · have small := UInt32.le_iff_toNat_le.1 (Char.utf8Size_eq_one_iff.1 one)
    exact absurd (Nat.le_trans beyond small) (by decide)
  · exact .inl ⟨_, _, String.utf8EncodeChar_eq_cons_cons two, two⟩
  · exact .inr (.inl ⟨_, _, _, String.utf8EncodeChar_eq_cons_cons_cons three, three⟩)
  · exact .inr (.inr ⟨_, _, _, _, String.utf8EncodeChar_eq_cons_cons_cons_cons four, four⟩)

/-- Behind a percent sign and a character beyond ASCII it is the same. -/
theorem Untouched.of_percent (beyond : 128 ≤ c.toNat) {rest : Bytes}
    (h : Untouched (37 :: (String.utf8EncodeChar c ++ rest))) : Untouched rest := by
  have bytes : ∃ b₁ b₂ bs, String.utf8EncodeChar c = b₁ :: b₂ :: bs := by
    rcases exists_bytes beyond with ⟨b₁, b₂, bytes, -⟩ | ⟨b₁, b₂, b₃, bytes, -⟩ |
      ⟨b₁, b₂, b₃, b₄, bytes, -⟩
    · exact ⟨_, _, _, bytes⟩
    · exact ⟨_, _, _, bytes⟩
    · exact ⟨_, _, _, bytes⟩
  obtain ⟨b₁, b₂, bs, bytes⟩ := bytes
  have none : 37 ∉ bs := by
    intro member
    have high := Text.high_of_encode beyond (bytes ▸ List.mem_cons_of_mem _ (List.mem_cons_of_mem _ member))
    exact absurd high (by decide)
  rw [bytes, List.cons_append, List.cons_append] at h
  generalize split : bs ++ rest = tail at h
  cases h with
  | other other _ => exact absurd rfl other
  | percent _ _ h => exact .of_append none (split ▸ h)

/-- A byte of a character after its first, alone. -/
theorem decode_follows {b : UInt8} {rest : Bytes} (follows : ¬ b.IsUTF8FirstByte)
    (high : 128 ≤ b.toNat) :
    decode (percentDecode (b :: rest)) = '\uFFFD' :: decode (percentDecode rest) := by
  have other : b ≠ 37 := by
    intro same
    rw [same] at high
    exact absurd high (by decide)
  rw [percentDecode_cons other, Text.decode_of_not_first follows]

/-- Of a character beyond ASCII behind a percent sign two bytes are lost. -/
theorem readPath_percent (beyond : 128 ≤ c.toNat) (cs : List Char) :
    readPath ('%' :: c :: cs) = '%' :: readPath cs ∧ c.utf8Size = 2 ∨
      readPath ('%' :: c :: cs) = '%' :: '\uFFFD' :: readPath cs ∧ c.utf8Size = 3 ∨
      readPath ('%' :: c :: cs) = '%' :: '\uFFFD' :: '\uFFFD' :: readPath cs ∧ c.utf8Size = 4 := by
  have high {b : UInt8} (member : b ∈ String.utf8EncodeChar c) := Text.high_of_encode beyond member
  unfold readPath
  rw [encode_percent, Text.encode_cons]
  rcases exists_bytes beyond with ⟨b₁, b₂, bytes, size⟩ | ⟨b₁, b₂, b₃, bytes, size⟩ |
    ⟨b₁, b₂, b₃, b₄, bytes, size⟩
  · refine .inl ⟨?_, size⟩
    have high₂ : 128 ≤ b₂.toNat := high (by simp [bytes])
    rw [bytes, List.cons_append, List.cons_append, List.nil_append,
      percentDecode_percent (byteOfDigits_high high₂), decode_percent]
  · refine .inr (.inl ⟨?_, size⟩)
    have follows := (Text.first_of_cons bytes).2
    have high₂ : 128 ≤ b₂.toNat := high (by simp [bytes])
    rw [bytes, List.cons_append, List.cons_append, List.cons_append, List.nil_append,
      percentDecode_percent (byteOfDigits_high high₂), decode_percent,
      decode_follows (follows b₃ (by simp)) (high (by simp [bytes]))]
  · refine .inr (.inr ⟨?_, size⟩)
    have follows := (Text.first_of_cons bytes).2
    have high₂ : 128 ≤ b₂.toNat := high (by simp [bytes])
    rw [bytes, List.cons_append, List.cons_append, List.cons_append, List.cons_append,
      List.nil_append, percentDecode_percent (byteOfDigits_high high₂), decode_percent,
      decode_follows (follows b₃ (by simp)) (high (by simp [bytes])),
      decode_follows (follows b₄ (by simp)) (high (by simp [bytes]))]

theorem readPath_replacement (cs : List Char) :
    readPath ('%' :: '\uFFFD' :: cs) = '%' :: '\uFFFD' :: readPath cs := by
  have size : ('\uFFFD').utf8Size = 3 := by decide
  rcases readPath_percent (c := '\uFFFD') (by decide) cs with two | three | four
  · rw [size] at two
    exact absurd two.2 (by decide)
  · exact three.1
  · rw [size] at four
    exact absurd four.2 (by decide)

theorem Undisturbed.tail (plain : Undisturbed (c :: cs)) : Undisturbed cs := by
  intro front c' back split
  apply plain (c :: front) c' back
  rw [split, List.cons_append]

theorem Undisturbed.cons (other : c ≠ '%') (plain : Undisturbed cs) : Undisturbed (c :: cs) := by
  intro front c' back split
  cases front with
  | nil => exact absurd (List.cons.inj split).1 other
  | cons first front => exact plain front c' back (List.cons.inj split).2

theorem undisturbed_of_not_mem (none : '%' ∉ cs) : Undisturbed cs := by
  intro front c back split
  rw [split] at none
  exact absurd (List.mem_append_right _ List.mem_cons_self) none

/-- A plain path is read as it is. -/
theorem readPath_of_plain (plain : Undisturbed cs) : readPath cs = cs := by
  generalize size : cs.length = n
  induction n using Nat.strongRecOn generalizing cs with
  | ind n ih =>
    rcases cs with _ | ⟨c, cs⟩
    · rfl
    by_cases percent : c = '%'
    · subst percent
      rcases cs with _ | ⟨c, cs⟩
      · unfold readPath
        rw [encode_percent]
        exact decode_percent []
      · have shorter : cs.length < n := by
          rw [← size]
          simp only [List.length_cons]
          omega
        rw [plain [] c cs rfl, readPath_replacement, ih _ shorter plain.tail.tail rfl]
    · rw [readPath_cons percent, ih cs.length (by rw [← size, List.length_cons]; omega) plain.tail rfl]

/-- No character can stand for the first of two that are lost. -/
theorem readPath_ne_cons (untouched : Untouched (encode cs)) (other : c ≠ '%') :
    readPath cs ≠ c :: cs := by
  induction cs with
  | nil => exact nofun
  | cons d cs ih =>
    intro same
    by_cases percent : d = '%'
    · subst percent
      rw [encode_percent] at untouched
      have first : ∃ rest, readPath ('%' :: cs) = '%' :: rest := by
        unfold readPath
        rw [encode_percent]
        generalize encode cs = bs at untouched
        cases untouched with
        | other other _ => exact absurd rfl other
        | last => exact ⟨_, decode_percent _⟩
        | pair _ => exact ⟨_, decode_percent _⟩
        | percent _ high _ =>
          rw [percentDecode_percent (byteOfDigits_high high)]
          exact ⟨_, decode_percent _⟩
      obtain ⟨rest, first⟩ := first
      rw [first] at same
      exact other (List.cons.inj same).1.symm
    · rw [readPath_cons percent] at same
      obtain ⟨rfl, rest⟩ := List.cons.inj same
      rw [Text.encode_cons] at untouched
      exact ih (untouched.of_append (not_mem_encode percent)) rest

/-- A path that is read as it is, with what percent signs take beyond ASCII, is plain. -/
theorem plain_of_readPath (untouched : Untouched (encode cs)) (same : readPath cs = cs) :
    Undisturbed cs := by
  generalize size : cs.length = n
  induction n using Nat.strongRecOn generalizing cs with
  | ind n ih =>
    rcases cs with _ | ⟨c, cs⟩
    · intro front c back split
      cases front <;> cases split
    by_cases percent : c = '%'
    · subst percent
      rcases cs with _ | ⟨c, cs⟩
      · intro front c back split
        rcases front with _ | ⟨first, _ | ⟨second, front⟩⟩ <;> cases split
      by_cases ascii : c.toNat < 128
      · -- an ASCII character would be lost
        exfalso
        have byte : (UInt8.ofNat c.toNat).toNat < 128 := by
          rw [UInt8.toNat_ofNat']
          omega
        rw [encode_percent, Text.encode_cons, Text.encode_ascii ascii, List.singleton_append]
          at untouched
        generalize encode cs = bs at untouched
        cases untouched with
        | other other _ => exact other rfl
        | pair high => omega
        | percent high _ _ => omega
      have beyond := Nat.le_of_not_lt ascii
      have shorter : cs.length < n := by
        rw [← size]
        simp only [List.length_cons]
        omega
      have rest : Untouched (encode cs) := by
        rw [encode_percent, Text.encode_cons] at untouched
        exact untouched.of_percent beyond
      have other : c ≠ '%' := by
        intro percent
        rw [percent] at beyond
        exact absurd beyond (by decide)
      rcases readPath_percent beyond cs with ⟨two, -⟩ | ⟨three, -⟩ | ⟨four, four'⟩
      · rw [two] at same
        exact absurd (List.cons.inj same).2 (readPath_ne_cons rest other)
      · rw [three] at same
        obtain ⟨rfl, kept⟩ := List.cons.inj (List.cons.inj same).2
        have plain := Undisturbed.cons other (ih _ shorter rest kept rfl)
        intro front c back split
        cases front with
        | nil => exact (List.cons.inj (List.cons.inj split).2).1.symm
        | cons first front => exact plain front c back (List.cons.inj split).2
      · rw [four] at same
        obtain ⟨rfl, -⟩ := List.cons.inj (List.cons.inj same).2
        exact absurd four' (by decide)
    · rw [readPath_cons percent] at same
      rw [Text.encode_cons] at untouched
      exact .cons percent (ih cs.length (by rw [← size, List.length_cons]; omega)
        (untouched.of_append (not_mem_encode percent)) (List.cons.inj same).2 rfl)

end Characters

/-! ## Paths -/

/-- What is before the first separator. -/
theorem head_split (separator : Char) (s : String) :
    (Text.split separator s).head? = some (String.ofList (s.toList.takeWhile (· ≠ separator))) := by
  unfold Text.split
  generalize s.toList = cs
  rw [List.head?_map]
  have first : (cs.splitOn separator).head? = some (cs.takeWhile (· ≠ separator)) := by
    induction cs with
    | nil => rfl
    | cons c cs ih =>
      rw [List.splitOn_cons_eq_if_modifyHead]
      by_cases same : c = separator
      · rw [same, if_pos (beq_self_eq_true _), List.takeWhile_cons_of_neg (by simp)]
        rfl
      · rw [if_neg fun h => same (eq_of_beq h), List.takeWhile_cons_of_pos (by simpa using same)]
        cases parts : cs.splitOn separator with
        | nil =>
          rw [parts] at ih
          cases ih
        | cons part parts' =>
          rw [parts, List.head?_cons] at ih
          rw [List.modifyHead_cons, List.head?_cons, Option.some.inj ih]
  rw [first]
  rfl

/-- The part of a URL that is read. -/
def beforeQuery (cs : List Char) : List Char := cs.takeWhile (· ≠ '?')

theorem toList_decodeUrlPath (url : String) :
    (decodeUrlPath url).toList = readPath (beforeQuery url.toList) := by
  unfold decodeUrlPath urlencodingDecode readPath decode
  rw [head_split, Option.getD_some, Text.utf8_eq_encode, String.toList_ofList]
  rfl

section Counts

variable {a : Char} (ascii : a.toNat < 128)

include ascii

/-- A path that keeps its percent signs makes no ASCII characters. -/
theorem count_readPath_le {cs : List Char} (kept : cs.count '%' ≤ (readPath cs).count '%') :
    (readPath cs).count a ≤ cs.count a := by
  have percent : cs.count '%' ≤ (percentDecode (encode cs)).count 37 :=
    kept.trans (Text.count_decode_le (by decide) _)
  rw [← Text.count_encode (by decide)] at percent
  have le := count_percentDecode_le_of_eq percent (UInt8.ofNat a.toNat)
  rw [Text.count_encode ascii] at le
  exact (Text.count_decode_le ascii _).trans le

omit ascii in
theorem count_beforeQuery_le (cs : List Char) : (beforeQuery cs).count a ≤ cs.count a :=
  (List.takeWhile_prefix _).sublist.count_le a

theorem count_decodeUrlPath_le {url : String}
    (kept : url.toList.count '%' ≤ (decodeUrlPath url).toList.count '%') :
    (decodeUrlPath url).toList.count a ≤ (beforeQuery url.toList).count a := by
  rw [toList_decodeUrlPath] at kept ⊢
  exact count_readPath_le ascii ((count_beforeQuery_le _).trans kept)

end Counts

theorem exists_char {n : Nat} (small : n < 55296) : ∃ c : Char, c.toNat = n := by
  refine ⟨Char.ofNat n, ?_⟩
  unfold Char.ofNat
  rw [dif_pos (.inl small)]
  rfl

theorem beforeQuery_eq {cs : List Char} (none : '?' ∉ cs) : beforeQuery cs = cs := by
  unfold beforeQuery
  rw [List.takeWhile_eq_self_iff]
  intro c member
  exact decide_eq_true fun same => none (same ▸ member)

/-- A path that is read as it is has no query, and its percent signs take nothing. -/
theorem plain_of_decodeUrlPath {url : String} (same : decodeUrlPath url = url) :
    '?' ∉ url.toList ∧ Undisturbed url.toList := by
  have counts {a : Char} (ascii : a.toNat < 128) :
      url.toList.count a ≤ (beforeQuery url.toList).count a := by
    have kept : url.toList.count '%' ≤ (decodeUrlPath url).toList.count '%' := by rw [same]
    have le := count_decodeUrlPath_le ascii kept
    rw [same] at le
    exact le
  have none : '?' ∉ url.toList := by
    intro member
    have few := counts (a := '?') (by decide)
    have without : (beforeQuery url.toList).count '?' = 0 := by
      apply List.count_eq_zero.2
      intro inside
      have other := List.mem_takeWhile_imp inside
      simp at other
    rw [without] at few
    exact List.count_eq_zero.1 (Nat.le_zero.1 few) member
  refine ⟨none, ?_⟩
  have read := toList_decodeUrlPath url
  rw [beforeQuery_eq none, same] at read
  refine plain_of_readPath (untouched_of_count fun a ascii => ?_) read.symm
  obtain ⟨c, code⟩ := exists_char (Nat.lt_trans ascii (by decide))
  have char : a = UInt8.ofNat c.toNat := by
    rw [code, UInt8.ofNat_toNat]
  have ascii' : c.toNat < 128 := code ▸ ascii
  rw [char, Text.count_encode ascii']
  conv => lhs; rw [read]
  exact Text.count_decode_le ascii' _

theorem decodeUrlPath_of_plain {url : String} (none : '?' ∉ url.toList)
    (plain : Undisturbed url.toList) : decodeUrlPath url = url := by
  rw [← String.toList_inj, toList_decodeUrlPath, beforeQuery_eq none, readPath_of_plain plain]

/-! ## A slash at the end -/

theorem percentDecode_slash (bs : Bytes) : percentDecode (bs ++ [47]) = percentDecode bs ++ [47] ∨
    percentDecode (bs ++ [47]) = percentDecode bs := by
  induction bs using percentCases with
  | nil => exact .inl rfl
  | other b rest other ih =>
    rw [List.cons_append, percentDecode_cons other, percentDecode_cons other]
    rcases ih with same | same
    · exact .inl (by rw [same, List.cons_append])
    · exact .inr (by rw [same])
  | last => exact .inr rfl
  | pair h1 =>
    right
    have none : Text.byteOfDigits h1 47 = none := by
      cases found : Text.byteOfDigits h1 47 with
      | none => rfl
      | some val =>
        unfold Text.byteOfDigits at found
        simp [Text.digitValue] at found
    exact percentDecode_percent none []
  | escape h1 h2 rest val found ih =>
    rw [List.cons_append, List.cons_append, List.cons_append, percentDecode_escape found,
      percentDecode_escape found]
    rcases ih with same | same
    · exact .inl (by rw [same, List.cons_append])
    · exact .inr (by rw [same])
  | percent h1 h2 rest none ih =>
    rw [List.cons_append, List.cons_append, List.cons_append, percentDecode_percent none,
      percentDecode_percent none]
    rcases ih with same | same
    · exact .inl (by rw [same, List.cons_append])
    · exact .inr (by rw [same])

theorem readPath_slash (cs : List Char) :
    readPath (cs ++ ['/']) = readPath cs ++ ['/'] ∨ readPath (cs ++ ['/']) = readPath cs := by
  have slash : encode ['/'] = [47] := by
    rw [Text.encode_cons, Text.encode_ascii (by decide)]
    rfl
  unfold readPath
  rw [Text.encode_append, slash]
  rcases percentDecode_slash (encode cs) with same | same
  · left
    rw [same]
    exact Text.decode_append (a := '/') (by decide) _
  · right
    rw [same]

theorem decodeUrlPath_slash (url : String) : decodeUrlPath (url ++ "/") = decodeUrlPath url ++ "/" ∨
    decodeUrlPath (url ++ "/") = decodeUrlPath url := by
  have slash : ("/" : String).toList = ['/'] := rfl
  rw [← String.toList_inj, ← String.toList_inj, String.toList_append, toList_decodeUrlPath,
    toList_decodeUrlPath, String.toList_append, slash]
  by_cases query : '?' ∈ url.toList
  · right
    unfold beforeQuery
    rw [List.takeWhile_append, if_neg]
    intro whole
    have all := List.takeWhile_eq_self_iff.1
      (List.IsPrefix.eq_of_length (List.takeWhile_prefix _) whole) '?' query
    simp at all
  · have without : '?' ∉ url.toList ++ ['/'] := by
      rw [List.mem_append, not_or]
      exact ⟨query, by decide⟩
    rw [beforeQuery_eq query, beforeQuery_eq without]
    exact readPath_slash _

theorem components_slash (s : String) :
    FilePath.components (Text.split '/' (s ++ "/")) = FilePath.components (Text.split '/' s) := by
  have parts := Text.split_append s ""
  rw [String.append_empty] at parts
  rw [parts]
  unfold FilePath.components
  rw [List.filter_append]
  simp [Text.split, FilePath.isNoise]

/-- A slash behind a path does not change its components. -/
theorem components_decodeUrlPath_slash (url : String) :
    FilePath.components (Text.split '/' (decodeUrlPath (url ++ "/"))) =
      FilePath.components (Text.split '/' (decodeUrlPath url)) := by
  rcases decodeUrlPath_slash url with same | same
  · rw [same, components_slash]
  · rw [same]

end OosLite
