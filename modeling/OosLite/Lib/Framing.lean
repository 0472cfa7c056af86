import OosLite.Lib.Bytes

/-!
# Concatenations of self-delimiting frames

A log or a segment is one frame after the other. `scan` reads frames until the bytes run out
or the parser stops. On whole frames followed by a piece the parser stops at, it finds
exactly the frames; and every prefix of a concatenation is of that form.
-/

namespace Framing

variable {α ρ : Type}

/-- What a parser says about the front of some bytes. -/
inductive Verdict (α ρ : Type) where
  | item (value : α) (size : Nat)
  | stop (reason : ρ)

/-- What a scan finds: the items with their offsets, the end of the last one, and why it
stopped there, if not because the bytes ran out. -/
structure Scan (α ρ : Type) where
  items : List (Nat × α)
  stop : Nat
  reason : Option ρ

/-- Read frames from `offset` on. Every frame has at least one byte, so the number of bytes is
fuel enough. -/
def scan (parse : Bytes → Verdict α ρ) : (fuel : Nat) → (offset : Nat) → Bytes → Scan α ρ
  | 0, offset, _ => ⟨[], offset, none⟩
  | fuel + 1, offset, bs =>
    if bs.isEmpty then ⟨[], offset, none⟩
    else match parse bs with
      | .item a size =>
        let rest := scan parse fuel (offset + size) (bs.drop size)
        { rest with items := (offset, a) :: rest.items }
      | .stop reason => ⟨[], offset, some reason⟩

/-- A scan stops behind where it began. -/
theorem le_stop (parse : Bytes → Verdict α ρ) (fuel offset : Nat) (bs : Bytes) :
    offset ≤ (scan parse fuel offset bs).stop := by
  fun_induction scan parse fuel offset bs with
  | case1 | case2 | case4 => exact Nat.le_refl _
  | case3 fuel offset bs _ a size rest _ ih => exact Nat.le_trans (Nat.le_add_right ..) ih

/-- A scan stops within the bytes, and without a reason only at their end. -/
theorem stop_le {parse : Bytes → Verdict α ρ}
    (sized : ∀ bs a size, parse bs = .item a size → 0 < size ∧ size ≤ bs.length)
    (fuel offset : Nat) (bs : Bytes) (enough : bs.length < fuel) :
    (scan parse fuel offset bs).stop ≤ offset + bs.length ∧
      ((scan parse fuel offset bs).reason = none →
        (scan parse fuel offset bs).stop = offset + bs.length) := by
  fun_induction scan parse fuel offset bs with
  | case1 => omega
  | case2 fuel offset bs empty =>
    rw [List.isEmpty_iff.1 empty]
    exact ⟨Nat.le_refl _, fun _ => rfl⟩
  | case3 fuel offset bs nonempty a size item rest ih =>
    obtain ⟨pos, fits⟩ := sized bs a size item
    have shorter := ih (by rw [List.length_drop]; omega)
    rw [List.length_drop] at shorter
    have same : offset + size + (bs.length - size) = offset + bs.length := by omega
    rw [same] at shorter
    exact shorter
  | case4 fuel offset bs => exact ⟨Nat.le_add_right .., nofun⟩

/-- `bytes` is a frame for `a`: the parser recognises it whatever follows. -/
structure IsFrame (parse : Bytes → Verdict α ρ) (bytes : Bytes) (a : α) : Prop where
  nonempty : bytes ≠ []
  parse_append : ∀ rest, parse (bytes ++ rest) = .item a bytes.length

/-- The offsets at which consecutive frames begin. -/
def locate : (offset : Nat) → List (Bytes × α) → List (Nat × α)
  | _, [] => []
  | offset, (bytes, a) :: rest => (offset, a) :: locate (offset + bytes.length) rest

/-- All bytes of a list of frames. -/
def join (frames : List (Bytes × α)) : Bytes := (frames.map Prod.fst).flatten

@[simp] theorem join_nil : join ([] : List (Bytes × α)) = [] := rfl

@[simp] theorem join_cons (f : Bytes × α) (fs : List (Bytes × α)) :
    join (f :: fs) = f.1 ++ join fs := rfl

@[simp] theorem join_append (fs gs : List (Bytes × α)) : join (fs ++ gs) = join fs ++ join gs := by
  simp [join]

theorem locate_append (offset : Nat) (fs gs : List (Bytes × α)) :
    locate offset (fs ++ gs) = locate offset fs ++ locate (offset + (join fs).length) gs := by
  induction fs generalizing offset with
  | nil => simp [locate]
  | cons f fs ih => simp [locate, ih, Nat.add_assoc]

theorem locate_map_snd (offset : Nat) (fs : List (Bytes × α)) :
    (locate offset fs).map Prod.snd = fs.map Prod.snd := by
  induction fs generalizing offset with
  | nil => rfl
  | cons f fs ih => simp [locate, ih]

/-- A located item is a frame with whole frames before and after it. -/
theorem mem_locate {offset pos : Nat} {a : α} {fs : List (Bytes × α)}
    (h : (pos, a) ∈ locate offset fs) :
    ∃ before bytes after, fs = before ++ (bytes, a) :: after ∧
      pos = offset + (join before).length := by
  induction fs generalizing offset with
  | nil => simp [locate] at h
  | cons f fs ih =>
    rcases List.mem_cons.1 h with same | later
    · obtain ⟨rfl, rfl⟩ := Prod.mk.inj same
      exact ⟨[], f.1, fs, rfl, by simp⟩
    · obtain ⟨before, bytes, after, rfl, rfl⟩ := ih later
      exact ⟨f :: before, bytes, after, rfl, by simp [Nat.add_assoc]⟩

/-- The offsets of frames lie between the first and the end of the last. -/
theorem locate_bounds {offset pos : Nat} {a : α} {fs : List (Bytes × α)}
    (nonempty : ∀ f ∈ fs, f.1 ≠ []) (h : (pos, a) ∈ locate offset fs) :
    offset ≤ pos ∧ pos < offset + (join fs).length := by
  obtain ⟨before, bytes, after, rfl, rfl⟩ := mem_locate h
  have := List.length_pos_iff.2 (nonempty (bytes, a) (by simp))
  simp only [join_append, join_cons, List.length_append] at this ⊢
  omega

/-- The offsets of frames increase. -/
theorem pairwise_locate {offset : Nat} {fs : List (Bytes × α)} (nonempty : ∀ f ∈ fs, f.1 ≠ []) :
    (locate offset fs).Pairwise fun x y => x.1 < y.1 := by
  induction fs generalizing offset with
  | nil => exact .nil
  | cons f fs ih =>
    have later : ∀ g ∈ fs, g.1 ≠ [] := fun g hg => nonempty g (List.mem_cons_of_mem _ hg)
    have pos := List.length_pos_iff.2 (nonempty f (by simp))
    refine .cons (fun x hx => ?_) (ih later)
    have := (locate_bounds later hx).1
    simp only
    omega

/-- What the parser makes of the bytes after the last frame. -/
def tailReason (parse : Bytes → Verdict α ρ) (tail : Bytes) : Option ρ :=
  if tail.isEmpty then none
  else match parse tail with
    | .item _ _ => none
    | .stop reason => some reason

/-- A scan of whole frames and a tail finds the frames and stops at the tail. -/
theorem scan_join {parse : Bytes → Verdict α ρ} {fs : List (Bytes × α)} {tail : Bytes}
    (frames : ∀ f ∈ fs, IsFrame parse f.1 f.2)
    (stops : tail = [] ∨ ∃ reason, parse tail = .stop reason) {fuel offset : Nat}
    (enough : fs.length < fuel) :
    scan parse fuel offset (join fs ++ tail) =
      ⟨locate offset fs, offset + (join fs).length, tailReason parse tail⟩ := by
  induction fs generalizing fuel offset with
  | nil =>
    obtain ⟨fuel, rfl⟩ : ∃ n, fuel = n + 1 := ⟨fuel - 1, by omega⟩
    rw [join_nil, List.nil_append, scan, tailReason, locate]
    rcases stops with rfl | ⟨reason, h⟩
    · simp
    · by_cases htail : tail.isEmpty = true <;> simp [h, htail]
  | cons f fs ih =>
    obtain ⟨fuel, rfl⟩ : ∃ n, fuel = n + 1 := ⟨fuel - 1, by omega⟩
    have isFrame := frames f (by simp)
    have nonempty : ¬ (f.1 ++ (join fs ++ tail)).isEmpty = true := by
      have := isFrame.nonempty
      cases hf : f.1 <;> simp_all
    have later := @ih (fun g hg => frames g (List.mem_cons_of_mem _ hg)) fuel
      (offset + f.1.length) (Nat.lt_of_succ_lt_succ enough)
    rw [join_cons, List.append_assoc, scan, if_neg nonempty, isFrame.parse_append]
    simp only [List.drop_left, later, locate, List.length_append, Nat.add_assoc]

theorem length_le_join {fs : List (Bytes × α)} (h : ∀ f ∈ fs, f.1 ≠ []) :
    fs.length ≤ (join fs).length := by
  induction fs with
  | nil => simp
  | cons f fs ih =>
    have := List.length_pos_iff.2 (h f (by simp))
    have := ih fun g hg => h g (List.mem_cons_of_mem _ hg)
    simp only [join_cons, List.length_append, List.length_cons]
    omega

/-- A parser that looks at nothing behind the frame it recognises. -/
def Local (parse : Bytes → Verdict α ρ) : Prop :=
  ∀ bs a size, parse bs = .item a size → size ≤ bs.length ∧ IsFrame parse (bs.take size) a

/-- All bytes are whole frames and a tail the parser stops at. -/
theorem Local.exists_join {parse : Bytes → Verdict α ρ} (locality : Local parse) (bs : Bytes) :
    ∃ (fs : List (Bytes × α)) (tail : Bytes), bs = join fs ++ tail ∧
      (∀ f ∈ fs, IsFrame parse f.1 f.2) ∧ (tail = [] ∨ ∃ reason, parse tail = .stop reason) := by
  induction hn : bs.length using Nat.strongRecOn generalizing bs with
  | ind n ih =>
    cases hp : parse bs with
    | stop reason => exact ⟨[], bs, rfl, by simp, .inr ⟨reason, hp⟩⟩
    | item a size =>
      obtain ⟨le, isFrame⟩ := locality bs a size hp
      have pos : 0 < size := by
        rcases Nat.eq_zero_or_pos size with rfl | pos
        · exact absurd List.take_zero isFrame.nonempty
        · exact pos
      obtain ⟨fs, tail, split, frames, stops⟩ :=
        ih (bs.drop size).length (by rw [List.length_drop]; omega) (bs.drop size) rfl
      refine ⟨(bs.take size, a) :: fs, tail, ?_, ?_, stops⟩
      · rw [join_cons, List.append_assoc, ← split, List.take_append_drop]
      · intro f hf
        rcases List.mem_cons.1 hf with rfl | hf
        · exact isFrame
        · exact frames f hf

/-- The frames that lie wholly within so many bytes. -/
def whole : (count : Nat) → List (Bytes × α) → List (Bytes × α)
  | _, [] => []
  | count, f :: fs => if f.1.length ≤ count then f :: whole (count - f.1.length) fs else []

theorem mem_of_mem_whole {count : Nat} {fs : List (Bytes × α)} {f : Bytes × α}
    (h : f ∈ whole count fs) : f ∈ fs := by
  fun_induction whole count fs with
  | case1 => exact h
  | case2 count g fs _ ih =>
    rcases List.mem_cons.1 h with rfl | h
    · exact List.mem_cons_self
    · exact List.mem_cons_of_mem g (ih h)
  | case3 => cases h

/-- A prefix of a concatenation is the frames within it and a strict prefix of the next. -/
theorem prefix_whole {fs : List (Bytes × α)} {p : Bytes} (h : p <+: join fs) :
    ∃ tail after, fs = whole p.length fs ++ after ∧ p = join (whole p.length fs) ++ tail ∧
      (tail = [] ∨ ∃ f rest, after = f :: rest ∧ tail <+: f.1 ∧ tail.length < f.1.length) := by
  induction fs generalizing p with
  | nil =>
    have : p = [] := by simpa using h
    subst this
    exact ⟨[], [], rfl, rfl, .inl rfl⟩
  | cons f fs ih =>
    by_cases short : p.length < f.1.length
    · have within : p <+: f.1 :=
        List.prefix_of_prefix_length_le h (List.prefix_append _ _) (Nat.le_of_lt short)
      rw [whole, if_neg (Nat.not_le.2 short)]
      exact ⟨p, f :: fs, rfl, rfl, .inr ⟨f, fs, rfl, within, short⟩⟩
    · have first : f.1 <+: p :=
        List.prefix_of_prefix_length_le (List.prefix_append _ _) h (Nat.le_of_not_lt short)
      obtain ⟨q, rfl⟩ := first
      have hq : q <+: join fs := (List.prefix_append_right_inj f.1).1 h
      obtain ⟨tail, after, split, bytes, ht⟩ := ih hq
      have room : (f.1 ++ q).length - f.1.length = q.length := by
        rw [List.length_append]
        omega
      rw [whole, if_pos (Nat.le_of_not_lt short), room]
      refine ⟨tail, after, ?_, ?_, ht⟩
      · rw [List.cons_append, ← split]
      · rw [join_cons, List.append_assoc, ← bytes]

/-- Every prefix of a concatenation is some whole frames and a strict prefix of the next. -/
theorem prefix_join {fs : List (Bytes × α)} {p : Bytes} (h : p <+: join fs) :
    ∃ before tail after, fs = before ++ after ∧ p = join before ++ tail ∧
      (tail = [] ∨ ∃ f rest, after = f :: rest ∧ tail <+: f.1 ∧ tail.length < f.1.length) :=
  ⟨_, prefix_whole h⟩

/-! ### Torn frames -/

/-- A kind of contents: none is of it, and so is every front of what is. -/
structure Content (R : Bytes → Prop) : Prop where
  nil : R []
  of_prefix : ∀ {x y}, R y → x <+: y → R x

/-- Appending a frame, or the front of one, keeps the kind of contents. -/
def Grows (R : Bytes → Prop) (record : Bytes) : Prop :=
  ∀ x part, R x → part <+: record → R (x ++ part)

/-- Fronts of frames, one after the other: what appends that may be torn leave of a file. -/
def Fronts (record : Bytes → Prop) (bytes : Bytes) : Prop :=
  ∃ parts : List Bytes, bytes = parts.flatten ∧ ∀ part ∈ parts, ∃ whole, record whole ∧ part <+: whole

namespace Fronts

variable {record : Bytes → Prop} {bytes : Bytes}

theorem nil : Fronts record [] := ⟨[], rfl, by simp⟩

/-- One more frame, or the front of one. -/
theorem append (h : Fronts record bytes) {part whole : Bytes} (frame : record whole)
    (front : part <+: whole) : Fronts record (bytes ++ part) := by
  obtain ⟨parts, rfl, fronts⟩ := h
  refine ⟨parts ++ [part], by simp, ?_⟩
  intro p hp
  rcases List.mem_append.1 hp with hp | hp
  · exact fronts p hp
  · rw [List.mem_singleton.1 hp]
    exact ⟨whole, frame, front⟩

theorem of_prefix (h : Fronts record bytes) {front : Bytes} (le : front <+: bytes) :
    Fronts record front := by
  obtain ⟨parts, rfl, fronts⟩ := h
  induction parts generalizing front with
  | nil =>
    obtain rfl : front = [] := List.prefix_nil.1 le
    exact .nil
  | cons part parts ih =>
    obtain ⟨whole, frame, first⟩ := fronts part List.mem_cons_self
    rcases List.prefix_or_prefix_of_prefix le (List.prefix_append part parts.flatten) with
      short | ⟨rest, rfl⟩
    · exact nil.append frame (short.trans first)
    · have more : rest <+: parts.flatten := (List.prefix_append_right_inj part).1 le
      obtain ⟨parts', rfl, fronts'⟩ := ih (fun p hp => fronts p (List.mem_cons_of_mem part hp)) more
      refine ⟨part :: parts', by simp, ?_⟩
      intro p hp
      rcases List.mem_cons.1 hp with rfl | hp
      · exact ⟨whole, frame, first⟩
      · exact fronts' p hp

theorem content (record : Bytes → Prop) : Content (Fronts record) := ⟨nil, fun h le => h.of_prefix le⟩

theorem grows {r : Bytes} (frame : record r) : Grows (Fronts record) r :=
  fun _ _ h front => h.append frame front

end Fronts

end Framing
