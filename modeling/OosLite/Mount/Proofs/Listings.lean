import OosLite.Mount.Proofs.UrlPaths
import OosLite.Vfs.Proofs.NodeTable
import OosLite.Vfs.Proofs.Shows

/-!
# Following what is listed

A reader of a listing asks for an entry by its reference.  The request leads back to the entry, or to
the target of a link, exactly if nothing of the reference is lost in decoding.
-/

namespace OosLite

/-! ## XML -/

/-- What `escape_xml` writes for a character. -/
def entity (c : Char) : List Char :=
  if c = '&' then "&amp;".toList
  else if c = '<' then "&lt;".toList
  else if c = '>' then "&gt;".toList
  else if c = '"' then "&quot;".toList
  else if c = '\'' then "&apos;".toList
  else [c]

/-- The replacements one after the other are one for each character. -/
theorem toList_escapeXml (s : String) : (escapeXml s).toList = s.toList.flatMap entity := by
  unfold escapeXml replaceBy
  simp only [String.toList_ofList, List.flatMap_assoc]
  congr 1
  funext c
  unfold entity
  by_cases amp : c = '&'
  · rw [amp]
    decide
  by_cases lt : c = '<'
  · rw [lt]
    decide
  by_cases gt : c = '>'
  · rw [gt]
    decide
  by_cases quot : c = '"'
  · rw [quot]
    decide
  simp [amp, lt, gt, quot]

theorem unescapeXml_cons {c : Char} (other : c ≠ '&') (cs : List Char) :
    unescapeXml.go (c :: cs) = c :: unescapeXml.go cs := by
  rw [unescapeXml.go.eq_6]
  all_goals
    intros
    exact absurd ‹_› other

theorem unescapeXml_entity (c : Char) (cs : List Char) :
    unescapeXml.go (entity c ++ cs) = c :: unescapeXml.go cs := by
  unfold entity
  by_cases amp : c = '&'
  · rw [if_pos amp, amp]
    exact unescapeXml.go.eq_1 cs
  by_cases lt : c = '<'
  · rw [if_neg amp, if_pos lt, lt]
    exact unescapeXml.go.eq_2 cs
  by_cases gt : c = '>'
  · rw [if_neg amp, if_neg lt, if_pos gt, gt]
    exact unescapeXml.go.eq_3 cs
  by_cases quot : c = '"'
  · rw [if_neg amp, if_neg lt, if_neg gt, if_pos quot, quot]
    exact unescapeXml.go.eq_4 cs
  by_cases apos : c = '\''
  · rw [if_neg amp, if_neg lt, if_neg gt, if_neg quot, if_pos apos, apos]
    exact unescapeXml.go.eq_5 cs
  · rw [if_neg amp, if_neg lt, if_neg gt, if_neg quot, if_neg apos]
    exact unescapeXml_cons amp cs

/-- A reader of XML gets back what was escaped. -/
theorem unescapeXml_escapeXml (s : String) : unescapeXml (escapeXml s) = s := by
  unfold unescapeXml
  rw [toList_escapeXml, ← String.toList_inj, String.toList_ofList]
  generalize s.toList = cs
  induction cs with
  | nil => rfl
  | cons c cs ih => rw [List.flatMap_cons, unescapeXml_entity, ih]

namespace VfsNodes

/-! ## Where a path leads -/

/-- The parts of a path that are looked up. -/
def steps (parts : List String) : List String := parts.filter fun part => decide (IsStep part)

theorem steps_append (parts parts' : List String) : steps (parts ++ parts') = steps parts ++ steps parts' :=
  List.filter_append ..

theorem steps_of_isStep {part : String} (step : IsStep part) : steps [part] = [part] :=
  List.filter_cons_of_pos (decide_eq_true step)

theorem steps_of_not {part : String} (step : ¬ IsStep part) : steps [part] = [] :=
  List.filter_cons_of_neg (by simpa using step)

/-- The names on the way to a node are parts of the path, except that a link stands for the version
it leads to. -/
inductive Traced (parts : List String) (kind : VfsNodeType) (place : List String) : Prop where
  | named : List.Sublist place (steps parts) → Traced parts kind place
  | linked (front : List String) (leaf : String) (n : UInt32) : kind = .regularFile →
      place = front ++ [leaf ++ "@v" ++ toString n] →
      List.Sublist (front ++ [leaf ++ "@latest"]) (steps parts) → Traced parts kind place

section Traced

variable {t : VfsNodes} {parts place : List String} {part : String} {node node' : VfsNode}

/-- What a lookup finds. -/
theorem Linked.lookupChild_at (h : t.Linked) (present : t.Has node) (there : t.At node.ino place)
    (found : t.lookupChild node.ino part = some node') :
    node.kind = .directory ∧ t.Has node' ∧ node'.name = part ∧ node'.parentIno = node.ino ∧
      t.At node'.ino (place ++ [part]) := by
  have has := h.has_lookupChild found
  unfold lookupChild at found
  rw [present, Option.bind_eq_bind, Option.bind_some] at found
  by_cases file : node.kind ≠ .directory
  · rw [if_pos file] at found
    cases found
  rw [if_neg file] at found
  obtain ⟨c, member, known⟩ := List.exists_of_findSome?_eq_some found
  obtain ⟨known, name⟩ := Option.filter_eq_some_iff.1 known
  have name := of_decide_eq_true name
  obtain ⟨other, child, known', parent⟩ := h.child _ _ present c member
  rw [known] at known'
  obtain rfl := Option.some.inj known'
  have ino := h.ino _ _ known
  rw [← ino] at known other
  have there' := At.child known other (parent ▸ there)
  rw [name] at there'
  exact ⟨Decidable.not_not.1 file, has, name, parent, there'⟩

/-- One part further. -/
theorem Linked.traced_resolvePart (h : t.Linked) (rooted : t.RootedInItself) (links : t.Links)
    (one : t.OneNode) (present : t.Has node) (there : t.At node.ino place)
    (traced : Traced parts node.kind place) (found : t.resolvePart node part = some node') :
    ∃ place', t.At node'.ino place' ∧ Traced (parts ++ [part]) node'.kind place' := by
  unfold resolvePart at found
  by_cases stay : part = "" ∨ part = "."
  · rw [if_pos stay] at found
    obtain rfl := Option.some.inj found
    have none : steps (parts ++ [part]) = steps parts := by
      rw [steps_append, steps_of_not, List.append_nil]
      intro step
      exact stay.elim step.1 step.2.1
    refine ⟨place, there, ?_⟩
    cases traced with
    | named sub => exact .named (none ▸ sub)
    | linked front leaf n kind same sub => exact .linked front leaf n kind same (none ▸ sub)
  rw [if_neg stay] at found
  by_cases up : part = ".."
  · rw [if_pos up] at found
    have none : steps (parts ++ [part]) = steps parts := by
      rw [steps_append, steps_of_not, List.append_nil]
      exact fun step => step.2.2 up
    have ino := h.ino _ _ found
    by_cases root : node.ino = rootInode
    · have top : t.getNode rootInode = some node := root ▸ present
      rw [rooted node top] at ino
      exact ⟨[], ino ▸ .root, .named (List.nil_sublist _)⟩
    · obtain ⟨above, there', rfl⟩ := there.eq_append present root
      rw [← ino] at there'
      refine ⟨above, there', .named ?_⟩
      rw [none]
      cases traced with
      | named sub => exact (List.sublist_append_left _ _).trans sub
      | linked front leaf n kind same sub =>
        obtain ⟨rfl, -⟩ := List.append_inj' same rfl
        exact (List.sublist_append_left _ _).trans sub
  rw [if_neg up] at found
  have step : IsStep part := ⟨fun same => stay (.inl same), fun same => stay (.inr same), up⟩
  obtain ⟨child, looked, found⟩ := Option.bind_eq_some_iff.1 found
  obtain ⟨dir, has, name, parent, there'⟩ := h.lookupChild_at present there looked
  have sub : List.Sublist (place ++ [part]) (steps (parts ++ [part])) := by
    rw [steps_append, steps_of_isStep step]
    cases traced with
    | named sub => exact sub.append (.refl _)
    | linked front leaf n kind => exact absurd (dir.symm.trans kind) (by decide)
  split at found
  · rename_i target kind leads
    rw [parent] at found
    obtain ⟨-, has', name', -, there''⟩ := h.lookupChild_at present there found
    obtain ⟨leaf, n, ino, version, latest, leads', known, other, parent', versionName, regular⟩ :=
      links _ _ has kind
    rw [leads] at leads'
    obtain rfl := Option.some.inj leads'
    -- the version that the link was made for is the node that is found
    have beside := At.child known other (parent'.trans parent ▸ there)
    rw [versionName] at beside
    have same := one _ _ _ _ _ known has' beside there''
    have regular' : node'.kind = .regularFile := by
      rw [same, has'] at known
      rw [Option.some.inj known]
      exact regular
    refine ⟨_, there'', .linked place leaf n regular' rfl ?_⟩
    rw [← latest, name]
    exact sub
  · obtain rfl := Option.some.inj found
    exact ⟨_, there', .named sub⟩

/-- The whole path. -/
theorem Linked.traced_foldlM (h : t.Linked) (rooted : t.RootedInItself) (links : t.Links)
    (one : t.OneNode) {root : VfsNode} (begins : t.getNode rootInode = some root)
    (found : parts.foldlM t.resolvePart root = some node) :
    t.Has node ∧ ∃ place, t.At node.ino place ∧ Traced parts node.kind place := by
  induction parts using List.reverseRecOn generalizing node with
  | nil =>
    obtain rfl := Option.some.inj found
    have ino := h.ino _ _ begins
    exact ⟨h.has begins, [], ino ▸ .root, .named (List.nil_sublist _)⟩
  | append_singleton parts part ih =>
    rw [List.foldlM_append] at found
    obtain ⟨before, first, found⟩ := Option.bind_eq_some_iff.1 found
    obtain ⟨present, place, there, traced⟩ := ih first
    have found : t.resolvePart before part = some node := by
      simpa using found
    exact ⟨h.has_resolvePart present found,
      h.traced_resolvePart rooted links one present there traced found⟩

end Traced

/-- What a reference leads to: the entry, or the target of a link. -/
def followed (t : VfsNodes) (c : VfsNode) : Option VfsNode :=
  match c.kind, c.symlinkTarget with
  | .symlink, some target => t.lookupChild c.parentIno target
  | _, _ => some c

/-- Asking for the reference that is listed for an entry leads back to it. -/
def LeadsBack (t : VfsNodes) (path : String) (c : VfsNode) : Prop :=
  ∃ node, t.followed c = some node ∧
    t.resolvePath (decodeUrlPath (unescapeXml
      (propEntry (childHref (Text.trimMatches '/' path) c) c).href)) = some node

end VfsNodes

/-! ## References -/

/-- A reference without the slash behind a directory. -/
def reference (cleanPath name : String) : String :=
  if cleanPath = "" then "/" ++ name else "/" ++ cleanPath ++ "/" ++ name

theorem childHref_eq (cleanPath : String) (c : VfsNode) : childHref cleanPath c =
    if c.kind = .directory then reference cleanPath c.name ++ "/"
    else reference cleanPath c.name := by
  unfold childHref reference
  split <;> rfl

theorem components_childHref (cleanPath : String) (c : VfsNode) :
    FilePath.components (Text.split '/' (decodeUrlPath (childHref cleanPath c))) =
      FilePath.components (Text.split '/' (decodeUrlPath (reference cleanPath c.name))) := by
  rw [childHref_eq]
  split
  · exact components_decodeUrlPath_slash _
  · rfl

theorem components_reference {cleanPath name : String} (one : '/' ∉ name.toList)
    (step : VfsNodes.IsStep name) : FilePath.components (Text.split '/' (reference cleanPath name)) =
      FilePath.components (Text.split '/' cleanPath) ++ [name] := by
  have single : Text.split '/' name = [name] := by
    unfold Text.split
    rw [List.splitOn_eq_singleton one, List.map_singleton, String.ofList_toList]
  have kept : FilePath.components [name] = [name] :=
    List.filter_cons_of_pos (by simp [FilePath.isNoise, step.1, step.2.1])
  have front (s : String) : FilePath.components (Text.split '/' ("/" ++ s)) =
      FilePath.components (Text.split '/' s) := by
    have parts := Text.split_append "" s
    rw [String.empty_append] at parts
    rw [parts]
    rfl
  unfold reference
  by_cases top : cleanPath = ""
  · rw [if_pos top, front, top, single, kept]
    rfl
  · rw [if_neg top, String.append_assoc, String.append_assoc, front, Text.split_append, single]
    unfold FilePath.components at kept ⊢
    rw [List.filter_append, kept]

/-- Nothing of a reference is lost in decoding, and its name is one step. -/
structure Followable (cleanPath name : String) : Prop where
  step : VfsNodes.IsStep name
  one : '/' ∉ name.toList
  query : '?' ∉ (reference cleanPath name).toList
  undisturbed : Undisturbed (reference cleanPath name).toList

/-- The characters of names, each behind a slash. -/
def slashed (names : List String) : List Char := names.flatMap fun name => '/' :: name.toList

theorem intercalate_cons (part : List Char) (parts : List (List Char)) :
    List.intercalate ['/'] (part :: parts) = part ++ parts.flatMap ('/' :: ·) := by
  induction parts generalizing part with
  | nil => simp [List.intercalate]
  | cons next parts ih =>
    have further := ih next
    rw [List.intercalate, List.intersperse_cons_cons] at *
    simp only [List.flatten_cons, List.flatMap_cons] at *
    rw [further]
    simp

theorem toList_reference {place : List String} (name : String)
    (own : place = [] ∨ FilePath.text place ≠ "") :
    (reference (FilePath.text place) name).toList = slashed (place ++ [name]) := by
  unfold reference slashed
  cases place with
  | nil =>
    have clean : FilePath.text [] = "" := rfl
    rw [clean, if_pos rfl]
    simp
  | cons part parts =>
    rw [if_neg (own.resolve_left (List.cons_ne_nil _ _))]
    simp [FilePath.text, intercalate_cons, List.flatMap_map]

section Letters

variable {a : Char}

/-- How often a character is in names. -/
def letters (a : Char) (names : List String) : Nat := (names.map fun name => name.toList.count a).sum

@[simp] theorem letters_append (names names' : List String) :
    letters a (names ++ names') = letters a names + letters a names' := by
  simp [letters]

@[simp] theorem letters_singleton (name : String) : letters a [name] = name.toList.count a := by
  simp [letters]

theorem letters_le {names names' : List String} (sub : List.Sublist names names') :
    letters a names ≤ letters a names' := by
  unfold letters
  induction sub with
  | slnil => exact Nat.le_refl _
  | cons name _ ih => exact Nat.le_trans ih (by simp)
  | cons_cons name _ ih => simpa using ih

/-- What is looked up of a path has no more of a character than the path. -/
theorem letters_split (other : a ≠ '/') (s : String) :
    letters a (Text.split '/' s) = s.toList.count a := by
  have joined : List.intercalate ['/'] (s.toList.splitOn '/') = s.toList :=
    List.intercalate_splitOn '/'
  have whole := congrArg (List.count a) joined
  unfold letters Text.split
  rw [List.map_map, ← whole]
  cases s.toList.splitOn '/' with
  | nil => rfl
  | cons part parts =>
    rw [intercalate_cons, List.count_append, List.map_cons, List.sum_cons]
    simp [List.count_flatMap, Function.comp_def, other.symm]

theorem count_slashed (other : a ≠ '/') (names : List String) :
    (slashed names).count a = letters a names := by
  unfold slashed letters
  simp [List.count_flatMap, Function.comp_def, other.symm]

theorem count_slash (names : List String) :
    (slashed names).count '/' = names.length + letters '/' names := by
  unfold slashed letters
  induction names with
  | nil => rfl
  | cons name names ih =>
    simp only [List.flatMap_cons, List.map_cons, List.sum_cons, List.length_cons,
      List.count_append, ih, List.count_cons_self]
    omega

end Letters

/-! ## What a followed reference is -/

theorem length_split (s : String) : (Text.split '/' s).length = s.toList.count '/' + 1 := by
  unfold Text.split
  rw [List.length_map]
  induction s.toList with
  | nil => rfl
  | cons c cs ih =>
    rw [List.splitOn_cons_eq_if_modifyHead]
    by_cases slash : c = '/'
    · rw [slash, if_pos (beq_self_eq_true '/'), List.length_cons, ih, List.count_cons_self]
    · rw [if_neg (by simpa using slash), List.length_modifyHead, ih, List.count_cons_of_ne slash]

/-- A path from the root is read as one. -/
theorem split_decodeUrlPath {url : String} {cs : List Char} (first : url.toList = '/' :: cs) :
    ∃ rest, Text.split '/' (decodeUrlPath url) = "" :: rest := by
  have read := toList_decodeUrlPath url
  have outside : beforeQuery ('/' :: cs) = '/' :: beforeQuery cs :=
    List.takeWhile_cons_of_pos (by decide)
  rw [first, outside, readPath_cons (by decide)] at read
  unfold Text.split
  rw [read, List.splitOn_cons_eq_if_modifyHead, if_pos (beq_self_eq_true '/')]
  exact ⟨_, rfl⟩

theorem toList_of_split {s : String} {names : List String} (parts : Text.split '/' s = "" :: names) :
    s.toList = slashed names := by
  have whole : List.intercalate ['/'] (s.toList.splitOn '/') = s.toList :=
    List.intercalate_splitOn '/'
  have lists : s.toList.splitOn '/' = (Text.split '/' s).map String.toList := by
    unfold Text.split
    simp [Function.comp_def]
  rw [lists, parts, List.map_cons, intercalate_cons, List.flatMap_map] at whole
  exact whole.symm

/-- If the names of a reference are among what is looked up for it, it is read as it is. -/
theorem decodeUrlPath_of_sublist {url : String} {names : List String} (nonempty : names ≠ [])
    (listed : url.toList = slashed names)
    (sub : List.Sublist names (VfsNodes.steps (Text.split '/' (decodeUrlPath url)))) :
    decodeUrlPath url = url := by
  have within : List.Sublist names (Text.split '/' (decodeUrlPath url)) :=
    sub.trans List.filter_sublist
  -- no percent sign is taken
  have percent : url.toList.count '%' ≤ (decodeUrlPath url).toList.count '%' := by
    rw [listed, count_slashed (by decide), ← letters_split (by decide)]
    exact letters_le within
  -- so there are no more parts than names
  have none : letters '/' names = 0 := by
    unfold letters
    rw [List.sum_eq_zero_iff_forall_eq_nat]
    intro n member
    obtain ⟨name, there, rfl⟩ := List.mem_map.1 member
    exact List.count_eq_zero.2 (Text.not_mem_split (within.subset there))
  have few : (Text.split '/' (decodeUrlPath url)).length ≤ names.length + 1 := by
    have slashes := (count_decodeUrlPath_le (a := '/') (by decide) percent).trans
      (count_beforeQuery_le _)
    rw [listed, count_slash, none] at slashes
    rw [length_split]
    omega
  have first : ∃ cs, url.toList = '/' :: cs := by
    cases names with
    | nil => exact absurd rfl nonempty
    | cons name names => exact ⟨_, listed⟩
  obtain ⟨cs, first⟩ := first
  obtain ⟨rest, parts⟩ := split_decodeUrlPath first
  have skipped : VfsNodes.steps ("" :: rest) = VfsNodes.steps rest :=
    List.filter_cons_of_neg (by decide)
  have inside : List.Sublist names rest := by
    rw [parts, skipped] at sub
    exact sub.trans List.filter_sublist
  rw [parts, List.length_cons] at few
  obtain rfl := inside.eq_of_length_le (Nat.le_of_succ_le_succ few)
  rw [← String.toList_inj, toList_of_split parts, listed]

section Versions

/-- The number of a version is written in digits. -/
theorem count_toString {a : Char} (other : a.isDigit = false) (n : UInt32) :
    (toString n).toList.count a = 0 := by
  have digits : (toString n).toList = Nat.toDigits 10 n.toNat := Nat.toList_repr
  rw [digits]
  apply List.count_eq_zero.2
  intro member
  have digit := Nat.isDigit_of_mem_toDigits (by decide) (by decide) member
  rw [other] at digit
  cases digit

theorem count_version {a : Char} (other : a.isDigit = false) (leaf : String) (n : UInt32) :
    (leaf ++ "@v" ++ toString n).toList.count a = leaf.toList.count a + "@v".toList.count a := by
  rw [String.toList_append, String.toList_append, List.count_append, List.count_append,
    count_toString other, Nat.add_zero]

theorem count_latest (a : Char) (leaf : String) :
    (leaf ++ "@latest").toList.count a = leaf.toList.count a + "@latest".toList.count a := by
  rw [String.toList_append, List.count_append]

/-- The name of a version tells the name of the file. -/
theorem leaf_of_version {leaf leaf' : String} {n n' : UInt32}
    (same : leaf ++ "@v" ++ toString n = leaf' ++ "@v" ++ toString n') : leaf = leaf' := by
  have none (n : UInt32) : 'v' ∉ (toString n).toList.reverse := by
    intro member
    exact List.count_eq_zero.1 (count_toString (a := 'v') (by decide) n) (List.mem_reverse.1 member)
  have lists := congrArg (fun s => s.toList.reverse) same
  have marker : "@v".toList.reverse = ['v', '@'] := rfl
  simp only [String.toList_append, List.reverse_append, marker, List.cons_append,
    List.nil_append] at lists
  have behind := (Text.append_cons_inj (none n) (none n') lists).2
  rw [← String.toList_inj, ← List.reverse_inj]
  exact (List.cons.inj behind).2

end Versions

/-- Names that are looked up for a reference, with as many percent signs, have no more of a character
than the reference. -/
theorem letters_le_of_sublist {url : String} {names names' : List String} {a : Char}
    (ascii : a.toNat < 128) (other : a ≠ '/') (listed : url.toList = slashed names)
    (kept : letters '%' names ≤ letters '%' names')
    (sub : List.Sublist names' (VfsNodes.steps (Text.split '/' (decodeUrlPath url)))) :
    letters a names' ≤ letters a names := by
  have within : List.Sublist names' (Text.split '/' (decodeUrlPath url)) :=
    sub.trans List.filter_sublist
  have percent : url.toList.count '%' ≤ (decodeUrlPath url).toList.count '%' := by
    rw [listed, count_slashed (by decide), ← letters_split (by decide)]
    exact kept.trans (letters_le within)
  have le := (count_decodeUrlPath_le ascii percent).trans (count_beforeQuery_le _)
  rw [listed, count_slashed other, ← letters_split other] at le
  exact (letters_le within).trans le

namespace VfsNodes

section Followed

variable {t : VfsNodes} {place : List String} {c node : VfsNode}

theorem followed_of_not_link (kind : c.kind ≠ .symlink) : t.followed c = some c := by
  unfold followed
  split
  · exact absurd ‹_› kind
  · rfl

theorem OneNode.sound (one : t.OneNode) (h : t.Linked) : t.Sound := by
  refine ⟨h, ?_⟩
  intro ino ino' place dir dir'
  obtain ⟨node, found, -, there⟩ := dir
  obtain ⟨node', found', -, there'⟩ := dir'
  exact one _ _ _ _ _ found found' there there'

/-- A link is followed to the version that it names. -/
theorem Linked.followed_link (h : t.Linked) (links : t.Links) (one : t.OneNode) (has : t.Has c)
    (there : t.At c.ino (place ++ [c.name])) (kind : c.kind = .symlink) :
    ∃ leaf n version, c.name = leaf ++ "@latest" ∧ t.followed c = some version ∧
      t.Has version ∧ t.At version.ino (place ++ [leaf ++ "@v" ++ toString (n : UInt32)]) := by
  obtain ⟨leaf, n, ino, version, latest, leads, known, other, parent, name, regular⟩ :=
    links _ _ has kind
  have root : c.ino ≠ rootInode := there.ne_root (by simp)
  obtain ⟨above, there', same⟩ := there.eq_append has root
  obtain ⟨rfl, -⟩ := List.append_inj' same rfl
  obtain ⟨dir, present, dirKind, -⟩ := h.parent _ _ has root
  have beside := At.child known other (parent ▸ there')
  have found := one.lookupChild (one.sound h) ⟨dir, present, dirKind, there'⟩ known beside
  rw [name] at beside found
  have ino := h.ino _ _ known
  rw [← ino] at known beside
  refine ⟨leaf, n, version, latest, ?_, known, beside⟩
  unfold followed
  rw [kind, leads]
  exact found

theorem Linked.exists_root (h : t.Linked) : ∃ root, t.getNode rootInode = some root := by
  obtain ⟨root, begins, -, -⟩ := h.root
  exact ⟨root, begins⟩

/-- Neither the entities nor the slash behind a directory matter. -/
theorem Linked.leadsBack_iff (h : t.Linked) (path : String) :
    t.LeadsBack path c ↔ ∃ node, t.followed c = some node ∧
      t.resolvePath (decodeUrlPath (reference (Text.trimMatches '/' path) c.name)) = some node := by
  obtain ⟨root, begins⟩ := h.exists_root
  have href : unescapeXml (propEntry (childHref (Text.trimMatches '/' path) c) c).href =
      childHref (Text.trimMatches '/' path) c := unescapeXml_escapeXml _
  unfold LeadsBack
  rw [href, resolvePath_eq begins, components_childHref, ← resolvePath_eq begins]

/-- The names of an entry that is followed are all looked up. -/
theorem Linked.sublist_of_followed (h : t.Linked) (rooted : t.RootedInItself) (links : t.Links)
    (one : t.OneNode) (has : t.Has c) (there : t.At c.ino (place ++ [c.name])) {url : String}
    (listed : url.toList = slashed (place ++ [c.name])) (leads : t.followed c = some node)
    (found : t.resolvePath (decodeUrlPath url) = some node) :
    List.Sublist (place ++ [c.name]) (steps (Text.split '/' (decodeUrlPath url))) := by
  obtain ⟨root, begins⟩ := h.exists_root
  rw [resolvePath_eq begins] at found
  have fewer : List.Sublist (steps (FilePath.components (Text.split '/' (decodeUrlPath url))))
      (steps (Text.split '/' (decodeUrlPath url))) := List.Sublist.filter _ List.filter_sublist
  obtain ⟨has', place', there', traced⟩ := h.traced_foldlM rooted links one begins found
  by_cases kind : c.kind = .symlink
  · obtain ⟨leaf, n, version, latest, leads', -, beside⟩ := h.followed_link links one has there kind
    rw [leads] at leads'
    obtain rfl := Option.some.inj leads'
    obtain rfl := there'.unique beside
    cases traced with
    | named sub =>
      -- there would be a 'v' too many
      have more := letters_le_of_sublist (a := 'v') (by decide) (by decide) listed (by
        rw [latest, letters_append, letters_append, letters_singleton, letters_singleton,
          count_version (by decide), count_latest]
        exact Nat.le_refl _) (sub.trans fewer)
      rw [latest, letters_append, letters_append, letters_singleton, letters_singleton,
        count_version (by decide), count_latest] at more
      have v : "@v".toList.count 'v' = 1 ∧ "@latest".toList.count 'v' = 0 := by decide
      omega
    | linked front leaf' n' regular same sub =>
      obtain ⟨rfl, name⟩ := List.append_inj' same rfl
      rw [latest, leaf_of_version (List.cons.inj name).1]
      exact sub.trans fewer
  · rw [followed_of_not_link kind] at leads
    obtain rfl := Option.some.inj leads
    obtain rfl := there'.unique there
    cases traced with
    | named sub => exact sub.trans fewer
    | linked front leaf n regular same sub =>
      -- there would be an 'l' too many
      have more := letters_le_of_sublist (a := 'l') (by decide) (by decide) listed (by
        rw [same, letters_append, letters_append, letters_singleton, letters_singleton,
          count_version (by decide), count_latest]
        exact Nat.le_refl _) (sub.trans fewer)
      rw [same, letters_append, letters_append, letters_singleton, letters_singleton,
        count_version (by decide), count_latest] at more
      have l : "@v".toList.count 'l' = 0 ∧ "@latest".toList.count 'l' = 1 := by decide
      omega

/-- What is followed from the own path of a directory keeps all its characters. -/
theorem Linked.followable (h : t.Linked) (rooted : t.RootedInItself) (links : t.Links)
    (one : t.OneNode) (has : t.Has c) (there : t.At c.ino (place ++ [c.name]))
    (own : place = [] ∨ FilePath.text place ≠ "") {path : String}
    (clean : Text.trimMatches '/' path = FilePath.text place) (leads : t.LeadsBack path c) :
    Followable (Text.trimMatches '/' path) c.name := by
  obtain ⟨node, leads, found⟩ := (h.leadsBack_iff path).1 leads
  rw [clean] at found ⊢
  have listed := toList_reference c.name own
  have sub := h.sublist_of_followed rooted links one has there listed leads found
  have same := decodeUrlPath_of_sublist (by simp) listed sub
  obtain ⟨query, undisturbed⟩ := plain_of_decodeUrlPath same
  have name := sub.subset (List.mem_append_right place (List.mem_singleton_self c.name))
  obtain ⟨part, step⟩ := List.mem_filter.1 name
  exact ⟨of_decide_eq_true step, Text.not_mem_split part, query, undisturbed⟩

/-- Nothing is lost, and the path leads to the directory of the entry. -/
theorem Linked.leadsBack (h : t.Linked) (links : t.Links) (one : t.OneNode) {path : String}
    {dir : VfsNode} (asked : t.resolvePath path = some dir) (has : t.Has c)
    (there : t.At dir.ino place) (below : c.parentIno = dir.ino) (other : c.ino ≠ rootInode)
    (followable : Followable (Text.trimMatches '/' path) c.name) : t.LeadsBack path c := by
  obtain ⟨root, begins⟩ := h.exists_root
  have there' := At.child has other (below ▸ there)
  have exists_followed : ∃ node, t.followed c = some node := by
    by_cases kind : c.kind = .symlink
    · obtain ⟨_, _, version, -, leads, -⟩ := h.followed_link links one has there' kind
      exact ⟨version, leads⟩
    · exact ⟨c, followed_of_not_link kind⟩
  obtain ⟨node, leads⟩ := exists_followed
  refine (h.leadsBack_iff path).2 ⟨node, leads, ?_⟩
  rw [decodeUrlPath_of_plain followable.query followable.undisturbed, resolvePath_eq begins]
  rw [resolvePath_eq begins] at asked
  have parts : FilePath.components (Text.split '/' (reference (Text.trimMatches '/' path) c.name)) =
      FilePath.components (Text.split '/' path) ++ [c.name] := by
    rw [components_reference followable.one followable.step, FilePath.components_trimMatches]
  obtain ⟨parent, present, dirKind, -⟩ := h.parent _ _ has other
  have looked := one.lookupChild (one.sound h) ⟨parent, present, dirKind, below ▸ there⟩ has there'
  have step : t.resolvePart dir c.name = t.followed c := by
    obtain ⟨nonempty, dot, dots⟩ := followable.step
    unfold resolvePart followed
    rw [if_neg (not_or.2 ⟨nonempty, dot⟩), if_neg dots, ← below, looked]
    rfl
  rw [parts, List.foldlM_append, asked]
  simp [step, leads]

end Followed

theorem exists_readdir {t : VfsNodes} {dir : VfsNode} (has : t.Has dir)
    (kind : dir.kind = .directory) : t.readdir dir.ino = some (dir.children.filterMap t.getNode) := by
  unfold readdir
  rw [has, Option.bind_eq_bind, Option.bind_some, if_neg (not_not_intro kind)]

/-- What is listed of a directory. -/
theorem handlePropfind_eq {t : VfsNodes} {path depth : String} {dir : VfsNode}
    {children : List VfsNode} (found : t.resolvePath path = some dir)
    (kind : dir.kind = .directory) (deep : depth ≠ "0")
    (listed : t.readdir dir.ino = some children) :
    handlePropfind t path depth = some
      (propEntry (targetHref (Text.trimMatches '/' path) dir) dir ::
        children.map fun c => propEntry (childHref (Text.trimMatches '/' path) c) c) := by
  unfold handlePropfind
  rw [found, Option.bind_eq_bind, Option.bind_some, if_pos ⟨deep, kind⟩, listed]
  rfl

/-- Where there is one node of a path, an entry that a directory lists is followed if its name is one
step and its reference has neither a query nor a percent sign that takes something with it.  From the
own path of the directory no other entry is. -/
theorem listing_followed_iff (objects : List (String × ObjectId × ObjectRecord))
    (snapshots : List Snapshot) (now : UInt64) (one : (buildFrom objects snapshots now).OneNode)
    {path depth : String} {dir : VfsNode}
    (found : (buildFrom objects snapshots now).resolvePath path = some dir)
    (kind : dir.kind = .directory) (deep : depth ≠ "0") :
    let t := buildFrom objects snapshots now
    let cleanPath := Text.trimMatches '/' path
    ∃ children, t.readdir dir.ino = some children ∧
      handlePropfind t path depth = some (propEntry (targetHref cleanPath dir) dir ::
        children.map fun c => propEntry (childHref cleanPath c) c) ∧
      ∀ c ∈ children, (Followable cleanPath c.name → t.LeadsBack path c) ∧
        ∀ place, t.At dir.ino place → cleanPath = FilePath.text place →
          (t.LeadsBack path c ↔ Followable cleanPath c.name) := by
  intro t cleanPath
  obtain ⟨linked, rooted, links⟩ := buildFrom_linked objects snapshots now
  have has := linked.has_resolvePath found
  have listed := exists_readdir has kind
  refine ⟨_, listed, handlePropfind_eq found kind deep listed, ?_⟩
  intro c member
  obtain ⟨ino, among, known⟩ := List.mem_filterMap.1 member
  obtain ⟨other, child, known', parent⟩ := linked.child _ _ has ino among
  rw [known] at known'
  obtain rfl := Option.some.inj known'
  obtain rfl := linked.ino _ _ known
  have enough (followable : Followable cleanPath c.name) : t.LeadsBack path c := by
    obtain ⟨place, there⟩ := linked.placed _ _ has
    exact linked.leadsBack links one found known there parent other followable
  refine ⟨enough, ?_⟩
  intro place there clean
  constructor
  · intro leads
    have own : place = [] ∨ FilePath.text place ≠ "" := by
      by_cases empty : FilePath.text place = ""
      · left
        have top : (buildFrom objects snapshots now).getNode rootInode = some dir := by
          rw [← found]
          unfold resolvePath
          rw [if_pos (clean.trans empty)]
        rw [linked.ino _ _ top] at there
        exact there.unique .root
      · exact .inr empty
    have there' := At.child known other (parent ▸ there)
    exact linked.followable rooted links one known there' own clean leads
  · exact enough

namespace ListingSample

open EngineSample TreeSample

/-- A store with a file whose name has a percent sign. -/
def percent : StorageEngine :=
  after opened (.put "100% done.txt" (file []) (FixedBytes.ofBytes 16 [1]))

/-- The directory `docs` of the store with one file, and the file. -/
def docs : VfsNode := { VfsNode.directory "docs" 0 5 currentInode with children := [6] }

def emptyFile (name : String) (ino parentIno : Nat) : VfsNode :=
  .regularFile name "0000000000000000000000000000000000000000000000000000000000000000" 0 0 ino
    parentIno

theorem oneNode {s : StorageEngine} (read : s.metadataStore.SnapshotsRead env)
    (apart : s.metadataStore.LiesApart env) : (build env s.metadataStore 0).OneNode := by
  have built := built_build 0 read.nodup
  exact ((distinct_iff_apart built).2 apart).oneNode built.sound

theorem single_oneNode : (build env single.metadataStore 0).OneNode := by
  apply oneNode (snapshotsRead (by decide +kernel))
  unfold MetadataStore.LiesApart
  decide +kernel

theorem percent_oneNode : (build env percent.metadataStore 0).OneNode := by
  apply oneNode (snapshotsRead (by decide +kernel))
  unfold MetadataStore.LiesApart
  decide +kernel

end ListingSample

theorem listing_followed_docs :
    (build EngineSample.env TreeSample.single.metadataStore 0).LeadsBack "/current/docs/"
      (ListingSample.emptyFile "report" 6 5) := by
  have one := ListingSample.single_oneNode
  rw [build_eq] at one ⊢
  have found : (buildFrom TreeSample.single.metadataStore.shownObjects
      (TreeSample.single.metadataStore.shownSnapshots EngineSample.env) 0).resolvePath
      "/current/docs/" = some ListingSample.docs := by decide +kernel
  have listed : (buildFrom TreeSample.single.metadataStore.shownObjects
      (TreeSample.single.metadataStore.shownSnapshots EngineSample.env) 0).readdir 5 =
      some [ListingSample.emptyFile "report" 6 5] := by decide +kernel
  have deep : ("1" : String) ≠ "0" := by decide
  obtain ⟨children, listed', -, followed⟩ := listing_followed_iff _ _ 0 one found rfl deep
  have same := Option.some.inj (listed'.symm.trans listed)
  apply (followed _ (same ▸ List.mem_singleton_self _)).1
  exact ⟨by decide, by decide, by decide, undisturbed_of_not_mem (by decide)⟩

/-- The file `100% done.txt` is listed, and not found. -/
theorem listed_percent_is_lost :
    ¬ ∀ (objects : List (String × ObjectId × ObjectRecord)) (snapshots : List Snapshot)
      (now : UInt64), (buildFrom objects snapshots now).OneNode →
      ∀ path dir children, (buildFrom objects snapshots now).resolvePath path = some dir →
      (buildFrom objects snapshots now).readdir dir.ino = some children →
      ∀ c ∈ children, (buildFrom objects snapshots now).LeadsBack path c := by
  intro all
  have one := ListingSample.percent_oneNode
  rw [build_eq] at one
  have found : (buildFrom ListingSample.percent.metadataStore.shownObjects
      (ListingSample.percent.metadataStore.shownSnapshots EngineSample.env) 0).resolvePath
      "/current/" = some { VfsNode.directory "current" 0 2 1 with children := [5] } := by
    decide +kernel
  have listed : (buildFrom ListingSample.percent.metadataStore.shownObjects
      (ListingSample.percent.metadataStore.shownSnapshots EngineSample.env) 0).readdir 2 =
      some [ListingSample.emptyFile "100% done.txt" 5 2] := by decide +kernel
  obtain ⟨node, -, there⟩ :=
    all _ _ 0 one _ _ _ found listed _ (List.mem_singleton_self _)
  have gone : (buildFrom ListingSample.percent.metadataStore.shownObjects
      (ListingSample.percent.metadataStore.shownSnapshots EngineSample.env) 0).resolvePath
      "/current/100%one.txt" = none := by decide +kernel
  have read : decodeUrlPath (unescapeXml (propEntry (childHref (Text.trimMatches '/' "/current/")
      (ListingSample.emptyFile "100% done.txt" 5 2))
      (ListingSample.emptyFile "100% done.txt" 5 2)).href) = "/current/100%one.txt" := by
    decide +kernel
  rw [read, gone] at there
  cases there
end VfsNodes

end OosLite
