import Bundler.Proofs.FileTree.Entries

/-!
# Staging files

A write makes the directories above its target that are missing, and a staging file beside the
target. No file has the name of the staging file, and the target does not denote its place: so it can
be written and removed, or moved over the target, and every other file stays as it is.
-/

namespace Bundler

/-! ## Names of paths -/

namespace Path

theorem exists_parent? {p : Path} {s : String} (h : p.fileName? = some s) :
    ∃ q, p.parent? = some q := by
  cases hd : p.segments.reverse.dropWhile isVoid with
  | cons x before =>
    unfold parent?
    rw [hd]
    exact ⟨_, rfl⟩
  | nil =>
    -- Without a name that counts, the last component is the anchor.
    have hvoid : p.segments.filter (!isVoid ·) = [] := by
      rw [List.dropWhile_eq_nil_iff] at hd
      rw [List.filter_eq_nil_iff]
      intro x hx
      simp [hd x (List.mem_reverse.mpr hx)]
    unfold fileName? components at h
    rw [hvoid, List.map_nil, List.append_nil] at h
    cases ha : p.anchor <;> rw [ha] at h <;> cases h

theorem isAbsolute_withFileName {p : Path} (ha : p.isAbsolute = true) (name : String) :
    (p.withFileName name).isAbsolute = true := by
  unfold withFileName
  split
  next s hs =>
    obtain ⟨q, hq⟩ := exists_parent? hs
    rw [hq]
    exact isAbsolute_join (.inl (isAbsolute_parent hq ha))
  next => exact isAbsolute_join (.inl ha)

/-- A name that ends a path and counts is its last segment: what is cut off in front is void. -/
theorem exists_segments {p : Path} {init : List String} {s : String}
    (h : splitSlashes p.text.toList = init ++ [s]) (hv : isVoid s = false) :
    ∃ init', p.segments = init' ++ [s] := by
  have hbehind : ∀ {n : String} {cs : List Char}, isVoid n = true →
      splitSlashes p.text.toList = n :: splitSlashes cs →
      ∃ init', splitSlashes cs = init' ++ [s] := by
    intro n cs hn hcs
    rw [h] at hcs
    cases init with
    | nil =>
      rw [(List.cons.inj hcs).1] at hv
      rw [hv] at hn
      cases hn
    | cons x init => exact ⟨init, (List.cons.inj hcs).2.symm⟩
  unfold segments anchor
  split
  next cs hcs => rw [hcs] at hbehind ⊢; exact @hbehind "" cs rfl rfl
  next hcs =>
    rw [hcs] at h
    cases init with
    | nil => cases h; cases hv
    | cons x init => exact absurd (congrArg List.length h) (by simp [splitSlashes, Text.pieces])
  next cs hcs =>
    obtain ⟨init', hi⟩ := @hbehind "." cs rfl (by rw [hcs]; rfl)
    exact ⟨"" :: init', by rw [hcs]; exact congrArg ("" :: ·) hi⟩
  next => exact ⟨init, h⟩

/-- Unless it leads upwards, that name is the file name. -/
theorem fileName?_of_splitSlashes {p : Path} {init : List String} {s : String}
    (h : splitSlashes p.text.toList = init ++ [s]) (hv : isVoid s = false) (hu : s ≠ "..") :
    p.fileName? = some s := by
  obtain ⟨init', hi⟩ := exists_segments h hv
  unfold fileName? components
  rw [hi, List.filter_append, List.filter_cons_of_pos (by rw [hv]; rfl), List.filter_nil,
    List.map_append, ← List.append_assoc, List.map_singleton, List.getLast?_concat]
  unfold component
  rw [if_neg hu]

end Path

namespace Replacement

open FileTree
open Node (Entry)

variable {r : Replacement} {t u v : FileTree}

/-! ## The staging file -/

/-- The name of the staging file. -/
def stagingName (r : Replacement) : String :=
  "." ++ r.target.fileName?.getD "out" ++ "." ++ r.tag ++ ".partial"

theorem length_stagingName (r : Replacement) :
    (r.target.fileName?.getD "out").length + 10 ≤ r.stagingName.length := by
  unfold stagingName
  simp only [String.length_append]
  have h1 : ".".length = 1 := by decide
  have h2 : ".partial".length = 8 := by decide
  omega

theorem fileName?_slash {p : Path} {s : String} (h : p.fileName? = some s) : '/' ∉ s.toList := by
  unfold Path.fileName? at h
  split at h
  next s' hs =>
    cases h
    exact (Path.plain_of_mem_components (List.mem_of_getLast? hs)).slash
  next => cases h

theorem not_mem_stagingName (htag : '/' ∉ r.tag.toList) : '/' ∉ r.stagingName.toList := by
  have hname : '/' ∉ (r.target.fileName?.getD "out").toList := by
    cases h : r.target.fileName? with
    | none => decide
    | some s => exact fileName?_slash h
  have h1 : '/' ∉ ".".toList := by decide
  have h2 : '/' ∉ ".partial".toList := by decide
  unfold stagingName
  simp only [String.toList_append, List.mem_append, not_or]
  exact ⟨⟨⟨⟨h1, hname⟩, h1⟩, htag⟩, h2⟩

theorem stagingName_ne {s : String} (r : Replacement) (h : s.length < 10) : r.stagingName ≠ s := by
  rintro rfl
  exact absurd r.length_stagingName (by omega)

theorem staging_lastName (htag : '/' ∉ r.tag.toList) :
    ∃ init, lastName r.staging = (init, r.stagingName, false) := by
  have hsplit : ∃ init, Path.splitSlashes r.staging.text.toList = init ++ [r.stagingName] := by
    unfold staging Path.withFileName
    split
    · exact splitSlashes_join _ (not_mem_stagingName htag)
    · exact splitSlashes_join _ (not_mem_stagingName htag)
  obtain ⟨init, hi⟩ := hsplit
  exact ⟨init, lastName_of_splitSlashes hi (r.stagingName_ne (by decide))⟩

/-- The place of the staging file. -/
theorem staging_slot (htag : '/' ∉ r.tag.toList) {s : Slot} (h : t.slot r.staging = .ok s) :
    s.name = r.stagingName ∧ t.Denotes r.staging s.names := by
  obtain ⟨init, hi⟩ := staging_lastName htag
  obtain ⟨-, before, hlast, -⟩ := slot_eq_ok h
  rw [hi] at hlast
  obtain ⟨-, hname, hslash⟩ : _ ∧ r.stagingName = s.name ∧ false = s.slash := by simpa using hlast
  have hspecial : s.isSpecial = false := by
    unfold Slot.isSpecial
    rw [← hname]
    simp [r.stagingName_ne (s := ".") (by decide), r.stagingName_ne (s := "..") (by decide),
      r.stagingName_ne (s := "/") (by decide)]
  exact ⟨hname.symm, s, h, hslash.symm, hspecial, rfl⟩

theorem getLast?_names (s : Slot) : s.names.getLast? = some s.name := List.getLast?_concat

/-- The target does not denote the place of the staging file. -/
theorem names_ne_staging (htag : '/' ∉ r.tag.toList) {s d : Slot} (hs : t.slot r.staging = .ok s)
    (hd : u.slot r.target = .ok d) (hslash : d.slash = false) (hspecial : d.isSpecial = false) :
    d.names ≠ s.names := by
  obtain ⟨-, before, hlast, -⟩ := slot_eq_ok hd
  rw [hslash] at hlast
  obtain ⟨hsplit, hne⟩ := splitSlashes_of_lastName hlast
  simp only [Slot.isSpecial, Bool.or_eq_false_iff, decide_eq_false_iff_not] at hspecial
  have hname := Path.fileName?_of_splitSlashes hsplit (by simp [Path.isVoid, hne, hspecial.1.1])
    hspecial.1.2
  intro he
  have hlasts := congrArg List.getLast? he
  rw [getLast?_names, getLast?_names, (staging_slot htag hs).1] at hlasts
  have hlen := r.length_stagingName
  rw [hname, ← Option.some.inj hlasts] at hlen
  exact absurd hlen (by simp)

theorem starts_staging (h : t.Starts r.target) : t.Starts r.staging :=
  h.imp_left fun ha => Path.isAbsolute_withFileName ha _

/-! ## Directories above the target -/

/-- The directories that a write needs. -/
def Needs (r : Replacement) (q : Path) : Prop :=
  ∃ p, r.target.parent? = some p ∧ q ∈ p.ancestry

theorem Needs.starts {q : Path} (hq : r.Needs q) (h : t.Starts r.target) : t.Starts q := by
  obtain ⟨p, hp, hq⟩ := hq
  exact h.imp_left fun ha => Path.isAbsolute_of_mem_ancestry (Path.isAbsolute_parent hp ha) hq

theorem Needs.parent {q q' : Path} (hq : r.Needs q) (h : q.parent? = some q') : r.Needs q' := by
  obtain ⟨p, hp, hq⟩ := hq
  exact ⟨p, hp, Path.parent_mem_ancestry hq h⟩

/-- The places of these directories. -/
def Above (r : Replacement) (u : FileTree) (ns : List String) : Prop :=
  ∃ q, r.Needs q ∧ ∃ s, u.slot q = .ok s ∧ s.names = ns

theorem Above.wider {ns : List String} (h : r.Above u ns) (hu : u.Starts r.target)
    (hw : u.Wider v) : r.Above v ns := by
  obtain ⟨q, hq, s, hs, rfl⟩ := h
  obtain ⟨parent, hs', hn⟩ := hw.slot (hq.starts hu) hs
  exact ⟨q, hq, _, hs', congrArg (· ++ [s.name]) hn⟩

/-- Apart from one place, `u` is `t` with directories above the target that were missing in `t`. -/
structure Grown (r : Replacement) (t u : FileTree) (spared : Option (List String)) : Prop where
  start : u.start = t.start
  elsewhere : ∀ ns, ns ∉ spared → u.entry? ns = t.entry? ns ∨
    t.entry? ns = none ∧ u.entry? ns = some .dir ∧ r.Above u ns

theorem Grown.refl (r : Replacement) (t : FileTree) : r.Grown t t none := ⟨rfl, fun _ _ => .inl rfl⟩

theorem Grown.kept {spared : Option (List String)} (h : r.Grown t u spared) {ns : List String}
    (hn : ns ∉ spared) {e : Entry} (he : t.entry? ns = some e) : u.entry? ns = some e := by
  rcases h.elsewhere ns hn with heq | ⟨hnone, -⟩
  · rw [heq, he]
  · rw [he] at hnone
    cases hnone

theorem Grown.wider {spared : Option (List String)} (h : r.Grown t u spared)
    (hs : ∀ ns ∈ spared, t.entry? ns ≠ some .dir) : t.Wider u :=
  ⟨h.start, fun ns hd => h.kept (fun hm => hs ns hm hd) hd⟩

/-- Files are as they were. -/
theorem Grown.file {spared : Option (List String)} (h : r.Grown t u spared) {ns : List String}
    (hn : ns ∉ spared) {bytes : Bytes} (he : u.entry? ns = some (.file bytes)) :
    t.entry? ns = some (.file bytes) := by
  rcases h.elsewhere ns hn with heq | ⟨-, hdir, -⟩
  · rw [← heq, he]
  · rw [he] at hdir
    cases hdir

/-- What a path reads stays as it was, unless it leads to the spared place. -/
theorem Grown.read {spared : Option (List String)} (h : r.Grown t u spared)
    (hs : ∀ ns ∈ spared, t.entry? ns ≠ some .dir) {p : Path} (hp : t.Starts p) {bytes : Bytes}
    (hr : t.read p = .ok bytes) : u.read p = .ok bytes ∨ ∃ ns ∈ spared, u.Denotes p ns ∧
      t.entry? ns = some (.file bytes) := by
  obtain ⟨ns, hd, he⟩ := exists_denotes_of_read hr
  have hd' := (h.wider hs).denotes hp hd
  by_cases hn : ns ∈ spared
  · exact .inr ⟨ns, hn, hd', he⟩
  · exact .inl (hd'.read (h.kept hn he))

/-- One more tree with the same entries but for one place. -/
theorem Grown.amend {spared : Option (List String)} (h : r.Grown t u none)
    (hu : u.Starts r.target) (hw : u.Wider v)
    (hentry : ∀ ns, ns ∉ spared → v.entry? ns = u.entry? ns) : r.Grown t v spared := by
  refine ⟨hw.start.trans h.start, fun ns hn => ?_⟩
  rw [hentry ns hn]
  exact (h.elsewhere ns nofun).imp_right fun ⟨h1, h2, h3⟩ => ⟨h1, h2, h3.wider hu hw⟩

/-- A directory is made above the target. -/
theorem Grown.makeDir (h : r.Grown t u none) (ht : t.Starts r.target) {q : Path} (hq : r.Needs q)
    (hm : u.makeDir q = .ok v) : r.Grown t v none := by
  have hu := (h.wider nofun).starts ht
  obtain ⟨s, hs, hfree, hv⟩ := makeDir_eq_ok hm
  have hw : u.Wider v := hv.wider (by rw [hfree]; exact nofun)
  refine ⟨hw.start.trans h.start, fun ns _ => ?_⟩
  rw [hv.entry]
  by_cases hns : ns = s.names
  · obtain ⟨parent, hs', hn⟩ := hw.slot (hq.starts hu) hs
    rw [hns, Function.update_self]
    refine .inr ⟨?_, rfl, q, hq, _, hs', congrArg (· ++ [s.name]) hn⟩
    cases he : t.entry? s.names with
    | none => rfl
    | some e => exact nomatch hfree.symm.trans (h.kept nofun he)
  · rw [Function.update_of_ne hns]
    exact (h.elsewhere ns nofun).imp_right fun ⟨h1, h2, h3⟩ => ⟨h1, h2, h3.wider hu hw⟩

/-! ## The staging file in the tree -/

/-- No file has the name of the staging file. -/
def Fresh (r : Replacement) (t : FileTree) : Prop :=
  ∀ ns bytes, t.entry? ns = some (.file bytes) → ns.getLast? ≠ some r.stagingName

theorem Grown.entry?_staging (h : r.Grown t u none) (hf : r.Fresh t) (htag : '/' ∉ r.tag.toList)
    {s : Slot} (hs : u.slot r.staging = .ok s) (bytes : Bytes) :
    u.entry? s.names ≠ some (.file bytes) := by
  intro he
  refine hf s.names bytes (h.file nofun he) ?_
  rw [getLast?_names, (staging_slot htag hs).1]

/-- The tree `u` is `v` with a staging file, where `v` is `t` with directories above the target. -/
structure Staged (r : Replacement) (t v u : FileTree) (s : Slot) (content : Bytes) : Prop where
  grown : r.Grown t v none
  slot : v.slot r.staging = .ok s
  free : v.entry? s.names = none
  amends : v.Amends u s.names (some (.file content))

theorem Grown.stage (h : r.Grown t u none) (hf : r.Fresh t) (htag : '/' ∉ r.tag.toList)
    (hc : u.createFile r.staging = .ok v) : ∃ s, r.Staged t u v s [] := by
  obtain ⟨s, hs, hdir, hv⟩ := createFile_eq_ok hc
  refine ⟨s, h, hs, ?_, hv⟩
  cases he : u.entry? s.names with
  | none => rfl
  | some e =>
    cases e with
    | file bytes => exact absurd he (h.entry?_staging hf htag hs bytes)
    | dir => exact absurd he hdir

section
variable {s : Slot} {content : Bytes}

theorem Staged.wider (h : r.Staged t v u s content) : v.Wider u :=
  h.amends.wider (by rw [h.free]; exact nofun)

theorem Staged.narrower (h : r.Staged t v u s content) : u.Wider v := by
  refine ⟨h.amends.start.symm, fun ns hd => ?_⟩
  rw [h.amends.entry, Function.update_apply] at hd
  split at hd
  next => cases hd
  next => exact hd

theorem Staged.starts (h : r.Staged t v u s content) (ht : t.Starts r.target) :
    v.Starts r.target ∧ u.Starts r.target :=
  have hv := (h.grown.wider nofun).starts ht
  ⟨hv, h.wider.starts hv⟩

theorem Staged.slot_eq (h : r.Staged t v u s content) (ht : t.Starts r.target) :
    ∃ s', u.slot r.staging = .ok s' ∧ s'.names = s.names := by
  obtain ⟨parent, hs, hn⟩ := h.wider.slot (starts_staging (h.starts ht).1) h.slot
  exact ⟨_, hs, congrArg (· ++ [s.name]) hn⟩

theorem Staged.entry (h : r.Staged t v u s content) :
    u.entry? s.names = some (.file content) := by rw [h.amends.entry, Function.update_self]

theorem Staged.write (h : r.Staged t v u s content) (ht : t.Starts r.target) {u' : FileTree}
    {bytes : Bytes} (hw : u.writeFile r.staging bytes = .ok u') : r.Staged t v u' s bytes := by
  obtain ⟨s₁, hs₁, hn⟩ := h.slot_eq ht
  obtain ⟨s', hs', hwrite⟩ := writeFile_eq_ok hw
  cases hs₁.symm.trans hs'
  rw [hn] at hwrite
  have hu := hwrite (by rw [h.entry]; exact nofun)
  refine ⟨h.grown, h.slot, h.free, hu.start.trans h.amends.start, ?_⟩
  rw [hu.entry, h.amends.entry, Function.update_idem]

/-- The staging file can be removed, and nothing is left of it. -/
theorem Staged.remove (h : r.Staged t v u s content) (ht : t.Starts r.target) :
    ∃ u', u.removeFile r.staging = .ok u' ∧ r.Grown t u' none := by
  obtain ⟨s₁, hs₁, hn⟩ := h.slot_eq ht
  obtain ⟨u', hu'⟩ := removeFile_of_entry? hs₁ (by rw [hn]; exact h.entry)
  obtain ⟨s', -, hs', -, hu⟩ := removeFile_eq_ok hu'
  cases hs₁.symm.trans hs'
  have hentry : u'.entry? = v.entry? := by
    rw [hu.entry, h.amends.entry, hn, Function.update_idem, ← h.free, Function.update_eq_self]
  have hw : v.Wider u' := ⟨hu.start.trans h.amends.start, fun ns hd => by rw [hentry]; exact hd⟩
  exact ⟨u', hu', h.grown.amend (h.starts ht).1 hw fun ns _ => congrFun hentry ns⟩

/-- The target holds the new bytes, and only directories above it are new. -/
def Written (r : Replacement) (t u : FileTree) : Prop :=
  ∃ d, u.Denotes r.target d ∧ t.entry? d ≠ some .dir ∧ u.entry? d = some (.file r.bytes) ∧
    r.Grown t u (some d)

/-- The staging file takes the place of the target. -/
theorem Staged.move (h : r.Staged t v u s r.bytes) (ht : t.Starts r.target)
    (htag : '/' ∉ r.tag.toList) {u' : FileTree} (hm : u.rename r.staging r.target = .ok u') :
    r.Written t u' := by
  obtain ⟨s₁, hs₁, hn⟩ := h.slot_eq ht
  obtain ⟨s', d, bytes, hs', hd, hslash, hspecial, hfile, hdir, hmove⟩ := rename_eq_ok hm
  cases hs₁.symm.trans hs'
  have hne := names_ne_staging htag hs₁ hd hslash hspecial
  rw [hn] at hne hfile hmove
  cases hfile.symm.trans h.entry
  obtain ⟨hstart, hentry⟩ := hmove hne
  -- Nothing is at the place of the staging file, before it is made and after it is moved.
  have hentry : u'.entry? = Function.update v.entry? d.names (some (.file r.bytes)) := by
    rw [hentry, h.amends.entry, Function.update_comm hne, Function.update_idem, ← h.free,
      Function.update_eq_self]
  have hold : v.entry? d.names ≠ some .dir := by
    rwa [h.amends.entry, Function.update_of_ne hne] at hdir
  have hw : v.Wider u' := by
    refine ⟨hstart.trans h.amends.start, fun ns hns => ?_⟩
    have hnd : ns ≠ d.names := fun he => hold (he ▸ hns)
    rw [hentry, Function.update_of_ne hnd, hns]
  refine ⟨d.names, ?_, fun hdir => hold ((h.grown.wider nofun).dir _ hdir), ?_, ?_⟩
  · exact (h.narrower.trans hw).denotes (h.starts ht).2 ⟨d, hd, hslash, hspecial, rfl⟩
  · rw [hentry, Function.update_self]
  · refine h.grown.amend (h.starts ht).1 hw fun ns hns => ?_
    rw [hentry, Function.update_of_ne fun he => hns (by rw [he]; rfl)]

end

end Replacement

end Bundler
