import Bundler.Manifest
import Bundler.Proofs.FileTree.Replacement

/-!
# Writing several files

The files of a result are written one after the other. What a file was given stays there, unless a
later one leads to the same place or is staged there; below one directory, names that lead straight
down lead to one place only if they are equal.
-/

namespace Bundler

/-! ## Paths below a directory -/

namespace Path

/-- A name, or several with slashes between them, that leads straight down. -/
def Inner (name : String) : Prop := ∀ s ∈ splitSlashes name.toList, Plain s

variable {name name' : String}

theorem Inner.ne_slash (h : Inner name) (cs : List Char) : name.toList ≠ '/' :: cs := by
  intro he
  have hmem : "" ∈ splitSlashes name.toList := by
    rw [he, splitSlashes, Text.pieces, if_pos rfl]
    exact List.mem_cons_self
  exact absurd (h "" hmem).void (by decide)

theorem Inner.isAbsolute (h : Inner name) : isAbsolute ⟨name⟩ = false := by
  rw [← Bool.not_eq_true, Path.isAbsolute, Text.startsWith, List.isPrefixOf_iff_prefix]
  rintro ⟨cs, hcs⟩
  exact h.ne_slash cs hcs.symm

theorem splitSlashes_append_slash (a b : List Char) :
    splitSlashes (a ++ '/' :: b) = splitSlashes a ++ splitSlashes b := by
  unfold splitSlashes
  rw [Text.pieces_eq_splitOn, List.splitOn_append_cons_self, ← Text.pieces_eq_splitOn,
    ← Text.pieces_eq_splitOn, List.map_append]

theorem splitSlashes_inj {a b : List Char} (h : splitSlashes a = splitSlashes b) : a = b := by
  have h := List.map_injective_iff.mpr (fun _ _ he => String.ofList_injective he) h
  rw [Text.pieces_eq_splitOn, Text.pieces_eq_splitOn] at h
  have hback (s : List Char) : ['/'].intercalate (s.splitOn '/') = s := List.intercalate_splitOn '/'
  rw [← hback a, h, hback]

/-- Below a directory, the names follow those of the directory. -/
theorem exists_splitSlashes_join (dir : Path) : ∃ front, ∀ name, Inner name →
    (dir.join ⟨name⟩).isAbsolute = dir.isAbsolute ∧
      splitSlashes (dir.join ⟨name⟩).text.toList = front ++ splitSlashes name.toList := by
  have habs {a : Char} {cs ds : List Char} :
      "/".toList.isPrefixOf (a :: cs ++ ds) = "/".toList.isPrefixOf (a :: cs) := by
    simp [List.isPrefixOf]
  cases hd : dir.text.toList with
  | nil =>
    refine ⟨[], fun name h => ?_⟩
    have hdir : dir.isEmpty = true := by simpa [isEmpty] using hd
    have hjoin : dir.join ⟨name⟩ = ⟨dir.text ++ name⟩ := by
      rw [join, h.isAbsolute, if_neg (by decide), hdir, Bool.true_or, if_pos rfl]
    rw [hjoin, List.nil_append]
    refine ⟨?_, by rw [String.toList_append, hd, List.nil_append]⟩
    have hname := h.isAbsolute
    unfold isAbsolute Text.startsWith at hname ⊢
    rw [String.toList_append, hd, List.nil_append, hname]
    rfl
  | cons a cs =>
    have hdir : dir.isEmpty = false := by
      rw [isEmpty, ← Bool.not_eq_true, String.isEmpty_iff, ← String.toList_inj, hd]
      simp
    by_cases hend : Text.endsWith dir.text "/" = true
    · obtain ⟨front, hfront⟩ := List.isSuffixOf_iff_suffix.mp hend
      refine ⟨splitSlashes front, fun name h => ?_⟩
      rw [join, h.isAbsolute, if_neg (by decide), hend, Bool.or_true, if_pos rfl]
      refine ⟨?_, ?_⟩
      · unfold isAbsolute Text.startsWith
        rw [String.toList_append, hd, habs]
      · rw [String.toList_append, ← hfront, List.append_assoc]
        exact splitSlashes_append_slash front name.toList
    · refine ⟨splitSlashes dir.text.toList, fun name h => ?_⟩
      rw [join, h.isAbsolute, if_neg (by decide), hdir, Bool.false_or, if_neg hend]
      refine ⟨?_, ?_⟩
      · unfold isAbsolute Text.startsWith
        rw [String.toList_append, String.toList_append, hd, List.append_assoc, habs]
      · rw [String.toList_append, String.toList_append, List.append_assoc]
        exact splitSlashes_append_slash dir.text.toList name.toList

end Path

namespace FileTree

open Bundler.Path (Inner)
open Node (Entry)

variable {t u : FileTree} {dir : Path}

/-- The places below a directory are its names and those that follow. -/
theorem exists_place (t : FileTree) (dir : Path) : ∃ base, ∀ name, Inner name →
    ∀ ns, t.Denotes (dir.join ⟨name⟩) ns → ns = base ++ Path.splitSlashes name.toList := by
  obtain ⟨front, hfront⟩ := dir.exists_splitSlashes_join
  refine ⟨((t.followFrom dir.isAbsolute front).toOption.map names).getD [], ?_⟩
  rintro name hname _ ⟨s, hslot, hslash, -, rfl⟩
  obtain ⟨-, before, hlast, hparent, -⟩ := slot_eq_ok hslot
  rw [hslash] at hlast
  obtain ⟨hsplit, -⟩ := splitSlashes_of_lastName hlast
  obtain ⟨habs, happ⟩ := hfront name hname
  rw [happ] at hsplit
  -- The last name is the last one of `name`.
  rcases (Path.splitSlashes name.toList).eq_nil_or_concat with hnil | ⟨init, last, hconcat⟩
  · exact absurd hnil (Path.splitSlashes_ne_nil _)
  rw [hconcat, List.concat_eq_append, ← List.append_assoc] at hsplit
  obtain ⟨rfl, hl⟩ := List.append_inj' hsplit rfl
  rw [habs] at hparent
  obtain ⟨mid, hmid, hdown⟩ := exists_of_follow_append hparent
  have hplain : ∀ x ∈ init, Path.Plain x := fun x hx =>
    hname x (by rw [hconcat, List.concat_eq_append]; exact List.mem_append_left _ hx)
  have hmid : t.followFrom dir.isAbsolute front = .ok mid := hmid
  rw [Slot.names, names_of_follow hplain hdown, hmid, hconcat, List.concat_eq_append, hl,
    List.append_assoc]
  rfl

/-- Names that lead straight down lead to the same place only if they are equal. -/
theorem name_eq_of_denotes {name name' : String} (h : Inner name) (h' : Inner name')
    {ns : List String} (hd : t.Denotes (dir.join ⟨name⟩) ns)
    (hd' : t.Denotes (dir.join ⟨name'⟩) ns) : name = name' := by
  obtain ⟨base, hbase⟩ := t.exists_place dir
  have he := (hbase name h ns hd).symm.trans (hbase name' h' ns hd')
  exact String.toList_inj.mp (Path.splitSlashes_inj (List.append_cancel_left he))

theorem Starts.join (h : t.Starts dir) (p : Path) : t.Starts (dir.join p) :=
  h.imp_left fun ha => Path.isAbsolute_join (.inl ha)

/-- What stands in a place stands in a directory. -/
theorem entry?_of_child {parent : List String} {n : String} {e : Entry}
    (h : t.entry? (parent ++ [n]) = some e) : t.entry? parent = some .dir := by
  unfold entry? at h ⊢
  rw [Node.at?_append] at h
  cases hp : t.root.at? parent with
  | none => rw [hp] at h; cases h
  | some node =>
    rw [hp] at h
    cases node with
    | file bytes => cases h
    | dir children => rfl

/-- A place without a directory can be cleared. -/
theorem exists_amends_none {parent : List String} {n : String}
    (h : t.entry? (parent ++ [n]) ≠ some .dir) : ∃ u, t.Amends u (parent ++ [n]) none := by
  cases he : t.entry? (parent ++ [n]) with
  | none => exact ⟨t, rfl, by rw [← he, Function.update_eq_self]⟩
  | some e => exact ⟨_, amends_put (entry?_of_child he) h none nofun⟩

end FileTree

/-! ## Writes beside old staging files -/

namespace Replacement

open FileTree

variable {r : Replacement} {t u v : FileTree}

/-- What holds at a stage holds as if the tree had been without the staging file. -/
def Cleared (r : Replacement) (t : FileTree) (x : Stage × FileTree) : Prop :=
  ∃ t' s, t.entry? s ≠ some .dir ∧ t.Amends t' s none ∧ x.2.Denotes r.staging s ∧ r.Holds t' x

/-- What holds at a stage on the way to success, whatever was there before. -/
def Beside (r : Replacement) (t : FileTree) (x : Stage × FileTree) : Prop :=
  match x.1 with
  | .makeDir .. | .inspect .. | .create => r.Holds t x
  | .fill | .sync | .move | .done => r.Cleared t x
  | .cleanUp _ | .failed _ => True

theorem beside_onward {below : List Path} (h : r.Holds t (.onward below, u)) :
    r.Beside t (.onward below, u) := by
  cases below <;> exact h

theorem beside_demand {p : Path} {below : List Path} (h : r.Holds t (.demand p below, u)) :
    r.Beside t (.demand p below, u) := by
  unfold Stage.demand at h ⊢
  split
  next hp =>
    rw [if_pos hp] at h
    exact beside_onward h
  next hp =>
    rw [if_neg hp] at h
    exact h

theorem beside_start (r : Replacement) (t : FileTree) : r.Beside t (r.start, t) := by
  have h := r.holds_start t
  unfold start at h ⊢
  split at h
  · exact beside_demand h
  · exact h

/-- The move of a staging file takes no directory away. -/
theorem wider_move (htag : '/' ∉ r.tag.toList) (hm : u.rename r.staging r.target = .ok v) :
    u.Wider v := by
  obtain ⟨s, d, bytes, hs, hd, hslash, hspecial, hfile, hdir, hmove⟩ := rename_eq_ok hm
  obtain ⟨hstart, hentry⟩ := hmove (names_ne_staging htag hs hd hslash hspecial)
  refine ⟨hstart, fun ns hns => ?_⟩
  have hnd : ns ≠ d.names := fun he => hdir (he ▸ hns)
  have hne : ns ≠ s.names := by
    rintro rfl
    exact nomatch hfile.symm.trans hns
  rw [hentry, Function.update_of_ne hne, Function.update_of_ne hnd, hns]

section
variable (ht : t.Starts r.target)
include ht

/-- Apart from one place, nothing but directories is new, also if that place was cleared first. -/
theorem Grown.clear (h : r.Grown t u none) {ns : List String} (hdir : u.entry? ns ≠ some .dir)
    {t' u' : FileTree} (ha : t.Amends t' ns none) (ha' : u.Amends u' ns none) :
    r.Grown t' u' none := by
  refine ⟨ha'.start.trans (h.start.trans ha.start.symm), fun ms _ => ?_⟩
  rw [ha.entry, ha'.entry]
  by_cases hms : ms = ns
  · rw [hms, Function.update_self, Function.update_self]
    exact .inl rfl
  · rw [Function.update_of_ne hms, Function.update_of_ne hms]
    have hu := (h.wider nofun).starts ht
    exact (h.elsewhere ms nofun).imp_right fun ⟨h1, h2, h3⟩ => ⟨h1, h2, h3.wider hu (ha'.wider hdir)⟩

theorem cleared_fill (h : r.Cleared t (.fill, u)) (hw : u.writeFile r.staging r.bytes = .ok v) :
    r.Cleared t (.sync, v) := by
  obtain ⟨t', s, hdir, ha, hd, x, s', hs⟩ := h
  have ht' := (ha.wider hdir).starts ht
  have hs' := hs.write ht' hw
  have hwider := hs.narrower.trans hs'.wider
  exact ⟨t', s, hdir, ha, hwider.denotes (starts_staging (hs.starts ht').2) hd, x, s', hs'⟩

variable (htag : '/' ∉ r.tag.toList)
include htag

theorem cleared_create (h : r.Grown t u none) (hc : u.createFile r.staging = .ok v) :
    r.Cleared t (.fill, v) := by
  obtain ⟨s, hs, hdir, hv⟩ := createFile_eq_ok hc
  have hu := (h.wider nofun).starts ht
  have hold : t.entry? s.names ≠ some .dir := fun he => hdir (h.kept nofun he)
  obtain ⟨t', ha⟩ : ∃ t', t.Amends t' s.names none := exists_amends_none hold
  obtain ⟨u', ha'⟩ : ∃ u', u.Amends u' s.names none := exists_amends_none hdir
  have hw := ha'.wider hdir
  obtain ⟨parent, hs', hn⟩ := hw.slot (starts_staging hu) hs
  have hnames : (⟨parent, s.name, s.slash⟩ : Slot).names = s.names := congrArg (· ++ [s.name]) hn
  refine ⟨t', s.names, hold, ha, ?_, u', _, h.clear ht hdir ha ha', hs', ?_, ?_⟩
  · exact (hv.wider hdir).denotes (starts_staging hu) (staging_slot htag hs).2
  · rw [hnames, ha'.entry, Function.update_self]
  · rw [hnames]
    refine ⟨hv.start.trans ha'.start.symm, ?_⟩
    rw [hv.entry, ha'.entry, Function.update_idem]

theorem cleared_move (h : r.Cleared t (.move, u)) (hm : u.rename r.staging r.target = .ok v) :
    r.Cleared t (.done, v) := by
  obtain ⟨t', s, hdir, ha, hd, x, s', hs⟩ := h
  have ht' := (ha.wider hdir).starts ht
  have hw := wider_move htag hm
  exact ⟨t', s, hdir, ha, hw.denotes (starts_staging (hs.starts ht').2) hd, hs.move ht' htag hm⟩

theorem beside_step {stage : Stage} {fate : Fate} (h : r.Beside t (stage, u)) :
    r.Beside t (r.step fate stage u) := by
  cases stage with
  | makeDir p again below =>
    have hnext : r.Holds t (r.step fate (.makeDir p again below) u) := holds_makeDir ht fate h.1 h.2
    revert hnext
    rw [step]
    split
    · exact beside_onward
    · split
      · exact id
      · split
        · exact beside_demand
        · exact fun _ => trivial
    · exact id
  | inspect p e below =>
    rw [step]
    split
    · exact beside_onward (holds_onward h.1 fun q hq => h.2 q (List.mem_cons_of_mem _ hq))
    · trivial
  | create =>
    rw [step]
    split
    next hc => exact cleared_create ht htag h (outcome_eq_ok hc)
    next => trivial
  | fill =>
    cases fate with
    | tried =>
      rw [step]
      · split
        next hw => exact cleared_fill ht h hw
        next => trivial
      · intro n e he
        cases he
    | refused e => trivial
    | stopped n e => trivial
  | sync =>
    rw [step]
    split
    · exact h
    · trivial
  | move =>
    rw [step]
    split
    next hm => exact cleared_move ht htag h (outcome_eq_ok hm)
    next => trivial
  | cleanUp e => trivial
  | done => exact h
  | failed e => trivial

theorem Reaches.beside {x : Stage × FileTree} (h : r.Reaches t x) : r.Beside t x := by
  induction h with
  | start => exact r.beside_start t
  | step _ fate _ ih => exact beside_step ht htag ih

end

/-- Where a write has changed a tree: the target has the bytes, and no file but one in the places of
the target and of the staging file is other than it was. -/
structure Lands (r : Replacement) (t u : FileTree) (d s : List String) : Prop where
  target : u.Denotes r.target d
  staging : u.Denotes r.staging s
  wider : t.Wider u
  content : u.entry? d = some (.file r.bytes)
  kept : ∀ ns bytes, t.entry? ns = some (.file bytes) → ns ≠ d → ns ≠ s →
    u.entry? ns = some (.file bytes)

theorem exists_lands (ht : t.Starts r.target) (htag : '/' ∉ r.tag.toList)
    (h : t.replace r.target r.bytes r.tag = (u, .ok ())) : ∃ d s, r.Lands t u d s := by
  obtain ⟨stage, u', hreach, ⟨rfl, he⟩ | ⟨e, -, he⟩⟩ := r.exists_replace t
  · obtain ⟨rfl, -⟩ := Prod.mk.inj (he.symm.trans h)
    obtain ⟨t', s, hdir, ha, hs, d, hd, hold, hnew, hg⟩ := hreach.beside ht htag
    refine ⟨d, s, hd, hs, ?_, hnew, fun ns bytes hns hnd hne => ?_⟩
    · exact (ha.wider hdir).trans (hg.wider (by rintro _ ⟨⟩; exact hold))
    · refine hg.kept (fun h => hnd (Option.some.inj h).symm) ?_
      rw [ha.entry, Function.update_of_ne hne, hns]
  · exact nomatch (Prod.mk.inj (he.symm.trans h)).2

end Replacement

/-! ## Files one after the other -/

namespace BuildResult

open FileTree Bundler.Path

/-- How a file is written below a directory. -/
def replacement (dir : Path) (f : OutputFile) : Replacement :=
  ⟨dir.join ⟨f.fileName⟩, Text.Utf8.encode f.content, "1-0"⟩

/-- What is in a place after some files were written: the content of one that leads there, or another
thing, where one of them was staged. -/
def Left (dir : Path) (fs : List OutputFile) (u : FileTree) (ns : List String) : Prop :=
  ∃ f ∈ fs, u.Denotes (dir.join ⟨f.fileName⟩) ns ∧
      u.entry? ns = some (.file (Text.Utf8.encode f.content)) ∨
    u.Denotes (replacement dir f).staging ns

variable {t u : FileTree} {dir : Path} {fs : List OutputFile} {f : OutputFile}

theorem Left.cons {ns : List String} (h : Left dir fs u ns) : Left dir (f :: fs) u ns := by
  obtain ⟨g, hg, h⟩ := h
  exact ⟨g, List.mem_cons_of_mem _ hg, h⟩

theorem writeFiles_cons_ok (h : writeFiles dir (f :: fs) t = (u, .ok ())) : ∃ t',
    t.replace (dir.join ⟨f.fileName⟩) (Text.Utf8.encode f.content) "1-0" = (t', .ok ()) ∧
      writeFiles dir fs t' = (u, .ok ()) := by
  rw [writeFiles] at h
  generalize hr : t.replace (dir.join ⟨f.fileName⟩) (Text.Utf8.encode f.content) "1-0" = x at h
  obtain ⟨t', _ | ⟨⟨⟩⟩⟩ := x
  · cases h
  · exact ⟨t', rfl, h⟩

/-- What becomes of the files that are there, and of those that are written. -/
theorem writeFiles_spec (ht : t.Starts dir) (h : writeFiles dir fs t = (u, .ok ())) :
    t.Wider u ∧
      (∀ ns bytes, t.entry? ns = some (.file bytes) →
        u.entry? ns = some (.file bytes) ∨ Left dir fs u ns) ∧
      ∀ f ∈ fs, ∃ ns, u.Denotes (dir.join ⟨f.fileName⟩) ns ∧ Left dir fs u ns := by
  induction fs generalizing t with
  | nil =>
    cases h
    exact ⟨.refl _, fun _ _ he => .inl he, fun _ hf => nomatch hf⟩
  | cons f fs ih =>
    obtain ⟨t', hr, hrest⟩ := writeFiles_cons_ok h
    have htarget (v : FileTree) (hv : v.Starts dir) : v.Starts (replacement dir f).target :=
      hv.join ⟨f.fileName⟩
    obtain ⟨d, s, hl⟩ := Replacement.exists_lands (htarget t ht)
      (show '/' ∉ "1-0".toList by decide) hr
    have ht' := hl.wider.starts ht
    obtain ⟨hw', hkept, hplaces⟩ := ih ht' hrest
    have hd : u.Denotes (dir.join ⟨f.fileName⟩) d := hw'.denotes (htarget t' ht') hl.target
    have hs : u.Denotes (replacement dir f).staging s :=
      hw'.denotes (Replacement.starts_staging (htarget t' ht')) hl.staging
    -- The place of the first file has its content, or what a later one left there.
    have hfirst : Left dir (f :: fs) u d := by
      rcases hkept d _ hl.content with he | he
      · exact ⟨f, List.mem_cons_self, .inl ⟨hd, he⟩⟩
      · exact he.cons
    refine ⟨hl.wider.trans hw', fun ns bytes he => ?_, fun g hg => ?_⟩
    · by_cases hnd : ns = d
      · exact .inr (hnd ▸ hfirst)
      by_cases hns : ns = s
      · exact .inr ⟨f, List.mem_cons_self, .inr (hns ▸ hs)⟩
      exact (hkept ns bytes (hl.kept ns bytes he hnd hns)).imp_right .cons
    · rcases List.mem_cons.mp hg with rfl | hg
      · exact ⟨d, hd, hfirst⟩
      · obtain ⟨ns, hns, hleft⟩ := hplaces g hg
        exact ⟨ns, hns, hleft.cons⟩

/-- What the path of a file `f` comes to through a file `g`, when both were written. -/
inductive Ends (dir : Path) (u : FileTree) (f g : OutputFile) : Prop
  /-- It reads as `g`, which has its name. -/
  | name (hname : g.fileName = f.fileName)
      (hread : u.read (dir.join ⟨f.fileName⟩) = .ok (Text.Utf8.encode g.content))
  /-- It reads as `g`, which has another name that leads to the same place. One of the names is not
  made of plain names only. -/
  | place {ns : List String} (hname : ¬ (Inner g.fileName ∧ Inner f.fileName))
      (hf : u.Denotes (dir.join ⟨f.fileName⟩) ns) (hg : u.Denotes (dir.join ⟨g.fileName⟩) ns)
      (hread : u.read (dir.join ⟨f.fileName⟩) = .ok (Text.Utf8.encode g.content))
  /-- It leads to where `g` was staged. -/
  | staging {ns : List String} (hf : u.Denotes (dir.join ⟨f.fileName⟩) ns)
      (hg : u.Denotes (replacement dir g).staging ns)

/-- What every file comes to once all are written. -/
theorem writeFiles_ends (ht : t.Starts dir) (h : writeFiles dir fs t = (u, .ok ())) :
    ∀ f ∈ fs, ∃ g ∈ fs, Ends dir u f g := by
  intro f hf
  obtain ⟨ns, hd, g, hg, ⟨hdg, he⟩ | hs⟩ := (writeFiles_spec ht h).2.2 f hf
  · refine ⟨g, hg, ?_⟩
    by_cases hplain : Inner g.fileName ∧ Inner f.fileName
    · exact .name (name_eq_of_denotes hplain.1 hplain.2 hdg hd) (hd.read he)
    · exact .place hplain hd hdg (hd.read he)
  · exact ⟨g, hg, .staging hd hs⟩

/-- A file with a name that leads straight down, and is not one of a staging file. -/
structure Writable (f : OutputFile) : Prop where
  inner : Inner f.fileName
  name : ∀ n ∈ (splitSlashes f.fileName.toList).getLast?, ¬ Text.endsWith n ".partial" = true

theorem Ends.of_writable {g : OutputFile} (h : Ends dir u f g) (hf : Writable f) (hg : Writable g) :
    g.fileName = f.fileName ∧
      u.read (dir.join ⟨f.fileName⟩) = .ok (Text.Utf8.encode g.content) := by
  cases h with
  | name hname hread => exact ⟨hname, hread⟩
  | place hstray => exact absurd ⟨hg.inner, hf.inner⟩ hstray
  | @staging ns hd hs =>
    obtain ⟨base, hbase⟩ := u.exists_place dir
    obtain ⟨s, hslot, -, -, rfl⟩ := hs
    have hlast : (splitSlashes f.fileName.toList).getLast? =
        some (replacement dir g).stagingName := by
      have hn := congrArg List.getLast? (hbase f.fileName hf.inner _ hd)
      rw [List.getLast?_append_of_ne_nil _ (splitSlashes_ne_nil _), Replacement.getLast?_names,
        (Replacement.staging_slot (show '/' ∉ "1-0".toList by decide) hslot).1] at hn
      exact hn.symm
    refine absurd (List.isSuffixOf_iff_suffix.mpr ?_) (hf.name _ hlast)
    rw [Replacement.stagingName, String.toList_append]
    exact List.suffix_append _ _

end BuildResult

end Bundler
