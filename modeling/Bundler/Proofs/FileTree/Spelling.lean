import Bundler.FileTree.Replace
import Bundler.Proofs.FileTree.Directories

/-!
# How places are spelled

A path that denotes a place is turned into the path of its names as long as something stands there,
and stays as it is spelled when nothing does. The path of the names of a file is itself a path that
the file is read from, and it is not longer than any absolute path that leads to the file.
-/

namespace Bundler

theorem Text.mem_of_mem_pieces {sep c : Char} {cs p : List Char} (h : p ∈ pieces sep cs)
    (hc : c ∈ p) : c ∈ cs := by
  induction cs generalizing p with
  | nil =>
    rw [List.mem_singleton.mp h] at hc
    exact hc
  | cons d cs ih =>
    rw [pieces] at h
    split at h
    next =>
      rcases List.mem_cons.mp h with rfl | h
      · cases hc
      · exact List.mem_cons_of_mem _ (ih h hc)
    next =>
      split at h
      next =>
        rw [List.mem_singleton.mp h] at hc
        exact List.mem_singleton.mp hc ▸ List.mem_cons_self
      next q qs hq =>
        rcases List.mem_cons.mp h with rfl | h
        · refine List.mem_cons.mpr ((List.mem_cons.mp hc).imp_right fun hc => ?_)
          exact ih (hq ▸ List.mem_cons_self) hc
        · exact List.mem_cons_of_mem _ (ih (hq ▸ List.mem_cons_of_mem _ h) hc)

/-! ## The length of a path -/

namespace Path

theorem mem_of_mem_splitSlashes {cs : List Char} {s : String} (hs : s ∈ splitSlashes cs) {c : Char}
    (hc : c ∈ s.toList) : c ∈ cs := by
  obtain ⟨p, hp, rfl⟩ := List.mem_map.mp hs
  rw [String.toList_ofList] at hc
  exact Text.mem_of_mem_pieces hp hc

/-- How many bytes names take up in a path, each with a slash. -/
def span : List String → Nat
  | [] => 0
  | s :: names => Text.byteLength s + 1 + span names

theorem span_append (a b : List String) : span (a ++ b) = span a + span b := by
  induction a with
  | nil => exact (Nat.zero_add _).symm
  | cons s a ih => rw [List.cons_append, span, span, ih, ← Nat.add_assoc]

theorem byteLength_append (a b : String) :
    Text.byteLength (a ++ b) = Text.byteLength a + Text.byteLength b := String.utf8ByteSize_append

theorem byteLength_intercalate {names : List String} (h : names ≠ []) :
    Text.byteLength ("/".intercalate names) + 1 = span names := by
  induction names with
  | nil => exact absurd rfl h
  | cons s names ih =>
    cases names with
    | nil => simp [span]
    | cons s' names =>
      have hslash : Text.byteLength "/" = 1 := by decide
      have hrest := ih (List.cons_ne_nil _ _)
      rw [String.intercalate_cons_cons, byteLength_append, byteLength_append, hslash, Nat.add_assoc,
        hrest]
      rfl

theorem byteLength_ofNames {names : List String} (h : names ≠ []) :
    Text.byteLength (ofNames names).text = span names := by
  have hslash : Text.byteLength "/" = 1 := by decide
  show Text.byteLength ("/" ++ "/".intercalate names) = _
  rw [byteLength_append, ← byteLength_intercalate h, hslash, Nat.add_comm]

theorem splitSlashes_ne_nil (cs : List Char) : splitSlashes cs ≠ [] := by
  unfold splitSlashes
  rw [Text.pieces_eq_splitOn]
  simp

theorem span_splitSlashes (s : String) :
    span (splitSlashes s.toList) = Text.byteLength s + 1 := by
  have hs : "/".intercalate (splitSlashes s.toList) = s :=
    String.toList_inj.mp (String.toList_intercalate.trans (intercalate_splitSlashes _))
  rw [← byteLength_intercalate (splitSlashes_ne_nil _), hs]

theorem mem_ofNames {names : List String} {c : Char} (h : c ∈ (ofNames names).text.toList) :
    c = '/' ∨ ∃ s ∈ names, c ∈ s.toList := by
  rw [toList_ofNames, List.mem_cons] at h
  refine h.elim .inl fun h => ?_
  induction names with
  | nil => cases h
  | cons s names ih =>
    cases names with
    | nil =>
      rw [List.map_singleton, List.intercalate_singleton] at h
      exact .inr ⟨s, List.mem_cons_self, h⟩
    | cons s' names =>
      rw [List.map_cons, List.map_cons, List.intercalate_cons_cons] at h
      rcases List.mem_append.mp h with h | h
      · rcases List.mem_append.mp h with h | h
        · exact .inr ⟨s, List.mem_cons_self, h⟩
        · exact .inl (List.mem_singleton.mp h)
      · obtain h | ⟨x, hx, hc⟩ := ih (.inr h) h
        · exact .inl h
        · exact .inr ⟨x, List.mem_cons_of_mem _ hx, hc⟩

/-- An absolute path is split into an empty name and others. -/
theorem splitSlashes_of_isAbsolute {p : Path} (h : p.isAbsolute = true) :
    ∃ names, splitSlashes p.text.toList = "" :: names := by
  obtain ⟨cs, hcs⟩ := List.isPrefixOf_iff_prefix.mp h
  refine ⟨splitSlashes cs, ?_⟩
  rw [← hcs]
  rfl

end Path

namespace FileTree

variable {t : FileTree}

/-! ## Following names -/

theorem Stands.follow {segments : List String} {trail out : Trail} (ht : t.Stands trail)
    (h : t.follow segments trail = .ok out) : t.Stands out := by
  have hf := @SameShape.follow t t (.refl t) segments trail trail ht ht rfl
  rw [h] at hf
  cases hf with
  | ok h1 _ _ => exact h1

/-- Names that are found on a way are on the way already, or are names that are followed, and not
too long. -/
theorem mem_of_follow {segments : List String} {trail out : Trail}
    (h : t.follow segments trail = .ok out) {e : String × Node} (he : e ∈ out) :
    e ∈ trail ∨ e.1 ∈ segments ∧ Text.byteLength e.1 ≤ nameLimit := by
  induction segments generalizing trail with
  | nil =>
    cases h
    exact .inl he
  | cons s segments ih =>
    have hrest : ∀ {mid}, t.follow segments mid = .ok out → (e ∈ mid → e ∈ trail) →
        e ∈ trail ∨ e.1 ∈ s :: segments ∧ Text.byteLength e.1 ≤ nameLimit := fun hm hin =>
      (ih hm).imp hin fun hs => ⟨List.mem_cons_of_mem _ hs.1, hs.2⟩
    rw [follow] at h
    split at h
    next => cases h
    next =>
      split at h
      next => exact hrest h id
      next =>
        split at h
        next => exact hrest h List.mem_of_mem_tail
        next =>
          split at h
          next => cases h
          next hlimit =>
            split at h
            next =>
              rcases ih h with hm | hm
              · rcases List.mem_cons.mp hm with rfl | hm
                · exact .inr ⟨List.mem_cons_self, Nat.le_of_not_lt hlimit⟩
                · exact .inl hm
              · exact .inr ⟨List.mem_cons_of_mem _ hm.1, hm.2⟩
            next => cases h

theorem span_names_tail_le (trail : Trail) : Path.span (names trail.tail) ≤ Path.span (names trail) := by
  cases trail with
  | nil => exact Nat.le_refl _
  | cons e trail =>
    rw [names_cons, Path.span_append, List.tail_cons]
    exact Nat.le_add_right _ _

/-- The names of a place take up no more than those that were followed to it. -/
theorem span_of_follow {segments : List String} {trail out : Trail}
    (h : t.follow segments trail = .ok out) :
    Path.span (names out) ≤ Path.span (names trail) + Path.span segments := by
  induction segments generalizing trail with
  | nil =>
    cases h
    exact Nat.le_refl _
  | cons s segments ih =>
    have hcons : Path.span (s :: segments) = Path.span [s] + Path.span segments :=
      Path.span_append [s] segments
    rw [follow] at h
    split at h
    next => cases h
    next =>
      split at h
      next =>
        have := ih h
        omega
      next =>
        split at h
        next =>
          have := ih h
          have := span_names_tail_le trail
          omega
        next =>
          split at h
          next => cases h
          next =>
            split at h
            next =>
              have hnext := ih h
              rw [names_cons, Path.span_append] at hnext
              dsimp only at hnext
              omega
            next => cases h

/-- Plain names that are not too long are followed to what stands at their end. -/
theorem exists_follow {ns : List String} {trail : Trail} {node : Node}
    (hn : ∀ s ∈ ns, Path.Plain s ∧ Text.byteLength s ≤ nameLimit)
    (h : (t.here trail).at? ns = some node) :
    ∃ out, t.follow ns trail = .ok out ∧ t.here out = node := by
  induction ns generalizing trail with
  | nil => exact ⟨trail, rfl, Option.some.inj h⟩
  | cons s ns ih =>
    obtain ⟨hs, hlimit⟩ := hn s List.mem_cons_self
    obtain ⟨c, hc, hat⟩ := Option.bind_eq_some_iff.mp h
    have hnext : (t.here ((s, c) :: trail)).at? ns = some node := hat
    obtain ⟨out, hout, hhere⟩ := ih (fun x hx => hn x (List.mem_cons_of_mem _ hx)) hnext
    refine ⟨out, ?_, hhere⟩
    rw [follow]
    cases hd : t.here trail with
    | file bytes => rw [hd] at hc; cases hc
    | dir children =>
      rw [hd] at hc
      have hc : Table.find s children = some c := hc
      dsimp only
      rw [hs.void, if_neg (by decide), if_neg hs.up, if_neg (Nat.not_lt.mpr hlimit), hc]
      exact hout

/-! ## The names of a file -/

/-- Names that lead to a file, and of which a path can be made. -/
structure Leads (t : FileTree) (ns : List String) (bytes : Bytes) : Prop where
  ne_nil : ns ≠ []
  plain : ∀ s ∈ ns, Path.Plain s
  short : ∀ s ∈ ns, Text.byteLength s ≤ nameLimit
  text : ∀ s ∈ ns, '\x00' ∉ s.toList
  file : t.root.at? ns = some (.file bytes)

/-- The names of the directory where relative paths start can stand in paths. -/
def Named (t : FileTree) : Prop := ∀ s ∈ t.start, '/' ∉ s.toList ∧ '\x00' ∉ s.toList

theorem checkText_of_locate {p : Path} {trail : Trail} (h : t.locate p = .ok trail) :
    '\x00' ∉ p.text.toList ∧ Text.byteLength p.text < pathLimit := by
  unfold locate at h
  cases hc : checkText p with
  | error e =>
    rw [hc] at h
    cases h
  | ok u =>
    unfold checkText at hc
    split at hc
    next => cases hc
    next hnul =>
      split at hc
      next => cases hc
      next =>
        split at hc
        next => cases hc
        next hlong => exact ⟨by simpa using hnul, Nat.lt_of_not_le hlong⟩

theorem mem_of_startTrail {e : String × Node} (h : e ∈ t.startTrail) :
    e.1 ∈ t.start ∧ Text.byteLength e.1 ≤ nameLimit := by
  unfold startTrail at h
  split at h
  next hf => exact (mem_of_follow hf h).resolve_left fun h => nomatch h
  next => cases h

theorem stands_startTrail (t : FileTree) : t.Stands t.startTrail := (SameShape.refl t).startTrail.1

theorem stands_from (t : FileTree) (absolute : Bool) :
    t.Stands (if absolute then [] else t.startTrail) := by
  split
  · trivial
  · exact t.stands_startTrail

/-- A path that leads to a file ends in the name of the file. -/
theorem last_of_locate {p : Path} {trail : Trail} (h : t.locate p = .ok trail)
    (hfile : (t.here trail).isFile = true) : ∃ init last mid,
      Path.splitSlashes p.text.toList = init ++ [last] ∧ t.followFrom p.isAbsolute init = .ok mid ∧
      t.follow [last] mid = .ok trail ∧ Path.isVoid last = false ∧ last ≠ ".." := by
  obtain ⟨-, hfollow⟩ := follow_of_locate h
  rcases (Path.splitSlashes p.text.toList).eq_nil_or_concat with hnil | ⟨init, last, hlast⟩
  · exact absurd hnil (Path.splitSlashes_ne_nil _)
  rw [List.concat_eq_append] at hlast
  rw [hlast] at hfollow
  obtain ⟨mid, hmid, hout⟩ := exists_of_follow_append hfollow
  have hplain : ¬(Path.isVoid last = true ∨ last = "..") := fun hv => by
    rw [isFile_of_follow_singleton ((t.stands_from _).follow hmid) hv hout] at hfile
    cases hfile
  rw [not_or, Bool.not_eq_true] at hplain
  exact ⟨init, last, mid, hlast, hmid, hout, hplain⟩

/-- No file is at the root of a tree. -/
theorem names_ne_nil_of_locate {p : Path} {trail : Trail} (h : t.locate p = .ok trail)
    (hfile : (t.here trail).isFile = true) : names trail ≠ [] := by
  obtain ⟨init, last, mid, -, -, hout, hvoid, hup⟩ := last_of_locate h hfile
  rw [names_of_follow_singleton hvoid hup hout]
  simp

/-- What a located file is called. An absolute path to it is at least as long as its names. -/
theorem leads_of_locate (ht : t.Named) {p : Path} {trail : Trail} {bytes : Bytes}
    (h : t.locate p = .ok trail) (hfile : t.here trail = .file bytes) :
    t.Leads (names trail) bytes ∧
      (p.isAbsolute = true → Text.byteLength (Path.ofNames (names trail)).text < pathLimit) := by
  obtain ⟨hnul, hlimit⟩ := checkText_of_locate h
  obtain ⟨-, hfollow⟩ := follow_of_locate h
  have hne := names_ne_nil_of_locate h (by rw [hfile]; rfl)
  have hmem : ∀ s ∈ names trail, ∃ e ∈ trail, e.1 = s := by
    intro s hs
    obtain ⟨e, he, rfl⟩ := List.mem_map.mp (List.mem_reverse.mp hs)
    exact ⟨e, he, rfl⟩
  have hfound : ∀ e ∈ trail, '\x00' ∉ e.1.toList ∧ Text.byteLength e.1 ≤ nameLimit := by
    intro e he
    rcases mem_of_follow hfollow he with hstart | ⟨hseg, hle⟩
    · by_cases ha : p.isAbsolute = true
      · rw [if_pos ha] at hstart
        cases hstart
      · rw [if_neg ha] at hstart
        obtain ⟨hs, hle⟩ := mem_of_startTrail hstart
        exact ⟨(ht _ hs).2, hle⟩
    · exact ⟨fun hc => hnul (Path.mem_of_mem_splitSlashes hseg hc), hle⟩
  refine ⟨⟨hne, fun s hs => ?_, fun s hs => ?_, fun s hs => ?_, ?_⟩, fun ha => ?_⟩
  · obtain ⟨e, he, rfl⟩ := hmem s hs
    exact plain_of_locate (fun s hs => (ht s hs).1) h e he
  · obtain ⟨e, he, rfl⟩ := hmem s hs
    exact (hfound e he).2
  · obtain ⟨e, he, rfl⟩ := hmem s hs
    exact (hfound e he).1
  · exact hfile ▸ at?_of_stands (stands_of_locate h)
  · obtain ⟨segments, hseg⟩ := Path.splitSlashes_of_isAbsolute ha
    have hspan := Path.span_splitSlashes p.text
    rw [hseg, show Path.span ("" :: segments) = 1 + Path.span segments from
      Path.span_append [""] segments] at hspan
    unfold followFrom at hfollow
    rw [ha, hseg] at hfollow
    have hle := span_of_follow (follow_void hfollow)
    rw [Path.byteLength_ofNames hne]
    rw [if_pos rfl] at hle
    have : Path.span (names []) = 0 := rfl
    omega

/-- A file is read from the path of its names. -/
theorem Leads.read {ns : List String} {bytes : Bytes} (h : t.Leads ns bytes)
    (hl : Text.byteLength (Path.ofNames ns).text < pathLimit) :
    t.read (.ofNames ns) = .ok bytes := by
  have hcheck : checkText (.ofNames ns) = .ok () := by
    have hnul : '\x00' ∉ (Path.ofNames ns).text.toList := by
      intro hc
      obtain ⟨s, hs, hc⟩ := (Path.mem_ofNames hc).resolve_left (by decide)
      exact h.text s hs hc
    have hempty : (Path.ofNames ns).isEmpty = false := by
      refine eq_false_of_ne_true fun he => ?_
      have htext := Path.toList_ofNames ns
      rw [String.isEmpty_iff.mp he] at htext
      cases htext
    unfold checkText
    rw [if_neg (by simpa using hnul), hempty, if_neg (by decide), if_neg (Nat.not_le.mpr hl)]
  have hroot : (t.here []).at? ns = some (.file bytes) := h.file
  obtain ⟨out, hout, hhere⟩ := exists_follow (fun s hs => ⟨h.plain s hs, h.short s hs⟩) hroot
  have hlocate : t.locate (.ofNames ns) = .ok out := by
    unfold locate
    rw [hcheck]
    show t.followFrom _ _ = _
    rw [Path.isAbsolute_ofNames, splitSlashes_ofNames (fun s hs => (h.plain s hs).slash) h.ne_nil]
    obtain ⟨s, ns, rfl⟩ := List.exists_cons_of_ne_nil h.ne_nil
    obtain ⟨c, hc, -⟩ := Option.bind_eq_some_iff.mp h.file
    show t.follow _ [] = _
    rw [follow]
    cases hroot : t.here [] with
    | file bytes => rw [show t.root = _ from hroot] at hc; cases hc
    | dir children => exact hout
  rw [read_eq, hlocate]
  show contentOf (t.here out) = _
  rw [hhere]
  rfl

/-! ## Spellings of a place -/

/-- A path whose last name is the last one of some names, and that leads through directories to the
place above it. What stands at the place does not matter. -/
def Denotes (t : FileTree) (p : Path) (ns : List String) : Prop :=
  ∃ s, t.slot p = .ok s ∧ s.slash = false ∧ s.isSpecial = false ∧ s.names = ns

theorem slot_eq_ok {p : Path} {s : Slot} (h : t.slot p = .ok s) :
    checkText p = .ok () ∧ ∃ before, lastName p = (before, s.name, s.slash) ∧
      t.followFrom p.isAbsolute before = .ok s.parent ∧ (t.here s.parent).isFile = false ∧
      Text.byteLength s.name ≤ nameLimit := by
  unfold slot at h
  cases hc : checkText p with
  | error e =>
    rw [hc] at h
    cases h
  | ok u =>
    obtain ⟨before, name, slash, hlast⟩ : ∃ before name slash, lastName p = (before, name, slash) :=
      ⟨_, _, _, rfl⟩
    rw [hc, hlast] at h
    dsimp only [bind, Except.bind] at h
    cases hparent : t.followFrom p.isAbsolute before with
    | error e =>
      rw [hparent] at h
      cases h
    | ok parent =>
      rw [hparent] at h
      dsimp only at h
      split at h
      next => cases h
      next hdir =>
        split at h
        next => cases h
        next hlimit =>
          cases h
          exact ⟨rfl, before, hlast, hparent, by rw [hdir]; rfl, Nat.le_of_not_lt hlimit⟩

theorem Slot.stands {p : Path} {s : Slot} (h : t.slot p = .ok s) : t.Stands s.parent := by
  obtain ⟨-, before, -, hparent, -⟩ := slot_eq_ok h
  exact (t.stands_from _).follow hparent

/-- Without a slash at its end, a path is split into what stands before its last name and that. -/
theorem splitSlashes_of_lastName {p : Path} {before : List String} {name : String}
    (h : lastName p = (before, name, false)) :
    Path.splitSlashes p.text.toList = before ++ [name] ∧ name ≠ "" := by
  unfold lastName at h
  dsimp only at h
  split at h
  next => cases h
  next last rest hdrop =>
    obtain ⟨rfl, rfl, hslash⟩ : rest.reverse = before ∧ last = name ∧
        (Path.splitSlashes p.text.toList).getLast? ≠ some "" := by
      simpa using h
    rcases (Path.splitSlashes p.text.toList).eq_nil_or_concat with hnil | ⟨init, x, hconcat⟩
    · exact absurd hnil (Path.splitSlashes_ne_nil _)
    · -- Nothing is dropped at the end.
      rw [hconcat, List.concat_eq_append] at hdrop hslash ⊢
      have hx : x ≠ "" := by simpa using hslash
      rw [List.reverse_append, List.reverse_singleton, List.singleton_append,
        List.dropWhile_cons_of_neg (by simpa using hx)] at hdrop
      obtain ⟨rfl, rfl⟩ := List.cons.inj hdrop
      exact ⟨by rw [List.reverse_reverse], hx⟩

/-- A path that denotes a place leads there if something stands there, and nowhere if not. -/
theorem Denotes.locate {p : Path} {ns : List String} (h : t.Denotes p ns) :
    match t.root.at? ns with
    | some _ => ∃ trail, t.locate p = .ok trail ∧ names trail = ns
    | none => t.locate p = .error .notFound := by
  obtain ⟨s, hslot, hslash, hspecial, rfl⟩ := h
  obtain ⟨hcheck, before, hlast, hparent, hdir, hlimit⟩ := slot_eq_ok hslot
  rw [hslash] at hlast
  obtain ⟨hsplit, hne⟩ := splitSlashes_of_lastName hlast
  have hat : t.root.at? s.names = (t.here s.parent).child? s.name := by
    unfold Slot.names
    rw [Node.at?_append, at?_of_stands (Slot.stands hslot)]
    show ((t.here s.parent).child? s.name).bind some = _
    cases (t.here s.parent).child? s.name <;> rfl
  have hlocate : t.locate p = t.follow [s.name] s.parent := by
    unfold FileTree.locate
    rw [hcheck, hsplit]
    unfold followFrom at hparent
    show t.followFrom _ _ = _
    unfold followFrom
    rw [follow_append, hparent]
    rfl
  have hvoid : Path.isVoid s.name = false ∧ s.name ≠ ".." := by
    unfold Slot.isSpecial at hspecial
    simp only [Bool.or_eq_false_iff, decide_eq_false_iff_not] at hspecial
    exact ⟨by simp [Path.isVoid, hne, hspecial.1.1], hspecial.1.2⟩
  rw [hat, hlocate, follow]
  cases hd : t.here s.parent with
  | file bytes => rw [hd] at hdir; cases hdir
  | dir children =>
    dsimp only [Node.child?]
    rw [hvoid.1, if_neg (by decide), if_neg hvoid.2, if_neg (Nat.not_lt.mpr hlimit)]
    cases hfind : Table.find s.name children with
    | some node => exact ⟨_, rfl, names_cons _ _⟩
    | none => rfl

theorem Denotes.canonical {p : Path} {ns : List String} (h : t.Denotes p ns) :
    (t.canonical p).toOption.getD p = if (t.root.at? ns).isSome then .ofNames ns else p := by
  have hl := h.locate
  unfold FileTree.canonical
  cases hat : t.root.at? ns with
  | some node =>
    rw [hat] at hl
    obtain ⟨trail, hl, hn⟩ := hl
    rw [hl, ← hn]
    rfl
  | none =>
    rw [hat] at hl
    rw [show t.locate p = _ from hl]
    rfl

/-- A path of plain names stays as it is, whether something stands there or not. -/
theorem canonical_ofNames {ns : List String} (hn : ∀ s ∈ ns, Path.Plain s) :
    (t.canonical (.ofNames ns)).toOption.getD (.ofNames ns) = .ofNames ns := by
  unfold FileTree.canonical
  cases hl : t.locate (.ofNames ns) with
  | error e => rfl
  | ok trail => exact congrArg Path.ofNames (names_of_locate_ofNames hn hl)

end FileTree

end Bundler
