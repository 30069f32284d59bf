import Bundler.Load
import Bundler.Proofs.Resolve.FirstFile
import Bundler.Proofs.Session.Noticed

/-!
# What is found is what is loaded

A look-up ends at the path of a file, an id is made of it, and whoever has the id takes the path out
of it again: the loader, the look-ups of its imports, and the index of the graph. They get the path
that was found unless it has a `?` in it.
-/

namespace Bundler

namespace Lookup

variable {l : Lookup}

theorem isAbsolute_of_mem_offers {dir t : Path} {subpath : Option String}
    (hd : dir.isAbsolute = true) (h : t ∈ l.offers dir subpath) : t.isAbsolute = true := by
  unfold offers at h
  split at h
  next =>
    obtain ⟨entry, -, rfl⟩ := List.mem_map.mp h
    exact Path.isAbsolute_normalize (Path.isAbsolute_join (.inl hd))
  next => cases h

theorem isAbsolute_of_mem_plainCandidates {t c : Path} (ht : t.isAbsolute = true)
    (h : c ∈ l.plainCandidates t) : c.isAbsolute = true := by
  unfold plainCandidates at h
  rcases List.mem_append.mp h with h | h
  · rcases List.mem_cons.mp h with rfl | h
    · exact ht
    · obtain ⟨ext, -, rfl⟩ := List.mem_map.mp h
      exact Path.isAbsolute_append ht ext
  · split at h
    next =>
      obtain ⟨ext, -, rfl⟩ := List.mem_map.mp h
      exact Path.isAbsolute_join (.inl ht)
    next => cases h

theorem isAbsolute_of_mem_targets {dir t : Path} {request : String}
    (hd : dir.isAbsolute = true ∨ Path.isAbsolute ⟨request⟩ = true)
    (h : t ∈ l.targets dir request) : t.isAbsolute = true := by
  unfold targets at h
  split at h
  next => cases h
  next =>
    split at h
    next =>
      rw [List.mem_singleton.mp h]
      exact Path.isAbsolute_normalize (Path.isAbsolute_join hd)
    next =>
      split at h
      next hr =>
        rw [List.mem_singleton.mp h]
        exact hr
      next hr =>
        split at h
        next => cases h
        next =>
          obtain ⟨above, ha, h⟩ := List.mem_flatMap.mp h
          have hpackage := fun name => Path.isAbsolute_join (q := name)
            (.inl (Path.isAbsolute_join (q := ⟨"node_modules"⟩)
              (.inl (Path.isAbsolute_of_mem_ancestry (hd.resolve_right hr) ha))))
          unfold packageTargets at h
          dsimp only at h
          split at h
          next =>
            rcases List.mem_append.mp h with h | h
            · exact isAbsolute_of_mem_offers (hpackage _) h
            · rw [List.mem_singleton.mp h]
              split
              next => exact Path.isAbsolute_join (.inl (hpackage _))
              next => exact hpackage _
          next => cases h

/-- What a search among absolute targets ends at is absolute. -/
theorem Settles.isAbsolute {ts : List Path} {c : Path} (h : l.Settles ts (some c))
    (ht : ∀ t ∈ ts, t.isAbsolute = true) : c.isAbsolute = true := by
  generalize hr : some c = r at h
  induction h with
  | vain => cases hr
  | found ts h =>
    cases hr
    exact isAbsolute_of_mem_plainCandidates (ht _ List.mem_cons_self) (List.mem_of_find?_eq_some h)
  | next h hs ih =>
    refine ih (fun t hmem => ?_) hr
    rcases List.mem_append.mp hmem with hmem | hmem
    · unfold leadsTo at hmem
      split at hmem
      next => exact isAbsolute_of_mem_offers (ht _ List.mem_cons_self) hmem
      next => cases hmem
    · exact ht t (List.mem_cons_of_mem _ hmem)

/-- A look-up ends at the path of the names of a file. -/
theorem leads_of_find (hn : l.files.Named) {dir p : Path} {request : String}
    (h : l.find dir request = .ok p) : ∃ names bytes, p = .ofNames names ∧
      l.files.Leads names bytes ∧ (dir.isAbsolute = true ∨ Path.isAbsolute ⟨request⟩ = true →
        Text.byteLength p.text < FileTree.pathLimit) := by
  obtain ⟨c, hset, hc⟩ := (l.find_eq_ok dir request p).mp h
  have hfile : l.files.isFile c = true := by
    obtain ⟨n, hfind, -⟩ := hset.exists_candidates
    exact List.find?_some hfind
  unfold FileTree.canonical at hc
  unfold FileTree.isFile FileTree.node? at hfile
  cases hl : l.files.locate c with
  | error e =>
    rw [hl] at hc
    cases hc
  | ok trail =>
    rw [hl] at hc hfile
    cases hc
    cases hh : l.files.here trail with
    | dir children =>
      rw [show (Except.toOption (.ok trail)).map l.files.here = some (l.files.here trail) from rfl,
        hh] at hfile
      cases hfile
    | file bytes =>
      obtain ⟨hleads, hshort⟩ := FileTree.leads_of_locate hn hl hh
      exact ⟨_, bytes, rfl, hleads, fun hd => hshort (hset.isAbsolute fun t ht =>
        isAbsolute_of_mem_targets hd ht)⟩

end Lookup

/-! ## Ids that are split again -/

theorem Text.splitOnce?_append {sep : Char} {before : List Char} (h : sep ∉ before)
    (behind : List Char) : splitOnce? sep (before ++ sep :: behind) = some (before, behind) := by
  induction before with
  | nil => exact if_pos rfl
  | cons c cs ih =>
    rw [List.mem_cons, not_or] at h
    rw [List.cons_append, splitOnce?, if_neg (Ne.symm h.1), ih h.2]
    rfl

theorem splitQuery_withQuery {s : String} (h : '?' ∉ s.toList) (query : Option String) :
    splitQuery (withQuery s query) = (s, query) := by
  unfold splitQuery
  cases query with
  | none => rw [show withQuery s none = s from rfl, Text.splitOnce?_eq_none.mpr h]
  | some q =>
    have hs : (withQuery s (some q)).toList = s.toList ++ '?' :: q.toList := by simp [withQuery]
    rw [hs, Text.splitOnce?_append h]
    simp

namespace ModuleId

/-- The path of an id is that of its text, up to the first `?`. -/
theorem path_ofPath (p : Path) (query : Option String) :
    (ofPath p query).path = ⟨(splitQuery p.text).1⟩ :=
  congrArg Path.mk <| String.toList_inj.mp <|
    (toList_path_ofPath p query).trans (toList_path_ofPath p none).symm

example : (ofPath ⟨"/a?b/c.js"⟩ none).path = ⟨"/a"⟩ := rfl

/-- An id gives back what it is made of if there is no `?` in the path, and only then. -/
theorem ofPath_splits (p : Path) (query : Option String) :
    (ofPath p query).path = p ∧ (ofPath p query).query = query ↔ '?' ∉ p.text.toList := by
  constructor
  · rintro ⟨hp, -⟩ hmark
    have hlist := toList_path_ofPath p query
    rw [hp] at hlist
    simpa using List.takeWhile_eq_self_iff.mp hlist.symm '?' hmark
  · intro h
    have hs := splitQuery_withQuery h query
    exact ⟨congrArg (Path.mk ·.1) hs, congrArg Prod.snd hs⟩

end ModuleId

/-! ## What is made of them -/

theorem Path.parent?_of_plain {names : List String} (h : ∀ s ∈ names, Plain s) (hne : names ≠ []) :
    (ofNames names).parent? = some (.ofNames names.dropLast) := by
  obtain ⟨above, last, rfl⟩ := (List.eq_nil_or_concat names).resolve_left hne
  rw [List.concat_eq_append] at *
  have hlast : Plain last := h last (List.mem_append_right _ List.mem_cons_self)
  rw [List.dropLast_concat]
  exact parent?_concat (fun s hs => h s (List.mem_append_left _ hs)) hlast.slash hlast.void

namespace Loading

variable (loading : Loading) {id : ModuleId} {p : Path}

theorem toOption_select (h : id.path = p) : (loading.select id).toOption =
    loading.loaders.get? ((p.extension?.map Text.asciiLower).getD "") := by
  unfold select ModuleId.extension
  rw [h]
  dsimp only
  cases loading.loaders.get? ((p.extension?.map Text.asciiLower).getD "") <;> rfl

theorem ofFile_of_read {files : FileTree} {bytes : Bytes} (h : id.path = p)
    (hread : files.read p = .ok bytes) (chosen : Option Loader) :
    loading.ofFile files id chosen = (loading.loaderFor id chosen).map (⟨bytes, ·⟩) := by
  unfold ofFile
  rw [h, hread]
  cases loading.loaderFor id chosen <;> rfl

end Loading

/-- The graph finds the id of a file that is called by its path, wherever the path leads now. -/
theorem ModuleGraph.Indexed.mem_markStale_self {g : ModuleGraph} (hg : g.Indexed) {id : ModuleId}
    {m : Module} (hm : g.get? id = some m) (hl : m.isLive = true) {names : List String}
    (hn : ∀ s ∈ names, Path.Plain s) (hid : id.path = .ofNames names) (files : FileTree) :
    id ∈ (g.markStale files (.ofNames names)).2 := by
  rw [ModuleGraph.mem_markStale, FileTree.canonical_ofNames hn, hg.mem_idsForPath, hid]
  exact ⟨⟨m, hm, hl⟩, .inl ⟨contains_iff.mpr ⟨m, hm⟩, rfl⟩⟩

/-- A module that is the file at the end of some names: it is loaded from there by the loader of the
extension, its imports are looked up from the directory of the file, and in every session a change
of the path is a change of the module. -/
structure ModuleId.StandsFor (id : ModuleId) (files : FileTree) (names : List String)
    (bytes : Bytes) : Prop where
  select : ∀ loading : Loading, (loading.select id).toOption =
    loading.loaders.get? (((Path.ofNames names).extension?.map Text.asciiLower).getD "")
  content : Text.byteLength (Path.ofNames names).text < FileTree.pathLimit →
    ∀ (loading : Loading) (chosen : Option Loader),
      loading.ofFile files id chosen = (loading.loaderFor id chosen).map (⟨bytes, ·⟩)
  dir : id.dir = .ofNames names.dropLast
  indexed : ∀ {reps s}, Session.Runs reps s → s.graph.contains id = true →
    id ∈ s.graph.idsForPath (Path.ofNames names).text
  marked : ∀ {reps s}, Session.Runs reps s → ∀ {m}, s.graph.get? id = some m → m.isLive = true →
    ∀ after, id ∈ (s.graph.markStale after (s.absolute (.ofNames names))).2

theorem FileTree.Leads.standsFor {files : FileTree} {names : List String} {bytes : Bytes}
    (h : files.Leads names bytes) {id : ModuleId} (hid : id.path = .ofNames names) :
    id.StandsFor files names bytes where
  select loading := loading.toOption_select hid
  content hshort loading chosen := loading.ofFile_of_read hid (h.read hshort) chosen
  dir := by
    unfold ModuleId.dir
    rw [hid, Path.parent?_of_plain h.plain h.ne_nil]
    rfl
  indexed hruns hc := by
    rw [hruns.indexed.mem_idsForPath, hid]
    exact ⟨hc, rfl⟩
  marked := by
    intro reps s hruns m hm hl after
    have habs : s.absolute (.ofNames names) = .ofNames names := if_pos (Path.isAbsolute_ofNames _)
    rw [habs]
    exact hruns.indexed.mem_markStale_self hm hl h.plain hid after

/-- A look-up finds a file by the path of its names, which is not too long to be read if the look-up
starts from an absolute directory or is one for an absolute request. An id of this path splits at
its first `?`: unless there is one in the path, and only then, it gives back the path and the query,
and the module is the file. -/
theorem Lookup.find_located (l : Lookup) (hn : l.files.Named) {dir p : Path} {request : String}
    (h : l.find dir request = .ok p) (query : Option String) :
    let id := ModuleId.ofPath p query
    ∃ names bytes, p = .ofNames names ∧ l.files.Leads names bytes ∧
      (dir.isAbsolute = true ∨ Path.isAbsolute ⟨request⟩ = true →
        Text.byteLength p.text < FileTree.pathLimit) ∧
      id.path = ⟨(splitQuery p.text).1⟩ ∧
      (id.path = p ∧ id.query = query ↔ '?' ∉ p.text.toList) ∧
      ('?' ∉ p.text.toList → id.StandsFor l.files names bytes) := by
  intro id
  obtain ⟨names, bytes, rfl, hleads, hshort⟩ := leads_of_find hn h
  have hsplits := ModuleId.ofPath_splits (.ofNames names) query
  exact ⟨names, bytes, rfl, hleads, hshort, ModuleId.path_ofPath _ query, hsplits,
    fun hmark => hleads.standsFor (hsplits.mpr hmark).1⟩

namespace Session

theorem one_found : Lookup.find ⟨(oneFile "1").files, [".js"]⟩ ⟨"/"⟩ "./b" = .ok ⟨"/b.js"⟩ ∧
    (oneFile "1").files.read ⟨"/b.js"⟩ = .ok (Text.Utf8.encode "1") := by
  decide +kernel

/-- The file of a project is found without its extension; it is loaded, and marked later. -/
theorem find_located_of_one_file : ∃ (reps : List Report) (s : Session) (m : Module),
    let l : Lookup := ⟨(oneFile "1").files, [".js"]⟩
    l.files.Named ∧ l.find ⟨"/"⟩ "./b" = .ok ⟨"/b.js"⟩ ∧ '?' ∉ "/b.js".toList ∧
    Path.isAbsolute ⟨"/"⟩ = true ∧
    Runs reps s ∧ s.graph.get? oneId = some m ∧ m.isLive = true ∧
    (∀ loading : Loading, loading.ofFile l.files oneId none =
      (loading.select oneId).map (⟨Text.Utf8.encode "1", ·⟩)) ∧
    ∀ after, oneId ∈ (s.graph.markStale after (s.absolute ⟨"/b.js"⟩)).2 := by
  obtain ⟨fuel, rep, hbuild, hone, -, -⟩ := one_build
  have hperform : oneSession.perform (oneFile "1") fuel .build = some rep := hbuild
  have hruns := (Runs.create create_one).request hperform
  obtain ⟨m, hm, hl, -⟩ := hone.module (by decide)
  have hnamed : (oneFile "1").files.Named := fun _ h => nomatch h
  have hmark : '?' ∉ "/b.js".toList := by decide
  have habs : Path.isAbsolute ⟨"/"⟩ = true := by decide
  obtain ⟨hfind, hread⟩ := one_found
  obtain ⟨names, bytes, hp, hleads, hshort, -, -, h⟩ :=
    Lookup.find_located ⟨(oneFile "1").files, [".js"]⟩ hnamed hfind none
  have hstands := h hmark
  have hlimit := hp ▸ hshort (.inl habs)
  obtain rfl : bytes = Text.Utf8.encode "1" := by
    rw [hp, hleads.read hlimit] at hread
    exact Except.ok.inj hread
  exact ⟨_, _, m, hnamed, hfind, hmark, habs, hruns, hm, hl,
    fun loading => hstands.content hlimit loading none,
    fun after => hp ▸ hstands.marked hruns hm hl after⟩

end Session

end Bundler
