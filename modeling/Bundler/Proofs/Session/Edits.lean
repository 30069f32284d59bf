import Bundler.Proofs.Build.Content
import Bundler.Proofs.Session.Faithful

/-!
# Edits

Other content in a file and a rebuild of that file come to what a new session comes to in the files
as they are then, if the notes of the pass tell enough of what changed. They do not tell of the kinds
of dependencies, nor of the modules that the names of async chunks stand for; and what was compiled
before stays so when only dynamic imports are left that lead there.
-/

namespace Bundler

namespace Session

/-- From one world to the next, entries lead where they led, modules change that are stale, and a
change shows in the fingerprint. -/
structure Edit (s : Session) (w w' : World) (R : Realm) (stale : List ModuleId) : Prop where
  modules : ∀ id m, s.graph.get? id = some m → m.isLive = true → id ∉ stale →
    s.project.ideal w' s.limit id = s.project.ideal w s.limit id
  entries : ∀ name specifier, s.options.entries.get? name = some specifier →
    s.project.entry w' s.limit specifier = s.project.entry w s.limit specifier
  fingerprints : ∀ id, R.inside id →
    (s.project.ideal w s.limit id).fingerprint = (s.project.ideal w' s.limit id).fingerprint →
    (s.project.ideal w s.limit id).bare = (s.project.ideal w' s.limit id).bare

/-- From one session to the next, what is not noted of a change is no change. -/
structure Telling (s t : Session) (w : World) : Prop where
  kinds : ∀ id m m', s.graph.get? id = some m → t.graph.get? id = some m' →
    m.dependencyIds = m'.dependencyIds → m.size = m'.size →
    m.outline s.options.codeSplitting = m'.outline s.options.codeSplitting
  names : ∀ c ∈ s.bundle.chunks.chunks, ∀ c' ∈ t.bundle.chunks.chunks, c.kind = .async →
    c'.kind = .async → c.name = c'.name → c.entry = c'.entry
  compiled : t.project.lazyCompilation = true →
    t.graph.Tight t.project w t.limit t.compiled.ids t.options.entries

section
variable {s : Session} {w : World} {changed : Path}
  {rs : List ((String × String) × Resolution)} {q : Pass}

theorem RebuildEnds.tells (hends : s.RebuildEnds w changed rs q)
    (hc : q.graph.Current s.project w s.limit s.compiled.ids s.options.entries) {id : ModuleId}
    {m : Module} (hm : q.graph.prune.1.settle.get? id = some m) :
    q.delta.Tells id (s.graph.get? id) m :=
  (Pass.Ends.notices hends).of_sameBare (s.graph.sameBare_markStale w.files changed).symm id m
    (hc.mirrors.get?_settle_prune.mp hm).2

/-- If nothing was noted, the graph has the same modules for the partition. -/
theorem RebuildEnds.sameOutline (hends : s.RebuildEnds w changed rs q)
    (hc : q.graph.Current s.project w s.limit s.compiled.ids s.options.entries)
    (hno : s.bundle.mustRepartition (finalDelta q) = false)
    {splitting : Bool}
    (hk : ∀ id m m', s.graph.get? id = some m → q.graph.prune.1.settle.get? id = some m' →
      m.dependencyIds = m'.dependencyIds → m.size = m'.size →
      m.outline splitting = m'.outline splitting) :
    ModuleGraph.SameOutline splitting s.graph q.graph.prune.1.settle := by
  obtain ⟨htopology, hpruned, hsize, -⟩ := mustRepartition_eq_false.mp hno
  intro id
  cases hm' : q.graph.prune.1.settle.get? id with
  | some m' =>
    have htells := hends.tells hc hm'
    obtain ⟨m, hm, hids⟩ := htells.dependencies htopology
    obtain ⟨m₁, hm₁, hs⟩ := htells.size htopology hsize
    obtain rfl := Option.some.inj (hm.symm.trans hm₁)
    rw [hm]
    exact congrArg some (hk id m m' hm hm' hids hs)
  | none =>
    cases hm : s.graph.get? id with
    | none => rfl
    | some m =>
      -- Nothing goes but what is pruned.
      have hid : q.graph.contains id = true := hends.advanced.contains hends.rest
        (ModuleGraph.contains_markStale.mpr (ModuleGraph.contains_iff.mpr ⟨m, hm⟩))
      obtain ⟨m₁, hm₁⟩ := ModuleGraph.contains_iff.mp hid
      have hr : q.graph.Reached id := by
        by_contra hn
        have hmem := ModuleGraph.mem_prune_snd.mpr ⟨hid, hn⟩
        rw [hpruned] at hmem
        cases hmem
      exact nomatch hm'.symm.trans (hc.mirrors.get?_settle_prune.mpr ⟨hr, hm₁⟩)

end

section
variable {s t : Session} {w w' : World} {D : Path → Prop} {R : Realm} {stale : List ModuleId}
  {changed : Path}
  {rs : List ((String × String) × Resolution)} {q : Pass}

theorem Edit.unmoved (h : s.Edit w w' R stale) : s.Unmoved w w' stale :=
  ⟨h.modules, fun name specifier hn _ => h.entries name specifier hn⟩

theorem Edit.overlooks (h : s.Edit w w' R []) : s.forgetLookups.Overlooks w w' D where
  modules := h.modules
  entries := h.unmoved.entries
  failed name specifier hn _ := h.entries name specifier hn
  cache := LookupCache.sound_empty _ _

theorem Edit.graph_entries (h : s.Edit w w' R stale) {g : ModuleGraph} (hs : s.Shows w D)
    (hg : g.Current s.project w' s.limit s.compiled.ids s.options.entries) :
    s.graph.entries = g.entries := by
  refine Table.ext_get? fun name => ?_
  cases hn : s.options.entries.get? name with
  | none => rw [(hs.current.others name hn).1, (hg.others name hn).1]
  | some specifier =>
    rw [(hs.current.seats name _ hn).entry, (hg.seats name _ hn).entry,
      h.entries name specifier hn]

theorem Edit.bare_eq (h : s.Edit w w' R stale) (hs : s.Faithful w D R)
    (hends : s.RebuildEnds w' changed rs q)
    (hc : q.graph.Current s.project w' s.limit s.compiled.ids s.options.entries) {id : ModuleId}
    (hl : s.graph.isLive id = true) (hl' : q.graph.prune.1.settle.isLive id = true)
    (huntouched : (finalDelta q).touched.contains id = false) :
    (s.graph.get? id).map Module.bare = (q.graph.prune.1.settle.get? id).map Module.bare := by
  obtain ⟨m, hm, hl⟩ := ModuleGraph.isLive_iff.mp hl
  obtain ⟨m', hm', hl'⟩ := ModuleGraph.isLive_iff.mp hl'
  obtain ⟨m₁, hm₁, -, hf⟩ := (hends.tells hc hm').content huntouched
  obtain rfl := Option.some.inj (hm.symm.trans hm₁)
  have hbare := ((hs.current.mirrors.modules id m hm List.not_mem_nil).tells hl).bare
  have hbare' := ((hc.settle_prune.mirrors.modules id m' hm' List.not_mem_nil).tells hl').bare
  have hid : R.inside id := (hs.within id m hm).inside (Module.isLive_iff.mp hl).1
  have hsame := h.fingerprints id hid (((congrArg Module.fingerprint hbare).trans hf).trans
    (congrArg Module.fingerprint hbare').symm)
  rw [hm, hm', Option.map_some, Option.map_some, ← hbare, ← hbare', hsame]

/-- After a rebuild that tells enough, chunks and files are those of the graph. -/
theorem RebuildEnds.fits (hends : s.RebuildEnds w' changed rs q) (h : s.Edit w w' R stale)
    (hs : s.Faithful w D R)
    (hc : q.graph.Current s.project w' s.limit s.compiled.ids s.options.entries)
    (hg : t.graph = q.graph.prune.1.settle) (hb : t.bundle = s.finalBundle q)
    (ht : s.Telling t w') :
    (s.finalBundle q).Fits q.graph.prune.1.settle s.options.splitOptions s.renderer := by
  have hpart : s.bundle.mustRepartition (finalDelta q) = false →
      ChunkGraph.partition s.graph s.options.splitOptions =
        .partition q.graph.prune.1.settle s.options.splitOptions := fun hno =>
    ChunkGraph.partition_congr (hends.sameOutline hc hno (hg ▸ ht.kinds))
      (h.graph_entries hs.toShows hc.settle_prune)
  have hchunks : t.bundle.chunks = .partition q.graph.prune.1.settle s.options.splitOptions :=
    (congrArg Bundle.chunks hb).trans (hs.fits.nextChunks_eq hpart)
  refine hs.fits.update hpart fun c hc₁ hc₂ huntouched => ?_
  have hlive : ∀ {g : ModuleGraph}, c ∈ Partition.chunks g s.options.splitOptions →
      ∀ id ∈ c.modules, g.isLive id = true := fun hc id hid =>
    (((Partition.holds_chunks _ _).mem id).mp ⟨c, hc, hid⟩).isLive
  -- Members that were not touched are as they were; what a chunk imports is told by its name.
  refine Bundle.renderChunk_eq (fun id hid => ?_) fun n hmem => ?_
  · exact h.bare_eq hs hends hc (hlive hc₁ id hid) (hlive hc₂ id hid) (huntouched id hid)
  · obtain ⟨a, ha⟩ := Partition.exists_of_import hc₁ hmem
    obtain ⟨b, hb⟩ := Partition.exists_of_import hc₂ hmem
    obtain ⟨c₁, hmem₁, hk₁, he₁, hname₁⟩ := Partition.mem_asyncEntries.mp ha
    obtain ⟨c₂, hmem₂, hk₂, he₂, hname₂⟩ := Partition.mem_asyncEntries.mp hb
    have hsame := ht.names c₁ (hs.fits.chunks ▸ hmem₁) c₂ (hchunks ▸ hmem₂) hk₁ hk₂
      (hname₁.trans hname₂.symm)
    obtain rfl : a = b := Option.some.inj (he₁.symm.trans (hsame.trans he₂))
    exact ⟨a, ha, hb⟩

theorem Bounded.entersIn (h : s.Bounded w R) : s.EntersIn w R := by
  intro name specifier hn t ht hx
  refine h.enters name specifier hn t.id ?_
  unfold Resolution.entryId?
  rw [ht]
  exact if_neg (by rw [hx]; decide)

theorem Awaits.incrementalBuild_sameProject
    (h : s.Awaits w D (s.graph.markStale w.files changed).2) (hw : w.Proper D) {fuel : Nat}
    {rep : Report} (hrep : s.incrementalBuild w changed fuel = some rep) :
    s.SameProject rep.session := by
  rcases h.of_incrementalBuild hw hrep with ⟨-, rfl⟩ | ⟨rs, q, j, -, -, hj, rfl⟩
  · exact ⟨rfl, rfl, rfl, rfl, rfl⟩
  · exact SameProject.trans (s := { s with
      graph := (s.graph.markStale w.files changed).1, inquiries := j })
      ⟨rfl, rfl, rfl, rfl, hj.limit⟩ (finished_finish _ _ _ _ _).sameProject

/-- A rebuild that tells enough of an edit keeps a session faithful. -/
theorem incrementalBuild_faithful (hs : s.Faithful w D R) (hb : s.Bounded w R)
    (hb' : s.Bounded w' R) (hw : w'.Proper D)
    (h : s.Edit w w' R (s.graph.markStale w'.files changed).2) {fuel : Nat} {rep : Report}
    (hrep : s.incrementalBuild w' changed fuel = some rep) (hwr : rep.Written)
    (ht : s.Telling rep.session w') : s.SameProject rep.session ∧ rep.session.Faithful w' D R := by
  have hawaits := hs.toShows.announced h.unmoved
  have hshows := incrementalBuild_shows hawaits hw hrep hwr
  have hwithin := incrementalBuild_within hawaits hw hb'.keeps hb'.entersIn hs.within hrep
  have hsame := hawaits.incrementalBuild_sameProject hw hrep
  rcases hawaits.of_incrementalBuild hw hrep with
    ⟨⟨hstale, -⟩, rfl⟩ | ⟨rs, q, j, hsow, hends, hj, rfl⟩
  · rw [hstale] at h
    exact ⟨hsame, hs.forget.overlooks hb h.overlooks⟩
  have hf := finished_finish { s with
    graph := (s.graph.markStale w'.files changed).1, inquiries := j } w'.files q
    (s.graph.markStale w'.files changed).2 [.started s.failedEntries.size]
  have hc := hawaits.current hsow hends
  have hwf := hf.graph ▸ hshows.wellFormed
  rw [hf.graph] at hwithin
  have hexact : q.graph.prune.1.settle.Exact s.project w' s.limit s.compiled.ids
      s.options.entries R :=
    { toCurrent := hc.settle_prune
      wellFormed := hwf
      within := hwithin
      tight := ?_ }
  · exact hf.faithful (r := s) ⟨rfl, rfl, rfl, rfl, hj.limit⟩ hshows hb' hexact
      (hends.fits h hs hc hf.graph hf.bundle ht)
  cases hlazy : s.project.lazyCompilation with
  | false => exact hc.settle_prune.tight hb' hwithin hlazy hwf.reached
  | true =>
    have htight := ht.compiled ((congrArg Project.lazyCompilation hsame.project).trans hlazy)
    rw [hf.graph, hsame.project, hsame.limit, hsame.options] at htight
    exact fun id m hm hl => (htight id m hm hl).mono fun x _ hx => (hf.mem_compiled.mp hx).1

/-- Without code splitting and lazy compilation, every rebuild tells enough. -/
theorem Faithful.telling (hs : s.Faithful w D R) (hb : s.Bounded w R) (ht : t.Shows w' D)
    (hb' : t.Bounded w' R) (hw : t.graph.Within R) (hsame : s.SameProject t)
    (hsplitting : s.options.codeSplitting = false) (hlazy : s.project.lazyCompilation = false) :
    s.Telling t w' where
  kinds id m m' hm hm' hids _ := by
    have hlazy' : t.project.lazyCompilation = false := by rwa [hsame.project]
    have hlive : m.isLive = m'.isLive := Bool.eq_iff_iff.mpr
      ((hs.exact.isLive_iff_inside hb hlazy hm).trans
        ((ht.exact hb' hw hlazy').isLive_iff_inside hb' hlazy' hm').symm)
    unfold Module.outline
    rw [hsplitting, hlive, hids]
    rfl
  names c hc _ _ hk := by
    rw [hs.fits.chunks] at hc
    have hc : c ∈ Partition.chunks s.graph ⟨s.options.codeSplitting, s.options.groups⟩ := hc
    rw [hsplitting] at hc
    obtain ⟨e, -, rfl⟩ := List.mem_map.mp hc
    cases hk
  compiled hl := by
    rw [hsame.project, hlazy] at hl
    cases hl

end

/-! ## Other content in a file -/

section
variable {s : Session} {t : FileTree} {names : List String} {old : Bytes}

theorem exists_names_of_leads (ht : t.Proper) {id : ModuleId}
    (h : s.project.resolver.Leads ⟨t, none⟩ s.limit false id) :
    ∃ ns q, (∀ n ∈ ns, Path.Plain n) ∧ id = .ofPath (.ofNames ns) q := by
  obtain ⟨f, q, ⟨p, -, hp⟩, rfl⟩ := Resolver.finds_of_leads h
  obtain ⟨ns, hn, rfl⟩ := FileTree.plain_of_canonical ht hp
  exact ⟨ns, q, hn, rfl⟩

theorem read_of_leads (ht : t.Proper) (bytes : Bytes) {id : ModuleId}
    (h : s.project.resolver.Leads ⟨t, none⟩ s.limit false id) (hne : id.path ≠ .ofNames names) :
    (t.overwrite names bytes).read id.path = t.read id.path := by
  obtain ⟨ns, q, hn, rfl⟩ := exists_names_of_leads ht h
  exact FileTree.read_overwrite_of_id hn bytes hne

/-- Other content in a file that is no manifest is an edit. -/
theorem edit_overwrite
    (hs : s.Faithful ⟨t, none⟩ Path.Tidy (s.project.resolver.realm ⟨t, none⟩ s.limit))
    (ht : t.Proper)
    (hn : ∀ n ∈ names, Path.Plain n) (hm : names.getLast? ≠ some "package.json") {path : Path}
    (hpath : t.canonical path = .ok (.ofNames names)) (hread : t.read (.ofNames names) = .ok old)
    {bytes : Bytes} (hash : Fingerprint.ofBytes old = .ofBytes bytes → old = bytes) :
    s.Edit ⟨t, none⟩ ⟨t.overwrite names bytes, none⟩ (s.project.resolver.realm ⟨t, none⟩ s.limit)
      (s.graph.markStale (t.overwrite names bytes) path).2 := by
  have hagrees := Lookup.agrees_overwrite t s.project.resolver.extensions bytes hm
  refine ⟨fun id m hid hl hstale => ?_, fun _ specifier _ => ?_, fun id hid => ?_⟩
  · have hleads := (hs.within id m hid).inside (Module.isLive_iff.mp hl).1
    refine Project.ideal_of_content hagrees (read_of_leads ht bytes hleads fun he => hstale ?_)
    -- The modules of the file are stale.
    refine ModuleGraph.mem_markStale.mpr ⟨⟨m, hid, hl⟩, .inl ?_⟩
    rw [(t.sameShape_overwrite names bytes).canonical, hpath]
    exact hs.indexed.mem_idsForPath.mpr
      ⟨ModuleGraph.contains_iff.mpr ⟨m, hid⟩, congrArg Path.text he⟩
  · exact Project.entry_of_agrees hagrees specifier
  · refine Project.bare_ideal_of_fingerprint hagrees fun c c' hc hc' hf => ?_
    by_cases he : id.path = .ofNames names
    · rw [he] at hc hc'
      obtain rfl := Except.ok.inj (hread.symm.trans hc)
      obtain rfl := Except.ok.inj ((FileTree.read_overwrite_self hn bytes hread).symm.trans hc')
      exact hash hf
    · rw [read_of_leads ht bytes hid he] at hc'
      exact Except.ok.inj (hc.symm.trans hc')

end

/-! ## Sessions with edits -/

section
variable {o : Options} {transforms : Loader → Transform} {minifier : Minifier} {s : Session}
  {t : FileTree} {outcome : Except Error BuildResult}

/-- A session after a build and after edits: each gives other content to a file that is no manifest,
and a rebuild of the file follows. The outcome is that of the last call. -/
inductive Edited (o : Options) (transforms : Loader → Transform) (minifier : Minifier) :
    FileTree → Session → Except Error BuildResult → Prop
  | build {t : FileTree} {s : Session} {fuel : Nat} {rep : Report}
      (hs : create o t transforms minifier = .ok s) (ht : t.Proper) (ho : o.outdir = none)
      (hseparates : s.project.resolver.Separates ⟨t, none⟩ s.limit)
      (hrep : s.build ⟨t, none⟩ fuel = some rep) :
      Edited o transforms minifier t rep.session rep.outcome
  | edit {t : FileTree} {s : Session} {outcome : Except Error BuildResult} {changed : Path}
      {names : List String} {old bytes : Bytes} {fuel : Nat} {rep : Report}
      (h : Edited o transforms minifier t s outcome) (hn : ∀ n ∈ names, Path.Plain n)
      (hm : names.getLast? ≠ some "package.json")
      (hpath : t.canonical (s.absolute changed) = .ok (.ofNames names))
      (hread : t.read (.ofNames names) = .ok old)
      (hash : Fingerprint.ofBytes old = .ofBytes bytes → old = bytes)
      (hrep : s.rebuild ⟨t.overwrite names bytes, none⟩ changed fuel = some rep)
      (htelling : o.codeSplitting = true ∨ o.lazyCompilation = true →
        s.Telling rep.session ⟨t.overwrite names bytes, none⟩) :
      Edited o transforms minifier (t.overwrite names bytes) rep.session rep.outcome

/-- A session that is faithful to its files, and the new one for the same options. -/
structure AsNew (o : Options) (transforms : Loader → Transform) (minifier : Minifier)
    (t : FileTree) (s : Session) (outcome : Except Error BuildResult) (s₀ : Session) : Prop where
  create : create o t transforms minifier = .ok s₀
  outdir : o.outdir = none
  same : s₀.SameProject s
  compiled : s.compiled = {}
  separates : s.project.resolver.Separates ⟨t, none⟩ s.limit
  faithful : s.Faithful ⟨t, none⟩ Path.Tidy (s.project.resolver.realm ⟨t, none⟩ s.limit)
  stands : Stands Path.Tidy ⟨t, none⟩ s outcome

theorem create_overwrite (names : List String) (bytes : Bytes) :
    create o (t.overwrite names bytes) transforms minifier = create o t transforms minifier := by
  unfold create
  simp only [(t.sameShape_overwrite names bytes).canonical]
  rfl

theorem AsNew.of_edit {s₀ : Session} (h : AsNew o transforms minifier t s outcome s₀)
    (ht : t.Proper) {changed : Path} {names : List String} {old bytes : Bytes} {fuel : Nat}
    {rep : Report} (hn : ∀ n ∈ names, Path.Plain n) (hm : names.getLast? ≠ some "package.json")
    (hpath : t.canonical (s.absolute changed) = .ok (.ofNames names))
    (hread : t.read (.ofNames names) = .ok old)
    (hash : Fingerprint.ofBytes old = .ofBytes bytes → old = bytes)
    (hrep : s.rebuild ⟨t.overwrite names bytes, none⟩ changed fuel = some rep)
    (htelling : o.codeSplitting = true ∨ o.lazyCompilation = true →
      s.Telling rep.session ⟨t.overwrite names bytes, none⟩) :
    AsNew o transforms minifier (t.overwrite names bytes) rep.session rep.outcome s₀ := by
  have hagrees := Lookup.agrees_overwrite t s.project.resolver.extensions bytes hm
  have hedit := edit_overwrite h.faithful ht hn hm hpath hread hash
  have hw : World.Proper ⟨t.overwrite names bytes, none⟩ Path.Tidy := World.proper_of_files ht
  have hinc := hrep
  rw [rebuild_of_atEase h.faithful.toAtEase, h.faithful.built, if_pos rfl] at hinc
  obtain ⟨-, _, -, hnew⟩ := create_eq_ok.mp h.create
  have hoptions : s.options = o := h.same.options.trans (congrArg Session.options hnew)
  have hlazy : s.project.lazyCompilation = o.lazyCompilation :=
    congrArg Project.lazyCompilation (h.same.project.trans (congrArg Session.project hnew))
  have hout : s.options.outdir = none := hoptions ▸ h.outdir
  have hwr : rep.Written := incrementalBuild_written hout hinc
  have hseparates := Resolver.separates_of_agrees hagrees h.separates
  have hb : s.Bounded _ _ := Project.bounded_realm s.options.entries h.separates
  have hb' : s.Bounded _ _ := Project.bounded_realm s.options.entries hseparates
  rw [Resolver.realm_of_agrees hagrees] at hb'
  -- Without code splitting and lazy compilation, every rebuild tells enough.
  have htelling : s.Telling rep.session ⟨t.overwrite names bytes, none⟩ := by
    by_cases ho : o.codeSplitting = true ∨ o.lazyCompilation = true
    · exact htelling ho
    rw [not_or, Bool.not_eq_true, Bool.not_eq_true] at ho
    have hawaits := h.faithful.toShows.announced hedit.unmoved
    have hsame := hawaits.incrementalBuild_sameProject hw hinc
    refine h.faithful.telling hb (incrementalBuild_shows hawaits hw hinc hwr) (hsame.bounded hb')
      (incrementalBuild_within hawaits hw hb'.keeps hb'.entersIn h.faithful.within hinc) hsame
      (by rw [hoptions]; exact ho.1) (by rw [hlazy]; exact ho.2)
  obtain ⟨hsame, hf⟩ := incrementalBuild_faithful h.faithful hb hb' hw hedit hinc hwr htelling
  exact
    { create := (create_overwrite names bytes).trans h.create
      outdir := h.outdir
      same := h.same.trans hsame
      compiled := incrementalBuild_compiled h.compiled hinc
      separates := by rwa [hsame.project, hsame.limit]
      faithful := by rwa [hsame.project, hsame.limit, Resolver.realm_of_agrees hagrees]
      stands := .rebuild h.stands hedit.unmoved hw hrep hwr }

theorem Edited.asNew (h : Edited o transforms minifier t s outcome) :
    t.Proper ∧ ∃ s₀, AsNew o transforms minifier t s outcome s₀ := by
  induction h with
  | @build t s fuel rep hs ht ho hseparates hrep =>
    have hease := atEase_create ht hs
    have hw := World.proper_of_files ht
    obtain ⟨-, _, -, hnew⟩ := create_eq_ok.mp hs
    have hfull := hrep
    rw [build_of_atEase hease] at hfull
    have hwr : rep.Written := fullBuild_written (by rw [hnew]; exact ho) hfull
    obtain ⟨hsame, hf⟩ := fullBuild_faithful hease hw
      (Project.bounded_realm s.options.entries hseparates) hfull hwr
    refine ⟨ht, s, ?_⟩
    exact
      { create := hs
        outdir := ho
        same := hsame
        compiled := fullBuild_compiled (by rw [hnew]; rfl) hfull
        separates := by rwa [hsame.project, hsame.limit]
        faithful := by rwa [hsame.project, hsame.limit]
        stands := .build hease hw hrep hwr }
  | edit h hn hm hpath hread hash hrep htelling ih =>
    obtain ⟨ht, s₀, ih⟩ := ih
    exact ⟨ht, s₀, ih.of_edit ht hn hm hpath hread hash hrep htelling⟩

/-- After edits, a new session comes to the result that the last rebuild returned: it is the same,
but that it may tell other reasons for what could not be resolved. -/
theorem Edited.rebuild_as_new {r : BuildResult} (h : Edited o transforms minifier t s (.ok r)) :
    ∃ s₀, create o t transforms minifier = .ok s₀ ∧ ∃ N, ∀ fuel ≥ N, ∃ rep r',
      s₀.build ⟨t, none⟩ fuel = some rep ∧ r.Alike r' ∧
        ((∀ d ∈ r.errors, d.code ≠ "RESOLVE_ERROR") → r' = r) ∧
        (rep.outcome = .ok r' ∨ o.strict = true ∧ r'.success = false ∧
          rep.outcome = .error (.buildFailed r'.errors)) := by
  obtain ⟨ht, s₀, hnew⟩ := h.asNew
  obtain ⟨hw, -, hlast⟩ := hnew.stands.shows
  obtain rfl := hlast r rfl
  obtain ⟨-, _, -, he⟩ := create_eq_ok.mp hnew.create
  have hcompiled : s₀.compiled = {} := by rw [he]; rfl
  have hoptions : s.options = o := hnew.same.options.trans (congrArg Session.options he)
  have hease := atEase_create ht hnew.create
  obtain ⟨N, hN⟩ := hnew.faithful.fullBuild_same hw
    (Project.bounded_realm s.options.entries hnew.separates) hnew.same.symm
    (hcompiled.trans hnew.compiled.symm) hease
  refine ⟨s₀, hnew.create, N, fun fuel hf => ?_⟩
  obtain ⟨rep, r', hrep, ha, hr⟩ := hN fuel hf
  refine ⟨rep, r', (build_of_atEase hease _ fuel).trans hrep, ha, fun hno => ha.eq hno ?_, ?_⟩
  · rw [hnew.faithful.last]
    exact BuildResult.errors_assemble
  · rcases hr with hr | ⟨hstrict, hr⟩ | ⟨e, herror, -⟩
    · exact .inl hr
    · exact .inr ⟨hoptions ▸ hstrict, hr⟩
    · rw [write_of_no_outdir (by rw [hoptions]; exact hnew.outdir)] at herror
      cases herror

end

/-! ## A page that is imported dynamically -/

/-- A rebuild after which the modules are the same for the partition tells enough. -/
theorem telling_of_sameOutline {s t : Session} {w : World}
    (ho : ModuleGraph.SameOutline s.options.codeSplitting s.graph t.graph)
    (hs : s.bundle.chunks = .partition s.graph s.options.splitOptions)
    (ht : t.bundle.chunks = s.bundle.chunks) (hlazy : t.project.lazyCompilation = false) :
    s.Telling t w where
  kinds id m m' hm hm' _ _ := by
    have hsame := ho id
    rw [hm, hm'] at hsame
    exact Option.some.inj hsame
  names c hc c' hc' _ _ hn := by
    rw [ht] at hc'
    have hnodup : (s.bundle.chunks.chunks.map (·.name)).Nodup := by
      rw [hs]
      exact Partition.names_nodup _ _
    rw [List.inj_on_of_nodup_map hnodup hc hc' hn]
  compiled hl := nomatch hl.symm.trans hlazy

def partedOptions : Options :=
  { entries := .ofList [("main", "./a.js")], root := ⟨"/"⟩, codeSplitting := true }

def partedSession : Session := new partedOptions ⟨"/"⟩ (fun _ => Transform.builtin) minifyBlanks

def partedFiles (content : String) : World :=
  ⟨⟨.dir [("a.js", .file (Text.Utf8.encode "import(\"./b.js\");")),
      ("b.js", .file (Text.Utf8.encode content))], []⟩, none⟩

/-- The modules are there, and the second one is that of `/b.js`. -/
def PartedStart (x : Pass × Inquiries) : Prop :=
  MainImports ⟨"/a.js"⟩ ⟨"/b.js"⟩ x.1.graph ∧ x.2.bridge.cancelled = false ∧
    (x.1.graph.settle.markStale (partedFiles "2").files ⟨"/b.js"⟩).2 = [⟨"/b.js"⟩]

/-- From one pass to the other, the modules are the same for the partition, and in the end none has
an error. -/
def PartedEnd (x y : Pass × Inquiries) : Prop :=
  MainImports ⟨"/a.js"⟩ ⟨"/b.js"⟩ y.1.graph ∧ x.1.graph.entries = y.1.graph.entries ∧
    (∀ id ∈ x.1.graph.ids, (x.1.graph.settle.get? id).map (·.outline true) =
      (y.1.graph.settle.get? id).map (·.outline true)) ∧
    (BuildResult.assemble y.1.graph.settle {} []).modules.map (·.id) = [⟨"/a.js"⟩, ⟨"/b.js"⟩] ∧
    (BuildResult.assemble y.1.graph.settle {} []).errors = []

instance (x : Pass × Inquiries) : Decidable (PartedStart x) :=
  inferInstanceAs (Decidable (_ ∧ _ ∧ _))

instance (x y : Pass × Inquiries) : Decidable (PartedEnd x y) :=
  inferInstanceAs (Decidable (_ ∧ _ ∧ _ ∧ _ ∧ _))

theorem create_parted : create partedOptions (partedFiles "1").files (fun _ => Transform.builtin)
    minifyBlanks = .ok partedSession :=
  create_eq_ok.mpr ⟨rfl, ⟨"/"⟩, by decide +kernel, rfl⟩

set_option maxRecDepth 10000 in
theorem parted_passes : (partedSession.fullPass (partedFiles "1") 5).any (fun x =>
    decide (PartedStart x) && ((partedSession.afterBuild x).rebuildPass (partedFiles "2")
      ⟨"/b.js"⟩ 5).any fun y => decide (PartedEnd x y)) = true := by
  decide +kernel

set_option maxRecDepth 10000 in
theorem parted_file : (partedFiles "1").files.canonical ⟨"/b.js"⟩ = .ok (.ofNames ["b.js"]) ∧
    (partedFiles "1").files.read (.ofNames ["b.js"]) = .ok (Text.Utf8.encode "1") ∧
    (Fingerprint.ofBytes (Text.Utf8.encode "1") = .ofBytes (Text.Utf8.encode "2") →
      Text.Utf8.encode "1" = Text.Utf8.encode "2") := by
  decide +kernel

theorem plain_b : ∀ n ∈ ["b.js"], Path.Plain n := by
  intro n hn
  rw [List.mem_singleton.mp hn]
  exact ⟨by decide, by decide, by decide⟩

theorem PartedEnd.sameOutline {x y : Pass × Inquiries} (h : PartedEnd x y)
    (hx : MainImports ⟨"/a.js"⟩ ⟨"/b.js"⟩ x.1.graph) :
    ModuleGraph.SameOutline true x.1.graph.settle y.1.graph.settle := by
  obtain ⟨hy, -, hsame, -⟩ := h
  intro id
  by_cases hid : id ∈ x.1.graph.ids
  · exact hsame id hid
  · have hid' : id ∉ y.1.graph.ids := by rwa [hy.2.1, ← hx.2.1]
    have hnone : ∀ {g : ModuleGraph}, id ∉ g.ids → g.settle.get? id = none := by
      intro g h
      rw [ModuleGraph.get?_settle, Option.map_eq_none_iff]
      exact Option.not_isSome_iff_eq_none.mp fun hs => h (ModuleGraph.mem_ids.mpr hs)
    rw [hnone hid, hnone hid']

/-- The page is given other content, and a new build comes to what the rebuild returns. -/
theorem rebuild_as_new_of_page : ∃ (s : Session) (r : BuildResult),
    Edited partedOptions (fun _ => Transform.builtin) minifyBlanks (partedFiles "2").files s
        (.ok r) ∧
      r.modules.map (·.id) = [⟨"/a.js"⟩, ⟨"/b.js"⟩] ∧
      ∃ s₀, create partedOptions (partedFiles "2").files (fun _ => Transform.builtin)
          minifyBlanks = .ok s₀ ∧
        ∃ N, ∀ fuel ≥ N, ∃ rep, s₀.build (partedFiles "2") fuel = some rep ∧
          rep.outcome = .ok r := by
  obtain ⟨⟨p, i⟩, hp, hparted⟩ := (Option.any_eq_true _ _).mp parted_passes
  obtain ⟨hstart, hparted⟩ := Bool.and_eq_true_iff.mp hparted
  obtain ⟨⟨q, j⟩, hq, hend⟩ := (Option.any_eq_true _ _).mp hparted
  obtain ⟨hmodules, hcancelled, hstale⟩ : PartedStart (p, i) := of_decide_eq_true hstart
  have hend : PartedEnd (p, i) (q, j) := of_decide_eq_true hend
  obtain ⟨hmodules', hentries, -, hids, herrors⟩ := id hend
  obtain ⟨hpath, hread, hash⟩ := parted_file
  obtain ⟨rep, hbuild, hf, -, -, -⟩ := exists_build (s := partedSession) rfl rfl hp
  have hgraph : rep.session.graph = p.graph.settle := by rw [hf.graph, hmodules.prune_eq]
  have habs : rep.session.absolute ⟨"/b.js"⟩ = ⟨"/b.js"⟩ := absolute_of_isAbsolute (by decide)
  have hpass : rep.session.rebuildPass (partedFiles "2") (rep.session.absolute ⟨"/b.js"⟩) 5 =
      some (q, j) := by
    rw [← hq, habs]
    exact hf.rebuildPass_eq rfl hmodules.prune_eq _ _ _
  obtain ⟨rep', hrebuild, hf', -, hlast, hout⟩ := exists_rebuild (by rw [hf.options]; rfl)
    (by rw [cancelled, hf.inquiries]; exact hcancelled) hf.built
    (fun h => by rw [habs, hgraph, hstale] at h; exact nomatch h.1) hpass
  have hgraph' : rep'.session.graph = q.graph.settle := by rw [hf'.graph, hmodules'.prune_eq]
  have hfits : rep.session.bundle.Fits p.graph.settle partedOptions.splitOptions
      partedSession.renderer := by
    rw [hf.bundle, finalBundle, hmodules.prune_eq]
    exact Bundle.fits_update_empty _ _ _ _
  have hsame := ChunkGraph.partition_congr (o := partedOptions.splitOptions)
    (hend.sameOutline hmodules) hentries
  have hchunks : rep'.session.bundle.chunks = rep.session.bundle.chunks := by
    rw [hf'.bundle, finalBundle, hf.options, hmodules'.prune_eq, hfits.chunks, hsame]
    exact hfits.nextChunks_eq fun _ => hsame
  have htelling : rep.session.Telling rep'.session (partedFiles "2") :=
    telling_of_sameOutline (by rw [hf.options, hgraph, hgraph']; exact hend.sameOutline hmodules)
      (by rw [hf.options, hgraph]; exact hfits.chunks) hchunks (by rw [hf'.project, hf.project]; rfl)
  have hproper : (partedFiles "1").files.Proper := fun _ h => nomatch h
  have hedited := (Edited.build create_parted hproper rfl
    (Resolver.separates_of_no_externals rfl) hbuild).edit plain_b (by decide)
      (by rw [habs]; exact hpath) hread hash hrebuild fun _ => htelling
  have hanswer : rep.session.answer rep'.session.last = .ok rep'.session.last := by
    rw [answer, hf.options]
    rfl
  rw [hout, hanswer] at hedited
  refine ⟨_, _, hedited, ?_, ?_⟩
  · rw [hlast, finalResult, hmodules'.prune_eq]
    exact hids
  · obtain ⟨s₀, hs₀, N, hN⟩ := hedited.rebuild_as_new
    refine ⟨s₀, hs₀, N, fun fuel hfuel => ?_⟩
    obtain ⟨rep₀, r', hrep₀, -, hr', ho⟩ := hN fuel hfuel
    refine ⟨rep₀, hrep₀, ?_⟩
    rw [hr' ?_] at ho
    · exact ho.resolve_right fun h => absurd h.1 (by decide)
    · have hnone : rep'.session.last.errors = [] := by
        rw [hlast, finalResult, hmodules'.prune_eq]
        exact herrors
      rw [hnone]
      exact fun d hd => nomatch hd

end Session

end Bundler
