import Bundler.Proofs.Build.Seeding

/-!
# Sessions that are up to date

A session shows a world if its graph, its chunks and its last result are what a build there would
give. Calls bring it there from a state in which some modules are stale and some entries failed.
Throughout, the directories of ids and those that imports are asked from are in a set `D`.
-/

namespace Bundler

/-! ## The end of a call -/

/-- Nothing kept the files of a result from being written. -/
def Report.Written (rep : Report) : Prop := ∀ path cause, rep.outcome ≠ .error (.io path cause)

theorem BuildResult.writeFiles_error {dir : Path} {files : List OutputFile} {t : FileTree}
    {e : Error} (h : (writeFiles dir files t).2 = .error e) : ∃ path cause, e = .io path cause := by
  induction files generalizing t with
  | nil => cases h
  | cons f files ih =>
    unfold writeFiles at h
    dsimp only at h
    generalize t.replace _ _ _ = out at h
    obtain ⟨t, o⟩ := out
    cases o with
    | ok u => exact ih h
    | error cause => cases h; exact ⟨_, _, rfl⟩

namespace Session

/-- The time limit of questions to the host. -/
def limit (s : Session) : Option Nat := s.inquiries.bridge.limit

/-- Sessions of one project. -/
structure SameProject (s t : Session) : Prop where
  options : t.options = s.options
  root : t.root = s.root
  project : t.project = s.project
  renderer : t.renderer = s.renderer
  limit : t.limit = s.limit

theorem SameProject.refl (s : Session) : s.SameProject s := ⟨rfl, rfl, rfl, rfl, rfl⟩

theorem SameProject.symm {s t : Session} (h : s.SameProject t) : t.SameProject s :=
  ⟨h.options.symm, h.root.symm, h.project.symm, h.renderer.symm, h.limit.symm⟩

theorem SameProject.trans {r s t : Session} (h : r.SameProject s) (h' : s.SameProject t) :
    r.SameProject t :=
  ⟨h'.options.trans h.options, h'.root.trans h.root, h'.project.trans h.project,
    h'.renderer.trans h.renderer, h'.limit.trans h.limit⟩

theorem write_error {s : Session} {files : FileTree} {r : BuildResult} {e : Error}
    (h : (s.write files r).2 = .error e) : ∃ path cause, e = .io path cause := by
  unfold write at h
  split at h
  next => exact BuildResult.writeFiles_error h
  next => cases h

theorem answer_ne_io (s : Session) (r : BuildResult) (path : Path) (cause : OsError) :
    s.answer r ≠ .error (.io path cause) := by
  unfold answer
  split <;> exact fun h => nomatch h

section
variable (s : Session) (files : FileTree) (q : Pass) (stale : List ModuleId)
  (started : List ProgressEvent)

/-- What a finished pass changed. -/
def finalDelta : Delta :=
  { q.delta with topologyChanged := q.delta.topologyChanged || !q.graph.prune.2.isEmpty }

theorem mustRepartition_eq_false {q : Pass} {b : Bundle} :
    b.mustRepartition (finalDelta q) = false ↔
      q.delta.topologyChanged = false ∧ q.graph.prune.2 = [] ∧ q.delta.sizeChanged = false ∧
        b.chunks.isEmpty = false := by
  unfold Bundle.mustRepartition finalDelta
  simp only [Bool.or_eq_false_iff, Bool.not_eq_false', List.isEmpty_iff, and_assoc]

/-- The chunks and files of a finished pass. -/
def finalBundle : Bundle :=
  s.bundle.update q.graph.prune.1.settle s.options.splitOptions s.renderer (finalDelta q)

/-- The result of a finished pass. -/
def finalResult : BuildResult :=
  .assemble q.graph.prune.1.settle (s.finalBundle q).chunks (s.finalBundle q).rendered

/-- The session of a finished pass, but for the result. -/
structure Finished (t : Session) : Prop where
  options : t.options = s.options
  root : t.root = s.root
  project : t.project = s.project
  renderer : t.renderer = s.renderer
  inquiries : t.inquiries = s.inquiries
  built : t.built = s.built
  graph : t.graph = q.graph.prune.1.settle
  bundle : t.bundle = s.finalBundle q
  compiled : t.compiled = s.compiled.filter fun id _ => q.graph.prune.1.settle.contains id

theorem finished_finish : s.Finished q (s.finish files q stale started).session := by
  unfold finish
  dsimp only
  split <;> exact ⟨rfl, rfl, rfl, rfl, rfl, rfl, rfl, rfl, rfl⟩

theorem Finished.sameProject {s t : Session} {q : Pass} (hf : s.Finished q t) :
    s.SameProject t where
  options := hf.options
  root := hf.root
  project := hf.project
  renderer := hf.renderer
  limit := by
    unfold Session.limit
    rw [hf.inquiries]

theorem write_congr {s t : Session} (ho : t.options = s.options) (hr : t.root = s.root)
    (files : FileTree) {r r' : BuildResult} (h : r'.outputs = r.outputs) :
    t.write files r' = s.write files r := by
  unfold write absolute BuildResult.writeOutputs
  rw [ho, hr, h]

theorem finish_of_write {t : FileTree}
    (h : s.write files (s.finalResult q) = (t, .ok ())) :
    (s.finish files q stale started).session.last = s.finalResult q ∧
      (s.finish files q stale started).files = t ∧
      (s.finish files q stale started).outcome = s.answer (s.finalResult q) := by
  unfold finish
  dsimp only
  split
  next e he =>
    have h' : s.write files (s.finalResult q) = (_, .error _) := he
    rw [h] at h'
    cases h'
  next he =>
    have h' : s.write files (s.finalResult q) = (_, .ok ()) := he
    rw [h] at h'
    cases h'
    exact ⟨rfl, rfl, rfl⟩

theorem finish_of_write_error {s : Session} {files t : FileTree} {q : Pass} {stale : List ModuleId}
    {started : List ProgressEvent} {e : Error}
    (h : s.write files (s.finalResult q) = (t, .error e)) :
    (s.finish files q stale started).session.last = s.last ∧
      (s.finish files q stale started).outcome = .error e := by
  unfold finish
  dsimp only
  split
  next he =>
    have h' : s.write files (s.finalResult q) = (_, .error _) := he
    rw [h] at h'
    cases h'
    exact ⟨rfl, rfl⟩
  next he =>
    have h' : s.write files (s.finalResult q) = (_, .ok ()) := he
    rw [h] at h'
    cases h'

/-- A call whose files were written published its result. -/
theorem finish_of_written (h : (s.finish files q stale started).Written) :
    (s.finish files q stale started).session.last = s.finalResult q ∧
      s.write files (s.finalResult q) = ((s.finish files q stale started).files, .ok ()) ∧
      (s.finish files q stale started).outcome = s.answer (s.finalResult q) := by
  cases hw : s.write files (s.finalResult q) with
  | mk t o =>
    cases o with
    | ok u =>
      obtain ⟨h1, h2, h3⟩ := s.finish_of_write files q stale started hw
      exact ⟨h1, by rw [h2], h3⟩
    | error e =>
      obtain ⟨path, cause, rfl⟩ := write_error (congrArg Prod.snd hw)
      exact absurd (finish_of_write_error hw).2 (h path cause)

end

/-! ## Up to date -/

/-- No question is open, the session is not cancelled, and its root is tidy. -/
structure AtEase (s : Session) : Prop where
  quiet : s.inquiries.bridge.Quiet
  tidy : s.project.resolver.root.Tidy

/-- A session that was built, whose chunks, files and last result follow its graph. -/
structure Kept (s : Session) : Prop extends s.AtEase where
  built : s.built = true
  wellFormed : s.graph.WellFormed
  indexed : s.graph.Indexed
  paired : s.bundle.Paired
  chunks : s.bundle.chunks.isEmpty = true →
    s.bundle.chunks = .partition s.graph s.options.splitOptions
  last : s.last = .assemble s.graph s.bundle.chunks s.bundle.rendered

/-- A session that is up to date but for some modules and for entries that failed. -/
structure Awaits (s : Session) (w : World) (D : Path → Prop) (stale : List ModuleId) : Prop
    extends s.Kept where
  mirrors : s.graph.Mirrors s.project w s.limit s.compiled.ids stale
  seats : ∀ name specifier, s.options.entries.get? name = some specifier →
    s.graph.entryErrors.contains name = false → s.graph.Seats s.project w s.limit name specifier
  others : ∀ name, s.options.entries.get? name = none →
    s.graph.entries.get? name = none ∧ s.graph.entryErrors.get? name = none
  dirs : s.graph.Within (.dirs D)

/-- A session that is up to date. -/
structure Shows (s : Session) (w : World) (D : Path → Prop) : Prop extends s.Kept where
  current : s.graph.Current s.project w s.limit s.compiled.ids s.options.entries
  dirs : s.graph.Within (.dirs D)
  cache : s.inquiries.cache.Sound D ⟨w.files, s.project.resolver.extensions⟩

theorem AtEase.not_cancelled {s : Session} (h : s.AtEase) : s.cancelled = false := h.quiet.cancelled

theorem Shows.awaits {s : Session} {w : World} {D : Path → Prop} (h : s.Shows w D)
    (stale : List ModuleId) : s.Awaits w D stale where
  toKept := h.toKept
  mirrors := h.current.mirrors.mono (fun _ h => h) fun _ h => nomatch h
  seats name specifier hn _ := h.current.seats name specifier hn
  others := h.current.others
  dirs := h.dirs

theorem Kept.forget {s : Session} (h : s.Kept) : s.forgetLookups.Kept where
  quiet := h.quiet
  tidy := h.tidy
  built := h.built
  wellFormed := h.wellFormed
  indexed := h.indexed
  paired := h.paired
  chunks := h.chunks
  last := h.last

theorem Shows.steady {s : Session} {w : World} {D : Path → Prop} (h : s.Shows w D)
    (hw : w.Proper D) :
    s.inquiries.Steady s.limit D ⟨w.files, s.project.resolver.extensions⟩ :=
  ⟨h.quiet, rfl, h.cache, hw.blind _⟩

theorem AtEase.steady {s : Session} (h : s.AtEase) {w : World} {D : Path → Prop}
    (hw : w.Proper D) : Inquiries.Steady { s.inquiries with cache := {} } s.limit D
      ⟨w.files, s.project.resolver.extensions⟩ :=
  ⟨h.quiet, rfl, LookupCache.sound_empty _ _, hw.blind _⟩

theorem Finished.mem_compiled {s t : Session} {q : Pass} (hf : s.Finished q t) {id : ModuleId} :
    id ∈ t.compiled.ids ↔ id ∈ s.compiled.ids ∧ q.graph.prune.1.settle.contains id = true := by
  rw [hf.compiled, IdSet.mem_ids, IdSet.mem_ids, Table.contains_iff, Table.contains_iff]
  simp only [Table.get?_filter, Option.filter_eq_some_iff]
  exact ⟨fun ⟨v, hv⟩ => ⟨⟨v, hv.1⟩, hv.2⟩, fun ⟨⟨v, hv⟩, hc⟩ => ⟨v, hv, hc⟩⟩

theorem Finished.shows {s t : Session} {q : Pass} (hf : s.Finished q t) {w : World}
    {D : Path → Prop} {limit : Option Nat} (hroot : s.project.resolver.root.Tidy)
    (hi : s.inquiries.Steady limit D ⟨w.files, s.project.resolver.extensions⟩)
    (hbuilt : s.built = true) (hwf : q.graph.prune.1.settle.WellFormed) (hidx : q.graph.Indexed)
    (hc : q.graph.Current s.project w limit s.compiled.ids s.options.entries)
    (hd : q.graph.Within (.dirs D)) (hb : s.bundle.Paired) (hlast : t.last = s.finalResult q) :
    t.Shows w D := by
  have hlimit : t.limit = limit := by
    unfold Session.limit
    rw [hf.inquiries, hi.limit]
  refine
    { quiet := by rw [hf.inquiries]; exact hi.bridge
      tidy := by rw [hf.project]; exact hroot
      built := hf.built.trans hbuilt
      wellFormed := by rw [hf.graph]; exact hwf
      indexed := by rw [hf.graph]; exact hidx.prune.settle
      paired := by rw [hf.bundle]; exact hb.update _ _ _ _
      chunks := ?_
      last := by rw [hlast, hf.graph, hf.bundle]; rfl
      current := ?_
      dirs := by rw [hf.graph]; exact hd.settle_prune
      cache := by rw [hf.inquiries, hf.project]; exact hi.cache }
  · rw [hf.bundle, hf.graph, hf.options]
    unfold finalBundle Bundle.update Bundle.nextChunks
    dsimp only
    intro he
    split
    next => rfl
    next hm =>
      rw [if_neg hm] at he
      exact absurd (by unfold Bundle.mustRepartition; rw [he, Bool.or_true]) hm
  · have hc' := hc.settle_prune
    rw [hf.graph, hf.project, hlimit, hf.options]
    exact ⟨hc'.mirrors.mono (fun _ hid => (hf.mem_compiled.mp hid).1) fun _ h => h, hc'.seats, hc'.others⟩

/-! ## Realms -/

/-- The entries of a session lead into a realm. -/
def EntersIn (s : Session) (w : World) (R : Realm) : Prop :=
  ∀ name specifier, s.options.entries.get? name = some specifier →
    ∀ t, (s.project.entry w s.limit specifier).2.outcome = .ok t → t.external = false →
      R.inside t.id

theorem EntersIn.of_sowing {s : Session} {w : World} {R : Realm} (h : s.EntersIn w R)
    {entries : Table String String} {rs : List ((String × String) × Resolution)}
    (hsub : ∀ name x, entries.get? name = some x → s.options.entries.get? name = some x)
    (hsow : Pass.Sowing s.project w s.limit entries rs) :
    ∀ e ∈ rs, ∀ t, e.2.outcome = .ok t → t.external = false → R.inside t.id := by
  intro e he t ht hx
  obtain ⟨specifier, hs, -, htells⟩ := hsow.tells e he
  rcases htells with heq | ⟨_, -, heq⟩
  · rw [heq] at ht
    exact h _ _ (hsub _ _ hs) t ht hx
  · rw [heq] at ht
    cases ht

/-! In a proper world, dependencies and entries lead to ids in the directories that there are. -/

theorem keeps_dirs (s : Session) {w : World} {D : Path → Prop} (hw : w.Proper D) :
    s.project.Keeps w s.limit (.dirs D) :=
  (s.project.closed_of_proper hw).keeps

theorem enters_dirs (s : Session) {w : World} {D : Path → Prop} (hw : w.Proper D) :
    s.EntersIn w (.dirs D) :=
  fun _ _ _ _ ht hx => Resolver.dir_of_ideal hw ht hx

/-! ## Calls that bring a session up to date -/

section
variable {s : Session} {w : World} {D : Path → Prop} {R : Realm}

/-- A pass that an operation ran over a graph leaves the index in order. -/
theorem indexed_of_ends {project : Project} {limit : Option Nat} {g : ModuleGraph}
    {eager : List ModuleId} {seeds : Pass.Seeds} {q : Pass} (hg : g.Indexed)
    (h : Pass.Ends project w limit g eager seeds q) : q.graph.Indexed :=
  h.runs.indexed ((Pass.begins_start project w limit g eager seeds).indexed hg)

theorem wellFormed_of_ends {project : Project} {limit : Option Nat} {g : ModuleGraph}
    {eager : List ModuleId} {seeds : Pass.Seeds} {q : Pass} (hg : g.Regular)
    (hc : ∀ a b, g.Edge a b → g.contains b = true)
    (he : ∀ name id, g.entries.get? name = some id → g.contains id = true)
    (h : Pass.Ends project w limit g eager seeds q) : q.graph.prune.1.settle.WellFormed := by
  obtain ⟨hr, hc, he⟩ := Pass.Completes.closed (r := project.rules w limit)
    (fun id m hm => ⟨Project.id_of_tells hm, Project.external_of_tells hm,
      Project.isLazy_of_tells hm⟩) hg hc he
    ⟨_, Pass.begins_start project w limit g eager seeds, h.runs, h.rest⟩
  exact .of_closed hr hc he

/-- How the pass of a full build ends. -/
def BuildEnds (s : Session) (w : World) (rs : List ((String × String) × Resolution)) (q : Pass) :
    Prop :=
  Pass.Ends s.project w s.limit {} s.compiled.ids ⟨rs, []⟩ q

theorem inside_of_needed_build (hk : s.project.Keeps w s.limit R) (he : s.EntersIn w R)
    {rs : List ((String × String) × Resolution)}
    (hsow : Pass.Sowing s.project w s.limit s.options.entries rs) {id : ModuleId}
    (hn : (s.project.plan w s.limit {} s.compiled.ids ⟨rs, []⟩).Needed id) : R.inside id :=
  Pass.inside_of_needed hk (fun _ h => absurd h List.not_mem_nil)
    (he.of_sowing (fun _ _ h => h) hsow) hn

theorem dir_of_needed_build (hw : w.Proper D) {rs : List ((String × String) × Resolution)}
    (hsow : Pass.Sowing s.project w s.limit s.options.entries rs) {id : ModuleId}
    (hn : (s.project.plan w s.limit {} s.compiled.ids ⟨rs, []⟩).Needed id) : D id.dir :=
  inside_of_needed_build (s.keeps_dirs hw) (s.enters_dirs hw) hsow hn

theorem AtEase.of_fullBuild (h : s.AtEase) (hw : w.Proper D) {fuel : Nat} {rep : Report}
    (hrep : s.fullBuild w fuel = some rep) :
    ∃ rs q j, Pass.Sowing s.project w s.limit s.options.entries rs ∧ s.BuildEnds w rs q ∧
      j.Steady s.limit D ⟨w.files, s.project.resolver.extensions⟩ ∧
      rep = { s with inquiries := j, bundle := {}, built := true }.finish w.files q []
        [.started s.options.entries.size] := by
  obtain ⟨p, i, q, j, hp, hrun, rfl⟩ := fullBuild_eq_some hrep
  obtain ⟨rs, i', hsow, hrs, hi⟩ := Pass.seedEntries_sowing hw.answers (hw.tidy _ h.tidy)
    (h.steady hw) (s.newPass {}) s.options.entries
  cases hp.symm.trans hrs
  obtain ⟨hends, hj⟩ := @Pass.ends_of_run _ _ _ _ _ _ ⟨rs, []⟩ hw.answers
    (s.project.closed_of_proper hw) (fun _ => dir_of_needed_build hw hsow) _ _ hi _ _ hrun
  exact ⟨rs, q, j, hsow, hends, hj, rfl⟩

theorem BuildEnds.current {rs : List ((String × String) × Resolution)} {q : Pass}
    (hsow : Pass.Sowing s.project w s.limit s.options.entries rs) (hends : s.BuildEnds w rs q) :
    q.graph.Current s.project w s.limit s.compiled.ids s.options.entries := by
  have hempty : ModuleGraph.Mirrors s.project w s.limit s.compiled.ids [] {} := .empty
  have hm := hends.advanced.mirrors hempty (fun _ h => .inl h)
    (fun _ h => absurd h List.not_mem_nil) hends.sown hends.rest
  exact Pass.Ends.current hends hsow hm (fun _ _ h => h)
    (fun _ _ hx hnone => nomatch hx.symm.trans hnone) fun _ _ => ⟨rfl, rfl⟩

theorem BuildEnds.within (hk : s.project.Keeps w s.limit R) (he : s.EntersIn w R)
    {rs : List ((String × String) × Resolution)}
    (hsow : Pass.Sowing s.project w s.limit s.options.entries rs) {q : Pass}
    (hends : s.BuildEnds w rs q) : q.graph.Within R := by
  have hempty : ModuleGraph.Within {} R := fun _ _ hm => (nomatch hm)
  exact hends.advanced.within hk hempty (fun _ => inside_of_needed_build hk he hsow) hends.rest

theorem BuildEnds.graph_wellFormed {rs : List ((String × String) × Resolution)} {q : Pass}
    (hends : s.BuildEnds w rs q) : q.graph.prune.1.settle.WellFormed := by
  have h0 := ModuleGraph.WellFormed.empty
  exact wellFormed_of_ends h0.toRegular (ModuleGraph.danglingEdges_eq_nil.mp h0.closed) h0.entry hends

theorem fullBuild_shows (h : s.AtEase) (hw : w.Proper D) {fuel : Nat} {rep : Report}
    (hrep : s.fullBuild w fuel = some rep) (hwr : rep.Written) : rep.session.Shows w D := by
  obtain ⟨rs, q, j, hsow, hends, hj, rfl⟩ := h.of_fullBuild hw hrep
  exact (finished_finish { s with inquiries := j, bundle := {}, built := true } w.files q []
    _).shows h.tidy hj rfl hends.graph_wellFormed (indexed_of_ends .empty hends)
    (hends.current hsow) (hends.within (s.keeps_dirs hw) (s.enters_dirs hw) hsow)
    Bundle.paired_empty (finish_of_written _ _ _ _ _ hwr).1

/-- A full build puts modules of a realm in that entries and dependencies do not lead out of. -/
theorem fullBuild_within (h : s.AtEase) (hw : w.Proper D) (hk : s.project.Keeps w s.limit R)
    (he : s.EntersIn w R) {fuel : Nat} {rep : Report} (hrep : s.fullBuild w fuel = some rep) :
    rep.session.graph.Within R := by
  obtain ⟨rs, q, j, hsow, hends, -, rfl⟩ := h.of_fullBuild hw hrep
  rw [finish_graph]
  exact (hends.within hk he hsow).settle_prune

/-- The seeds of a rebuild: the entries that failed, and the modules that are stale. -/
def rebuildSeeds (s : Session) (w : World) (changed : Path)
    (rs : List ((String × String) × Resolution)) : Pass.Seeds :=
  ⟨rs, (s.graph.markStale w.files changed).2⟩

/-- What the pass of a rebuild is to do. -/
def rebuildPlan (s : Session) (w : World) (changed : Path)
    (rs : List ((String × String) × Resolution)) : Pass.Plan :=
  s.project.plan w s.limit (s.graph.markStale w.files changed).1 s.compiled.ids
    (s.rebuildSeeds w changed rs)

/-- How the pass of a rebuild ends. -/
def RebuildEnds (s : Session) (w : World) (changed : Path)
    (rs : List ((String × String) × Resolution)) (q : Pass) : Prop :=
  Pass.Ends s.project w s.limit (s.graph.markStale w.files changed).1 s.compiled.ids
    (s.rebuildSeeds w changed rs) q

section
variable {changed : Path} {rs : List ((String × String) × Resolution)} {q : Pass}

theorem inside_of_needed_rebuild (hg : s.graph.Within R) (hk : s.project.Keeps w s.limit R)
    (he : s.EntersIn w R) (hsow : Pass.Sowing s.project w s.limit s.failedEntries rs)
    {id : ModuleId} (hn : (s.rebuildPlan w changed rs).Needed id) : R.inside id := by
  refine Pass.inside_of_needed hk (fun id hid => ?_) (he.of_sowing (fun name x hx => ?_) hsow) hn
  · obtain ⟨m, hm, hl⟩ := ModuleGraph.isLive_of_mem_markStale hid
    exact (hg id m hm).inside (Module.isLive_iff.mp hl).1
  · rw [get?_failedEntries] at hx
    exact (Option.filter_eq_some_iff.mp hx).1

theorem Awaits.dir_of_needed (h : s.Awaits w D (s.graph.markStale w.files changed).2)
    (hw : w.Proper D) (hsow : Pass.Sowing s.project w s.limit s.failedEntries rs) {id : ModuleId}
    (hn : (s.rebuildPlan w changed rs).Needed id) : D id.dir :=
  inside_of_needed_rebuild h.dirs (s.keeps_dirs hw) (s.enters_dirs hw) hsow hn

theorem Awaits.current (h : s.Awaits w D (s.graph.markStale w.files changed).2)
    (hsow : Pass.Sowing s.project w s.limit s.failedEntries rs)
    (hends : s.RebuildEnds w changed rs q) :
    q.graph.Current s.project w s.limit s.compiled.ids s.options.entries := by
  have hm := hends.advanced.mirrors h.mirrors.markStale (fun _ h => .inl h) (fun _ h => h)
    hends.sown hends.rest
  refine hends.current hsow hm (fun name x hx => ?_) (fun name x hname hnone => ?_)
    fun name hname => ?_
  · rw [get?_failedEntries] at hx
    exact (Option.filter_eq_some_iff.mp hx).1
  · refine (h.seats name x hname ?_).markStale w.files changed
    rw [get?_failedEntries, hname] at hnone
    simpa [Option.filter] using hnone
  · rw [ModuleGraph.entries_markStale, ModuleGraph.entryErrors_markStale]
    exact h.others name hname

theorem RebuildEnds.within (hg : s.graph.Within R) (hk : s.project.Keeps w s.limit R)
    (he : s.EntersIn w R) (hsow : Pass.Sowing s.project w s.limit s.failedEntries rs)
    (hends : s.RebuildEnds w changed rs q) : q.graph.Within R :=
  hends.advanced.within hk ((s.graph.sameBare_markStale w.files changed).within hg)
    (fun _ => inside_of_needed_rebuild hg hk he hsow) hends.rest

/-- A rebuild that has nothing to do leaves the session as it is; another one is a pass. -/
theorem Awaits.of_incrementalBuild (h : s.Awaits w D (s.graph.markStale w.files changed).2)
    (hw : w.Proper D) {fuel : Nat} {rep : Report}
    (hrep : s.incrementalBuild w changed fuel = some rep) :
    ((s.graph.markStale w.files changed).2 = [] ∧ s.failedEntries.isEmpty = true) ∧
        rep = { s.forgetLookups.report w.files (.ok s.last) with unaffected := true } ∨
    ∃ rs q j, Pass.Sowing s.project w s.limit s.failedEntries rs ∧ s.RebuildEnds w changed rs q ∧
      j.Steady s.limit D ⟨w.files, s.project.resolver.extensions⟩ ∧
      rep = { s with graph := (s.graph.markStale w.files changed).1, inquiries := j }.finish w.files
        q (s.graph.markStale w.files changed).2 [.started s.failedEntries.size] := by
  refine (incrementalBuild_eq_some hrep).imp_right ?_
  rintro ⟨p, i, q, j, hp, hq, rfl⟩
  obtain ⟨rs, i', hsow, hrs, hi⟩ := Pass.seedEntries_sowing hw.answers (hw.tidy _ h.tidy)
    (h.steady hw) (s.newPass (s.graph.markStale w.files changed).1) s.failedEntries
  cases hp.symm.trans hrs
  rw [hi.bridge.cancelled] at hq
  obtain ⟨hends, hj⟩ := @Pass.ends_of_run _ _ _ _ _ _ (s.rebuildSeeds w changed rs) hw.answers
    (s.project.closed_of_proper hw) (fun _ => h.dir_of_needed hw hsow) _ _ hi _ _ hq
  exact ⟨rs, q, j, hsow, hends, hj, rfl⟩

/-- A rebuild comes to an end if only some ids can be needed. -/
theorem Awaits.incrementalBuild_rests (h : s.Awaits w D (s.graph.markStale w.files changed).2)
    (hw : w.Proper D) {ids : List ModuleId}
    (hids : ∀ rs, Pass.Sowing s.project w s.limit s.failedEntries rs →
      ∀ id, (s.rebuildPlan w changed rs).Needed id → id ∈ ids) :
    ∃ N, ∀ fuel ≥ N, ∃ rep, s.incrementalBuild w changed fuel = some rep := by
  obtain ⟨rs, i, hsow, hrs, hi⟩ := Pass.seedEntries_sowing hw.answers (hw.tidy _ h.tidy)
    (h.steady hw) (s.newPass (s.graph.markStale w.files changed).1) s.failedEntries
  obtain ⟨N, hN⟩ := @Pass.run_start_rests _ _ _ _ _ _ (s.rebuildSeeds w changed rs) hw.answers
    (s.project.closed_of_proper hw) (fun _ => h.dir_of_needed hw hsow) ids (hids rs hsow) _ hi
  refine ⟨N, fun fuel hf => ?_⟩
  obtain ⟨⟨q, j⟩, hq⟩ := hN fuel hf
  refine incrementalBuild_of_run (q := q) (j := j) hrs ?_
  rw [hi.bridge.cancelled]
  exact hq

/-- A rebuild brings a session up to date that waits for it. -/
theorem incrementalBuild_shows (h : s.Awaits w D (s.graph.markStale w.files changed).2)
    (hw : w.Proper D) {fuel : Nat} {rep : Report}
    (hrep : s.incrementalBuild w changed fuel = some rep) (hwr : rep.Written) :
    rep.session.Shows w D := by
  rcases h.of_incrementalBuild hw hrep with
    ⟨⟨hstale, hfailed⟩, rfl⟩ | ⟨rs, q, j, hsow, hends, hj, rfl⟩
  · rw [hstale] at h
    refine
      { toKept := h.toKept.forget, current := ?_, dirs := h.dirs
        cache := LookupCache.sound_empty _ _ }
    refine ⟨h.mirrors, fun name specifier hn => h.seats name specifier hn ?_, h.others⟩
    by_contra hc
    have hsome : s.failedEntries.get? name = some specifier := by
      rw [get?_failedEntries, show s.options.entries.get? name = some specifier from hn]
      exact if_pos (eq_true_of_ne_false hc)
    exact nomatch (Table.isEmpty_iff.mp hfailed name).symm.trans hsome
  · have hclosed := ModuleGraph.danglingEdges_eq_nil.mp h.wellFormed.closed
    have hwf := wellFormed_of_ends (h.wellFormed.toRegular.markStale w.files changed)
      (fun a b hab => ModuleGraph.contains_markStale.mpr
        (hclosed a b (ModuleGraph.edge_markStale.mp hab)))
      (fun name id he => ModuleGraph.contains_markStale.mpr
        (h.wellFormed.entry name id (ModuleGraph.entries_markStale .. ▸ he))) hends
    exact (finished_finish { s with graph := _, inquiries := j } w.files q _ _).shows h.tidy hj
      h.built hwf (indexed_of_ends (h.indexed.markStale w.files changed) hends)
      (h.current hsow hends) (hends.within h.dirs (s.keeps_dirs hw) (s.enters_dirs hw) hsow)
      h.paired (finish_of_written _ _ _ _ _ hwr).1

theorem incrementalBuild_within (h : s.Awaits w D (s.graph.markStale w.files changed).2)
    (hw : w.Proper D) (hk : s.project.Keeps w s.limit R) (he : s.EntersIn w R)
    (hg : s.graph.Within R) {fuel : Nat} {rep : Report}
    (hrep : s.incrementalBuild w changed fuel = some rep) : rep.session.graph.Within R := by
  rcases h.of_incrementalBuild hw hrep with ⟨-, rfl⟩ | ⟨rs, q, j, hsow, hends, -, rfl⟩
  · exact hg
  · rw [finish_graph]
    exact (hends.within hg hk he hsow).settle_prune

end

/-- How the pass of a compilation on request ends. -/
def LazyEnds (s : Session) (w : World) (id : ModuleId) (q : Pass) : Prop :=
  Pass.Ends s.project w s.limit s.graph (s.compiled.add id).ids ⟨[], [id]⟩ q

section
variable {id : ModuleId}

theorem Shows.dir_of_needed_lazy (h : s.Shows w D) (hw : w.Proper D)
    (hid : (s.graph.get? id).any (·.isLazy) = true) {x : ModuleId}
    (hn : (s.project.plan w s.limit s.graph (s.compiled.add id).ids ⟨[], [id]⟩).Needed x) :
    D x.dir := by
  obtain ⟨m, hm, hl⟩ := (Option.any_eq_true _ _).mp hid
  refine Pass.inside_of_needed (s.keeps_dirs hw) (fun y hy => ?_)
    (fun _ he => absurd he List.not_mem_nil) hn
  obtain rfl := List.mem_singleton.mp hy
  refine (h.dirs y m hm).inside ?_
  rw [(h.current.mirrors.modules y m hm List.not_mem_nil).eq_placeholder hl]
  rfl

theorem AtEase.compileLazy_refused (h : s.AtEase) (hid : ¬ (s.graph.get? id).any (·.isLazy) = true)
    {fuel : Nat} {rep : Report} (hrep : s.compileLazy w id fuel = some rep) :
    rep.session = s ∧ ∀ r, rep.outcome ≠ .ok r := by
  unfold compileLazy at hrep
  rw [h.not_cancelled, if_neg (by decide), if_neg hid] at hrep
  cases hrep
  exact ⟨rfl, fun _ h => nomatch h⟩

theorem Shows.of_compileLazy (h : s.Shows w D) (hw : w.Proper D)
    (hid : (s.graph.get? id).any (·.isLazy) = true) {fuel : Nat} {rep : Report}
    (hrep : s.compileLazy w id fuel = some rep) :
    ∃ q j, s.LazyEnds w id q ∧ j.Steady s.limit D ⟨w.files, s.project.resolver.extensions⟩ ∧
      rep = { s with compiled := s.compiled.add id, inquiries := j }.finish w.files q [] [] := by
  unfold compileLazy at hrep
  rw [h.toAtEase.not_cancelled, if_neg (by decide), if_pos hid] at hrep
  obtain ⟨q, j, hq, rfl⟩ := complete_eq_some hrep
  have hq : Pass.run s.project w fuel
      (Pass.reprocess { graph := s.graph, eager := (s.compiled.add id).ids } s.cancelled id)
      s.inquiries = some (q, j) := hq
  rw [h.toAtEase.not_cancelled] at hq
  obtain ⟨hends, hj⟩ := @Pass.ends_of_run _ _ _ _ _ _ ⟨[], [id]⟩ hw.answers
    (s.project.closed_of_proper hw) (fun _ => h.dir_of_needed_lazy hw hid) _ _ (h.steady hw) _ _ hq
  exact ⟨q, j, hends, hj, rfl⟩

theorem Shows.compileLazy_rests (h : s.Shows w D) (hw : w.Proper D)
    (hid : (s.graph.get? id).any (·.isLazy) = true) {ids : List ModuleId}
    (hids : ∀ x, (s.project.plan w s.limit s.graph (s.compiled.add id).ids ⟨[], [id]⟩).Needed x →
      x ∈ ids) : ∃ N, ∀ fuel ≥ N, ∃ rep, s.compileLazy w id fuel = some rep := by
  obtain ⟨N, hN⟩ := @Pass.run_start_rests _ _ _ _ _ _ ⟨[], [id]⟩ hw.answers
    (s.project.closed_of_proper hw) (fun _ => h.dir_of_needed_lazy hw hid) ids hids _ (h.steady hw)
  refine ⟨N, fun fuel hf => ?_⟩
  obtain ⟨⟨q, j⟩, hq⟩ := hN fuel hf
  unfold compileLazy
  rw [h.toAtEase.not_cancelled, if_neg (by decide), if_pos hid]
  dsimp only
  refine ⟨_, Option.bind_eq_some_iff.mpr ⟨(q, j), ?_, rfl⟩⟩
  have hcancelled : cancelled { s with compiled := s.compiled.add id } = false :=
    h.toAtEase.not_cancelled
  rw [hcancelled]
  exact hq

theorem LazyEnds.current (h : s.Shows w D) {q : Pass} (hends : s.LazyEnds w id q) :
    q.graph.Current s.project w s.limit (s.compiled.add id).ids s.options.entries := by
  have hsow : Pass.Sowing s.project w s.limit {} [] := ⟨rfl, fun _ h => absurd h List.not_mem_nil⟩
  have hm := hends.advanced.mirrors h.current.mirrors (fun t ht => ?_)
    (fun x hx => absurd hx List.not_mem_nil) hends.sown hends.rest
  · exact Pass.Ends.current hends hsow hm (fun _ _ hx => nomatch hx)
      (fun name x hname _ => h.current.seats name x hname) h.current.others
  · rw [IdSet.mem_ids, IdSet.contains_add, ← IdSet.mem_ids] at ht
    exact ht.symm.imp_right List.mem_singleton.mpr

theorem LazyEnds.graph_wellFormed (h : s.Shows w D) {q : Pass} (hends : s.LazyEnds w id q) :
    q.graph.prune.1.settle.WellFormed :=
  wellFormed_of_ends h.wellFormed.toRegular (ModuleGraph.danglingEdges_eq_nil.mp h.wellFormed.closed)
    h.wellFormed.entry hends

/-- The compilation of a placeholder keeps a session up to date. -/
theorem compileLazy_shows (h : s.Shows w D) (hw : w.Proper D) {fuel : Nat} {rep : Report}
    (hrep : s.compileLazy w id fuel = some rep) (hwr : rep.Written) :
    rep.session.Shows w D := by
  by_cases hid : (s.graph.get? id).any (·.isLazy) = true
  · obtain ⟨q, j, hends, hj, rfl⟩ := h.of_compileLazy hw hid hrep
    exact (finished_finish { s with compiled := s.compiled.add id, inquiries := j } w.files q _
      _).shows h.tidy hj h.built (hends.graph_wellFormed h) (indexed_of_ends h.indexed hends)
      (hends.current h) (hends.advanced.within (s.keeps_dirs hw) h.dirs
        (fun _ => h.dir_of_needed_lazy hw hid) hends.rest) h.paired
      (finish_of_written _ _ _ _ _ hwr).1
  · rw [(h.toAtEase.compileLazy_refused hid hrep).1]
    exact h

end

theorem resolve_shows (h : s.Shows w D) (hw : w.Proper D) (specifier : String) {dir : Path}
    (hd : D (s.absolute dir)) : (s.resolve w specifier dir).1.Shows w D := by
  obtain ⟨h1, -⟩ := Resolver.resolve_tells hw.answers (h.steady hw) hd specifier none
  have hl : (s.resolve w specifier dir).1.limit = s.limit := h1.limit
  exact
    { quiet := h1.bridge, tidy := h.tidy, built := h.built, wellFormed := h.wellFormed
      indexed := h.indexed, paired := h.paired, chunks := h.chunks, last := h.last
      current := hl ▸ h.current, dirs := h.dirs, cache := h1.cache }

end

/-! ## Other worlds -/

/-- Two worlds are the same for what a session read, but for stale modules and for entries that
failed. -/
structure Unmoved (s : Session) (w w' : World) (stale : List ModuleId) : Prop where
  modules : ∀ id m, s.graph.get? id = some m → m.isLive = true → id ∉ stale →
    s.project.ideal w' s.limit id = s.project.ideal w s.limit id
  entries : ∀ name specifier, s.options.entries.get? name = some specifier →
    s.graph.entryErrors.contains name = false →
    s.project.entry w' s.limit specifier = s.project.entry w s.limit specifier

/-- A rebuild marks what a change of the world alters. -/
def Announced (s : Session) (w w' : World) (changed : Path) : Prop :=
  s.Unmoved w w' (s.graph.markStale w'.files (s.absolute changed)).2

/-- A change of the world alters nothing that a session read. -/
structure Overlooks (s : Session) (w w' : World) (D : Path → Prop) : Prop
    extends s.Unmoved w w' [] where
  failed : ∀ name specifier, s.options.entries.get? name = some specifier →
    s.graph.entryErrors.contains name = true →
    s.project.entry w' s.limit specifier = s.project.entry w s.limit specifier
  cache : s.inquiries.cache.Sound D ⟨w'.files, s.project.resolver.extensions⟩

theorem Unmoved.refl (s : Session) (w : World) (stale : List ModuleId) : s.Unmoved w w stale :=
  ⟨fun _ _ _ _ _ => rfl, fun _ _ _ _ => rfl⟩

section
variable {s : Session} {w w' : World} {D : Path → Prop} {stale : List ModuleId}

theorem Unmoved.mirrors (hu : s.Unmoved w w' stale)
    (h : s.graph.Mirrors s.project w s.limit s.compiled.ids stale) :
    s.graph.Mirrors s.project w' s.limit s.compiled.ids stale where
  modules id m hm hn := by
    have hs := h.modules id m hm hn
    cases hl : m.isLive with
    | true =>
      have htells := hs.tells hl
      rw [← hu.modules id m hm hl hn] at htells
      exact .processed htells
    | false => cases hs with
      | outside h => exact .outside h
      | placeholder h => exact .placeholder h
      | processed h => exact nomatch hl.symm.trans (Project.isLive_of_tells h)
  wanted := h.wanted

theorem seats_of_entry {p : Project} {limit : Option Nat} {g : ModuleGraph}
    {name specifier : String} (h : g.Seats p w limit name specifier)
    (he : p.entry w' limit specifier = p.entry w limit specifier) :
    g.Seats p w' limit name specifier where
  entry := by rw [he]; exact h.entry
  error := by rw [he]; exact h.error
  loaded := h.loaded

/-- A session waits for a rebuild that was announced. -/
theorem Shows.announced (h : s.Shows w D) (hu : s.Unmoved w w' stale) : s.Awaits w' D stale where
  toKept := h.toKept
  mirrors := hu.mirrors (h.awaits stale).mirrors
  seats name specifier hn hc :=
    seats_of_entry (h.current.seats name specifier hn) (hu.entries name specifier hn hc)
  others := h.current.others
  dirs := h.dirs

theorem Shows.overlooks (h : s.Shows w D) (hu : s.Overlooks w w' D) : s.Shows w' D where
  toKept := h.toKept
  current.mirrors := hu.mirrors h.current.mirrors
  current.seats name specifier hn := by
    refine seats_of_entry (h.current.seats name specifier hn) ?_
    cases hc : s.graph.entryErrors.contains name with
    | true => exact hu.failed name specifier hn hc
    | false => exact hu.entries name specifier hn hc
  current.others := h.current.others
  dirs := h.dirs
  cache := hu.cache

end

/-! ## What stands -/

/-- The last call of a session had a certain outcome, and every change of the world since its last
full build was announced by a rebuild or alters nothing that the session read. Results could be
written. Imports were asked from directories in `D`, where those of ids are too. -/
inductive Stands (D : Path → Prop) : World → Session → Except Error BuildResult → Prop
  | build {w : World} {s : Session} {fuel : Nat} {rep : Report} (hs : s.AtEase) (hw : w.Proper D)
      (hrep : s.build w fuel = some rep) (hwr : rep.Written) : Stands D w rep.session rep.outcome
  | first {w : World} {s : Session} {changed : Path} {fuel : Nat} {rep : Report} (hs : s.AtEase)
      (hb : s.built = false) (hw : w.Proper D) (hrep : s.rebuild w changed fuel = some rep)
      (hwr : rep.Written) : Stands D w rep.session rep.outcome
  | rebuild {w w' : World} {s : Session} {o : Except Error BuildResult} {changed : Path}
      {fuel : Nat} {rep : Report} (h : Stands D w s o) (ha : s.Announced w w' changed)
      (hw : w'.Proper D) (hrep : s.rebuild w' changed fuel = some rep) (hwr : rep.Written) :
      Stands D w' rep.session rep.outcome
  | compileLazy {w : World} {s : Session} {o : Except Error BuildResult} {id : ModuleId}
      {fuel : Nat} {rep : Report} (h : Stands D w s o) (hrep : s.compileLazy w id fuel = some rep)
      (hwr : rep.Written) : Stands D w rep.session rep.outcome
  | resolve {w : World} {s : Session} {o : Except Error BuildResult} (h : Stands D w s o)
      (specifier : String) {dir : Path} (hd : D (s.absolute dir)) :
      Stands D w (s.resolve w specifier dir).1 o
  | overlooked {w w' : World} {s : Session} {o : Except Error BuildResult} (h : Stands D w s o)
      (ho : s.Overlooks w w' D) (hw : w'.Proper D) : Stands D w' s o

theorem build_of_atEase {s : Session} (h : s.AtEase) (w : World) (fuel : Nat) :
    s.build w fuel = s.fullBuild w fuel := by
  unfold Session.build
  rw [h.not_cancelled, if_neg (by decide)]

theorem rebuild_of_atEase {s : Session} (h : s.AtEase) (w : World) (changed : Path) (fuel : Nat) :
    s.rebuild w changed fuel = if s.built then s.incrementalBuild w (s.absolute changed) fuel
      else s.fullBuild w fuel := by
  unfold rebuild
  rw [h.not_cancelled, if_neg (by decide)]

theorem answer_eq_ok {s : Session} {r r' : BuildResult} (h : s.answer r = .ok r') : r' = r := by
  unfold answer at h
  split at h
  · cases h
  · exact (Except.ok.inj h).symm

theorem last_of_finish {s : Session} {files : FileTree} {q : Pass} {stale : List ModuleId}
    {started : List ProgressEvent} (hwr : (s.finish files q stale started).Written)
    {r : BuildResult} (h : (s.finish files q stale started).outcome = .ok r) :
    (s.finish files q stale started).session.last = r := by
  obtain ⟨h1, -, h2⟩ := finish_of_written _ _ _ _ _ hwr
  rw [h2] at h
  rw [h1, answer_eq_ok h]

/-- A session that stands is up to date, and the result that was returned is its last one. -/
theorem Stands.shows {D : Path → Prop} {w : World} {s : Session} {o : Except Error BuildResult}
    (h : Stands D w s o) : w.Proper D ∧ s.Shows w D ∧ ∀ r, o = .ok r → s.last = r := by
  -- A rebuild before any build is a full build too.
  have hfull : ∀ {w : World} {s : Session} {fuel : Nat} {rep : Report}, s.AtEase → w.Proper D →
      s.fullBuild w fuel = some rep → rep.Written →
      w.Proper D ∧ rep.session.Shows w D ∧ ∀ r, rep.outcome = .ok r → rep.session.last = r := by
    intro w s fuel rep hs hw hrep hwr
    refine ⟨hw, fullBuild_shows hs hw hrep hwr, fun r hr => ?_⟩
    obtain ⟨_, _, q, j, -, -, rfl⟩ := fullBuild_eq_some hrep
    exact last_of_finish hwr hr
  induction h with
  | build hs hw hrep hwr =>
    rw [build_of_atEase hs] at hrep
    exact hfull hs hw hrep hwr
  | first hs hb hw hrep hwr =>
    rw [rebuild_of_atEase hs, hb, if_neg (by decide)] at hrep
    exact hfull hs hw hrep hwr
  | rebuild h ha hw hrep hwr ih =>
    obtain ⟨-, hs, -⟩ := ih
    rw [rebuild_of_atEase hs.toAtEase, hs.built, if_pos rfl] at hrep
    have haw := hs.announced ha
    refine ⟨hw, incrementalBuild_shows haw hw hrep hwr, fun r hr => ?_⟩
    rcases haw.of_incrementalBuild hw hrep with ⟨-, rfl⟩ | ⟨rs, q, j, -, -, -, rfl⟩
    · exact Except.ok.inj hr
    · exact last_of_finish hwr hr
  | compileLazy h hrep hwr ih =>
    obtain ⟨hw, hs, -⟩ := ih
    refine ⟨hw, compileLazy_shows hs hw hrep hwr, fun r hr => ?_⟩
    unfold Session.compileLazy at hrep
    rw [hs.toAtEase.not_cancelled, if_neg (by decide)] at hrep
    split at hrep
    next =>
      obtain ⟨q, j, -, rfl⟩ := complete_eq_some hrep
      exact last_of_finish hwr hr
    next =>
      cases hrep
      cases hr
  | resolve h specifier hd ih => exact ⟨ih.1, resolve_shows ih.2.1 ih.1 specifier hd, ih.2.2⟩
  | overlooked h ho hw ih => exact ⟨hw, ih.2.1.overlooks ho, ih.2.2⟩

end Session

end Bundler
