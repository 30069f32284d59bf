import Bundler.Proofs.Session.New

/-!
# Rebuilds without a change

A rebuild in the world that a session shows processes stale modules and failed entries again. Each
comes out as it was, so the chunks and the files are kept, and the result is alike.
-/

namespace Bundler

theorem Project.Shows.alike {p : Project} {w : World} {limit : Option Nat} {id : ModuleId}
    {m m' : Module} (h : p.Shows w limit id m) (h' : p.Shows w limit id m')
    (hb : m.bare = m'.bare) : m.Alike m' := by
  have hx : m.external = m'.external := congrArg (·.external) hb
  have hl := Module.isLazy_of_bare hb
  cases h with
  | outside h =>
    subst h
    cases h' with
    | outside h' => subst h'; exact .refl _
    | placeholder h' => subst h'; cases hx
    | processed h' => rw [external_of_tells h'] at hx; cases hx
  | placeholder h =>
    subst h
    cases h' with
    | outside h' => subst h'; cases hx
    | placeholder h' => subst h'; exact .refl _
    | processed h' => rw [isLazy_of_tells h'] at hl; cases hl
  | processed h =>
    cases h' with
    | outside h' => subst h'; rw [external_of_tells h] at hx; cases hx
    | placeholder h' => subst h'; rw [isLazy_of_tells h] at hl; cases hl
    | processed h' => exact h.alike h'

namespace ModuleGraph

theorem SameBare.reached {g h : ModuleGraph} (hb : g.SameBare h) (he : h.entries = g.entries)
    {id : ModuleId} (hr : g.Reached id) : h.Reached id := by
  refine hr.mono he fun a m _ hm => ?_
  obtain ⟨m', hm', hbare⟩ := hb.get? hm
  refine ⟨m', hm', fun t ht => ?_⟩
  rw [Module.mem_targets] at ht ⊢
  rwa [← Module.dependencies_of_bare hbare]

theorem SameBare.trans {g h k : ModuleGraph} (hg : g.SameBare h) (hh : h.SameBare k) :
    g.SameBare k := fun id => (hg id).trans (hh id)

/-- Graphs that are up to date, of the same modules but for errors and states, are alike. -/
theorem Current.alike {p : Project} {w : World} {limit : Option Nat} {eager eager' : List ModuleId}
    {entries : Table String String} {g h : ModuleGraph} (hg : g.Current p w limit eager entries)
    (hh : h.Current p w limit eager' entries) (hb : g.SameBare h) : g.Alike h where
  modules id := by
    cases hm : g.get? id with
    | none => rw [hb.get?_eq_none hm]; exact .none
    | some m =>
      obtain ⟨m', hm', hbare⟩ := hb.get? hm
      rw [hm']
      exact .some ((hg.mirrors.modules id m hm List.not_mem_nil).alike
        (hh.mirrors.modules id m' hm' List.not_mem_nil) hbare)
  entries := by
    refine Table.ext_get? fun name => ?_
    cases hn : entries.get? name with
    | none => rw [(hg.others name hn).1, (hh.others name hn).1]
    | some specifier => rw [(hg.seats name _ hn).entry, (hh.seats name _ hn).entry]
  entryErrors name := by
    cases hn : entries.get? name with
    | none => rw [(hg.others name hn).2, (hh.others name hn).2]; exact .none
    | some specifier =>
      have h1 := (hg.seats name _ hn).error
      have h2 := (hh.seats name _ hn).error
      generalize Resolution.entryError? _ _ _ = e at h1 h2
      generalize g.entryErrors.get? name = x at h1
      generalize h.entryErrors.get? name = y at h2
      cases h1 with
      | none => cases h2; exact .none
      | some h1 => cases h2 with
        | some h2 => exact .some ⟨_, h1, h2⟩

end ModuleGraph

namespace Session

section
variable {s : Session} {w : World} {D : Path → Prop} {changed : Path}
  {rs : List ((String × String) × Resolution)}

theorem Shows.tells_of_stale (h : s.Shows w D) {id : ModuleId}
    (hid : id ∈ (s.graph.markStale w.files changed).2) :
    ∃ m, s.graph.get? id = some m ∧ m.isLive = true ∧ (s.project.ideal w s.limit id).Tells m := by
  obtain ⟨m, hm, hl⟩ := ModuleGraph.isLive_of_mem_markStale hid
  exact ⟨m, hm, hl, (h.current.mirrors.modules id m hm List.not_mem_nil).tells hl⟩

theorem Shows.not_ok_of_sowing (h : s.Shows w D)
    (hsow : Pass.Sowing s.project w s.limit s.failedEntries rs)
    {e : (String × String) × Resolution} (he : e ∈ rs) {t : Resolved} (ht : e.2.outcome = .ok t) :
    t.external = true := by
  obtain ⟨specifier, hs, -, htells⟩ := hsow.tells e he
  rw [get?_failedEntries] at hs
  obtain ⟨hname, hfailed⟩ := Option.filter_eq_some_iff.mp hs
  obtain ⟨err, herr⟩ := Table.contains_iff.mp hfailed
  have hrel := (h.current.seats _ _ hname).error
  rw [herr] at hrel
  have hnone : (s.project.entry w s.limit specifier).2.entryId? = none := by
    generalize he : (s.project.entry w s.limit specifier).2.entryError? _ _ = x at hrel
    cases hrel
    exact Resolution.entryId?_eq_none he
  rw [← (htells.entry s.project.resolver.root e.1.2).1] at hnone
  unfold Resolution.entryId? at hnone
  rw [ht] at hnone
  by_contra hx
  exact nomatch (if_neg hx).symm.trans hnone

/-- Nothing but what is stale is processed. -/
theorem Shows.stale_of_needed (h : s.Shows w D)
    (hsow : Pass.Sowing s.project w s.limit s.failedEntries rs) {id : ModuleId}
    (hn : (s.rebuildPlan w changed rs).Needed id) : id ∈ (s.graph.markStale w.files changed).2 := by
  induction hn with
  | reprocessed hid => exact hid
  | entry he ht hx _ => exact nomatch hx.symm.trans (h.not_ok_of_sowing hsow he ht)
  | @dependency k t d _ hd hw ho ih =>
    obtain ⟨m, hm, -, htells⟩ := h.tells_of_stale ih
    have hd : d ∈ m.dependencies := Project.dependencies_of_tells htells ▸ hd
    obtain ⟨m', hm', hl⟩ := (s.graph.sameBare_markStale w.files changed).loaded
      (h.current.mirrors.wanted k m hm List.not_mem_nil d hd t hw)
    exact nomatch hl.symm.trans (ho m' hm')

theorem Shows.repeats (h : s.Shows w D)
    (hsow : Pass.Sowing s.project w s.limit s.failedEntries rs) :
    (s.rebuildPlan w changed rs).Repeats (s.project.rules w s.limit).output where
  live id hn := by
    obtain ⟨m, hm, hl, -⟩ := h.tells_of_stale (h.stale_of_needed hsow hn)
    exact (s.graph.sameBare_markStale w.files changed).loaded
      ⟨m, hm, (Module.isLive_iff.mp hl).2⟩
  same id m m' hn hm hm' := by
    obtain ⟨m₀, hm₀, -, htells⟩ := h.tells_of_stale (h.stale_of_needed hsow hn)
    obtain ⟨m₁, hm₁, hb⟩ := (s.graph.sameBare_markStale w.files changed).get? hm₀
    obtain rfl : m₁ = m := Option.some.inj (hm₁.symm.trans hm)
    exact (Module.Tells.alike htells hm').bare.symm.trans hb
  contained id hn d hd t ht := by
    obtain ⟨m, hm, -, htells⟩ := h.tells_of_stale (h.stale_of_needed hsow hn)
    have hd : d ∈ m.dependencies := Project.dependencies_of_tells htells ▸ hd
    exact ModuleGraph.contains_markStale.mpr (ModuleGraph.danglingEdges_eq_nil.mp
      h.wellFormed.closed id t ⟨m, hm, Module.mem_targets.mpr ⟨d, hd, ht⟩⟩)

theorem Shows.still (h : s.Shows w D) (hsow : Pass.Sowing s.project w s.limit s.failedEntries rs)
    {q : Pass} (hends : s.RebuildEnds w changed rs q) : q.Still (s.rebuildPlan w changed rs) := by
  have hb : (s.rebuildPlan w changed rs).Binds (s.project.rules w s.limit) :=
    Project.plan_binds _ _ _
  have hr : (s.rebuildPlan w changed rs).Repeats (s.project.rules w s.limit).output :=
    h.repeats hsow
  have hstart := Pass.begins_start s.project w s.limit (s.graph.markStale w.files changed).1
    s.compiled.ids (s.rebuildSeeds w changed rs)
  exact (Pass.Still.begins hb hr hstart).runs hb hr (Pass.Begun.begins hb hstart).1.toAdvanced
    hends.runs

/-- A rebuild without a change takes no module away and leaves the graph as it was, but for what
errors tell. -/
theorem Shows.unchanged (h : s.Shows w D)
    (hsow : Pass.Sowing s.project w s.limit s.failedEntries rs) {q : Pass}
    (hends : s.RebuildEnds w changed rs q) :
    q.graph.prune.2 = [] ∧ s.graph.Alike q.graph.prune.1.settle := by
  have hc := (h.awaits _).current hsow hends
  have hb := (s.graph.sameBare_markStale w.files changed).trans (h.still hsow hends).graph
  -- Everything was reached before, and paths are the same.
  have hreached : ∀ id, q.graph.contains id = true → q.graph.Reached id := by
    intro id hid
    obtain ⟨m, hm⟩ := ModuleGraph.contains_iff.mp hid
    obtain ⟨m', hm', -⟩ := hb.symm.get? hm
    exact hb.reached (h.current.alike hc hb).entries.symm
      (h.wellFormed.reached id (ModuleGraph.contains_iff.mpr ⟨m', hm'⟩))
  refine ⟨List.eq_nil_iff_forall_not_mem.mpr fun id hid => ?_, h.current.alike hc.settle_prune ?_⟩
  · obtain ⟨hcont, hn⟩ := ModuleGraph.mem_prune_snd.mp hid
    exact hn (hreached id hcont)
  · refine hb.trans fun id => congrArg _ (Option.ext fun m => ?_)
    exact ⟨fun hm => hc.mirrors.get?_settle_prune.mpr
        ⟨hreached id (ModuleGraph.contains_iff.mpr ⟨m, hm⟩), hm⟩,
      fun hm => (hc.mirrors.get?_settle_prune.mp hm).2⟩

theorem Shows.finalBundle_eq (h : s.Shows w D)
    (hsow : Pass.Sowing s.project w s.limit s.failedEntries rs) {q : Pass}
    (hends : s.RebuildEnds w changed rs q) : s.finalBundle q = s.bundle := by
  obtain ⟨hpruned, ha⟩ := h.unchanged hsow hends
  have hstill := h.still hsow hends
  have hmust : s.bundle.mustRepartition (finalDelta q) = s.bundle.chunks.isEmpty := by
    unfold Bundle.mustRepartition finalDelta
    dsimp only
    rw [hstill.topology, hstill.size, hpruned]
    rfl
  have hchunks : s.bundle.nextChunks q.graph.prune.1.settle s.options.splitOptions (finalDelta q) =
      s.bundle.chunks := by
    unfold Bundle.nextChunks
    rw [hmust]
    split
    next he =>
      rw [h.chunks he]
      exact (ChunkGraph.partition_congr (ha.sameBare.sameOutline _) ha.entries).symm
    next => rfl
  unfold finalBundle Bundle.update
  dsimp only
  rw [hchunks]
  exact congrArg (Bundle.mk s.bundle.chunks)
    (h.paired.renderAll_eq s.renderer _ fun c _ id _ => hstill.touched id)

theorem Shows.finalResult_alike (h : s.Shows w D)
    (hsow : Pass.Sowing s.project w s.limit s.failedEntries rs) {q : Pass}
    (hends : s.RebuildEnds w changed rs q) : s.last.Alike (s.finalResult q) := by
  rw [h.last]
  unfold finalResult
  rw [h.finalBundle_eq hsow hends]
  exact BuildResult.assemble_alike (h.unchanged hsow hends).2 _ _

theorem answer_cases (s : Session) (r : BuildResult) :
    s.answer r = .ok r ∨ s.options.strict = true ∧ r.success = false ∧
      s.answer r = .error (.buildFailed r.errors) := by
  unfold answer
  split
  next h =>
    rw [Bool.and_eq_true, Bool.not_eq_true'] at h
    exact .inr ⟨h.1, h.2, rfl⟩
  next => exact .inl rfl

/-- What a call that comes to `r'` returns, where the files of `r` are to be written. -/
def Returns (s : Session) (files : FileTree) (r r' : BuildResult)
    (outcome : Except Error BuildResult) : Prop :=
  outcome = .ok r' ∨
    s.options.strict = true ∧ r'.success = false ∧ outcome = .error (.buildFailed r'.errors) ∨
    ∃ e, (s.write files r).2 = .error e ∧ outcome = .error e

theorem returns_finish {s t : Session} (ho : t.options = s.options) (hr : t.root = s.root)
    {files : FileTree} {q : Pass} {stale : List ModuleId} {started : List ProgressEvent}
    {r : BuildResult} (ha : r.outputs = (t.finalResult q).outputs) :
    s.Returns files r (t.finalResult q) (t.finish files q stale started).outcome := by
  have hanswer : t.answer (t.finalResult q) = s.answer (t.finalResult q) := by
    unfold answer
    rw [ho]
  have hwrite := write_congr ho hr files ha.symm
  cases hw : t.write files (t.finalResult q) with
  | mk f o =>
    cases o with
    | ok u =>
      rw [(t.finish_of_write files q stale started hw).2.2, hanswer]
      exact (s.answer_cases _).imp_right .inl
    | error e =>
      refine .inr (.inr ⟨e, ?_, (finish_of_write_error hw).2⟩)
      rw [← hwrite, hw]

theorem Shows.incrementalBuild_same (h : s.Shows w D) (hw : w.Proper D) (changed : Path) :
    ∃ N, ∀ fuel ≥ N, ∃ rep r, s.incrementalBuild w changed fuel = some rep ∧ s.last.Alike r ∧
      s.Returns w.files s.last r rep.outcome := by
  obtain ⟨N, hN⟩ := (h.awaits _).incrementalBuild_rests hw fun rs hsow id
    (hn : (s.rebuildPlan w changed rs).Needed id) => h.stale_of_needed hsow hn
  refine ⟨N, fun fuel hf => ?_⟩
  obtain ⟨rep, hrep⟩ := hN fuel hf
  rcases (h.awaits _).of_incrementalBuild hw hrep with ⟨-, rfl⟩ | ⟨rs, q, j, hsow, hends, -, rfl⟩
  · refine ⟨_, s.last, hrep, ?_, .inl rfl⟩
    rw [h.last]
    exact BuildResult.assemble_alike (.refl _) _ _
  · have ha := h.finalResult_alike hsow hends
    exact ⟨_, s.finalResult q, hrep, ha, returns_finish rfl rfl ha.outputs⟩

end

/-! ## A project of one file -/

theorem Shows.forget {s : Session} {w : World} {D : Path → Prop} (h : s.Shows w D) :
    s.forgetLookups.Shows w D where
  toKept := h.toKept.forget
  current := h.current
  dirs := h.dirs
  cache := LookupCache.sound_empty _ _

/-- A project of one file that depends on nothing. -/
def oneFile (content : String) : World :=
  ⟨⟨.dir [("b.js", .file (Text.Utf8.encode content))], []⟩, none⟩

def oneOptions : Options := { entries := .ofList [("main", "./b.js")], root := ⟨"/"⟩ }

def oneSession : Session := new oneOptions ⟨"/"⟩ (fun _ => Transform.builtin) minifyBlanks

def oneId : ModuleId := ⟨"/b.js"⟩

def oneRealm : Realm := ⟨fun id => id = oneId, fun _ => False⟩

set_option maxRecDepth 10000 in
theorem one_entry : ∀ c ∈ ["1", "2"],
    (oneSession.project.entry (oneFile c) none "./b.js").1 = "./b.js" ∧
      (oneSession.project.entry (oneFile c) none "./b.js").2.outcome = .ok ⟨oneId, false⟩ ∧
      (oneSession.project.entry (oneFile c) none "./b.js").2.hookError = none := by
  decide +kernel

set_option maxRecDepth 10000 in
theorem one_ideal : (∀ c ∈ ["1", "2"],
    (oneSession.project.ideal (oneFile c) none oneId).dependencies = [] ∧
      (oneSession.project.ideal (oneFile c) none oneId).errors = []) ∧
    (oneSession.project.ideal (oneFile "1") none oneId).fingerprint ≠
      (oneSession.project.ideal (oneFile "2") none oneId).fingerprint := by
  decide +kernel

theorem one_path : (∀ c ∈ ["1", "2"], (oneFile c).files.canonical ⟨"/b.js"⟩ = .ok ⟨"/b.js"⟩ ∧
    ((oneFile c).files.canonical ⟨"/x.js"⟩).toOption = none) ∧ oneId.path = ⟨"/b.js"⟩ := by
  decide +kernel

/-- A session of that project, up to date. -/
structure One (s : Session) (c : String) : Prop where
  options : s.options = oneOptions
  project : s.project = oneSession.project
  limit : s.limit = none
  shows : s.Shows (oneFile c) Path.Tidy
  within : s.graph.Within oneRealm

theorem proper_oneFile (c : String) : (oneFile c).Proper Path.Tidy :=
  World.proper_of_files fun _ h => nomatch h

theorem keeps_one {c : String} (hc : c ∈ ["1", "2"]) :
    oneSession.project.Keeps (oneFile c) none oneRealm := by
  rintro id rfl d hd
  rw [(one_ideal.1 c hc).1] at hd
  cases hd

theorem get?_oneOptions {name specifier : String}
    (h : oneOptions.entries.get? name = some specifier) : specifier = "./b.js" :=
  Table.eq_of_get?_singleton h

theorem entersIn_one {s : Session} {c : String} (hc : c ∈ ["1", "2"])
    (ho : s.options = oneOptions) (hp : s.project = oneSession.project) (hl : s.limit = none) :
    s.EntersIn (oneFile c) oneRealm := by
  intro name specifier hn t ht _
  rw [ho] at hn
  rw [hp, hl, get?_oneOptions hn, (one_entry c hc).2.1] at ht
  cases ht
  rfl

theorem One.module {s : Session} {c : String} (h : One s c) (hc : c ∈ ["1", "2"]) :
    ∃ m, s.graph.get? oneId = some m ∧ m.isLive = true ∧
      (oneSession.project.ideal (oneFile c) none oneId).Tells m := by
  have hseat := h.shows.current.seats "main" "./b.js" (by rw [h.options]; rfl)
  have hentry := hseat.entry
  rw [h.project, h.limit] at hentry
  unfold Resolution.entryId? at hentry
  rw [(one_entry c hc).2.1] at hentry
  obtain ⟨m, hm, hl⟩ := hseat.loaded oneId hentry
  have hx : m.external = false := eq_false_of_ne_true fun hx => (h.within oneId m hm).outside hx
  have hlive : m.isLive = true := Module.isLive_iff.mpr ⟨hx, hl⟩
  refine ⟨m, hm, hlive, ?_⟩
  have htells := (h.shows.current.mirrors.modules oneId m hm List.not_mem_nil).tells hlive
  rwa [h.project, h.limit] at htells

theorem One.fingerprint {s : Session} {c : String} (h : One s c) (hc : c ∈ ["1", "2"]) :
    ∀ m ∈ s.last.modules,
      m.fingerprint = (oneSession.project.ideal (oneFile c) none oneId).fingerprint := by
  intro m hm
  rw [h.shows.last] at hm
  obtain ⟨⟨id, m'⟩, he, rfl⟩ := List.mem_map.mp hm
  have hget := Table.mem_toList.mp he
  obtain rfl : id = oneId := (h.within id m' hget).inside
    (eq_false_of_ne_true fun hx => (h.within id m' hget).outside hx)
  obtain ⟨m'', hm'', -, htells⟩ := h.module hc
  obtain rfl : m'' = m' := Option.some.inj (hm''.symm.trans hget)
  show m''.fingerprint = _
  rw [htells.same]

theorem One.modules_ne_nil {s : Session} {c : String} (h : One s c) (hc : c ∈ ["1", "2"]) :
    s.last.modules ≠ [] := by
  obtain ⟨m, hm, -⟩ := h.module hc
  rw [h.shows.last]
  intro he
  have hmem : (oneId, m) ∈ s.graph.modules.toList := Table.mem_toList.mpr hm
  rw [List.map_eq_nil_iff.mp he] at hmem
  cases hmem

theorem One.failedEntries {s : Session} {c : String} (h : One s c) (hc : c ∈ ["1", "2"]) :
    s.failedEntries.isEmpty = true := by
  refine Table.isEmpty_iff.mpr fun name => ?_
  rw [get?_failedEntries]
  cases hn : s.options.entries.get? name with
  | none => rfl
  | some specifier =>
    have herror := (h.shows.current.seats name specifier hn).error
    rw [h.options] at hn
    rw [h.project, h.limit, get?_oneOptions hn] at herror
    unfold Resolution.entryError? at herror
    rw [(one_entry c hc).2.1] at herror
    refine if_neg fun hcont => ?_
    obtain ⟨e, he⟩ := Table.contains_iff.mp hcont
    rw [he] at herror
    cases herror

/-- A rebuild for some path marks the file exactly if the path is its own. -/
theorem One.mem_markStale {s : Session} {c d : String} (h : One s c) (hc : c ∈ ["1", "2"])
    (hd : d ∈ ["1", "2"]) : oneId ∈ (s.graph.markStale (oneFile d).files ⟨"/b.js"⟩).2 ∧
      (s.graph.markStale (oneFile d).files ⟨"/x.js"⟩).2 = [] := by
  obtain ⟨⟨hb, hx⟩, hpath⟩ := And.intro (one_path.1 d hd) one_path.2
  obtain ⟨m, hm, hl, htells⟩ := h.module hc
  have hof : ∀ {text : String} {id : ModuleId}, id ∈ s.graph.idsForPath text →
      id.path.text = text := fun hid => (h.shows.indexed.mem_idsForPath.mp hid).2
  refine ⟨ModuleGraph.mem_markStale.mpr ⟨⟨m, hm, hl⟩, .inl ?_⟩,
    List.eq_nil_iff_forall_not_mem.mpr fun id hid => ?_⟩
  · rw [hb]
    refine h.shows.indexed.mem_idsForPath.mpr ⟨ModuleGraph.contains_iff.mpr ⟨m, hm⟩, ?_⟩
    rw [hpath]
    rfl
  · obtain ⟨⟨m', hm', -⟩, hid⟩ := ModuleGraph.mem_markStale.mp hid
    obtain rfl : id = oneId := (h.within id m' hm').inside
      (eq_false_of_ne_true fun hx => (h.within id m' hm').outside hx)
    rw [hx] at hid
    rcases hid with hid | ⟨-, hid⟩ | ⟨m'', hm'', herr⟩
    · have := hof hid
      rw [hpath] at this
      exact absurd this (by decide)
    · have := hof hid
      rw [hpath] at this
      exact absurd this (by decide)
    · obtain rfl : m'' = m := Option.some.inj (hm''.symm.trans hm)
      have herrors := htells.errors
      rw [(one_ideal.1 c hc).2] at herrors
      unfold Module.hasResolveError at herr
      rw [List.forall₂_nil_left_iff.mp herrors] at herr
      cases herr

theorem One.of_finished {s t : Session} {q : Pass} {c : String} (hf : s.Finished q t)
    (ho : s.options = oneOptions) (hp : s.project = oneSession.project) (hl : s.limit = none)
    (hs : t.Shows (oneFile c) Path.Tidy) (hw : t.graph.Within oneRealm) : One t c where
  options := hf.options.trans ho
  project := hf.project.trans hp
  limit := by
    unfold Session.limit
    rw [hf.inquiries]
    exact hl
  shows := hs
  within := hw

theorem success_of_one {s : Session} (ho : s.options = oneOptions) (r : BuildResult) :
    s.answer r = .ok r := by
  unfold answer
  rw [ho]
  rfl

theorem entry_ext {a b : String × Resolution} (h : a.1 = b.1) (ho : a.2.outcome = b.2.outcome)
    (he : a.2.hookError = b.2.hookError) : a = b := by
  obtain ⟨_, _, _⟩ := a
  obtain ⟨_, _, _⟩ := b
  cases h
  cases ho
  cases he
  rfl

theorem create_one : create oneOptions (oneFile "1").files (fun _ => Transform.builtin)
    minifyBlanks = .ok oneSession :=
  create_eq_ok.mpr ⟨rfl, ⟨"/"⟩, by decide +kernel, rfl⟩

theorem atEase_one : oneSession.AtEase := atEase_create (proper_oneFile "1").start create_one

/-- The first build reads the file. -/
theorem one_build : ∃ fuel rep, oneSession.build (oneFile "1") fuel = some rep ∧
    One rep.session "1" ∧ rep.Written ∧ rep.outcome = .ok rep.session.last := by
  have h1 : "1" ∈ ["1", "2"] := by decide
  obtain ⟨N, hN⟩ : ∃ N, ∀ fuel ≥ N, ∃ rep, oneSession.fullBuild (oneFile "1") fuel = some rep := by
    refine @AtEase.fullBuild_rests _ atEase_one _ _ (proper_oneFile "1") [oneId]
      fun rs hsow id hn => ?_
    have hid : oneRealm.inside id :=
      inside_of_needed_build (keeps_one h1) (entersIn_one h1 rfl rfl rfl) hsow hn
    exact List.mem_singleton.mpr hid
  obtain ⟨rep, hrep⟩ := hN N (Nat.le_refl N)
  have hbuild : oneSession.build (oneFile "1") N = some rep := hrep
  have hwithin := fullBuild_within atEase_one (proper_oneFile "1") (keeps_one h1)
    (entersIn_one h1 rfl rfl rfl) hrep
  obtain ⟨rs, q, j, -, -, hj, rfl⟩ := atEase_one.of_fullBuild (proper_oneFile "1") hrep
  obtain ⟨hwr, hlast, hout⟩ := finish_of_no_outdir (s := { oneSession with
    inquiries := j, bundle := {}, built := true }) rfl (oneFile "1").files q []
    [.started oneSession.options.entries.size]
  refine ⟨N, _, hbuild, .of_finished (finished_finish _ _ _ _ _) rfl rfl hj.limit
    (fullBuild_shows atEase_one (proper_oneFile "1") hrep hwr) hwithin, hwr, ?_⟩
  rw [hout, hlast]
  exact success_of_one rfl _

/-- A rebuild of the file reads the second content. -/
theorem One.rebuild {s : Session} (h : One s "1") : ∃ fuel rep,
    s.rebuild (oneFile "2") ⟨"/b.js"⟩ fuel = some rep ∧ One rep.session "2" ∧
      rep.outcome = .ok rep.session.last := by
  have h1 : "1" ∈ ["1", "2"] := by decide
  have h2 : "2" ∈ ["1", "2"] := by decide
  have haw : s.Awaits (oneFile "2") Path.Tidy
      (s.graph.markStale (oneFile "2").files ⟨"/b.js"⟩).2 := by
    refine h.shows.announced ⟨fun id m hm _ hn => ?_, fun name specifier hname _ => ?_⟩
    · refine absurd ?_ hn
      rw [(h.within id m hm).inside
        (eq_false_of_ne_true fun hx => (h.within id m hm).outside hx)]
      exact (h.mem_markStale h1 h2).1
    · rw [h.options] at hname
      rw [h.project, h.limit, get?_oneOptions hname]
      obtain ⟨e1, e2, e3⟩ := one_entry "1" h1
      obtain ⟨d1, d2, d3⟩ := one_entry "2" h2
      exact entry_ext (d1.trans e1.symm) (d2.trans e2.symm) (d3.trans e3.symm)
  have henters := entersIn_one h2 h.options h.project h.limit
  have hkeeps : s.project.Keeps (oneFile "2") s.limit oneRealm := by
    rw [h.project, h.limit]
    exact keeps_one h2
  obtain ⟨M, hM⟩ : ∃ N, ∀ fuel ≥ N, ∃ rep,
      s.incrementalBuild (oneFile "2") ⟨"/b.js"⟩ fuel = some rep := by
    refine @Awaits.incrementalBuild_rests _ _ _ _ haw (proper_oneFile "2") [oneId]
      fun rs hsow id hn => ?_
    have hid : oneRealm.inside id := inside_of_needed_rebuild h.within hkeeps henters hsow hn
    exact List.mem_singleton.mpr hid
  obtain ⟨rep, hrep⟩ := hM M (Nat.le_refl M)
  have hrebuild : s.rebuild (oneFile "2") ⟨"/b.js"⟩ M = some rep := by
    rw [rebuild_of_atEase h.shows.toAtEase, h.shows.built, if_pos rfl]
    exact hrep
  have hwithin := incrementalBuild_within haw (proper_oneFile "2") hkeeps henters h.within hrep
  rcases haw.of_incrementalBuild (proper_oneFile "2") hrep with
    ⟨⟨hnil, -⟩, -⟩ | ⟨rs, q, j, -, -, hj, rfl⟩
  · have hmem := (h.mem_markStale h1 h2).1
    rw [hnil] at hmem
    cases hmem
  have hout : s.options.outdir = none := by rw [h.options]; rfl
  obtain ⟨hwr, hlast, houtcome⟩ := finish_of_no_outdir (s := { s with
    graph := (s.graph.markStale (oneFile "2").files ⟨"/b.js"⟩).1, inquiries := j }) hout
    (oneFile "2").files q
    (s.graph.markStale (oneFile "2").files ⟨"/b.js"⟩).2
    [.started s.failedEntries.size]
  have hone := One.of_finished (finished_finish { s with
    graph := (s.graph.markStale (oneFile "2").files ⟨"/b.js"⟩).1, inquiries := j } _ _ _ _)
    h.options h.project (hj.limit.trans h.limit)
    (incrementalBuild_shows haw (proper_oneFile "2") hrep hwr) hwithin
  refine ⟨M, _, hrebuild, hone, ?_⟩
  rw [houtcome, hlast]
  exact success_of_one h.options _

/-! ## Rebuilds without a change -/

/-- A rebuild without a change comes to the result that was returned last: it is the same, but that
it may tell other reasons for what could not be resolved. -/
theorem Stands.rebuild_same {D : Path → Prop} {s : Session} {w : World} {r : BuildResult}
    (h : Stands D w s (.ok r)) (changed : Path) :
    ∃ N, ∀ fuel ≥ N, ∃ rep r', s.rebuild w changed fuel = some rep ∧
      r.Alike r' ∧ ((∀ d ∈ r.errors, d.code ≠ "RESOLVE_ERROR") → r' = r) ∧
      s.Returns w.files r r' rep.outcome := by
  obtain ⟨hw, hs, hlast⟩ := h.shows
  obtain rfl := hlast r rfl
  obtain ⟨N, hN⟩ := hs.incrementalBuild_same hw (s.absolute changed)
  refine ⟨N, fun fuel hf => ?_⟩
  obtain ⟨rep, r', hrep, ha, hr⟩ := hN fuel hf
  refine ⟨rep, r', ?_, ha, fun hno => ha.eq hno ?_, hr⟩
  · rw [rebuild_of_atEase hs.toAtEase, hs.built, if_pos rfl]
    exact hrep
  · rw [hs.last]
    exact BuildResult.errors_assemble

theorem rebuild_same_of_one_file : ∃ (s : Session) (r : BuildResult),
    Stands Path.Tidy (oneFile "1") s (.ok r) ∧ r.modules ≠ [] ∧
    ∃ N, ∀ fuel ≥ N, ∃ rep r', s.rebuild (oneFile "1") ⟨"/b.js"⟩ fuel = some rep ∧
      r.Alike r' ∧ rep.outcome = .ok r' := by
  obtain ⟨N, rep, hbuild, hone, hwr, hout⟩ := one_build
  have hstands := Stands.build atEase_one (proper_oneFile "1") hbuild hwr
  rw [hout] at hstands
  refine ⟨_, _, hstands, hone.modules_ne_nil (by decide), ?_⟩
  obtain ⟨M, hM⟩ := hstands.rebuild_same ⟨"/b.js"⟩
  refine ⟨M, fun fuel hf => ?_⟩
  obtain ⟨rep', r', hrep', ha, -, hr⟩ := hM fuel hf
  refine ⟨rep', r', hrep', ha, ?_⟩
  rcases hr with h | ⟨hstrict, -⟩ | ⟨e, he, -⟩
  · exact h
  · rw [hone.options] at hstrict
    cases hstrict
  · rw [write_of_no_outdir (by rw [hone.options]; rfl)] at he
    cases he

/-- A file changes, a rebuild is asked for another path, and then, with nothing changed since, one
for the file. The results differ. -/
theorem rebuild_differs_after_unannounced :
    ∃ (s : Session) (rep₁ rep₂ rep₃ : Report) (r r' : BuildResult) (fuel fuel' : Nat),
      create oneOptions (oneFile "1").files (fun _ => Transform.builtin) minifyBlanks = .ok s ∧
      s.build (oneFile "1") fuel = some rep₁ ∧
      rep₁.session.rebuild (oneFile "2") ⟨"/x.js"⟩ fuel = some rep₂ ∧ rep₂.outcome = .ok r ∧
      rep₂.files = (oneFile "2").files ∧
      rep₂.session.rebuild (oneFile "2") ⟨"/b.js"⟩ fuel' = some rep₃ ∧ rep₃.outcome = .ok r' ∧
      r' ≠ r := by
  have h1 : "1" ∈ ["1", "2"] := by decide
  have h2 : "2" ∈ ["1", "2"] := by decide
  obtain ⟨N, rep₁, hbuild, hone, -⟩ := one_build
  -- A rebuild of another path finds nothing to do.
  generalize hs : rep₁.session = s at hone
  have hrep₂ : s.rebuild (oneFile "2") ⟨"/x.js"⟩ N =
      some { s.forgetLookups.report (oneFile "2").files (.ok s.last) with unaffected := true } := by
    rw [rebuild_of_atEase hone.shows.toAtEase, hone.shows.built, if_pos rfl]
    exact incrementalBuild_of_nothing (hone.mem_markStale h1 h2).2 (hone.failedEntries h1) N
  have hone₂ : One s.forgetLookups "1" := ⟨hone.options, hone.project, hone.limit,
    hone.shows.forget, hone.within⟩
  obtain ⟨M, rep₃, hrebuild, hone₃, hout₃⟩ := hone₂.rebuild
  subst hs
  refine ⟨oneSession, rep₁, _, rep₃, _, _, N, M, create_one, hbuild, hrep₂, rfl, rfl, hrebuild,
    hout₃, fun he => ?_⟩
  have hsame : rep₃.session.last = rep₁.session.last := he
  cases hmods : rep₁.session.last.modules with
  | nil => exact hone.modules_ne_nil h1 hmods
  | cons m ms =>
    have hm : m ∈ rep₁.session.last.modules := hmods ▸ List.mem_cons_self
    have hm' := hm
    rw [← hsame] at hm'
    exact one_ideal.2 ((hone.fingerprint h1 m hm).symm.trans (hone₃.fingerprint h2 m hm'))

end Session

end Bundler
