import Bundler.Proofs.Session.Entries

/-!
# What a session publishes

Over any run of requests, in whatever worlds they are made, a result that is returned describes what
the session keeps. There is one exception: a pass whose files cannot be written changes what is
kept and publishes nothing, so a rebuild that is not affected by its change returns a result from
before that pass. In a strict session such a rebuild is also the only request that returns a result
with errors.
-/

namespace Bundler

namespace Report

/-- A call that was not begun: the session is cancelled, or there is no such placeholder. -/
def Refused (rep : Report) : Prop :=
  rep.outcome = .error .cancelled ∨ ∃ message, rep.outcome = .error (.other message)

/-- A call that ran no pass. -/
def Idle (rep : Report) : Prop := rep.unaffected = true ∨ rep.Refused

def Publishes (rep : Report) : Prop := rep.Written ∧ ¬ rep.Idle

/-- Of some calls, the last one first: the latest that ran a pass could not write its files. -/
def Behind : List Report → Prop
  | [] => False
  | rep :: before => ¬ rep.Written ∨ rep.Idle ∧ Behind before

end Report

namespace BuildResult

variable {g : ModuleGraph} {chunks : ChunkGraph} {rendered : List RenderedChunk}

theorem mem_errors_of_module {id : ModuleId} {m : Module} {e : BuildError}
    (hm : g.get? id = some m) (he : e ∈ m.errors) :
    e.diagnostic (some id.text) ∈ (assemble g chunks rendered).errors := by
  have hinfo : moduleInfo (id, m) ∈ (assemble g chunks rendered).modules :=
    List.mem_map_of_mem (Table.mem_toList.mpr hm)
  exact errors_assemble _ hinfo _ (List.mem_map_of_mem he)

theorem success_of_mem {d : Diagnostic} (h : d ∈ (assemble g chunks rendered).errors) :
    (assemble g chunks rendered).success = false := by
  have hne : (assemble g chunks rendered).errors ≠ [] := List.ne_nil_of_mem h
  simpa [assemble] using hne

end BuildResult

namespace Session

variable {s t : Session} {w : World} {fuel : Nat} {req : Request} {rep : Report}
  {reps : List Report}

def described (s : Session) : BuildResult :=
  .assemble s.graph s.bundle.chunks s.bundle.rendered

/-! ## What a call comes to -/

inductive Concludes (s : Session) : Report → Prop
  | refused (files : FileTree) {e : Error} (he : (s.report files (.error e)).Refused) :
      Concludes s (s.report files (.error e))
  | unaffected (files : FileTree) (inquiries : Inquiries)
      (hi : inquiries.bridge = s.inquiries.bridge) (hb : s.built = true)
      (hf : s.failedEntries.isEmpty = true) :
      Concludes s { report { s with inquiries } files (.ok s.last) with unaffected := true }
  | finished {t : Session} (files : FileTree) (q : Pass) (stale : List ModuleId)
      (started : List ProgressEvent) (ho : t.options = s.options) (hl : t.last = s.last) :
      Concludes s (t.finish files q stale started)

theorem fullBuild_concludes (h : s.fullBuild w fuel = some rep) : s.Concludes rep := by
  obtain ⟨_, _, q, inquiries, -, -, rfl⟩ := fullBuild_eq_some h
  apply Concludes.finished <;> rfl

theorem incrementalBuild_concludes {changed : Path} (hb : s.built = true)
    (h : s.incrementalBuild w changed fuel = some rep) : s.Concludes rep := by
  rcases incrementalBuild_eq_some h with ⟨⟨-, hf⟩, rfl⟩ | ⟨p, i, q, inquiries, -, -, rfl⟩
  · exact .unaffected w.files _ rfl hb hf
  · apply Concludes.finished <;> rfl

theorem perform_concludes (h : s.perform w fuel req = some rep) : s.Concludes rep := by
  cases req with
  | build =>
    simp only [perform, build] at h
    split at h
    · cases h
      exact .refused w.files (.inl rfl)
    · exact fullBuild_concludes h
  | rebuild changed =>
    simp only [perform, rebuild] at h
    split at h
    · cases h
      exact .refused w.files (.inl rfl)
    · by_cases hb : s.built = true
      · rw [if_pos hb] at h
        exact incrementalBuild_concludes hb h
      · rw [if_neg hb] at h
        exact fullBuild_concludes h
  | compileLazy id =>
    simp only [perform, compileLazy] at h
    split at h
    · cases h
      exact .refused w.files (.inl rfl)
    · split at h
      · obtain ⟨q, inquiries, -, rfl⟩ := complete_eq_some h
        apply Concludes.finished <;> rfl
      · cases h
        exact .refused w.files (.inr ⟨_, rfl⟩)

/-! ## The end of a pass -/

section
variable (t : Session) (files : FileTree) (q : Pass) (stale : List ModuleId)
  (started : List ProgressEvent)

theorem described_finish :
    (t.finish files q stale started).session.described = t.finalResult q := by
  have hf := t.finished_finish files q stale started
  simp only [described, finalResult, hf.graph, hf.bundle]

theorem unaffected_finish : (t.finish files q stale started).unaffected = false := by
  unfold finish
  dsimp only
  split <;> rfl

theorem not_refused_finish : ¬ (t.finish files q stale started).Refused := by
  intro hr
  have hout : ∀ r, t.answer r ≠ .error .cancelled ∧
      ∀ message, t.answer r ≠ .error (.other message) := by
    intro r
    unfold answer
    split <;> simp
  cases hw : t.write files (t.finalResult q) with
  | mk tree o =>
    cases o with
    | ok u =>
      have ho := (t.finish_of_write files q stale started hw).2.2
      simp only [Report.Refused, ho] at hr
      rcases hr with hr | ⟨message, hr⟩
      · exact (hout _).1 hr
      · exact (hout _).2 message hr
    | error e =>
      obtain ⟨path, cause, rfl⟩ := write_error (congrArg Prod.snd hw)
      have ho := (@finish_of_write_error t files tree q stale started _ hw).2
      simp [Report.Refused, ho] at hr

/-- A request that finished a pass is not idle: it publishes if its files are written. -/
theorem not_idle_finish : ¬ (t.finish files q stale started).Idle := by
  rintro (h | h)
  · rw [unaffected_finish] at h
    cases h
  · exact t.not_refused_finish files q stale started h

/-- A pass that is finished publishes its result, and that is what the session now keeps, or leaves
the result that was published before. -/
theorem last_finish_cases :
    ((t.finish files q stale started).Written ∧
        (t.finish files q stale started).session.last =
          (t.finish files q stale started).session.described ∧
        (t.finish files q stale started).outcome =
          t.answer (t.finish files q stale started).session.last) ∨
      ¬ (t.finish files q stale started).Written ∧
        (t.finish files q stale started).session.last = t.last := by
  cases hw : t.write files (t.finalResult q) with
  | mk tree o =>
    cases o with
    | ok u =>
      left
      obtain ⟨h1, -, h2⟩ := t.finish_of_write files q stale started hw
      rw [described_finish, h1]
      exact ⟨fun path cause he => t.answer_ne_io _ path cause (h2.symm.trans he), rfl, h2⟩
    | error e =>
      right
      obtain ⟨path, cause, rfl⟩ := write_error (congrArg Prod.snd hw)
      obtain ⟨h1, h2⟩ := @finish_of_write_error t files tree q stale started _ hw
      exact ⟨fun hwritten => hwritten path cause h2, h1⟩

theorem written_finish : (t.finish files q stale started).Written ↔
    (t.write files (t.finalResult q)).2.toOption.isSome = true := by
  cases hw : t.write files (t.finalResult q) with
  | mk tree o =>
    cases o with
    | ok u =>
      have hout := (t.finish_of_write files q stale started hw).2.2
      exact iff_of_true (fun path cause he => t.answer_ne_io _ path cause (hout.symm.trans he)) rfl
    | error e =>
      obtain ⟨path, cause, rfl⟩ := write_error (congrArg Prod.snd hw)
      have hout := (@finish_of_write_error t files tree q stale started _ hw).2
      exact iff_of_false (fun h => h path cause hout) Bool.false_ne_true

/-- A finished pass leaves the files as its writes do. -/
theorem files_finish :
    (t.finish files q stale started).files = (t.write files (t.finalResult q)).1 := by
  unfold finish
  dsimp only
  split
  next hw => exact (congrArg Prod.fst hw).symm
  next hw => exact (congrArg Prod.fst hw).symm

end

/-! ## Requests that break down -/

/-- A request whose entries meet a breakdown of the host, and what it leaves of the session. -/
inductive BreaksDown (s : Session) (w : World) : Request → Session → Prop
  | build {t : Session} {reason : String} (hc : s.cancelled = false)
      (h : s.beginBuild w = (t, .error reason)) : BreaksDown s w .build t
  | first {t : Session} {reason : String} (changed : Path) (hc : s.cancelled = false)
      (hb : s.built = false) (h : s.beginBuild w = (t, .error reason)) :
      BreaksDown s w (.rebuild changed) t
  | rebuild {t : Session} {reason : String} {changed : Path} (hc : s.cancelled = false)
      (hb : s.built = true)
      (h : (s.mark w (s.absolute changed)).1.retry w = (t, .error reason)) :
      BreaksDown s w (.rebuild changed) t

theorem fullBuild_of_breakdown {reason : String} (h : s.beginBuild w = (t, .error reason)) :
    s.fullBuild w fuel = none := by
  unfold fullBuild
  rw [h]

/-- Without entries to be resolved once more, nothing breaks down. -/
theorem failedEntries_of_breakdown {changed : Path} {reason : String}
    (h : (s.mark w changed).1.retry w = (t, .error reason)) :
    (s.mark w changed).1.failedEntries.isEmpty = false := by
  by_contra hempty
  have hnil : (s.mark w changed).1.failedEntries.toList = [] :=
    List.isEmpty_iff.mp (eq_true_of_ne_false hempty)
  have herr := congrArg Prod.snd h
  unfold retry seed Pass.seedEntries at herr
  rw [hnil] at herr
  cases herr

/-- A request that breaks down returns nothing. -/
theorem BreaksDown.perform_eq_none (h : s.BreaksDown w req t) (fuel : Nat) :
    s.perform w fuel req = none := by
  cases h with
  | build hc h =>
    simp only [perform, Session.build, hc, Bool.false_eq_true, if_false]
    exact fullBuild_of_breakdown h
  | first changed hc hb h =>
    simp only [perform, Session.rebuild, hc, hb, Bool.false_eq_true, if_false]
    exact fullBuild_of_breakdown h
  | @rebuild _ _ changed hc hb h =>
    simp only [perform, Session.rebuild, hc, hb, Bool.false_eq_true, if_false]
    unfold incrementalBuild
    dsimp only
    rw [if_pos trivial, failedEntries_of_breakdown h, Bool.and_false, if_neg Bool.false_ne_true, h]

/-- A breakdown leaves the questions that were asked. If entries that had failed were resolved once
more, it leaves the marks of what is to be rebuilt as well. -/
theorem BreaksDown.leaves (h : s.BreaksDown w req t) : t = { s with inquiries := t.inquiries } ∨
    s.built = true ∧ s.failedEntries.isEmpty = false ∧ ∃ changed,
      t = { s with graph := (s.graph.markStale w.files changed).1, inquiries := t.inquiries } := by
  cases h with
  | build hc h =>
    obtain ⟨rfl, -⟩ := Prod.mk.inj h
    exact .inl rfl
  | first changed hc hb h =>
    obtain ⟨rfl, -⟩ := Prod.mk.inj h
    exact .inl rfl
  | @rebuild _ _ changed hc hb h =>
    have hfailed := failedEntries_of_breakdown h
    obtain ⟨rfl, -⟩ := Prod.mk.inj h
    rw [mark_failedEntries] at hfailed
    exact .inr ⟨hb, hfailed, s.absolute changed, rfl⟩

theorem atRest_seed (hs : s.inquiries.bridge.AtRest) (w : World) (p : Pass)
    (entries : Table String String) : (s.seed w p entries).1.inquiries.bridge.AtRest :=
  (Resolver.adds_resolveTogether _ w _ _ _ _ hs).atRest

theorem BreaksDown.atRest (h : s.BreaksDown w req t) (hs : s.inquiries.bridge.AtRest) :
    t.inquiries.bridge.AtRest := by
  have hfull : s.forgetLookups.inquiries.bridge.AtRest := hs
  cases h with
  | build hc h =>
    obtain rfl : (s.beginBuild w).1 = t := congrArg Prod.fst h
    exact atRest_seed hfull w _ _
  | first changed hc hb h =>
    obtain rfl : (s.beginBuild w).1 = t := congrArg Prod.fst h
    exact atRest_seed hfull w _ _
  | @rebuild _ _ changed hc hb h =>
    obtain rfl : ((s.mark w (s.absolute changed)).1.retry w).1 = t := congrArg Prod.fst h
    have hmarked : (s.mark w (s.absolute changed)).1.inquiries.bridge.AtRest := hs
    exact atRest_seed hmarked w _ _

/-! ## Runs -/

/-- What comes of a new session by requests and questions in whatever worlds, with the reports of
the requests that returned, the last one first. -/
inductive Runs : List Report → Session → Prop
  | create {o : Options} {files : FileTree} {transforms : Loader → Transform} {minifier : Minifier}
      {s : Session} (h : Session.create o files transforms minifier = .ok s) : Runs [] s
  | request {reps : List Report} {s : Session} (h : Runs reps s) {w : World} {fuel : Nat}
      {req : Request} {rep : Report} (hrep : s.perform w fuel req = some rep) :
      Runs (rep :: reps) rep.session
  | breakdown {reps : List Report} {s t : Session} (h : Runs reps s) {w : World} {req : Request}
      (hb : s.BreaksDown w req t) : Runs reps t
  | resolve {reps : List Report} {s : Session} (h : Runs reps s) (w : World) (specifier : String)
      (dir : Path) : Runs reps (s.resolve w specifier dir).1
  | cancel {reps : List Report} {s : Session} (h : Runs reps s) : Runs reps s.cancel

/-! ## Results that describe what is kept -/

/-- The last result tells what is kept, or a pass could not write its files, or there are entries to
be resolved once more, so that the next rebuild is not the last. -/
def Abreast (reps : List Report) (s : Session) : Prop :=
  s.built = true →
    s.last = s.described ∨ Report.Behind reps ∨ s.failedEntries.isEmpty = false

theorem Concludes.abreast (h : s.Concludes rep) (ha : Abreast reps s) :
    Abreast (rep :: reps) rep.session := by
  intro hb
  cases h with
  | refused files he =>
    rcases ha hb with h | h | h
    · exact .inl h
    · exact .inr (.inl (.inr ⟨.inr he, h⟩))
    · exact .inr (.inr h)
  | unaffected files inquiries hi hbuilt hf =>
    rcases ha hbuilt with h | h | h
    · exact .inl h
    · exact .inr (.inl (.inr ⟨.inl rfl, h⟩))
    · exact .inr (.inr h)
  | @finished t files q stale started ho hl =>
    rcases t.last_finish_cases files q stale started with ⟨-, h, -⟩ | ⟨h, -⟩
    · exact .inl h
    · exact .inr (.inl (.inl h))

theorem BreaksDown.abreast (h : s.BreaksDown w req t) (ha : Abreast reps s) : Abreast reps t := by
  intro hb
  rcases h.leaves with he | ⟨-, hfailed, changed, he⟩
  · rw [he] at hb ⊢
    exact ha hb
  · rw [he]
    exact .inr (.inr ((congrArg _ (s.failedEntries_markStale w.files changed)).trans hfailed))

theorem Runs.abreast (h : Runs reps s) : Abreast reps s := by
  induction h with
  | create h =>
    obtain ⟨-, root, -, rfl⟩ := create_eq_ok.mp h
    intro hb
    cases hb
  | request h hrep ih => exact (perform_concludes hrep).abreast ih
  | breakdown h hb ih => exact hb.abreast ih
  | resolve h w specifier dir ih => exact ih
  | cancel h ih => exact ih

/-- A result that is returned describes the graph, the chunks and the files that the session keeps,
or it is the last one from before a pass that could not write its files, and nothing was affected
since. -/
theorem Runs.ok_described (h : Runs reps s) (hrep : s.perform w fuel req = some rep)
    {r : BuildResult} (hr : rep.outcome = .ok r) :
    r = rep.session.described ∨ rep.unaffected = true ∧ Report.Behind reps ∧ r = s.last := by
  have hc := perform_concludes hrep
  cases hc with
  | refused files he => cases hr
  | unaffected files inquiries hi hb hf =>
    cases hr
    rcases h.abreast hb with ha | ha | ha
    · exact .inl ha
    · exact .inr ⟨rfl, ha, rfl⟩
    · rw [hf] at ha
      cases ha
  | @finished t files q stale started ho hl =>
    left
    rcases t.last_finish_cases files q stale started with ⟨-, hd, hout⟩ | ⟨hw, -⟩
    · rw [hr] at hout
      rw [← hd]
      exact answer_eq_ok hout.symm
    · exact absurd (fun path cause he => nomatch hr.symm.trans he) hw

/-! ## Two scripts below a directory -/

def pairSession : Session :=
  new { entries := .ofList [("main", "./a.js"), ("other", "./b.js")], root := ⟨"/"⟩,
        outdir := some ⟨"dist"⟩ } ⟨"/"⟩ (fun _ => Transform.builtin) minifyBlanks

def pairFiles (content : String) (others : List (String × Node)) : World :=
  ⟨⟨.dir (("a.js", .file (Text.Utf8.encode content)) ::
      ("b.js", .file (Text.Utf8.encode "1")) :: others), []⟩, none⟩

/-- The chunks of two entries that depend on nothing. -/
def pairChunks : ChunkGraph :=
  .ofChunks
    [{ name := "main", kind := .entry, entry := some ⟨"/a.js"⟩, modules := [⟨"/a.js"⟩] },
     { name := "other", kind := .entry, entry := some ⟨"/b.js"⟩, modules := [⟨"/b.js"⟩] }]

def pairScripts (g : ModuleGraph) : List OutputFile :=
  pairChunks.chunks.flatMap fun c => (pairSession.renderer.renderChunk g pairChunks c).files

/-- Both modules are in the graph, are of some sizes and depend on nothing. -/
def PairModules (sizes : List Nat) (g : ModuleGraph) : Prop :=
  g.entries.toList = [("main", ⟨"/a.js"⟩), ("other", ⟨"/b.js"⟩)] ∧
    g.ids = [⟨"/a.js"⟩, ⟨"/b.js"⟩] ∧
    (∀ id ∈ g.ids, (g.settle.get? id).any (fun m => m.isLive && m.targets.isEmpty) = true) ∧
    g.settle.modules.toList.map (·.2.size) = sizes

instance (sizes : List Nat) (g : ModuleGraph) : Decidable (PairModules sizes g) :=
  inferInstanceAs (Decidable (_ ∧ _ ∧ _ ∧ _))

theorem create_pair : create pairSession.options (pairFiles "1" []).files
    (fun _ => Transform.builtin) minifyBlanks = .ok pairSession :=
  create_eq_ok.mpr ⟨rfl, ⟨"/"⟩, by decide +kernel, rfl⟩

namespace PairModules

variable {sizes : List Nat} {g : ModuleGraph}

theorem prune_eq (h : PairModules sizes g) : g.prune = (g, []) := by
  obtain ⟨hentries, hids, -⟩ := h
  refine ModuleGraph.prune_eq_self fun id hid => ?_
  have hentry : ∀ e ∈ g.entries.toList, g.Reached e.2 := fun e he =>
    .entry (Table.mem_toList.mp he)
  rw [hentries] at hentry
  rw [← ModuleGraph.mem_ids, hids] at hid
  simp only [List.mem_cons, List.not_mem_nil, or_false] at hid
  rcases hid with rfl | rfl
  · exact hentry ("main", ⟨"/a.js"⟩) (by simp)
  · exact hentry ("other", ⟨"/b.js"⟩) (by simp)

theorem partition_eq (h : PairModules sizes g) :
    ChunkGraph.partition g.settle {} = pairChunks := by
  obtain ⟨hentries, hids, halone, -⟩ := h
  have hcollect : ∀ id ∈ g.ids, g.settle.collect id true = [id] := by
    intro id hid
    obtain ⟨m, hm, hal⟩ := (Option.any_eq_true _ _).mp (halone id hid)
    obtain ⟨hlive, hnone⟩ := Bool.and_eq_true_iff.mp hal
    refine ModuleGraph.Collects.eq (.live List.not_mem_nil hm hlive ?_)
    have hnone : ModuleGraph.followed true m = [] := List.isEmpty_iff.mp hnone
    rw [hnone]
    exact .nil _
  have hchunks : Partition.chunks g.settle {} =
      g.entries.toList.map (Partition.entryChunk g.settle true) := rfl
  rw [hids] at hcollect
  rw [ChunkGraph.partition, hchunks, hentries, List.map_cons, List.map_cons, List.map_nil,
    Partition.entryChunk, Partition.entryChunk, hcollect ⟨"/a.js"⟩ (by simp),
    hcollect ⟨"/b.js"⟩ (by simp)]
  rfl

section
variable {s : Session} {q : Pass} (h : PairModules sizes q.graph) (hs : pairSession.SameProject s)
  (hb : s.bundle = {})

include h in
theorem sizes_finalResult : (s.finalResult q).modules.map (·.size) = sizes := by
  have hmodules : (s.finalResult q).modules =
      q.graph.prune.1.settle.modules.toList.map BuildResult.moduleInfo := rfl
  rw [hmodules, h.prune_eq, List.map_map]
  exact h.2.2.2

include h hs hb

theorem finalBundle_eq : (s.finalBundle q).chunks = pairChunks ∧ (s.finalBundle q).rendered =
    pairChunks.chunks.map (pairSession.renderer.renderChunk q.graph.settle pairChunks) := by
  have hfits : (s.finalBundle q).Fits q.graph.settle {} pairSession.renderer := by
    rw [finalBundle, h.prune_eq, hb, hs.options, hs.renderer]
    exact Bundle.fits_update_empty _ _ _ _
  have hchunks := hfits.chunks.trans h.partition_eq
  exact ⟨hchunks, by rw [hfits.rendered, hchunks]⟩

theorem outputs_finalResult : (s.finalResult q).outputs = pairScripts q.graph.settle := by
  have houtputs : (s.finalResult q).outputs = (s.finalBundle q).rendered.flatMap (·.files) := rfl
  rw [houtputs, (h.finalBundle_eq hs hb).2, List.flatMap_map]
  rfl

theorem write_finalResult (files : FileTree) : s.write files (s.finalResult q) =
    BuildResult.writeFiles ⟨"/dist"⟩ (pairScripts q.graph.settle) files := by
  have hdir : s.absolute ⟨"dist"⟩ = ⟨"/dist"⟩ := by
    rw [absolute, hs.root]
    decide
  unfold write
  rw [hs.options]
  change BuildResult.writeFiles (s.absolute ⟨"dist"⟩) _ _ = _
  rw [hdir, h.outputs_finalResult hs hb]

end

end PairModules

/-- After a build of the modules, `/x.js` is none of them. -/
def PairEnd (sizes : List Nat) (w : World) (x : Pass × Inquiries) : Prop :=
  PairModules sizes x.1.graph ∧ x.2.bridge.cancelled = false ∧ x.2.bridge.limit = none ∧
    x.1.graph.entryErrors.isEmpty = true ∧ (x.1.graph.settle.markStale w.files ⟨"/x.js"⟩).2 = [] ∧
    (pairScripts x.1.graph.settle).map (·.fileName) = ["main.js", "other.js"]

instance (sizes : List Nat) (w : World) (x : Pass × Inquiries) : Decidable (PairEnd sizes w x) :=
  inferInstanceAs (Decidable (_ ∧ _ ∧ _ ∧ _ ∧ _ ∧ _))

/-- Whether the scripts can be written. -/
def pairWrites (w : World) (x : Pass × Inquiries) : Bool :=
  (BuildResult.writeFiles ⟨"/dist"⟩ (pairScripts x.1.graph.settle) w.files).2.toOption.isSome

/-- A file in the place of the directory of the outputs. -/
def blocked : World := pairFiles "22" [("dist", .file [])]

/-- What a full build of the modules comes to. -/
structure PairBuilt (s : Session) (w : World) (x : Pass × Inquiries) (rep : Report) : Prop where
  perform : s.perform w 5 .build = some rep
  same : pairSession.SameProject rep.session
  compiled : rep.session.compiled = {}
  built : rep.session.built = true
  inquiries : rep.session.inquiries = x.2
  graph : rep.session.graph = x.1.graph.settle
  chunks : rep.session.described.chunks.map (·.name) = ["main", "other"]
  outputs : rep.session.described.outputs = pairScripts x.1.graph.settle
  sizes : rep.session.described.modules.map (·.size) =
    x.1.graph.settle.modules.toList.map (·.2.size)
  written : pairWrites w x = true → rep.Written ∧ rep.session.last = rep.session.described ∧
    rep.outcome = .ok rep.session.described ∧
    rep.files = (BuildResult.writeFiles ⟨"/dist"⟩ (pairScripts x.1.graph.settle) w.files).1
  unwritten : pairWrites w x = false → ¬ rep.Written ∧ rep.session.last = s.last

theorem PairEnd.exists_build {sizes : List Nat} {s : Session} {w : World} {x : Pass × Inquiries}
    (h : PairEnd sizes w x) (hs : pairSession.SameProject s) (hcompiled : s.compiled = {})
    (hc : s.cancelled = false) (hq : s.fullPass w 5 = some x) : ∃ rep, PairBuilt s w x rep := by
  obtain ⟨q, i⟩ := x
  obtain ⟨hmodules, -, hlimit, -⟩ := h
  have hbuild := build_of_pass hc hq
  generalize ht : ({ s with inquiries := i, bundle := {}, built := true } : Session) = t at hbuild
  have hst : pairSession.SameProject t := by
    rw [← ht]
    exact ⟨hs.options, hs.root, hs.project, hs.renderer, hlimit⟩
  have hb : t.bundle = {} := by rw [← ht]
  have hwrite := hmodules.write_finalResult hst hb w.files
  have hf := t.finished_finish w.files q [] [.started s.options.entries.size]
  have hdescribed := t.described_finish w.files q [] [.started s.options.entries.size]
  have hwritten := t.written_finish w.files q [] [.started s.options.entries.size]
  have hlast := t.last_finish_cases w.files q [] [.started s.options.entries.size]
  have hfiles := t.files_finish w.files q [] [.started s.options.entries.size]
  rw [hwrite] at hwritten hfiles
  generalize t.finish w.files q [] _ = rep at *
  refine ⟨rep,
    { perform := hbuild
      same := hst.trans hf.sameProject
      compiled := ?_
      built := by rw [hf.built, ← ht]
      inquiries := by rw [hf.inquiries, ← ht]
      graph := by rw [hf.graph, hmodules.prune_eq]
      chunks := ?_
      outputs := by rw [hdescribed, hmodules.outputs_finalResult hst hb]
      sizes := by rw [hdescribed, hmodules.sizes_finalResult, hmodules.2.2.2]
      written := fun hw => ?_
      unwritten := fun hw => ?_ }⟩
  · rw [hf.compiled, ← ht]
    dsimp only
    rw [hcompiled]
    rfl
  · rw [hdescribed]
    change ((t.finalBundle q).chunks.chunks.map _).map _ = _
    rw [(hmodules.finalBundle_eq hst hb).1]
    rfl
  · have hrep := hwritten.mpr hw
    obtain ⟨-, hpublished, hout⟩ := hlast.resolve_right fun h => h.1 hrep
    have hanswer : ∀ r, t.answer r = .ok r := by
      intro r
      rw [answer, hst.options]
      rfl
    rw [hanswer, hpublished] at hout
    exact ⟨hrep, hpublished, hout, hfiles⟩
  · have hrep : ¬ rep.Written := fun h =>
      absurd (hw.symm.trans (hwritten.mp h)) Bool.false_ne_true
    exact ⟨hrep, by rw [(hlast.resolve_left fun h => hrep h.1).2, ← ht]⟩

set_option maxRecDepth 10000 in
theorem pair_passes : (pairSession.fullPass (pairFiles "1" []) 5).any (fun x =>
    decide (PairEnd [1, 1] (pairFiles "1" []) x) && pairWrites (pairFiles "1" []) x &&
      (fullPass { pairSession with inquiries := x.2 } blocked 5).any fun y =>
        decide (PairEnd [2, 1] blocked y) && !pairWrites blocked y) = true := by
  decide +kernel

/-- A build writes its scripts, and the next one cannot. A rebuild that affects nothing returns the
result of the first one then, and that is not what the second one left. -/
theorem ok_described_of_blocked_files : ∃ (rep rep' rep'' : Report) (r : BuildResult),
    pairSession.perform (pairFiles "1" []) 5 .build = some rep ∧ rep.outcome = .ok r ∧
      rep.session.perform blocked 5 .build = some rep' ∧ ¬ rep'.Written ∧
      rep'.session.perform blocked 5 (.rebuild ⟨"/x.js"⟩) = some rep'' ∧ rep''.outcome = .ok r ∧
      r ≠ rep''.session.described ∧ Report.Behind [rep', rep] := by
  obtain ⟨x, hx, h⟩ := (Option.any_eq_true _ _).mp pair_passes
  obtain ⟨h, hnext⟩ := Bool.and_eq_true_iff.mp h
  obtain ⟨hend, hwrites⟩ := Bool.and_eq_true_iff.mp h
  obtain ⟨y, hy, hnext⟩ := (Option.any_eq_true _ _).mp hnext
  obtain ⟨hend', hblocked⟩ := Bool.and_eq_true_iff.mp hnext
  have hend : PairEnd [1, 1] (pairFiles "1" []) x := of_decide_eq_true hend
  have hend' : PairEnd [2, 1] blocked y := of_decide_eq_true hend'
  obtain ⟨rep, hrep⟩ := hend.exists_build (.refl _) rfl rfl hx
  have hy : rep.session.fullPass blocked 5 = some y :=
    (fullPass_congr (s := { pairSession with inquiries := x.2 }) hrep.same.options
      hrep.same.project hrep.inquiries hrep.compiled _ _).trans hy
  obtain ⟨hmodules, hc, -, hfailed, hstale, -⟩ := id hend'
  obtain ⟨rep', hrep'⟩ := hend'.exists_build hrep.same hrep.compiled
    (by rw [cancelled, hrep.inquiries]; exact hend.2.1) hy
  obtain ⟨-, hlast, hout, -⟩ := hrep.written hwrites
  obtain ⟨hnot, hlast'⟩ := hrep'.unwritten (by simpa using hblocked)
  have habs : rep'.session.absolute ⟨"/x.js"⟩ = ⟨"/x.js"⟩ := absolute_of_isAbsolute (by decide)
  have hrebuild : rep'.session.perform blocked 5 (.rebuild ⟨"/x.js"⟩) = _ := rebuild_of_nothing
    (by rw [cancelled, hrep'.inquiries]; exact hc) hrep'.built
    (by rw [habs, hrep'.graph]; exact hstale)
    (failedEntries_of_no_errors
      (by rw [hrep'.graph, ModuleGraph.entryErrors_settle]; exact hfailed)) 5
  rw [hlast', hlast] at hrebuild
  have hne : rep.session.described ≠ rep'.session.described := by
    intro he
    have hsizes := congrArg (fun r : BuildResult => r.modules.map (·.size)) he
    rw [hrep.sizes, hrep'.sizes, hend.1.2.2.2, hmodules.2.2.2] at hsizes
    exact absurd hsizes (by decide)
  have hruns := ((Runs.create create_pair).request hrep.perform).request hrep'.perform
  have hbehind := (hruns.ok_described hrebuild rfl).resolve_left hne
  exact ⟨rep, rep', _, _, hrep.perform, hout, hrep'.perform, hnot, hrebuild, rfl, hne, hbehind.2.1⟩

/-! ## Strict sessions -/

/-- An unsuccessful last result was reported as a failure, or there is none yet. -/
def Reported (reps : List Report) (r : BuildResult) : Prop :=
  r.success = false → (r = {} ∧ ∀ old ∈ reps, ¬ old.Publishes) ∨
    ∃ old ∈ reps, old.outcome = .error (.buildFailed r.errors)

theorem Reported.cons {r : BuildResult} (h : Reported reps r) (hrep : ¬ rep.Publishes) :
    Reported (rep :: reps) r := by
  intro hs
  rcases h hs with ⟨he, hnone⟩ | ⟨old, hold, hout⟩
  · left
    refine ⟨he, fun old hold => ?_⟩
    rcases List.mem_cons.mp hold with rfl | hold
    · exact hrep
    · exact hnone old hold
  · exact .inr ⟨old, List.mem_cons_of_mem _ hold, hout⟩

theorem answer_of_strict (hs : t.options.strict = true) {r : BuildResult}
    (hr : r.success = false) : t.answer r = .error (.buildFailed r.errors) := by
  simp [answer, hs, hr]

theorem Concludes.reported (h : s.Concludes rep) (hs : s.options.strict = true)
    (hr : Reported reps s.last) : Reported (rep :: reps) rep.session.last := by
  cases h with
  | refused files he => exact hr.cons fun hp => hp.2 (.inr he)
  | unaffected files inquiries hi hb hf => exact hr.cons fun hp => hp.2 (.inl rfl)
  | @finished t files q stale started ho hl =>
    rcases t.last_finish_cases files q stale started with ⟨-, -, hout⟩ | ⟨hw, hlast⟩
    · intro hfail
      rw [answer_of_strict (by rw [ho]; exact hs) hfail] at hout
      exact .inr ⟨_, List.mem_cons_self, hout⟩
    · rw [hlast, hl]
      exact hr.cons fun hp => hw hp.1

theorem Concludes.options (h : s.Concludes rep) : rep.session.options = s.options := by
  cases h with
  | refused files he => rfl
  | unaffected files inquiries hi hb hf => rfl
  | @finished t files q stale started ho hl =>
    exact (t.finished_finish files q stale started).options.trans ho

theorem Runs.reported (h : Runs reps s) (hs : s.options.strict = true) : Reported reps s.last := by
  induction h with
  | create h =>
    obtain ⟨-, root, -, rfl⟩ := create_eq_ok.mp h
    exact fun _ => .inl ⟨rfl, fun old hold => absurd hold List.not_mem_nil⟩
  | request h hrep ih =>
    have hc := perform_concludes hrep
    rw [hc.options] at hs
    exact hc.reported hs (ih hs)
  | breakdown h hb ih =>
    rcases hb.leaves with he | ⟨-, -, changed, he⟩
    · rw [he] at hs ⊢
      exact ih hs
    · rw [he] at hs ⊢
      exact ih hs
  | resolve h w specifier dir ih => exact ih hs
  | cancel h ih => exact ih hs

/-- A strict session returns a result with errors only from a rebuild that affects nothing. That
result was reported as a failure by an earlier request, or is the empty one of a session that has
published none. Every other request after which the last result is unsuccessful ends in an error:
the failed build with its errors, or files that could not be written, or a refusal. -/
theorem Runs.strict_ok (h : Runs reps s) (hs : s.options.strict = true)
    (hrep : s.perform w fuel req = some rep) :
    (∀ r, rep.outcome = .ok r → r.success = false → rep.unaffected = true ∧ r = s.last ∧
      ((r = {} ∧ ∀ old ∈ reps, ¬ old.Publishes) ∨
        ∃ old ∈ reps, old.outcome = .error (.buildFailed r.errors))) ∧
    (rep.session.last.success = false → rep.unaffected = true ∨
      rep.outcome = .error (.buildFailed rep.session.last.errors) ∨ ¬ rep.Written ∨
        rep.Refused) := by
  have hreported := h.reported hs
  have hc := perform_concludes hrep
  cases hc with
  | refused files he => exact ⟨fun r hr => (nomatch hr), fun _ => .inr (.inr (.inr he))⟩
  | unaffected files inquiries hi hb hf =>
    refine ⟨fun r hr hfail => ?_, fun _ => .inl rfl⟩
    cases hr
    exact ⟨rfl, rfl, hreported hfail⟩
  | @finished t files q stale started ho hl =>
    have ht : t.options.strict = true := by rw [ho]; exact hs
    rcases t.last_finish_cases files q stale started with ⟨-, -, hout⟩ | ⟨hw, -⟩
    · refine ⟨fun r hr hfail => ?_, fun hfail => .inr (.inl ?_)⟩
      · rw [hr] at hout
        rw [← answer_eq_ok hout.symm, answer_of_strict ht hfail] at hout
        cases hout
      · rw [hout, answer_of_strict ht hfail]
    · refine ⟨fun r hr _ => absurd (fun path cause he => nomatch hr.symm.trans he) hw, fun _ => ?_⟩
      exact .inr (.inr (.inl hw))

/-! ## A strict session with an entry that cannot be loaded -/

def oddSession : Session :=
  new { entries := .ofList [("main", "./b.odd")], root := ⟨"/"⟩, strict := true } ⟨"/"⟩
    (fun _ => Transform.builtin) minifyBlanks

/-- No loader takes the extension of the entry. -/
def oddFile : World := ⟨⟨.dir [("b.odd", .file [])], []⟩, none⟩

/-- The module of the entry is alone in the graph and has an error, and `/x.js` is no module. -/
def OddEnd (x : Pass × Inquiries) : Prop :=
  x.2.bridge.cancelled = false ∧ x.1.graph.entryErrors.isEmpty = true ∧
    x.1.graph.entries.get? "main" = some ⟨"/b.odd"⟩ ∧ x.1.graph.ids = [⟨"/b.odd"⟩] ∧
    (x.1.graph.settle.get? ⟨"/b.odd"⟩).any (fun m => !m.errors.isEmpty) = true ∧
    (x.1.graph.settle.markStale oddFile.files ⟨"/x.js"⟩).2 = []

instance (x : Pass × Inquiries) : Decidable (OddEnd x) :=
  inferInstanceAs (Decidable (_ ∧ _ ∧ _ ∧ _ ∧ _ ∧ _))

theorem create_odd : create oddSession.options oddFile.files (fun _ => Transform.builtin)
    minifyBlanks = .ok oddSession :=
  create_eq_ok.mpr ⟨rfl, ⟨"/"⟩, by decide +kernel, rfl⟩

set_option maxRecDepth 10000 in
theorem odd_pass : (oddSession.fullPass oddFile 2).any (fun x => decide (OddEnd x)) = true := by
  decide +kernel

theorem OddEnd.prune_eq {x : Pass × Inquiries} (h : OddEnd x) :
    x.1.graph.prune = (x.1.graph, []) := by
  obtain ⟨-, -, hentry, hids, -⟩ := h
  apply ModuleGraph.prune_eq_self
  intro id hid
  rw [← ModuleGraph.mem_ids, hids, List.mem_singleton] at hid
  rw [hid]
  exact .entry hentry

/-- The build fails, and a rebuild that affects nothing returns its result. -/
theorem strict_ok_of_odd_file : ∃ (rep rep' : Report) (r : BuildResult),
    oddSession.perform oddFile 2 .build = some rep ∧
      rep.session.perform oddFile 2 (.rebuild ⟨"/x.js"⟩) = some rep' ∧
      rep'.outcome = .ok r ∧ r.success = false ∧
      ∃ old ∈ [rep], old.outcome = .error (.buildFailed r.errors) := by
  obtain ⟨⟨q, inquiries⟩, hrun, hodd⟩ := (Option.any_eq_true _ _).mp odd_pass
  have hodd : OddEnd (q, inquiries) := of_decide_eq_true hodd
  obtain ⟨hcancelled, hfailed, -, -, herror, hstale⟩ := id hodd
  obtain ⟨rep, hbuild, hf, -, hlast, -⟩ := exists_build (s := oddSession) rfl rfl hrun
  have hgraph : rep.session.graph = q.graph.settle := by rw [hf.graph, hodd.prune_eq]
  obtain ⟨d, hd⟩ : ∃ d, d ∈ rep.session.last.errors := by
    obtain ⟨m, hm, hne⟩ := (Option.any_eq_true _ _).mp herror
    obtain ⟨e, he⟩ := List.exists_mem_of_ne_nil m.errors (by simpa using hne)
    rw [hlast, finalResult, hodd.prune_eq]
    exact ⟨_, BuildResult.mem_errors_of_module hm he⟩
  have hfail : rep.session.last.success = false := by
    rw [hlast] at hd ⊢
    exact BuildResult.success_of_mem hd
  have habs : rep.session.absolute ⟨"/x.js"⟩ = ⟨"/x.js"⟩ := absolute_of_isAbsolute (by decide)
  have hrebuild : rep.session.perform oddFile 2 (.rebuild ⟨"/x.js"⟩) = _ := rebuild_of_nothing
    (by rw [cancelled, hf.inquiries]; exact hcancelled) hf.built (by rw [habs, hgraph]; exact hstale)
    (failedEntries_of_no_errors (by rw [hgraph, ModuleGraph.entryErrors_settle]; exact hfailed)) 2
  have hperform : oddSession.perform oddFile 2 .build = some rep := hbuild
  have hstrict : rep.session.options.strict = true := by rw [hf.options]; rfl
  obtain ⟨-, -, ⟨hempty, -⟩ | hold⟩ :=
    (((Runs.create create_odd).request hperform).strict_ok hstrict hrebuild).1 _ rfl hfail
  · rw [hempty] at hd
    exact absurd hd List.not_mem_nil
  · exact ⟨rep, _, _, hperform, hrebuild, rfl, hfail, hold⟩

end Session

end Bundler
