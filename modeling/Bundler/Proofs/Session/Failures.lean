import Bundler.Proofs.Build.Accounts
import Bundler.Proofs.Manifest
import Bundler.Proofs.Session.Published

/-!
# Failures of the host

A result tells of the questions to the host that failed on the way to it, for each module that it
has: of the failure itself and of what went wrong with the default that took its place. A module for
which the host broke down as well tells of the breakdown alone. The failure for an entry is not told;
if the default fails for it as well, that is.
-/

namespace Bundler

/-! ## Entries -/

/-- An entry leads to a module, or has an error of its specifier. -/
def ModuleGraph.Places (g : ModuleGraph) (root : Path) (name specifier : String) : Prop :=
  (∃ id, g.entries.get? name = some id) ∨
    ∃ reason, g.entryErrors.get? name = some (.resolve root.text specifier reason)

theorem Resolution.FellThrough.entry {x : Resolution} {r : Resolver} {specifier : String}
    {root : Path} {f : HookFailure} (h : x.FellThrough r specifier root f) :
    (∃ id, x.entryId? = some id) ∨
      ∃ reason, x.entryError? root specifier = some (.resolve root.text specifier reason) := by
  unfold entryId? entryError?
  cases hx : x.outcome with
  | ok t =>
    by_cases ht : t.external = true
    · exact .inr ⟨"entry cannot be external", by simp [ht]⟩
    · exact .inl ⟨t.id, by simp [ht]⟩
  | error e =>
    obtain ⟨hspec, hsource⟩ := h.error e hx
    refine .inr ⟨e.reason, ?_⟩
    simp only [ResolveError.toBuildError, hspec, hsource]

def Project.entryCall (p : Project) (files : FileTree) (specifier : String) : HostCall :=
  .resolve ⟨none, p.resolver.asked (Pass.entrySpecifier files p.resolver.root specifier)⟩

/-- The questions of a seeding are those for its entries. -/
theorem Pass.adds_seedEntries {p p' : Pass} {project : Project} {w : World} {i j : Inquiries}
    {entries : Table String String} (hi : i.bridge.AtRest)
    (hp : p.seedEntries project w i entries = (j, .ok p')) :
    i.bridge.Adds j.bridge fun _ call =>
      ∃ name specifier, entries.get? name = some specifier ∧
        call = project.entryCall w.files specifier ∧
        p'.graph.Places project.resolver.root name
          (entrySpecifier w.files project.resolver.root specifier) := by
  obtain ⟨out, hout, rfl⟩ := seedEntries_eq_ok hp
  have hadds := project.resolver.adds_resolveTogether w none project.resolver.root
    (fun e : String × String => e.2)
    (entries.toList.map fun e => (e.1, entrySpecifier w.files project.resolver.root e.2)) hi
  have hsub := Resolver.sublist_resolveTogether (congrArg Prod.snd hout)
  rw [hout] at hadds
  refine hadds.mono ?_
  rintro f call h
  obtain ⟨a, x, hmem, rfl, hfell⟩ := h out rfl
  obtain ⟨y, hy, he⟩ := List.mem_map.mp hmem
  cases he
  obtain ⟨e, he, hye⟩ := List.mem_map.mp (hsub.subset (List.mem_map_of_mem (f := (·.1)) hy))
  have hn : (out.map (·.1.1)).Nodup := by
    have h := (hsub.map (·.1)).nodup
    rw [List.map_map, List.map_map] at h
    exact h (Table.keys_nodup entries)
  obtain ⟨hseed, -⟩ := p.get?_entries_seeds project.resolver.root j.bridge.cancelled hn y.1.1
  obtain ⟨h1, h2⟩ := hseed y hy rfl
  refine ⟨e.1, e.2, Table.mem_toList.mp he, ?_, ?_⟩
  · rw [← hye]
    rfl
  · have hspec : entrySpecifier w.files project.resolver.root e.2 = y.1.2 := by rw [← hye]
    have hname : e.1 = y.1.1 := by rw [← hye]
    unfold ModuleGraph.Places
    rw [hname, hspec, h1, h2]
    exact hfell.entry

/-! ## Results -/

theorem Loading.code_of_loaderFor {p : Loading} {id : ModuleId} {chosen : Option Loader}
    {e : BuildError} (h : p.loaderFor id chosen = .error e) : e.code = "LOAD_ERROR" := by
  cases chosen with
  | some l => cases h
  | none =>
    simp only [loaderFor, select] at h
    split at h
    · cases h
    · cases h
      rfl

theorem Loading.code_of_ofFile {p : Loading} {files : FileTree} {id : ModuleId}
    {chosen : Option Loader} {e : BuildError} (h : p.ofFile files id chosen = .error e) :
    e.code = "LOAD_ERROR" := by
  unfold ofFile at h
  cases hl : p.loaderFor id chosen with
  | error e' =>
    rw [hl] at h
    cases h
    exact code_of_loaderFor hl
  | ok l =>
    rw [hl] at h
    cases hr : files.read id.path with
    | ok content =>
      simp only [hr] at h
      cases h
    | error cause =>
      simp only [hr] at h
      cases h
      rfl

namespace BuildResult

/-- A result that tells of a question for a module that failed. -/
def TellsOf (r : BuildResult) (p : Project) (files : FileTree) (m : Module) (f : HookFailure)
    (call : HostCall) : Prop :=
  (call.failure f).diagnostic (some m.id.text) ∈ r.errors ∧ r.success = false ∧
    match call with
    | .load _ => ∀ e, p.loading.ofFile files m.id none = .error e →
        e.code = "LOAD_ERROR" ∧ e.diagnostic (some m.id.text) ∈ r.errors
    | .resolve q => ∃ d ∈ m.dependencies, p.resolver.asked d.specifier = q.importee ∧
        (d.target = none → ∃ reason,
          (BuildError.resolve m.id.path.text d.specifier reason).diagnostic (some m.id.text) ∈
            r.errors)

/-- A result that tells of a module just that a question for it broke down. -/
def TellsOfBreakdown (r : BuildResult) (b : Bridge) (m : Module) : Prop :=
  ∃ reason call, call.module? = some m.id.text ∧ b.Broken call ∧ m = Project.broken m.id reason ∧
    r.success = false ∧ ∀ d, d ∈ r.errors ∧ d.module = some m.id.text ↔
      d = (BuildError.load m.id.text ("internal error: " ++ reason)).diagnostic (some m.id.text)

variable {g : ModuleGraph} {chunks : ChunkGraph} {rendered : List RenderedChunk}

/-- The errors of a module in a result are those that it has in the graph. -/
theorem mem_errors_iff {id : ModuleId} {m : Module} (hm : g.get? id = some m) {d : Diagnostic} :
    d ∈ (assemble g chunks rendered).errors ∧ d.module = some id.text ↔
      ∃ e ∈ m.errors, d = e.diagnostic (some id.text) := by
  constructor
  · rintro ⟨hd, hid⟩
    rcases List.mem_append.mp hd with hd | hd
    · obtain ⟨e, -, rfl⟩ := List.mem_map.mp hd
      cases hid
    · obtain ⟨info, hinfo, hd⟩ := List.mem_flatMap.mp hd
      have hinfo : info ∈ (assemble g chunks rendered).modules := hinfo
      obtain ⟨id', m', hm', rfl⟩ := mem_modules_assemble.mp hinfo
      obtain ⟨e, he, rfl⟩ := List.mem_map.mp hd
      obtain rfl : id' = id := congrArg ModuleId.mk (Option.some.inj hid)
      rw [hm] at hm'
      cases hm'
      exact ⟨e, he, rfl⟩
  · rintro ⟨e, he, rfl⟩
    exact ⟨mem_errors_of_module hm he, rfl⟩

theorem mem_errors_of_entry {name : String} {e : BuildError}
    (h : g.entryErrors.get? name = some e) :
    e.diagnostic none ∈ (assemble g chunks rendered).errors :=
  List.mem_append_left _ (List.mem_map_of_mem (Table.mem_values.mpr ⟨name, h⟩))

theorem tellsOf_of_admits {p : Project} {files : FileTree} {m : Module} {f : HookFailure}
    {call : HostCall} (hm : g.get? m.id = some m) (hc : call.module? = some m.id.text)
    (h : m.Admits p files f call) : (assemble g chunks rendered).TellsOf p files m f call := by
  have hmem : ∀ e ∈ m.errors,
      e.diagnostic (some m.id.text) ∈ (assemble g chunks rendered).errors :=
    fun e he => mem_errors_of_module hm he
  cases call with
  | load id =>
    cases hc
    have htold := hmem _ h.1
    refine ⟨htold, success_of_mem htold, ?_⟩
    intro e he
    exact ⟨Loading.code_of_ofFile he, hmem e (h.2 e he)⟩
  | resolve q =>
    obtain ⟨htold, d, hd, hasked, hnone⟩ := h
    refine ⟨hmem _ htold, success_of_mem (hmem _ htold), d, hd, hasked, ?_⟩
    intro htarget
    obtain ⟨reason, hr⟩ := hnone htarget
    exact ⟨reason, hmem _ hr⟩

theorem tellsOfBreakdown_of_brokeDown {m : Module} {b : Bridge} (hm : g.get? m.id = some m)
    (h : m.BrokeDown b) : (assemble g chunks rendered).TellsOfBreakdown b m := by
  obtain ⟨reason, call, he, hc, hb⟩ := h
  have herrors : m.errors = [.load m.id.text ("internal error: " ++ reason)] := by
    rw [he]
    rfl
  have hall : ∀ d, d ∈ (assemble g chunks rendered).errors ∧ d.module = some m.id.text ↔
      d = (BuildError.load m.id.text ("internal error: " ++ reason)).diagnostic
        (some m.id.text) := by
    intro d
    rw [mem_errors_iff hm, herrors]
    simp
  exact ⟨reason, call, hc, hb, he, success_of_mem ((hall _).mpr rfl).1, hall⟩

end BuildResult

namespace Session

variable {s : Session} {w : World} {fuel : Nat} {req : Request} {rep : Report}
  {reps : List Report}

/-! ## One pass -/

/-- A question for an entry, which leads to a module all the same or has an error. -/
def PlacesEntry (s : Session) (w : World) (g : ModuleGraph) (call : HostCall) : Prop :=
  ∃ name specifier, s.options.entries.get? name = some specifier ∧
    call = s.project.entryCall w.files specifier ∧
    g.Places s.project.resolver.root name
      (Pass.entrySpecifier w.files s.project.resolver.root specifier)

theorem PlacesEntry.of_eq {g h : ModuleGraph} {call : HostCall} (hp : s.PlacesEntry w g call)
    (he : h.entries = g.entries) (hr : h.entryErrors = g.entryErrors) :
    s.PlacesEntry w h call := by
  obtain ⟨name, specifier, hname, hcall, hplaces⟩ := hp
  refine ⟨name, specifier, hname, hcall, ?_⟩
  unfold ModuleGraph.Places at hplaces ⊢
  rw [he, hr]
  exact hplaces

/-- What a graph tells of a question that failed. -/
structure Tells (s : Session) (w : World) (b : Bridge) (g : ModuleGraph) (f : HookFailure)
    (call : HostCall) : Prop where
  modules : ∀ id m, call.module? = some id.text → g.get? id = some m →
    m.id = id ∧ m.Answers s.project w.files b f call
  entries : call.module? = none → s.PlacesEntry w g call

/-- A pass that went on from some seeds tells of the questions that failed since before. -/
theorem tells_of_run {g : ModuleGraph} {eager : List ModuleId} {seeds : Pass.Seeds} {p q : Pass}
    {i j : Inquiries} (hb : Pass.Begins s.rules s.project.resolver.root seeds { graph := g, eager } p)
    (hi : s.inquiries.bridge.Adds i.bridge fun _ call => s.PlacesEntry w p.graph call)
    (hrun : p.run s.project w fuel i = some (q, j)) :
    j.bridge.AtRest ∧ ∀ f call, s.inquiries.bridge.Failed j.bridge f call →
      s.Tells w j.bridge q.graph.prune.1.settle f call := by
  have hp : p.Tidy := (Pass.Tidy.new g eager).begins hb
  have hseeds : ∀ f call, s.inquiries.bridge.Failed i.bridge f call →
      s.PlacesEntry w p.graph call := by
    intro f call hf
    exact (hi.failed _ f call hf).resolve_left (Bridge.not_failed_self _ f call)
  obtain ⟨hadds, hmodules⟩ := Pass.run_accounts (s.discipline w) hrun trivial hp
    (fun _ _ => trivial) hi.atRest fun f call id hf hm => by
      obtain ⟨name, specifier, -, rfl, -⟩ := hseeds f call hf
      cases hm
  obtain ⟨hentries, herrors⟩ := (runs_of_run hb hrun).1.entries_eq
  refine ⟨hadds.atRest, fun f call hf => ⟨?_, ?_⟩⟩
  · intro id m hm hget
    obtain ⟨m', hget', hid, hanswers⟩ := hmodules f call id hf hm
    obtain ⟨-, m₁, hm₁, rfl⟩ := ModuleGraph.get?_settle_prune.mp hget
    rw [hget'] at hm₁
    cases hm₁
    exact ⟨(Module.settled_id m').trans hid, hanswers.imp Module.Admits.settled
      Module.BrokeDown.settled⟩
  · intro hm
    have hplaces : s.PlacesEntry w p.graph call := by
      rcases hadds.failed _ f call hf with hf | ⟨id, hid⟩
      · exact hseeds f call hf
      · rw [hm] at hid
        cases hid
    refine hplaces.of_eq ?_ ?_
    · rw [ModuleGraph.entries_settle, ModuleGraph.entries_prune, hentries]
    · rw [ModuleGraph.entryErrors_settle, ModuleGraph.entryErrors_prune, herrors]

theorem fullBuild_tells (hrest : s.inquiries.bridge.AtRest) (h : s.fullBuild w fuel = some rep) :
    rep.session.inquiries.bridge.AtRest ∧
      ∀ f call, s.inquiries.bridge.Failed rep.session.inquiries.bridge f call →
        s.Tells w rep.session.inquiries.bridge rep.session.graph f call := by
  obtain ⟨p, i, q, j, hp, hrun, rfl⟩ := fullBuild_eq_some h
  obtain ⟨entries, hb⟩ := begins_of_seedEntries hp false []
  have hadds := Pass.adds_seedEntries (i := { s.inquiries with cache := {} }) hrest hp
  have htells := tells_of_run hb hadds hrun
  have hf := finished_finish { s with inquiries := j, bundle := {}, built := true } w.files q []
    [.started s.options.entries.size]
  rw [hf.inquiries, hf.graph]
  exact htells

theorem incrementalBuild_tells (hrest : s.inquiries.bridge.AtRest) {changed : Path}
    (h : s.incrementalBuild w changed fuel = some rep) :
    rep.session.inquiries.bridge.AtRest ∧
      ∀ f call, s.inquiries.bridge.Failed rep.session.inquiries.bridge f call →
        s.Tells w rep.session.inquiries.bridge rep.session.graph f call := by
  rcases incrementalBuild_eq_some h with ⟨-, rfl⟩ | ⟨p, i, q, j, hp, hrun, rfl⟩
  · exact ⟨hrest, fun f call hf => (Bridge.not_failed_self _ f call hf).elim⟩
  · obtain ⟨entries, hb⟩ := begins_of_seedEntries hp i.bridge.cancelled
      (s.graph.markStale w.files changed).2
    have hadds := Pass.adds_seedEntries (i := { s.inquiries with cache := {} }) hrest hp
    obtain ⟨h1, h2⟩ := p.entries_reprocessAll i.bridge.cancelled
      (s.graph.markStale w.files changed).2
    generalize (s.graph.markStale w.files changed).2.foldl
      (fun p id => p.reprocess i.bridge.cancelled id) p = p' at h1 h2 hb hrun
    have hplaces : s.inquiries.bridge.Adds i.bridge fun _ call =>
        s.PlacesEntry w p'.graph call := by
      refine hadds.mono ?_
      rintro f call ⟨name, specifier, hname, hcall, hplaces⟩
      rw [get?_failedEntries] at hname
      have hentry := (Option.filter_eq_some_iff.mp hname).1
      exact PlacesEntry.of_eq ⟨name, specifier, hentry, hcall, hplaces⟩ h1 h2
    have htells := tells_of_run hb hplaces hrun
    have hf := finished_finish
      { s with graph := (s.graph.markStale w.files changed).1, inquiries := j } w.files q
      (s.graph.markStale w.files changed).2 [.started s.failedEntries.size]
    rw [hf.inquiries, hf.graph]
    exact htells

theorem compileLazy_tells (hrest : s.inquiries.bridge.AtRest) {id : ModuleId}
    (h : { s with compiled := s.compiled.add id }.complete w fuel
      (({ s with compiled := s.compiled.add id }.newPass s.graph).reprocess s.cancelled id) [] [] =
        some rep) :
    rep.session.inquiries.bridge.AtRest ∧
      ∀ f call, s.inquiries.bridge.Failed rep.session.inquiries.bridge f call →
        s.Tells w rep.session.inquiries.bridge rep.session.graph f call := by
  obtain ⟨q, j, hrun, rfl⟩ := complete_eq_some h
  have hb : Pass.Begins s.rules s.project.resolver.root { reprocessed := [id] }
      { graph := s.graph, eager := (s.compiled.add id).ids }
      (Pass.reprocess { graph := s.graph, eager := (s.compiled.add id).ids } s.cancelled id) :=
    .intro (.nil _) (.cons _ trivial (.nil _))
  have htells := tells_of_run hb (.refl hrest _) hrun
  have hf := finished_finish { s with compiled := s.compiled.add id, inquiries := j } w.files q []
    []
  rw [hf.inquiries, hf.graph]
  exact htells

theorem perform_tells (hrest : s.inquiries.bridge.AtRest)
    (h : s.perform w fuel req = some rep) :
    rep.session.inquiries.bridge.AtRest ∧
      ∀ f call, s.inquiries.bridge.Failed rep.session.inquiries.bridge f call →
        s.Tells w rep.session.inquiries.bridge rep.session.graph f call := by
  have hidle : ∀ f call, s.inquiries.bridge.Failed s.inquiries.bridge f call →
      s.Tells w s.inquiries.bridge s.graph f call :=
    fun f call hf => (Bridge.not_failed_self _ f call hf).elim
  cases req with
  | build =>
    simp only [perform, build] at h
    split at h
    · cases h
      exact ⟨hrest, hidle⟩
    · exact fullBuild_tells hrest h
  | rebuild changed =>
    simp only [perform, rebuild] at h
    split at h
    · cases h
      exact ⟨hrest, hidle⟩
    · by_cases hb : s.built = true
      · rw [if_pos hb] at h
        exact incrementalBuild_tells hrest h
      · rw [if_neg hb] at h
        exact fullBuild_tells hrest h
  | compileLazy id =>
    simp only [perform, compileLazy] at h
    split at h
    · cases h
      exact ⟨hrest, hidle⟩
    · split at h
      · exact compileLazy_tells hrest h
      · cases h
        exact ⟨hrest, hidle⟩

/-! ## Runs -/

theorem Runs.atRest (h : Runs reps s) : s.inquiries.bridge.AtRest := by
  induction h with
  | create h =>
    obtain ⟨-, root, -, rfl⟩ := create_eq_ok.mp h
    exact .new _
  | request h hrep ih => exact (perform_tells ih hrep).1
  | breakdown h hb ih => exact hb.atRest ih
  | resolve h w specifier dir ih => exact (Resolver.adds_resolve ih specifier).1.atRest
  | cancel h ih => exact ⟨ih.resolving, ih.loading⟩

/-- Of a question that failed since a request was made, and was asked for a module that the result
has, the result tells: of the failure, and of what was done instead if that went wrong as well. This
is lost just if another question for the module broke down; then the result tells of the breakdown
and of nothing else about the module. If it was asked for an entry, the entry leads to a module or
the result has the error of its specifier. -/
theorem Runs.failures_told (h : Runs reps s) (hrep : s.perform w fuel req = some rep)
    (hw : rep.Written) {f : HookFailure} {call : HostCall}
    (hf : s.inquiries.bridge.Failed rep.session.inquiries.bridge f call) :
    rep.outcome = rep.session.answer rep.session.last ∧
    (∀ id m, call.module? = some id.text → rep.session.graph.get? id = some m →
      m.id = id ∧ (rep.session.last.TellsOf s.project w.files m f call ∨
        rep.session.last.TellsOfBreakdown rep.session.inquiries.bridge m)) ∧
    (call.module? = none → ∃ name specifier, s.options.entries.get? name = some specifier ∧
      call = s.project.entryCall w.files specifier ∧
      ((∃ id, rep.session.last.entries.get? name = some id) ∨
        ∃ reason, (BuildError.resolve s.project.resolver.root.text
          (Pass.entrySpecifier w.files s.project.resolver.root specifier) reason).diagnostic none ∈
            rep.session.last.errors)) := by
  have htells := (perform_tells h.atRest hrep).2 f call hf
  have hc := perform_concludes hrep
  cases hc with
  | refused files he => exact (Bridge.not_failed_self _ f call hf).elim
  | unaffected files inquiries hi hb hfailed =>
    have hf' : s.inquiries.bridge.Failed inquiries.bridge f call := hf
    rw [hi] at hf'
    exact (Bridge.not_failed_self _ f call hf').elim
  | @finished t files q stale started ho hl =>
    obtain ⟨-, hlast, hout⟩ := (t.last_finish_cases files q stale started).resolve_right
      fun hn => hn.1 hw
    have hoptions := (t.finished_finish files q stale started).options
    rw [hlast] at hout ⊢
    refine ⟨?_, ?_, ?_⟩
    · rw [hout]
      unfold answer
      rw [hoptions]
    · intro id m hmodule hget
      obtain ⟨hid, hanswers⟩ := htells.modules id m hmodule hget
      subst hid
      exact ⟨rfl, hanswers.imp (BuildResult.tellsOf_of_admits hget hmodule)
        (BuildResult.tellsOfBreakdown_of_brokeDown hget)⟩
    · intro hmodule
      obtain ⟨name, specifier, hname, hcall, hplaces⟩ := htells.entries hmodule
      refine ⟨name, specifier, hname, hcall, hplaces.imp_right ?_⟩
      rintro ⟨reason, hr⟩
      exact ⟨reason, BuildResult.mem_errors_of_entry hr⟩

/-! ## A host that fails and breaks down -/

def busySession : Session :=
  new { entries := .ofList [("main", "./a.js"), ("other", "./b.js")], root := ⟨"/"⟩,
        hookTimeoutMs := some 5 } ⟨"/"⟩ (fun _ => Transform.builtin) minifyBlanks

/-- The host leaves both modules to the bundler by saying nothing. It refuses the request in one of
them, for which there is no file, and breaks down at the request in the other. -/
def busyWorld : World :=
  ⟨⟨.dir [("a.js", .file (Text.Utf8.encode "import \"./c.js\";")),
      ("b.js", .file (Text.Utf8.encode "import \"./d.js\";"))], []⟩,
    some
      { resolve := fun q =>
          if q.importer = none then .answer none
          else if q.importer = some "/a.js" then .reject "busy"
          else .panic "boom"
        load := fun _ => .silence }⟩

/-- Both modules are in, one of them broken, and so are the questions for them that failed. -/
def BusyEnd (x : Pass × Inquiries) : Prop :=
  x.1.graph.entries.get? "main" = some ⟨"/a.js"⟩ ∧
    x.1.graph.entries.get? "other" = some ⟨"/b.js"⟩ ∧
    (x.1.graph.get? ⟨"/a.js"⟩).any (fun m => !m.dependencies.isEmpty) = true ∧
    x.1.graph.get? ⟨"/b.js"⟩ = some (Project.broken ⟨"/b.js"⟩ "boom") ∧
    x.2.bridge.resolving.Failed 2 ⟨some "/a.js", "./c.js"⟩ (.rejected "busy") ∧
    x.2.bridge.loading.Failed 0 "/a.js" (.timedOut 5) ∧
    x.2.bridge.loading.Failed 1 "/b.js" (.timedOut 5)

instance (x : Pass × Inquiries) : Decidable (BusyEnd x) :=
  inferInstanceAs (Decidable (_ ∧ _ ∧ _ ∧ _ ∧ _ ∧ _ ∧ _))

theorem create_busy : create busySession.options busyWorld.files (fun _ => Transform.builtin)
    minifyBlanks = .ok busySession :=
  create_eq_ok.mpr ⟨rfl, ⟨"/"⟩, by decide +kernel, rfl⟩

set_option maxRecDepth 10000 in
theorem busy_pass : (busySession.fullPass busyWorld 5).any (fun x => decide (BusyEnd x)) = true := by
  decide +kernel

/-- In one module the request was refused and there is no file for it, and the load took too long: the
result has all of this. In the other one the load took too long as well, but the request broke down:
the result has just that. -/
theorem failures_told_of_busy_host : ∃ (rep : Report) (m m' : Module),
    busySession.perform busyWorld 5 .build = some rep ∧ rep.Written ∧
      rep.session.graph.get? ⟨"/a.js"⟩ = some m ∧
      rep.session.last.TellsOf busySession.project busyWorld.files m (.rejected "busy")
        (.resolve ⟨some "/a.js", "./c.js"⟩) ∧
      rep.session.last.TellsOf busySession.project busyWorld.files m (.timedOut 5)
        (.load "/a.js") ∧
      rep.session.graph.get? ⟨"/b.js"⟩ = some m' ∧
      busySession.inquiries.bridge.Failed rep.session.inquiries.bridge (.timedOut 5)
        (.load "/b.js") ∧
      rep.session.last.TellsOfBreakdown rep.session.inquiries.bridge m' := by
  obtain ⟨⟨q, inquiries⟩, hrun, hbusy⟩ := (Option.any_eq_true _ _).mp busy_pass
  obtain ⟨hmain, hother, ha, hb, hrejected, hslow, hslow'⟩ : BusyEnd (q, inquiries) :=
    of_decide_eq_true hbusy
  obtain ⟨m, hm, hdeps⟩ := (Option.any_eq_true _ _).mp ha
  obtain ⟨rep, hrep, hf, hwritten, hlast, -⟩ := exists_build (s := busySession) rfl rfl hrun
  have hbuild : busySession.perform busyWorld 5 .build = some rep := hrep
  have hi : rep.session.inquiries = inquiries := hf.inquiries
  have hget : rep.session.graph.get? ⟨"/a.js"⟩ = some m.settled := by
    rw [hf.graph, ModuleGraph.get?_settle, ModuleGraph.get?_prune_of_reached (.entry hmain), hm]
    rfl
  have hget' : rep.session.graph.get? ⟨"/b.js"⟩ = some (Project.broken ⟨"/b.js"⟩ "boom") := by
    rw [hf.graph, ModuleGraph.get?_settle, ModuleGraph.get?_prune_of_reached (.entry hother), hb]
    rfl
  have hruns := Runs.create create_busy
  have hfailed : ∀ f call, busySession.inquiries.bridge.Failed inquiries.bridge f call →
      busySession.inquiries.bridge.Failed rep.session.inquiries.bridge f call := by
    rw [hi]
    exact fun _ _ => id
  have hfailed' := hfailed _ (.load "/b.js") ⟨1, .inl (Nat.zero_le 1), hslow'⟩
  obtain ⟨-, h1, -⟩ := hruns.failures_told hbuild hwritten
    (hfailed _ (.resolve ⟨some "/a.js", "./c.js"⟩) ⟨2, .inl (Nat.zero_le 2), hrejected⟩)
  obtain ⟨-, h2, -⟩ := hruns.failures_told hbuild hwritten
    (hfailed _ (.load "/a.js") ⟨0, .inl (Nat.le_refl 0), hslow⟩)
  obtain ⟨-, h3, -⟩ := hruns.failures_told hbuild hwritten hfailed'
  -- The module with the request that was refused did not break down.
  have hwhole : ¬ rep.session.last.TellsOfBreakdown rep.session.inquiries.bridge m.settled := by
    rintro ⟨reason, call, -, -, he, -⟩
    have hnone : m.settled.dependencies = [] := by
      rw [he]
      rfl
    rw [Module.settled_dependencies] at hnone
    rw [hnone] at hdeps
    cases hdeps
  -- The one that broke down tells of nothing else.
  have hlost : ¬ rep.session.last.TellsOf busySession.project busyWorld.files
      (Project.broken ⟨"/b.js"⟩ "boom") (.timedOut 5) (.load "/b.js") := by
    rintro ⟨hmem, -⟩
    rw [hlast, finalResult, ← hf.graph] at hmem
    obtain ⟨e, he, hd⟩ := (BuildResult.mem_errors_iff hget').mp ⟨hmem, rfl⟩
    obtain rfl := List.mem_singleton.mp he
    exact absurd (congrArg Diagnostic.code hd) (by decide)
  exact ⟨rep, _, _, hbuild, hwritten, hget, (h1 ⟨"/a.js"⟩ _ rfl hget).2.resolve_right hwhole,
    (h2 ⟨"/a.js"⟩ _ rfl hget).2.resolve_right hwhole, hget', hfailed',
    (h3 ⟨"/b.js"⟩ _ rfl hget').2.resolve_left hlost⟩

end Session

end Bundler
