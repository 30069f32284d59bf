import Bundler.Session
import Bundler.Proofs.Build.Sound
import Bundler.Proofs.Build.Tasks
import Bundler.Proofs.Resolve.Fallback

/-!
# Calls of a session

`Session.Call` relates a session to all that a call may make of it: files and host may change while
it runs, tasks end in any order and with any module, the session may be cancelled at any point. The
graph that a session keeps is well-formed after any number of calls, whether they succeeded or not.
-/

namespace Bundler

/-! ## Graphs at rest -/

namespace Module

/-- The state of a module that nothing is done to. -/
def AtRest (m : Module) : Prop :=
  m.isLazy = false → m.state = if m.errors = [] then .fresh else .errored

theorem atRest_settled (m : Module) : m.settled.AtRest := by
  intro h
  rw [settled_isLazy] at h
  unfold settled
  simp [h]

theorem AtRest.state_ne {m : Module} (h : m.AtRest) :
    m.state ≠ .stale ∧ m.state ≠ .rebuilding := by
  by_cases hl : m.isLazy = true
  · have : m.state = .lazy := by simpa [isLazy] using hl
    simp [this]
  · rw [h (by simpa using hl)]
    split <;> simp

theorem Hollow.settled {m : Module} (h : m.Hollow) : m.settled.Hollow := by
  unfold Hollow at h ⊢
  simpa using h

end Module

/-- A graph that no call is working on. -/
structure ModuleGraph.WellFormed (g : ModuleGraph) : Prop extends g.Regular where
  closed : g.danglingEdges = []
  entry : ∀ name id, g.entries.get? name = some id → g.contains id = true
  reached : ∀ id, g.contains id = true → g.Reached id
  idle : ∀ id m, g.get? id = some m → m.state ≠ .stale ∧ m.state ≠ .rebuilding
  atRest : ∀ id m, g.get? id = some m → m.AtRest

namespace ModuleGraph

theorem WellFormed.empty : WellFormed {} where
  toRegular := .empty
  closed := danglingEdges_eq_nil.mpr fun _ _ ⟨_, hm, _⟩ => nomatch hm
  entry := fun _ _ h => nomatch h
  reached := fun _ h => nomatch h
  idle := fun _ _ h => nomatch h
  atRest := fun _ _ h => nomatch h

/-- Pruning and settling bring a graph without dangling edges to rest. -/
theorem WellFormed.of_closed {g : ModuleGraph} (hr : g.Regular)
    (hc : ∀ a b, g.Edge a b → g.contains b = true)
    (he : ∀ name id, g.entries.get? name = some id → g.contains id = true) :
    g.prune.1.settle.WellFormed := by
  refine ⟨⟨?_, ?_⟩, ?_, ?_, ?_, ?_, ?_⟩
  · intro id m hm
    obtain ⟨-, m', hm', rfl⟩ := get?_settle_prune.mp hm
    rw [Module.settled_id]
    exact hr.named id m' hm'
  · intro id m hm
    obtain ⟨-, m', hm', rfl⟩ := get?_settle_prune.mp hm
    exact (hr.hollow id m' hm').settled
  · refine danglingEdges_eq_nil.mpr fun a b ⟨m, hm, hb⟩ => ?_
    obtain ⟨hreach, m', hm', rfl⟩ := get?_settle_prune.mp hm
    rw [Module.settled_targets] at hb
    have hedge : g.Edge a b := ⟨m', hm', hb⟩
    exact contains_settle_prune.mpr ⟨hreach.step hedge, hc a b hedge⟩
  · intro name id hn
    rw [entries_settle, entries_prune] at hn
    exact contains_settle_prune.mpr ⟨.entry hn, he name id hn⟩
  · intro id hid
    exact reached_settle.mpr (reached_prune.mpr (contains_settle_prune.mp hid).1)
  · intro id m hm
    obtain ⟨-, m', -, rfl⟩ := get?_settle_prune.mp hm
    exact m'.atRest_settled.state_ne
  · intro id m hm
    obtain ⟨-, m', -, rfl⟩ := get?_settle_prune.mp hm
    exact m'.atRest_settled

theorem edge_markStale {g : ModuleGraph} {files : FileTree} {path : Path} {a b : ModuleId} :
    (g.markStale files path).1.Edge a b ↔ g.Edge a b := by
  unfold Edge
  simp only [get?_markStale]
  split
  · constructor
    · rintro ⟨m, hm, hb⟩
      obtain ⟨m', hm', rfl⟩ := Option.map_eq_some_iff.mp hm
      exact ⟨m', hm', hb⟩
    · rintro ⟨m, hm, hb⟩
      exact ⟨{ m with state := .stale }, by rw [hm]; rfl, hb⟩
  · exact Iff.rfl

theorem contains_markStale {g : ModuleGraph} {files : FileTree} {path : Path} {id : ModuleId} :
    (g.markStale files path).1.contains id = true ↔ g.contains id = true := by
  rw [contains_iff, contains_iff, get?_markStale]
  split
  · simp
  · exact Iff.rfl

end ModuleGraph

/-- A pass is seeded with the resolutions of its entries, in their order. -/
theorem Pass.seedEntries_eq_ok {p p' : Pass} {project : Project} {w : World} {i j : Inquiries}
    {entries : Table String String} (h : p.seedEntries project w i entries = (j, .ok p')) :
    ∃ resolved,
      project.resolver.resolveTogether w (·.2) none project.resolver.root
        (entries.toList.map fun e => (e.1, entrySpecifier w.files project.resolver.root e.2)) i =
        (j, .ok resolved) ∧
      p' = resolved.foldl (fun p (e : (String × String) × Resolution) =>
        p.seed project.resolver.root j.bridge.cancelled e.1.1 e.1.2 e.2) p := by
  unfold seedEntries at h
  dsimp only at h
  obtain ⟨rfl, hmap⟩ := Prod.mk.inj h
  obtain ⟨resolved, hr, rfl⟩ := ok_of_map hmap
  exact ⟨resolved, Prod.ext rfl hr, rfl⟩

namespace Session

open ModuleGraph (WellFormed)

/-! ## The relation -/

/-- Nothing is known of what tasks deliver, but that it is a module of their ids, and nothing of
when the session is seen cancelled. -/
def rules (s : Session) : Pass.Rules where
  lazyCompilation := s.project.lazyCompilation
  output := Module.IsOutput
  seen _ := True

/-- What a call may make of a session. -/
inductive Call (s : Session) : Session → Prop
  /-- The call is refused, or nothing is affected: what is known of earlier questions may change. -/
  | idle (inquiries : Inquiries) : Call s { s with inquiries }
  /-- A full build: whatever the entries lead to. -/
  | build (inquiries : Inquiries) (files : FileTree) (started : List ProgressEvent)
      {entries : List ((String × String) × Resolution)} {q : Pass}
      (h : Pass.Completes s.rules s.project.resolver.root {} s.compiled.ids { entries } q) :
      Call s ({ s with inquiries, bundle := {}, built := true }.finish files q [] started).session
  /-- A rebuild, which marks what a path affects in the files that it finds first. -/
  | rebuild (inquiries : Inquiries) (before files : FileTree) (changed : Path)
      (started : List ProgressEvent) {entries : List ((String × String) × Resolution)} {q : Pass}
      (h : Pass.Completes s.rules s.project.resolver.root (s.graph.markStale before changed).1 s.compiled.ids
        ⟨entries, (s.graph.markStale before changed).2⟩ q) :
      Call s ({ s with inquiries, graph := (s.graph.markStale before changed).1 }.finish files q
        (s.graph.markStale before changed).2 started).session
  /-- The target of a dynamic import is compiled. -/
  | compile (inquiries : Inquiries) (files : FileTree) {id : ModuleId} {q : Pass}
      (hid : (s.graph.get? id).any (·.isLazy) = true)
      (h : Pass.Completes s.rules s.project.resolver.root s.graph (s.compiled.add id).ids
        { reprocessed := [id] } q) :
      Call s ({ s with inquiries, compiled := s.compiled.add id }.finish files q [] []).session

/-- The sessions that come of a new one by any number of calls. -/
inductive Lives : Session → Prop
  | new {s : Session} (h : s.graph = {}) : Lives s
  | call {s t : Session} (h : Lives s) (hc : Call s t) : Lives t

/-! ## What calls keep -/

theorem finish_graph (s : Session) (files : FileTree) (q : Pass) (stale : List ModuleId)
    (started : List ProgressEvent) :
    (s.finish files q stale started).session.graph = q.graph.prune.1.settle := by
  unfold finish
  dsimp only
  split <;> rfl

/-- A pass from a well-formed graph, or from one that was marked, ends in a well-formed graph. -/
theorem wellFormed_of_completes {s : Session} {g : ModuleGraph} {eager : List ModuleId}
    {seeds : Pass.Seeds} {q : Pass} (hg : g.Regular)
    (hc : ∀ a b, g.Edge a b → g.contains b = true)
    (he : ∀ name id, g.entries.get? name = some id → g.contains id = true)
    (h : Pass.Completes s.rules s.project.resolver.root g eager seeds q) : q.graph.prune.1.settle.WellFormed := by
  obtain ⟨hr, hc, he⟩ := h.closed (fun _ _ hm => hm) hg hc he
  exact .of_closed hr hc he

/-- Each call leaves a well-formed graph behind. -/
theorem Call.keeps_wellFormed {s t : Session} (h : s.Call t) (hw : s.graph.WellFormed) :
    t.graph.WellFormed := by
  have hclosed := ModuleGraph.danglingEdges_eq_nil.mp hw.closed
  cases h with
  | idle inquiries => exact hw
  | build inquiries files started h =>
    rw [finish_graph]
    have h0 := WellFormed.empty
    exact wellFormed_of_completes h0.toRegular (ModuleGraph.danglingEdges_eq_nil.mp h0.closed)
      h0.entry h
  | rebuild inquiries before files changed started h =>
    rw [finish_graph]
    refine wellFormed_of_completes (hw.toRegular.markStale before changed) ?_ ?_ h
    · intro a b hab
      exact ModuleGraph.contains_markStale.mpr (hclosed a b (ModuleGraph.edge_markStale.mp hab))
    · intro name id hn
      rw [ModuleGraph.entries_markStale] at hn
      exact ModuleGraph.contains_markStale.mpr (hw.entry name id hn)
  | compile inquiries files hid h =>
    rw [finish_graph]
    exact wellFormed_of_completes hw.toRegular hclosed hw.entry h

/-! ## What the operations do are calls -/

/-- Whatever a host answers, tasks deliver modules of their ids. -/
theorem discipline (s : Session) (w : World) :
    Task.Discipline s.project w s.rules (fun _ => True)
      (fun t => ∀ m, t = .done m → m.IsOutput m.id) fun _ => True where
  lazyCompilation := rfl
  seen := fun _ _ => trivial
  start := fun _ _ _ h => nomatch h
  step := by
    intro late q t _ ht
    refine ⟨trivial, fun m hm => ?_⟩
    cases t with
    | loading id =>
      unfold Task.step at hm
      dsimp only at hm
      split at hm
      · cases hm
        exact Module.isOutput_failed _ _
      · split at hm
        next m' he =>
          cases hm
          have ho := Project.isOutput_of_search he
          exact ⟨rfl, ho.2⟩
        next => cases hm
    | resolving d =>
      unfold Task.step at hm
      dsimp only at hm
      split at hm
      · cases hm
        exact Module.isOutput_failed _ _
      · dsimp only at hm
        split at hm
        · cases hm
          exact ⟨rfl, rfl, Project.isLazy_assemble ..⟩
        · cases hm
    | done m' => exact ht m hm
  output := fun m h => h m rfl
  good := fun _ _ _ _ _ _ _ => trivial

theorem runs_of_run {s : Session} {w : World} {fuel : Nat} {g : ModuleGraph}
    {eager : List ModuleId} {seeds : Pass.Seeds} {p q : Pass} {i j : Inquiries}
    (hb : Pass.Begins s.rules s.project.resolver.root seeds { graph := g, eager } p)
    (h : p.run s.project w fuel i = some (q, j)) : Pass.Runs s.rules p q ∧ q.outstanding = [] := by
  have ht : p.Tidy := (Pass.Tidy.new g eager).begins hb
  obtain ⟨hr, ho, -⟩ := Pass.run_runs (s.discipline w) h trivial ht fun _ _ => trivial
  exact ⟨hr, ho⟩

theorem completes_of_run {s : Session} {w : World} {fuel : Nat} {g : ModuleGraph}
    {eager : List ModuleId} {seeds : Pass.Seeds} {p q : Pass} {i j : Inquiries}
    (hb : Pass.Begins s.rules s.project.resolver.root seeds { graph := g, eager } p)
    (h : p.run s.project w fuel i = some (q, j)) :
    Pass.Completes s.rules s.project.resolver.root g eager seeds q :=
  ⟨p, hb, runs_of_run hb h⟩

theorem complete_eq_some {s : Session} {w : World} {fuel : Nat} {p : Pass} {stale : List ModuleId}
    {started : List ProgressEvent} {rep : Report}
    (h : s.complete w fuel p stale started = some rep) :
    ∃ q inquiries, p.run s.project w fuel s.inquiries = some (q, inquiries) ∧
      rep = { s with inquiries }.finish w.files q stale started := by
  unfold complete at h
  obtain ⟨⟨q, inquiries⟩, hq, h⟩ := Option.bind_eq_some_iff.mp h
  cases h
  exact ⟨q, inquiries, hq, rfl⟩

/-- The pass of a full build, when it has come to rest. -/
def fullPass (s : Session) (w : World) (fuel : Nat) : Option (Pass × Inquiries) :=
  match (s.newPass {}).seedEntries s.project w { s.inquiries with cache := {} }
    s.options.entries with
  | (_, .error _) => none
  | (i, .ok p) => p.run s.project w fuel i

/-- A full build finishes its pass. -/
theorem fullBuild_eq (s : Session) (w : World) (fuel : Nat) :
    s.fullBuild w fuel = (s.fullPass w fuel).map fun x =>
      { s with inquiries := x.2, bundle := {}, built := true }.finish w.files x.1 []
        [.started s.options.entries.size] := by
  unfold fullBuild beginBuild seed fullPass
  dsimp only [forgetLookups, newPass]
  generalize Pass.seedEntries _ s.project w _ s.options.entries = x
  obtain ⟨i, p⟩ := x
  cases p with
  | error reason => rfl
  | ok p =>
    dsimp only
    unfold complete
    cases p.run s.project w fuel i <;> rfl

theorem fullBuild_eq_some {s : Session} {w : World} {fuel : Nat} {rep : Report}
    (h : s.fullBuild w fuel = some rep) :
    ∃ p i q inquiries,
      (s.newPass {}).seedEntries s.project w { s.inquiries with cache := {} }
        s.options.entries = (i, .ok p) ∧
      p.run s.project w fuel i = some (q, inquiries) ∧
      rep = { s with inquiries, bundle := {}, built := true }.finish w.files q []
        [.started s.options.entries.size] := by
  rw [fullBuild_eq] at h
  obtain ⟨⟨q, inquiries⟩, hq, rfl⟩ := Option.map_eq_some_iff.mp h
  unfold fullPass at hq
  split at hq
  next => cases hq
  next i p hp => exact ⟨p, i, q, inquiries, hp, hq, rfl⟩

theorem build_of_pass {s : Session} {w : World} {fuel : Nat} {q : Pass} {i : Inquiries}
    (hc : s.cancelled = false) (hq : s.fullPass w fuel = some (q, i)) :
    s.build w fuel = some ({ s with inquiries := i, bundle := {}, built := true }.finish w.files q []
      [.started s.options.entries.size]) := by
  rw [build, hc, if_neg Bool.false_ne_true, fullBuild_eq, hq]
  rfl

theorem fullPass_congr {s t : Session} (ho : t.options = s.options) (hp : t.project = s.project)
    (hi : t.inquiries = s.inquiries) (hc : t.compiled = s.compiled) (w : World) (fuel : Nat) :
    t.fullPass w fuel = s.fullPass w fuel := by
  unfold fullPass newPass
  rw [ho, hp, hi, hc]

/-- A full build gives a report if its entries are seeded and its pass comes to rest. -/
theorem fullBuild_of_run {s : Session} {w : World} {fuel : Nat} {p q : Pass} {i j : Inquiries}
    (hp : (s.newPass {}).seedEntries s.project w { s.inquiries with cache := {} }
      s.options.entries = (i, .ok p))
    (hq : p.run s.project w fuel i = some (q, j)) : ∃ rep, s.fullBuild w fuel = some rep := by
  rw [fullBuild_eq, fullPass, hp]
  exact ⟨_, Option.map_eq_some_iff.mpr ⟨(q, j), hq, rfl⟩⟩

/-- A pass begins with entries that all got an answer, and with what is marked. -/
theorem begins_of_seedEntries {s : Session} {w : World} {p p' : Pass} {i j : Inquiries}
    {entries : Table String String} (h : p.seedEntries s.project w i entries = (j, .ok p'))
    (c : Bool) (stale : List ModuleId) :
    ∃ resolved, Pass.Begins s.rules s.project.resolver.root ⟨resolved, stale⟩ p
      (stale.foldl (fun p id => p.reprocess c id) p') := by
  obtain ⟨resolved, -, rfl⟩ := Pass.seedEntries_eq_ok h
  exact ⟨resolved, .intro (.foldl trivial _ _) (.foldl trivial _ _)⟩

theorem fullBuild_call {s : Session} {w : World} {fuel : Nat} {rep : Report}
    (h : s.fullBuild w fuel = some rep) : s.Call rep.session := by
  obtain ⟨p, i, q, inquiries, hp, hq, rfl⟩ := fullBuild_eq_some h
  obtain ⟨entries, hb⟩ := begins_of_seedEntries hp false []
  exact .build inquiries w.files _ (completes_of_run hb hq)

theorem build_call {s : Session} {w : World} {fuel : Nat} {rep : Report}
    (h : s.build w fuel = some rep) : s.Call rep.session := by
  unfold build at h
  split at h
  · cases h
    exact .idle s.inquiries
  · exact fullBuild_call h

theorem get?_failedEntries (s : Session) (name : String) :
    s.failedEntries.get? name = (s.options.entries.get? name).filter fun _ =>
      s.graph.entryErrors.contains name := Table.get?_filter ..

theorem failedEntries_of_no_errors {s : Session} (h : s.graph.entryErrors.isEmpty = true) :
    s.failedEntries.isEmpty = true := by
  refine Table.isEmpty_iff.mpr fun name => ?_
  rw [get?_failedEntries, Table.contains, Table.isEmpty_iff.mp h name]
  cases s.options.entries.get? name <;> rfl

theorem failedEntries_markStale (s : Session) (files : FileTree) (changed : Path) :
    { s with graph := (s.graph.markStale files changed).1 }.failedEntries = s.failedEntries := by
  unfold failedEntries
  rw [ModuleGraph.entryErrors_markStale]

theorem mark_failedEntries (s : Session) (w : World) (changed : Path) :
    (s.mark w changed).1.failedEntries = s.failedEntries :=
  s.failedEntries_markStale w.files changed

/-- A rebuild that has nothing to do returns the last result. -/
theorem incrementalBuild_of_nothing {s : Session} {w : World} {changed : Path}
    (hs : (s.graph.markStale w.files changed).2 = []) (hf : s.failedEntries.isEmpty = true)
    (fuel : Nat) : s.incrementalBuild w changed fuel =
      some { s.forgetLookups.report w.files (.ok s.last) with unaffected := true } := by
  have hfailed : Table.isEmpty (failedEntries { s.forgetLookups with
      graph := (s.graph.markStale w.files changed).1 }) = true :=
    (congrArg _ (s.failedEntries_markStale w.files changed)).trans hf
  unfold incrementalBuild
  refine (if_pos (Bool.and_eq_true_iff.mpr ⟨List.isEmpty_iff.mpr hs, hfailed⟩)).trans ?_
  change some (Report.mk { s.forgetLookups with graph := (s.graph.markStale w.files changed).1 }
    _ _ _ _) = _
  rw [ModuleGraph.markStale_eq_self hs]
  rfl

theorem absolute_of_isAbsolute {s : Session} {path : Path} (h : path.isAbsolute = true) :
    s.absolute path = path := if_pos h

theorem rebuild_of_nothing {s : Session} {w : World} {changed : Path} (hc : s.cancelled = false)
    (hb : s.built = true) (hs : (s.graph.markStale w.files (s.absolute changed)).2 = [])
    (hf : s.failedEntries.isEmpty = true) (fuel : Nat) : s.rebuild w changed fuel =
      some { s.forgetLookups.report w.files (.ok s.last) with unaffected := true } := by
  rw [rebuild, hc, if_neg Bool.false_ne_true, if_pos hb]
  exact incrementalBuild_of_nothing hs hf fuel

/-- The pass of a rebuild, when it has come to rest. -/
def rebuildPass (s : Session) (w : World) (changed : Path) (fuel : Nat) :
    Option (Pass × Inquiries) :=
  match (s.newPass (s.graph.markStale w.files changed).1).seedEntries s.project w
    { s.inquiries with cache := {} } s.failedEntries with
  | (_, .error _) => none
  | (i, .ok p) => Pass.run s.project w fuel ((s.graph.markStale w.files changed).2.foldl
      (fun p id => p.reprocess i.bridge.cancelled id) p) i

theorem rebuildPass_congr {s t : Session} (ho : t.options = s.options) (hp : t.project = s.project)
    (hi : t.inquiries = s.inquiries) (hg : t.graph = s.graph) (hc : t.compiled = s.compiled)
    (w : World) (changed : Path) (fuel : Nat) :
    t.rebuildPass w changed fuel = s.rebuildPass w changed fuel := by
  unfold rebuildPass newPass failedEntries
  rw [ho, hp, hi, hg, hc]

/-- A rebuild that has something to do finishes its pass. -/
theorem incrementalBuild_eq {s : Session} {w : World} {changed : Path}
    (hne : ¬ ((s.graph.markStale w.files changed).2 = [] ∧ s.failedEntries.isEmpty = true))
    (fuel : Nat) : s.incrementalBuild w changed fuel =
      (s.rebuildPass w changed fuel).map fun x =>
        { s with graph := (s.graph.markStale w.files changed).1, inquiries := x.2 }.finish w.files
          x.1 (s.graph.markStale w.files changed).2 [.started s.failedEntries.size] := by
  have hfailed := s.mark_failedEntries w changed
  unfold incrementalBuild
  dsimp only
  rw [hfailed, if_neg fun h => hne (by rwa [Bool.and_eq_true, List.isEmpty_iff] at h)]
  unfold retry seed rebuildPass
  rw [hfailed]
  unfold mark
  dsimp only [forgetLookups, newPass]
  generalize Pass.seedEntries _ s.project w _ s.failedEntries = x
  obtain ⟨i, p⟩ := x
  cases p with
  | error reason => rfl
  | ok p =>
    dsimp only
    unfold complete cancelled
    cases Pass.run s.project w fuel _ i with
    | none => rfl
    | some x =>
      rw [← hfailed]
      rfl

theorem rebuild_of_pass {s : Session} {w : World} {changed : Path} {fuel : Nat} {q : Pass}
    {i : Inquiries} (hc : s.cancelled = false) (hb : s.built = true)
    (hne : ¬ ((s.graph.markStale w.files (s.absolute changed)).2 = [] ∧
      s.failedEntries.isEmpty = true))
    (hq : s.rebuildPass w (s.absolute changed) fuel = some (q, i)) :
    s.rebuild w changed fuel =
      some ({ s with graph := (s.graph.markStale w.files (s.absolute changed)).1
                     inquiries := i }.finish w.files q
        (s.graph.markStale w.files (s.absolute changed)).2 [.started s.failedEntries.size]) := by
  rw [rebuild, hc, if_neg Bool.false_ne_true, if_pos hb, incrementalBuild_eq hne, hq]
  rfl

theorem incrementalBuild_eq_some {s : Session} {w : World} {changed : Path} {fuel : Nat}
    {rep : Report} (h : s.incrementalBuild w changed fuel = some rep) :
    ((s.graph.markStale w.files changed).2 = [] ∧ s.failedEntries.isEmpty = true) ∧
        rep = { s.forgetLookups.report w.files (.ok s.last) with unaffected := true } ∨
    ∃ p i q inquiries,
      (s.newPass (s.graph.markStale w.files changed).1).seedEntries s.project w
        { s.inquiries with cache := {} } s.failedEntries = (i, .ok p) ∧
      Pass.run s.project w fuel ((s.graph.markStale w.files changed).2.foldl
        (fun p id => p.reprocess i.bridge.cancelled id) p) i = some (q, inquiries) ∧
      rep = { s with graph := (s.graph.markStale w.files changed).1, inquiries }.finish w.files q
        (s.graph.markStale w.files changed).2 [.started s.failedEntries.size] := by
  by_cases hn : (s.graph.markStale w.files changed).2 = [] ∧ s.failedEntries.isEmpty = true
  · rw [incrementalBuild_of_nothing hn.1 hn.2] at h
    exact .inl ⟨hn, (Option.some.inj h).symm⟩
  · rw [incrementalBuild_eq hn] at h
    obtain ⟨⟨q, inquiries⟩, hq, rfl⟩ := Option.map_eq_some_iff.mp h
    unfold rebuildPass at hq
    split at hq
    next => cases hq
    next i p hp => exact .inr ⟨p, i, q, inquiries, hp, hq, rfl⟩

/-- A rebuild gives a report if its entries are seeded and its pass comes to rest. -/
theorem incrementalBuild_of_run {s : Session} {w : World} {changed : Path} {fuel : Nat}
    {p q : Pass} {i j : Inquiries}
    (hp : (s.newPass (s.graph.markStale w.files changed).1).seedEntries s.project w
      { s.inquiries with cache := {} } s.failedEntries = (i, .ok p))
    (hq : Pass.run s.project w fuel ((s.graph.markStale w.files changed).2.foldl
      (fun p id => p.reprocess i.bridge.cancelled id) p) i = some (q, j)) :
    ∃ rep, s.incrementalBuild w changed fuel = some rep := by
  by_cases hn : (s.graph.markStale w.files changed).2 = [] ∧ s.failedEntries.isEmpty = true
  · exact ⟨_, incrementalBuild_of_nothing hn.1 hn.2 fuel⟩
  · rw [incrementalBuild_eq hn, rebuildPass, hp]
    exact ⟨_, Option.map_eq_some_iff.mpr ⟨(q, j), hq, rfl⟩⟩

theorem incrementalBuild_call {s : Session} {w : World} {changed : Path} {fuel : Nat}
    {rep : Report} (h : s.incrementalBuild w changed fuel = some rep) : s.Call rep.session := by
  rcases incrementalBuild_eq_some h with ⟨-, rfl⟩ | ⟨p, i, q, inquiries, hp, hq, rfl⟩
  · exact .idle _
  · obtain ⟨entries, hb⟩ := begins_of_seedEntries hp i.bridge.cancelled _
    exact .rebuild inquiries w.files w.files changed _ (completes_of_run hb hq)

theorem rebuild_call {s : Session} {w : World} {changed : Path} {fuel : Nat} {rep : Report}
    (h : s.rebuild w changed fuel = some rep) : s.Call rep.session := by
  unfold rebuild at h
  split at h
  · cases h
    exact .idle s.inquiries
  · split at h
    · exact incrementalBuild_call h
    · exact fullBuild_call h

theorem compileLazy_call {s : Session} {w : World} {id : ModuleId} {fuel : Nat} {rep : Report}
    (h : s.compileLazy w id fuel = some rep) : s.Call rep.session := by
  unfold compileLazy at h
  split at h
  · cases h
    exact .idle s.inquiries
  · split at h
    next hid =>
      obtain ⟨q, inquiries, hq, rfl⟩ := complete_eq_some h
      have hb : Pass.Begins s.rules s.project.resolver.root { reprocessed := [id] }
          { graph := s.graph, eager := (s.compiled.add id).ids }
          (Pass.reprocess { graph := s.graph, eager := (s.compiled.add id).ids } s.cancelled id) :=
        .intro (.nil _) (.cons _ trivial (.nil _))
      exact .compile inquiries w.files hid (completes_of_run hb hq)
    · cases h
      exact .idle s.inquiries

/-- Whenever a call of a session has returned, the graph is well-formed: no edge dangles, every
entry has a module, every module is on a path from an entry, none is marked or under way, states
tell whether there are errors, and what was not loaded has nothing in it. -/
theorem Lives.wellFormed {s : Session} (h : s.Lives) : s.graph.WellFormed := by
  induction h with
  | new h => rw [h]; exact .empty
  | call _ hc ih => exact hc.keeps_wellFormed ih

/-- A session of which one task broke down. -/
theorem wellFormed_after_breakdown :
    ∃ s : Session, s.Lives ∧ (s.graph.get? ⟨"/p/a.js"⟩).any (·.state = .errored) = true ∧
      s.graph.WellFormed := by
  let id : ModuleId := ⟨"/p/a.js"⟩
  let m : Module := Project.broken id "out of order"
  let s : Session :=
    { options := {}, root := ⟨"/p"⟩
      project := ⟨⟨⟨"/p"⟩, [], [], []⟩, { loaders := {} }, true⟩
      renderer := { options := { root := ⟨"/p"⟩ } } }
  let e : (String × String) × Resolution := (("main", "./a.js"), ⟨.ok ⟨id, false⟩, none⟩)
  let p : Pass := Pass.seed { graph := {} } ⟨"/p"⟩ false "main" "./a.js" e.2
  let q : Pass := (p.takeIn id).accept m
  have hb : Pass.Begins s.rules ⟨"/p"⟩ { entries := [e] } { graph := {} } p :=
    .intro (.cons false trivial (.nil _)) (.nil _)
  have hd : Pass.Delivers s.rules p q := by
    have hid : id ∈ p.outstanding := List.mem_singleton.mpr rfl
    exact .intro hid (Module.isOutput_failed _ _) (.nil _)
  have hrest : q.outstanding = [] := List.erase_cons_head id []
  have hc : s.Call ({ s with bundle := {}, built := true }.finish ⟨.dir [], []⟩ q [] []).session :=
    .build s.inquiries _ [] ⟨p, hb, .single hd, hrest⟩
  have hl := (Lives.new (s := s) rfl).call hc
  refine ⟨_, hl, ?_, hl.wellFormed⟩
  have hentry : q.graph.entries.get? "main" = some id :=
    (Table.get?_insert ..).trans (if_pos rfl)
  have hmain : q.graph.get? id = some m := (Pass.get?_record _ m id).trans (if_pos rfl)
  rw [finish_graph, ModuleGraph.get?_settle, ModuleGraph.get?_prune_of_reached (.entry hentry),
    hmain]
  rfl

end Session

end Bundler
