import Bundler.Proofs.Build.Tally
import Bundler.Proofs.Session.Standing

/-!
# What a build tells of its progress

A session that reports its progress tells of a build in order: that it started, each module that was
processed with how many there are by then, that chunks are formed, and, if its files could be
written, that it is over.
-/

namespace Bundler

open Pass (countedOff)

/-- A report that tells the truth of a build from its start, with `entries` entries, to its end, where
`totals` are the counts told with the modules. -/
structure Report.Tells (rep : Report) (s : Session) (files : FileTree) (entries : Nat)
    (processed : List ModuleId) (totals : List Nat) : Prop where
  events : rep.events = .started entries :: countedOff totals ++
    .chunking rep.session.graph.size ::
      match (s.write files (.assemble rep.session.graph rep.session.bundle.chunks
        rep.session.bundle.rendered)).2 with
      | .ok () => [.finished rep.session.graph.size rep.session.bundle.chunks.size]
      | .error _ => []
  rising : totals.Pairwise (· ≤ ·)
  ahead : ∀ i total, totals[i]? = some total → i + 1 ≤ total
  count : totals.length = processed.length
  distinct : processed.Nodup
  last : ∀ total, totals.getLast? = some total → total = totals.length

namespace Session

variable {s : Session}

/-- What a session that reports its progress tells when a pass is over. -/
theorem events_finish (hp : s.options.progress = true) (files : FileTree) (q : Pass)
    (stale : List ModuleId) (started : List ProgressEvent) :
    let rep := s.finish files q stale started
    rep.events = started ++ q.events ++ .chunking rep.session.graph.size ::
      match (s.write files (.assemble rep.session.graph rep.session.bundle.chunks
        rep.session.bundle.rendered)).2 with
      | .ok () => [.finished rep.session.graph.size rep.session.bundle.chunks.size]
      | .error _ => [] := by
  intro rep
  have hf := s.finished_finish files q stale started
  have hresult : BuildResult.assemble rep.session.graph rep.session.bundle.chunks
      rep.session.bundle.rendered = s.finalResult q := by
    rw [hf.graph, hf.bundle]
    rfl
  have htold : ∀ (t : Session) (events : List ProgressEvent), t.options = s.options →
      t.told events = events := fun t events ht => if_pos (ht ▸ hp)
  rw [hresult, hf.graph, hf.bundle]
  show (s.finish files q stale started).events = _
  unfold finish
  dsimp only
  split
  next he =>
    have hw : s.write files (s.finalResult q) = (_, .error _) := he
    rw [hw]
    exact htold _ _ rfl
  next he =>
    have hw : s.write files (s.finalResult q) = (_, .ok ()) := he
    rw [hw]
    exact (htold _ _ rfl).trans (List.append_assoc ..)

theorem id_of_output {id : ModuleId} {m : Module} (h : s.rules.output id m) : m.id = id :=
  And.left (show m.IsOutput id from h)

/-- The builds of a session: the graph and the ids that the pass of a build takes up, how many entries
it starts from, and the session that the pass ends in. -/
inductive Builds (s : Session) : ModuleGraph → List ModuleId → Nat → Session → Prop
  | full (inquiries : Inquiries) :
      Builds s {} [] s.options.entries.size { s with inquiries, bundle := {}, built := true }
  /-- What a change affects is processed again, and entries that failed are tried again. -/
  | change (inquiries : Inquiries) (files : FileTree) (changed : Path) :
      Builds s (s.graph.markStale files changed).1 (s.graph.markStale files changed).2
        s.failedEntries.size { s with inquiries, graph := (s.graph.markStale files changed).1 }

/-- A pass of a build that has come to its end, in some order of its tasks. -/
def RunsTo (s : Session) (g : ModuleGraph) (stale : List ModuleId) (q : Pass) : Prop :=
  ∃ entries, Pass.Completes s.rules s.project.resolver.root g s.compiled.ids ⟨entries, stale⟩ q

section
variable {t : Session} {g : ModuleGraph} {stale : List ModuleId} {n : Nat} {q : Pass}

theorem tells_of_runsTo (hp : s.options.progress = true) (hb : s.Builds g stale n t)
    (files : FileTree) (h : s.RunsTo g stale q) :
    ∃ totals, (t.finish files q stale [.started n]).Tells s files n q.delta.processed totals := by
  obtain ⟨entries, h⟩ := h
  obtain ⟨ht, ho⟩ := h.tallied fun _ _ => id_of_output
  obtain ⟨hdistinct, totals, he, hcount, htruth⟩ := ht.atRest ho
  refine ⟨totals, ?_, htruth.rising, htruth.ahead, hcount, hdistinct, fun _ => htruth.eq_of_getLast?⟩
  have hoptions : t.options.progress = true := by cases hb <;> exact hp
  have hwrite : t.write = s.write := by cases hb <;> rfl
  have hevents := events_finish hoptions files q stale [.started n]
  rw [he, hwrite] at hevents
  exact hevents

end

theorem runsTo_of_fullBuild {w : World} {fuel : Nat} {rep : Report}
    (h : s.fullBuild w fuel = some rep) : ∃ q t, s.Builds {} [] s.options.entries.size t ∧
      s.RunsTo {} [] q ∧ rep = t.finish w.files q [] [.started s.options.entries.size] := by
  obtain ⟨p, i, q, inquiries, hp, hq, hrep⟩ := fullBuild_eq_some h
  obtain ⟨entries, hb⟩ := begins_of_seedEntries hp false []
  exact ⟨q, _, .full inquiries, ⟨entries, completes_of_run hb hq⟩, hrep⟩

/-- A change that affects something is a pass from the marked graph. -/
theorem runsTo_of_incrementalBuild {w : World} {changed : Path} {fuel : Nat} {rep : Report}
    (h : s.incrementalBuild w changed fuel = some rep) (ha : rep.unaffected = false) :
    ∃ g stale q t, s.Builds g stale s.failedEntries.size t ∧ s.RunsTo g stale q ∧
      rep = t.finish w.files q stale [.started s.failedEntries.size] := by
  rcases incrementalBuild_eq_some h with ⟨-, rfl⟩ | ⟨p, i, q, inquiries, hp, hq, hrep⟩
  · cases ha
  · obtain ⟨entries, hb⟩ := begins_of_seedEntries hp i.bridge.cancelled _
    exact ⟨_, _, q, _, .change inquiries w.files changed,
      ⟨entries, completes_of_run hb hq⟩, hrep⟩

/-- Progress tells the truth. In whatever order the tasks of a build end, and whatever they deliver:
its events are in order, and the last count is the number of modules that were processed; the count of
tasks in flight is never below zero, and zero when none is outstanding. A build that returns has run
such a pass, and a rebuild too, unless the change affects nothing. -/
theorem progress_truthful (hp : s.options.progress = true) :
    (∀ g stale n t, s.Builds g stale n t →
      (∀ q files, s.RunsTo g stale q →
        ∃ totals, (t.finish files q stale [.started n]).Tells s files n q.delta.processed totals) ∧
      ∀ entries p, Pass.Occurs s.rules s.project.resolver.root g s.compiled.ids ⟨entries, stale⟩ p →
        0 ≤ p.inFlight ∧ (p.inFlight = 0 ↔ p.outstanding = [])) ∧
    (∀ w fuel rep, s.cancelled = false → s.build w fuel = some rep →
      ∃ q totals, s.RunsTo {} [] q ∧
        rep.Tells s w.files s.options.entries.size q.delta.processed totals) ∧
    ∀ w changed fuel rep, s.cancelled = false → s.rebuild w changed fuel = some rep →
      rep.unaffected = false → ∃ g stale n t q totals, s.Builds g stale n t ∧ s.RunsTo g stale q ∧
        rep.Tells s w.files n q.delta.processed totals := by
  refine ⟨fun g stale n t hb => ⟨fun q files h => tells_of_runsTo hp hb files h,
    fun _ _ h => h.inFlight fun _ _ => id_of_output⟩, ?full, ?change⟩
  case full =>
    intro w fuel rep hc h
    unfold build at h
    rw [hc, if_neg (by decide)] at h
    obtain ⟨q, t, hb, hq, rfl⟩ := runsTo_of_fullBuild h
    obtain ⟨totals, ht⟩ := tells_of_runsTo hp hb w.files hq
    exact ⟨q, totals, hq, ht⟩
  case change =>
    intro w changed fuel rep hc h ha
    unfold rebuild at h
    rw [hc, if_neg (by decide)] at h
    split at h
    next =>
      obtain ⟨g, stale, q, t, hb, hq, rfl⟩ := runsTo_of_incrementalBuild h ha
      obtain ⟨totals, ht⟩ := tells_of_runsTo hp hb w.files hq
      exact ⟨g, stale, _, t, q, totals, hb, hq, ht⟩
    next =>
      obtain ⟨q, t, hb, hq, rfl⟩ := runsTo_of_fullBuild h
      obtain ⟨totals, ht⟩ := tells_of_runsTo hp hb w.files hq
      exact ⟨{}, [], _, t, q, totals, hb, hq, ht⟩

/-- A build of one module, of which the task broke down. -/
theorem progress_after_breakdown :
    ∃ (s : Session) (id : ModuleId) (q : Pass), s.options.progress = true ∧ s.RunsTo {} [] q ∧
      q.delta.processed = [id] ∧
      (∃ totals, ({ s with bundle := {}, built := true }.finish ⟨.dir [], []⟩ q []
        [.started s.options.entries.size]).Tells s ⟨.dir [], []⟩ s.options.entries.size [id]
        totals) ∧
      0 ≤ q.inFlight ∧ (q.inFlight = 0 ↔ q.outstanding = []) := by
  let id : ModuleId := ⟨"/p/a.js"⟩
  let m : Module := Project.broken id "out of order"
  let s : Session :=
    { options := { progress := true }, root := ⟨"/p"⟩
      project := ⟨⟨⟨"/p"⟩, [], [], []⟩, { loaders := {} }, true⟩
      renderer := { options := { root := ⟨"/p"⟩ } } }
  let e : (String × String) × Resolution := (("main", "./a.js"), ⟨.ok ⟨id, false⟩, none⟩)
  let p : Pass := Pass.seed { graph := {} } ⟨"/p"⟩ false "main" "./a.js" e.2
  let q : Pass := (p.takeIn id).accept m
  have hb : Pass.Begins s.rules ⟨"/p"⟩ { entries := [e] } { graph := {} } p :=
    .intro (.cons false trivial (.nil _)) (.nil _)
  have hd : Pass.Delivers s.rules p q := by
    have hid : id ∈ p.outstanding := List.mem_singleton.mpr rfl
    exact .intro hid (Module.isOutput_failed _ _) (.nil _)
  have hrest : q.outstanding = [] := List.erase_cons_head id []
  have hprocessed : q.delta.processed = [id] := Pass.processed_accept _ _
  obtain ⟨hpasses, -⟩ := progress_truthful (s := s) rfl
  obtain ⟨htells, hcount⟩ := hpasses _ _ _ _ (.full s.inquiries)
  have hq : s.RunsTo {} [] q := ⟨[e], p, hb, .single hd, hrest⟩
  refine ⟨s, id, q, rfl, hq, hprocessed, ?_, hcount [e] q (.delivered hb (.single hd))⟩
  exact hprocessed ▸ htells q ⟨.dir [], []⟩ hq

end Session

end Bundler
