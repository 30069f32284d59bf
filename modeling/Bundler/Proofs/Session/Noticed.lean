import Bundler.Proofs.Build.Heard
import Bundler.Proofs.FileTree.Spelling
import Bundler.Proofs.Session.Course

/-!
# Changes that are noticed

A rebuild for a path marks the modules of the file that the path denotes, and processes what it
marked. While something stands at the place, every spelling of its path will do; when nothing does,
the path has to be spelled as the ids of the modules are.
-/

namespace Bundler

/-! ## What is marked -/

/-- The modules of a place are marked if something stands there, or if its path is spelled by its
names. -/
theorem ModuleGraph.Indexed.mem_markStale_of_denotes {g : ModuleGraph} (hg : g.Indexed)
    {files : FileTree} {p : Path} {names : List String} (hp : files.Denotes p names)
    {id : ModuleId} {m : Module} (hm : g.get? id = some m) (hl : m.isLive = true)
    (hid : id.path = .ofNames names) : id ∈ (g.markStale files p).2 ↔
      (files.root.at? names).isSome = true ∨ p = .ofNames names ∨ m.hasResolveError = true := by
  have hof : ∀ q : Path, id ∈ g.idsForPath q.text ↔ q = .ofNames names := by
    intro q
    rw [hg.mem_idsForPath, and_iff_right (contains_iff.mpr ⟨m, hm⟩), hid]
    exact ⟨fun h => (congrArg Path.mk h).symm, fun h => h ▸ rfl⟩
  have hself : (∃ m', g.get? id = some m' ∧ m'.hasResolveError = true) ↔
      m.hasResolveError = true := by simp [hm]
  rw [ModuleGraph.mem_markStale, and_iff_right ⟨m, hm, hl⟩, hof, hof, hself, hp.canonical]
  cases (files.root.at? names).isSome with
  | true => simp
  | false =>
    -- The path stays as it is spelled, and is looked for once.
    have hsame : p.same p = true := decide_eq_true rfl
    simp [hsame]

namespace Pass

variable {r : Rules} {root : Path} {p q : Pass} {x : ModuleId}

/-! ## What is marked is processed -/

theorem mem_visited_self (p : Pass) (c : Bool) (id : ModuleId) : id ∈ (p.reprocess c id).visited := by
  unfold reprocess
  split
  next hv => exact List.contains_iff_mem.mp hv
  next =>
    rw [visited_spawn]
    exact List.mem_cons_self

theorem Begins.mem_visited {seeds : Seeds} (h : Begins r root seeds p q)
    (hx : x ∈ seeds.reprocessed) : x ∈ q.visited := by
  obtain ⟨-, hr⟩ := h
  exact hr.brings (I := fun _ => True) (J := fun id s => id ∈ s.visited) (fun _ _ _ _ _ _ => trivial)
    (fun c _ id _ s _ => mem_visited_self s c id)
    (fun c _ _ _ _ _ _ hs => mem_visited_reprocess hs c) trivial x hx

/-- A pass at rest has processed the ids that it started with, or tells that it was cancelled. -/
theorem Completes.reprocesses {g : ModuleGraph} {eager : List ModuleId} {seeds : Seeds}
    (hout : ∀ id m, r.output id m → m.IsOutput id) (h : Completes r root g eager seeds q)
    (hx : x ∈ seeds.reprocessed) : x ∈ q.delta.processed ∨
      q.graph.get? x = some (.failed x [.load x.text "build cancelled"]) := by
  have hheard := h.heard hout
  obtain ⟨p, hb, hruns, hrest⟩ := h
  have hover : q.Over x :=
    ⟨hruns.mem_visited (hb.mem_visited hx), by rw [hrest]; exact List.not_mem_nil⟩
  obtain ⟨m, hm, -, hend⟩ := hheard.finished x hover List.not_mem_nil
  rcases hend with hp | rfl
  · exact .inl hp
  · exact .inr hm

end Pass

namespace Session

variable {s t : Session} {w : World} {fuel : Nat} {rep : Report} {reps : List Report}

theorem Call.keeps_indexed (h : s.Call t) (hs : s.graph.Indexed) : t.graph.Indexed := by
  cases h with
  | idle inquiries => exact hs
  | build inquiries files started h =>
    rw [finish_graph]
    exact (h.indexed .empty).prune.settle
  | rebuild inquiries before files changed started h =>
    rw [finish_graph]
    exact (h.indexed (hs.markStale before changed)).prune.settle
  | compile inquiries files hid h =>
    rw [finish_graph]
    exact (h.indexed hs).prune.settle

theorem Runs.indexed (h : Runs reps s) : s.graph.Indexed := by
  induction h with
  | create h =>
    obtain ⟨-, root, -, rfl⟩ := create_eq_ok.mp h
    exact .empty
  | request h hrep ih => exact (perform_call hrep).keeps_indexed ih
  | @breakdown _ _ _ _ w _ hb ih =>
    rcases hb.leaves with he | ⟨-, -, changed, he⟩
    · rw [he]
      exact ih
    · rw [he]
      exact ih.markStale w.files changed
  | resolve h w specifier dir ih => exact ih
  | cancel h ih => exact ih

theorem built_finish (t : Session) (files : FileTree) (q : Pass) (stale : List ModuleId)
    (started : List ProgressEvent) : (t.finish files q stale started).session.built = t.built :=
  (t.finished_finish files q stale started).built

/-- A session that has not been built knows no modules. -/
theorem perform_unbuilt {req : Request} (hs : s.built = false → s.graph = {})
    (h : s.perform w fuel req = some rep) (hb : rep.session.built = false) :
    rep.session.graph = {} := by
  have hfull : s.fullBuild w fuel = some rep → rep.session.graph = {} := by
    intro hrep
    obtain ⟨_, _, q, inquiries, -, -, rfl⟩ := fullBuild_eq_some hrep
    rw [built_finish] at hb
    cases hb
  cases req with
  | build =>
    simp only [perform, build] at h
    split at h
    · cases h
      exact hs hb
    · exact hfull h
  | rebuild changed =>
    simp only [perform, Session.rebuild] at h
    split at h
    · cases h
      exact hs hb
    · split at h
      next hbuilt =>
        rcases incrementalBuild_eq_some h with ⟨-, rfl⟩ | ⟨p, i, q, inquiries, -, -, rfl⟩
        · exact hs hb
        · rw [built_finish] at hb
          exact absurd (hbuilt.symm.trans hb) (by decide)
      next => exact hfull h
  | compileLazy id =>
    simp only [perform, compileLazy] at h
    split at h
    · cases h
      exact hs hb
    · split at h
      next hid =>
        obtain ⟨q, inquiries, -, rfl⟩ := complete_eq_some h
        rw [built_finish] at hb
        rw [hs hb] at hid
        cases hid
      next =>
        cases h
        exact hs hb

theorem Runs.unbuilt (h : Runs reps s) : s.built = false → s.graph = {} := by
  induction h with
  | create h =>
    obtain ⟨-, root, -, rfl⟩ := create_eq_ok.mp h
    exact fun _ => rfl
  | request h hrep ih => exact perform_unbuilt ih hrep
  | breakdown h hb ih =>
    intro hno
    rcases hb.leaves with he | ⟨hbuilt, -, changed, he⟩
    · rw [he] at hno ⊢
      exact ih hno
    · rw [he] at hno
      rw [hbuilt] at hno
      cases hno
  | resolve h w specifier dir ih => exact ih
  | cancel h ih => exact ih

/-- A rebuild that marks a module processes it. -/
theorem incrementalBuild_processes {changed : Path} (h : s.incrementalBuild w changed fuel = some rep)
    {id : ModuleId} (hid : id ∈ (s.graph.markStale w.files changed).2) :
    ∃ q inquiries, rep = { s with graph := (s.graph.markStale w.files changed).1, inquiries }.finish
        w.files q (s.graph.markStale w.files changed).2 [.started s.failedEntries.size] ∧
      (id ∈ q.delta.processed ∨
        q.graph.get? id = some (.failed id [.load id.text "build cancelled"])) := by
  rcases incrementalBuild_eq_some h with ⟨⟨hnil, -⟩, -⟩ | ⟨p, i, q, inquiries, hp, hq, rfl⟩
  · rw [hnil] at hid
    cases hid
  · obtain ⟨entries, hb⟩ := begins_of_seedEntries hp i.bridge.cancelled _
    exact ⟨q, inquiries, rfl, (completes_of_run hb hq).reprocesses (fun _ _ hm => hm) hid⟩

/-- A path that denotes the file of a loaded module marks it, in whichever of its spellings, if
something stands at the place. If nothing does, as after a removal, it marks the module if it is
spelled by the names of the place; otherwise just a module is marked that waits for any change,
because one of its requests found nothing. A marked module is stale, and the rebuild processes it,
unless the session is cancelled meanwhile. -/
theorem Runs.rebuild_notices (h : Runs reps s) (hc : s.cancelled = false) {id : ModuleId}
    {m : Module} (hm : s.graph.get? id = some m) (hl : m.isLive = true) {names : List String}
    (hid : id.path = .ofNames names) (w : World) {path : Path}
    (hp : w.files.Denotes (s.absolute path) names) :
    let marked := s.graph.markStale w.files (s.absolute path)
    (id ∈ marked.2 ↔ (w.files.root.at? names).isSome = true ∨ s.absolute path = .ofNames names ∨
      m.hasResolveError = true) ∧
    (id ∈ marked.2 → marked.1.get? id = some { m with state := .stale } ∧
      ∀ fuel rep, s.rebuild w path fuel = some rep → ∃ q inquiries,
        rep = { s with graph := marked.1, inquiries }.finish w.files q marked.2
          [.started s.failedEntries.size] ∧
        (id ∈ q.delta.processed ∨
          q.graph.get? id = some (.failed id [.load id.text "build cancelled"]))) := by
  intro marked
  refine ⟨h.indexed.mem_markStale_of_denotes hp hm hl hid, fun hmem => ⟨?_, fun fuel rep hrep => ?_⟩⟩
  · rw [ModuleGraph.get?_markStale, if_pos hmem, hm]
    rfl
  · have hbuilt : s.built = true := by
      refine eq_true_of_ne_false fun hb => ?_
      rw [h.unbuilt hb] at hm
      cases hm
    unfold Session.rebuild at hrep
    rw [hc, if_neg (by decide), hbuilt, if_pos rfl] at hrep
    exact incrementalBuild_processes hrep hmem

/-- Of one spelling, the change of a file is noticed, and its removal is not. -/
theorem rebuild_notices_of_one_file : ∃ (reps : List Report) (s : Session) (m : Module),
    let path := s.absolute ⟨"/./b.js"⟩
    let removed : World := ⟨⟨.dir [], []⟩, none⟩
    Runs reps s ∧ s.cancelled = false ∧ s.graph.get? oneId = some m ∧ m.isLive = true ∧
      oneId.path = .ofNames ["b.js"] ∧
      (oneFile "2").files.Denotes path ["b.js"] ∧ removed.files.Denotes path ["b.js"] ∧
      oneId ∈ (s.graph.markStale (oneFile "2").files path).2 ∧
      oneId ∉ (s.graph.markStale removed.files path).2 := by
  obtain ⟨fuel, rep, hbuild, hone, -, -⟩ := one_build
  have hperform : oneSession.perform (oneFile "1") fuel .build = some rep := hbuild
  have hruns := (Runs.create create_one).request hperform
  have hc : rep.session.cancelled = false := hone.shows.toAtEase.not_cancelled
  obtain ⟨m, hm, hl, htells⟩ := hone.module (by decide)
  have hid : oneId.path = .ofNames ["b.js"] := by decide +kernel
  have hpath : rep.session.absolute ⟨"/./b.js"⟩ = ⟨"/./b.js"⟩ := if_pos (by decide +kernel)
  have hafter : (oneFile "2").files.Denotes ⟨"/./b.js"⟩ ["b.js"] :=
    ⟨⟨[], "b.js", false⟩, rfl, rfl, rfl, rfl⟩
  have hremoved : FileTree.Denotes ⟨.dir [], []⟩ ⟨"/./b.js"⟩ ["b.js"] :=
    ⟨⟨[], "b.js", false⟩, rfl, rfl, rfl, rfl⟩
  rw [← hpath] at hafter hremoved
  refine ⟨_, _, m, hruns, hc, hm, hl, hid, hafter, hremoved, ?_, fun hmem => ?_⟩
  · exact (hruns.rebuild_notices hc hm hl hid (oneFile "2") hafter).1.mpr (.inl rfl)
  · rcases (hruns.rebuild_notices hc hm hl hid ⟨⟨.dir [], []⟩, none⟩ hremoved).1.mp hmem with
      h | h | h
    · cases h
    · have hne : (⟨"/./b.js"⟩ : Path) ≠ .ofNames ["b.js"] := by decide +kernel
      exact absurd (hpath.symm.trans h) hne
    · have herrors := htells.errors
      rw [(one_ideal.1 "1" (by decide)).2] at herrors
      unfold Module.hasResolveError at h
      rw [List.forall₂_nil_left_iff.mp herrors] at h
      cases h

end Session

end Bundler
