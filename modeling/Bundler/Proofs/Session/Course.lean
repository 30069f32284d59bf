import Bundler.Proofs.Build.Nodes
import Bundler.Proofs.Manifest
import Bundler.Proofs.Session.Published

/-!
# Courses of calls

In a course of calls, each of which meets files and a host of its own and ends as it may, chunks are
handed on from graph to graph, and a pass that forms none anew adds to the graph under them. The
graph goes on backing them, so whatever is published lists all that it tells of.
-/

namespace Bundler

namespace ModuleGraph

variable {g : ModuleGraph} {cs : List Chunk}

/-- What a pass adds and compiles takes nothing from chunks. -/
theorem Backs.completes {r : Pass.Rules} {root : Path} {eager : List ModuleId} {seeds : Pass.Seeds}
    {q : Pass} (hb : g.Backs cs) (hout : ∀ id m, r.output id m → m.IsOutput id)
    (h : Pass.Completes r root g eager seeds q) : q.graph.Backs cs := by
  refine hb.mono (fun id hid => ?_) fun id hid => h.isLive hout hid
  obtain ⟨m, hm⟩ := contains_iff.mp hid
  exact contains_iff.mpr ((h.turns hout id).exists_some hm)

theorem Backs.markStale (hb : g.Backs cs) (files : FileTree) (changed : Path) :
    (g.markStale files changed).1.Backs cs := by
  refine hb.mono (fun id hid => contains_markStale.mpr hid) fun id hid => ?_
  obtain ⟨m, hm, hl⟩ := isLive_iff.mp hid
  rw [isLive_iff, get?_markStale, hm]
  split
  · exact ⟨_, rfl, Module.isLive_iff.mpr ⟨(Module.isLive_iff.mp hl).1, rfl⟩⟩
  · exact ⟨m, rfl, hl⟩

theorem Backs.settle_prune (hb : g.Backs cs) (hp : g.prune.2 = []) :
    g.prune.1.settle.Backs cs :=
  hb.mono (fun _ hid => contains_settle_prune.mpr ⟨reached_of_prune hp hid, hid⟩) fun _ hid =>
    isLive_settle_prune (reached_of_prune hp (contains_of_isLive hid)) hid

end ModuleGraph

namespace Session

/-- What comes of a new session by calls, however they go. -/
inductive Course : Session → Prop
  | create {o : Options} {files : FileTree} {transforms : Loader → Transform} {minifier : Minifier}
      {s : Session} (h : Session.create o files transforms minifier = .ok s) : Course s
  | call {s t : Session} (h : Course s) (hc : s.Call t) : Course t

/-! ## Graph and chunks -/

structure Intact (s : Session) : Prop where
  wellFormed : s.graph.WellFormed
  backs : s.graph.Backs s.bundle.chunks.chunks

variable {s t : Session}

theorem Intact.integral (h : s.Intact) : s.described.Integral s.graph.entryErrors :=
  BuildResult.integral_assemble h.wellFormed.closed h.wellFormed.entry h.backs

/-- A pass that is finished leaves its session intact, if the graph of the pass backs the chunks
that are not formed anew. -/
theorem intact_finish {files : FileTree} {q : Pass} {stale : List ModuleId}
    {started : List ProgressEvent}
    (hwf : (s.finish files q stale started).session.graph.WellFormed)
    (hb : s.bundle.mustRepartition (finalDelta q) = false →
      q.graph.Backs s.bundle.chunks.chunks) :
    (s.finish files q stale started).session.Intact := by
  refine ⟨hwf, ?_⟩
  have hf := s.finished_finish files q stale started
  rw [hf.graph] at hwf ⊢
  rw [hf.bundle]
  cases hm : s.bundle.mustRepartition (finalDelta q) with
  | true =>
    have hchunks : (s.finalBundle q).chunks =
        .partition q.graph.prune.1.settle s.options.splitOptions := if_pos hm
    rw [hchunks]
    exact Partition.backs_chunks hwf.entry _
  | false =>
    have hchunks : (s.finalBundle q).chunks = s.bundle.chunks := if_neg (by rw [hm]; decide)
    rw [hchunks]
    exact (hb hm).settle_prune (mustRepartition_eq_false.mp hm).2.1

theorem Call.keeps_intact (h : s.Call t) (hi : s.Intact) : t.Intact := by
  have hwf := h.keeps_wellFormed hi.wellFormed
  have hout : ∀ id m, s.rules.output id m → m.IsOutput id := fun _ _ hm => hm
  cases h with
  | idle inquiries => exact ⟨hwf, hi.backs⟩
  | build inquiries files started h =>
    -- There are no chunks to begin with.
    exact intact_finish hwf fun hm => nomatch (Bool.or_true _).symm.trans hm
  | rebuild inquiries before files changed started h =>
    exact intact_finish hwf fun _ => (hi.backs.markStale before changed).completes hout h
  | compile inquiries files hid h => exact intact_finish hwf fun _ => hi.backs.completes hout h

theorem Course.intact (h : s.Course) : s.Intact := by
  induction h with
  | create h =>
    obtain ⟨-, root, -, rfl⟩ := create_eq_ok.mp h
    exact ⟨.empty, List.nodup_nil, fun _ hc => (nomatch hc), fun _ hc => (nomatch hc),
      fun _ hc => nomatch hc⟩
  | call _ hc ih => exact hc.keeps_intact ih

theorem Call.last_cases (h : s.Call t) : t.last = t.described ∨ t.last = s.last := by
  have hfinish : ∀ (u : Session) (files : FileTree) (q : Pass) (stale : List ModuleId)
      (started : List ProgressEvent), u.last = s.last →
      (u.finish files q stale started).session.last =
          (u.finish files q stale started).session.described ∨
        (u.finish files q stale started).session.last = s.last := by
    intro u files q stale started hu
    rcases u.last_finish_cases files q stale started with ⟨-, hl, -⟩ | ⟨-, hl⟩
    · exact .inl hl
    · exact .inr (hl.trans hu)
  cases h with
  | idle inquiries => exact .inr rfl
  | build inquiries files started h => exact hfinish _ files _ _ started rfl
  | rebuild inquiries before files changed started h => exact hfinish _ files _ _ started rfl
  | compile inquiries files hid h => exact hfinish _ files _ _ _ rfl

/-- However the calls go, what a session keeps is integral after each, and a call publishes that or
leaves the result that was published before. -/
theorem Course.published (h : s.Course) (hc : s.Call t) :
    t.described.Integral t.graph.entryErrors ∧ (t.last = t.described ∨ t.last = s.last) :=
  ⟨(hc.keeps_intact h.intact).integral, hc.last_cases⟩

/-- The first build of a project of one file publishes an integral result, which lists a module. -/
theorem published_by_one_build : ∃ t : Session, oneSession.Course ∧ oneSession.Call t ∧
    t.last = t.described ∧ t.last.Integral t.graph.entryErrors ∧ t.last.modules ≠ [] := by
  obtain ⟨fuel, rep, hrep, hone, -, -⟩ := one_build
  have hc : oneSession.Course := .create create_one
  have hlast : rep.session.last = rep.session.described := hone.shows.last
  refine ⟨rep.session, hc, build_call hrep, hlast, ?_, hone.modules_ne_nil (by decide)⟩
  rw [hlast]
  exact (hc.published (build_call hrep)).1

end Session

end Bundler
