import Bundler.Proofs.Session.Course
import Bundler.Proofs.Session.OnDemand

/-!
# Modules that were compiled on request

A session notes which placeholders it was asked to compile, and every later pass compiles these at
once when it comes upon them. So a module that was compiled on request is not a placeholder again as
long as it stays in the graph, whatever is built in between, and what a session notes is there and
compiled.
-/

namespace Bundler

namespace Session

variable {s t u : Session} {id : ModuleId}

/-- The compilation of a placeholder, however it goes. -/
inductive Compiles (s : Session) (id : ModuleId) : Session → Prop
  | intro (inquiries : Inquiries) (files : FileTree) {q : Pass}
      (hid : (s.graph.get? id).any (·.isLazy) = true)
      (h : Pass.Completes s.rules s.project.resolver.root s.graph (s.compiled.add id).ids
        { reprocessed := [id] } q) :
      Compiles s id ({ s with inquiries, compiled := s.compiled.add id }.finish files q [] []).session

theorem Compiles.call (h : s.Compiles id t) : s.Call t := by
  obtain ⟨inquiries, files, hid, h⟩ := h
  exact .compile inquiries files hid h

/-- A request to compile is refused, or is a compilation. -/
theorem compileLazy_compiles {w : World} {fuel : Nat} {rep : Report}
    (h : s.compileLazy w id fuel = some rep) : rep.Refused ∨ s.Compiles id rep.session := by
  unfold compileLazy at h
  split at h
  next =>
    cases h
    exact .inl (.inl rfl)
  next =>
    split at h
    next hid =>
      obtain ⟨q, inquiries, hq, rfl⟩ := complete_eq_some h
      have hb : Pass.Begins s.rules s.project.resolver.root { reprocessed := [id] }
          { graph := s.graph, eager := (s.compiled.add id).ids }
          (Pass.reprocess { graph := s.graph, eager := (s.compiled.add id).ids } s.cancelled id) :=
        .intro (.nil _) (.cons _ trivial (.nil _))
      exact .inr (.intro inquiries w.files hid (completes_of_run hb hq))
    next =>
      cases h
      exact .inl (.inr ⟨_, rfl⟩)

/-- Calls at the end of each of which an id is in the graph. -/
def Stays (id : ModuleId) : Session → Session → Prop :=
  Relation.ReflTransGen fun s t => s.Call t ∧ t.graph.contains id = true

/-! ## What is noted -/

/-- What is noted as compiled is in the graph, and is no placeholder. -/
def Compiled (s : Session) : Prop :=
  ∀ id, s.compiled.contains id = true → ∃ m, s.graph.get? id = some m ∧ m.state ≠ .lazy

theorem contains_compiled_finish {files : FileTree} {q : Pass} {stale : List ModuleId}
    {started : List ProgressEvent} :
    (s.finish files q stale started).session.compiled.contains id = true ↔
      s.compiled.contains id = true ∧
        (s.finish files q stale started).session.graph.contains id = true := by
  rw [finish_graph, ← IdSet.mem_ids, ← IdSet.mem_ids]
  exact (s.finished_finish files q stale started).mem_compiled

/-- A pass that leaves nothing noted as a placeholder is finished with what is noted compiled. -/
theorem compiled_finish {files : FileTree} {q : Pass} {stale : List ModuleId}
    {started : List ProgressEvent}
    (h : ∀ id, s.compiled.contains id = true → NotLazy (q.graph.get? id)) :
    (s.finish files q stale started).session.Compiled := by
  intro id hid
  obtain ⟨hc, hg⟩ := contains_compiled_finish.mp hid
  obtain ⟨m, hm⟩ := ModuleGraph.contains_iff.mp hg
  refine ⟨m, hm, ?_⟩
  rw [finish_graph] at hm
  obtain ⟨-, m', hm', rfl⟩ := ModuleGraph.get?_settle_prune.mp hm
  exact of_decide_eq_false (m'.settled_isLazy.trans (h id hc m' hm'))

theorem Compiled.notLazy (h : s.Compiled) (hid : s.compiled.contains id = true) :
    NotLazy (s.graph.get? id) := by
  obtain ⟨m, hm, hl⟩ := h id hid
  rintro m' hm'
  obtain rfl := Option.some.inj (hm.symm.trans hm')
  exact decide_eq_false hl

theorem notLazy_markStale {g : ModuleGraph} (h : NotLazy (g.get? id)) (files : FileTree)
    (changed : Path) : NotLazy ((g.markStale files changed).1.get? id) := by
  intro m hm
  rw [ModuleGraph.get?_markStale] at hm
  split at hm
  · obtain ⟨m', -, rfl⟩ := Option.map_eq_some_iff.mp hm
    rfl
  · exact h m hm

theorem Call.keeps_compiled (h : s.Call t) (hw : s.graph.WellFormed) (hs : s.Compiled) :
    t.Compiled := by
  have hout : ∀ id m, s.rules.output id m → m.IsOutput id := fun _ _ hm => hm
  cases h with
  | idle inquiries => exact hs
  | build inquiries files started h =>
    -- The graph is empty at first.
    refine compiled_finish fun x hx => (h.turns hout x).notLazy (IdSet.mem_ids.mpr hx) ?_
    exact fun m hm => nomatch hm
  | rebuild inquiries before files changed started h =>
    refine compiled_finish fun x hx => (h.turns hout x).notLazy (IdSet.mem_ids.mpr hx) ?_
    exact notLazy_markStale (hs.notLazy hx) before changed
  | @compile inquiries files id q hid h =>
    have hmem : ∀ x, (s.compiled.add id).contains x = true → x ∈ (s.compiled.add id).ids :=
      fun x hx => IdSet.mem_ids.mpr hx
    refine compiled_finish fun x hx => ?_
    rcases (IdSet.contains_add s.compiled id x).mp hx with rfl | hold
    · exact (h.compiles hout (hmem x hx) hid hw.toRegular).1
    · exact (h.turns hout x).notLazy (hmem x hx) (hs.notLazy hold)

theorem Course.compiled (h : s.Course) : s.Compiled := by
  induction h with
  | create h =>
    obtain ⟨-, root, -, rfl⟩ := create_eq_ok.mp h
    exact fun _ hid => nomatch hid
  | call h hc ih => exact hc.keeps_compiled h.intact.wellFormed ih

/-! ## What stays noted -/

/-- The compilation of a placeholder keeps it in the graph and notes it. -/
theorem Compiles.noted (h : s.Compiles id t) (hw : s.graph.WellFormed) :
    t.compiled.contains id = true := by
  have hout : ∀ id m, s.rules.output id m → m.IsOutput id := fun _ _ hm => hm
  obtain ⟨inquiries, files, hid, h⟩ := h
  refine contains_compiled_finish.mpr ⟨(IdSet.contains_add ..).mpr (.inl rfl), ?_⟩
  obtain ⟨m, hm, -⟩ := (Option.any_eq_true _ _).mp hid
  have hmem : id ∈ (s.compiled.add id).ids :=
    IdSet.mem_ids.mpr ((IdSet.contains_add ..).mpr (.inl rfl))
  have hthere := ModuleGraph.contains_iff.mpr ((h.turns hout id).exists_some hm)
  have hreached := (h.compiles hout hmem hid hw.toRegular).2 id
    (hw.reached id (ModuleGraph.contains_iff.mpr ⟨m, hm⟩))
  rw [finish_graph]
  exact ModuleGraph.contains_settle_prune.mpr ⟨hreached, hthere⟩

theorem Call.noted (h : s.Call t) (hs : s.compiled.contains id = true)
    (ht : t.graph.contains id = true) : t.compiled.contains id = true := by
  cases h with
  | idle inquiries => exact hs
  | build inquiries files started h => exact contains_compiled_finish.mpr ⟨hs, ht⟩
  | rebuild inquiries before files changed started h =>
    exact contains_compiled_finish.mpr ⟨hs, ht⟩
  | compile inquiries files hid h =>
    exact contains_compiled_finish.mpr ⟨(IdSet.contains_add ..).mpr (.inr hs), ht⟩

theorem Stays.noted (h : Stays id s t) (hs : s.compiled.contains id = true) :
    t.compiled.contains id = true := by
  induction h with
  | refl => exact hs
  | tail _ hc ih => exact hc.1.noted ih hc.2

theorem Stays.course (h : Stays id s t) (hs : s.Course) : t.Course := by
  induction h with
  | refl => exact hs
  | tail _ hc ih => exact ih.call hc.1

/-- In any course of calls, what a session notes as compiled is in its graph and compiled, and a
module that was compiled on request is in the graph after that, and is not a placeholder as long as
it stays there. So a request to compile a module is refused, or the module is compiled for as long
as it stays. -/
theorem Course.never_lazy_again (h : s.Course) :
    (∀ x, s.compiled.contains x = true → ∃ m, s.graph.get? x = some m ∧ m.state ≠ .lazy) ∧
      (∀ id t u, s.Compiles id t → Stays id t u →
        ∃ m, u.graph.get? id = some m ∧ m.state ≠ .lazy) ∧
      ∀ (w : World) (id : ModuleId) (fuel : Nat) (rep : Report),
        s.compileLazy w id fuel = some rep → rep.Refused ∨
          ∀ u, Stays id rep.session u → ∃ m, u.graph.get? id = some m ∧ m.state ≠ .lazy := by
  have hstays : ∀ id t u, s.Compiles id t → Stays id t u →
      ∃ m, u.graph.get? id = some m ∧ m.state ≠ .lazy := by
    intro id t u hc hs
    have ht : t.Course := h.call hc.call
    exact (hs.course ht).compiled id (hs.noted (hc.noted h.intact.wellFormed))
  exact ⟨h.compiled, hstays, fun w id fuel rep hrep =>
    (compileLazy_compiles hrep).imp_right fun hc u hs => hstays id rep.session u hc hs⟩

/-- A placeholder whose compilation breaks down. -/
theorem never_lazy_again_after_breakdown : ∃ s t : Session, s.Course ∧
    (s.graph.get? importedId).any (·.isLazy) = true ∧ s.Compiles importedId t ∧
    ∃ m, t.graph.get? importedId = some m ∧ m.state ≠ .lazy := by
  obtain ⟨_, rep, hrep, -, -, hid⟩ := build_two
  have hs : rep.session.Course := (Course.create create_two).call (build_call hrep)
  generalize rep.session = s at hs hid
  let start : Pass := { graph := s.graph, eager := (s.compiled.add importedId).ids }
  let p : Pass := start.reprocess false importedId
  let q : Pass := (p.takeIn importedId).accept (Project.broken importedId "out of order")
  have hb : Pass.Begins s.rules s.project.resolver.root { reprocessed := [importedId] } start p :=
    .intro (.nil _) (.cons false trivial (.nil _))
  have hd : Pass.Delivers s.rules p q := by
    have hmem : importedId ∈ p.outstanding := List.mem_singleton.mpr rfl
    exact .intro hmem (Module.isOutput_failed _ _) (.nil _)
  have hrest : q.outstanding = [] := List.erase_cons_head importedId []
  have hc : s.Compiles importedId _ :=
    .intro s.inquiries twoFiles.files hid ⟨p, hb, .single hd, hrest⟩
  exact ⟨s, _, hs, hid, hc, hs.never_lazy_again.2.1 importedId _ _ hc .refl⟩

end Session

end Bundler
