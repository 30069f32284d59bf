import Bundler.Proofs.FileTree.Canonical
import Bundler.Proofs.Session.Standing

/-!
# New sessions

What options and files make a session of, and when its first build comes to an end.
-/

namespace Bundler

namespace Session

/-- The directory of a project, as its options name it. -/
def directory (o : Options) (t : FileTree) : Path :=
  if o.root.isAbsolute then o.root else (Path.ofNames t.start).join o.root

/-- A session in which nothing was built. -/
def new (o : Options) (root : Path) (transforms : Loader → Transform) (minifier : Minifier) :
    Session where
  options := o
  root
  project := .ofOptions o root transforms
  renderer := ⟨o.renderOptions root, minifier⟩
  inquiries := { bridge := { limit := o.hookTimeoutMs } }

variable {o : Options} {t : FileTree} {transforms : Loader → Transform} {minifier : Minifier}
  {s : Session}

theorem create_eq_ok : create o t transforms minifier = .ok s ↔
    o.validate = .ok () ∧
      ∃ root, t.canonical (directory o t) = .ok root ∧ s = new o root transforms minifier := by
  unfold create new
  rw [show (if o.root.isAbsolute then o.root else (Path.ofNames t.start).join o.root) =
    directory o t from rfl]
  cases o.validate with
  | error e =>
    constructor
    · intro h
      cases h
    · rintro ⟨h, -⟩
      cases h
  | ok u =>
    simp only [bind, Except.bind]
    cases t.canonical (directory o t) with
    | error e =>
      constructor
      · intro h
        cases h
      · rintro ⟨-, root, h, -⟩
        cases h
    | ok root =>
      constructor
      · intro h
        cases h
        exact ⟨trivial, root, rfl, rfl⟩
      · rintro ⟨-, root', h, rfl⟩
        cases h
        rfl

theorem atEase_create (ht : t.Proper) (h : create o t transforms minifier = .ok s) : s.AtEase := by
  obtain ⟨-, root, hroot, rfl⟩ := create_eq_ok.mp h
  obtain ⟨names, hn, rfl⟩ := FileTree.plain_of_canonical ht hroot
  exact ⟨⟨rfl, ⟨rfl, rfl⟩, ⟨rfl, rfl⟩⟩, Path.tidy_ofNames hn⟩

/-! ## Sessions without a directory for their files -/

theorem write_of_no_outdir (h : s.options.outdir = none) (files : FileTree) (r : BuildResult) :
    s.write files r = (files, .ok ()) := by
  unfold write
  rw [h]

theorem finish_of_no_outdir (h : s.options.outdir = none) (files : FileTree) (q : Pass)
    (stale : List ModuleId) (started : List ProgressEvent) :
    (s.finish files q stale started).Written ∧
      (s.finish files q stale started).session.last = s.finalResult q ∧
      (s.finish files q stale started).outcome = s.answer (s.finalResult q) := by
  obtain ⟨h1, -, h2⟩ := s.finish_of_write files q stale started (s.write_of_no_outdir h files _)
  exact ⟨fun path cause he => s.answer_ne_io _ path cause (h2.symm.trans he), h1, h2⟩

/-- A build that writes nothing, by the pass that it comes to. -/
theorem exists_build {w : World} {fuel : Nat} {q : Pass} {i : Inquiries}
    (h : s.options.outdir = none) (hc : s.cancelled = false)
    (hq : s.fullPass w fuel = some (q, i)) :
    let t := { s with inquiries := i, bundle := {}, built := true }
    ∃ rep, s.build w fuel = some rep ∧ t.Finished q rep.session ∧ rep.Written ∧
      rep.session.last = t.finalResult q ∧ rep.outcome = s.answer rep.session.last := by
  intro t
  obtain ⟨hw, hlast, hout⟩ := finish_of_no_outdir (s := t) h w.files q []
    [.started s.options.entries.size]
  exact ⟨_, build_of_pass hc hq, t.finished_finish .., hw, hlast, by rw [hout, hlast]; rfl⟩

/-- What a rebuild looks at in the session after a first build from which nothing was pruned. -/
def afterBuild (s : Session) (x : Pass × Inquiries) : Session :=
  { s with graph := x.1.graph.settle, inquiries := x.2, built := true }

theorem Finished.rebuildPass_eq {q : Pass} {i : Inquiries} {t : Session}
    (hf : Finished { s with inquiries := i, bundle := {}, built := true } q t)
    (hc : s.compiled = {}) (hprune : q.graph.prune = (q.graph, [])) (w : World) (changed : Path)
    (fuel : Nat) :
    t.rebuildPass w changed fuel = (s.afterBuild (q, i)).rebuildPass w changed fuel := by
  refine rebuildPass_congr (s := s.afterBuild (q, i)) hf.options hf.project hf.inquiries ?_ ?_
    w changed fuel
  · rw [hf.graph, hprune]
    rfl
  · rw [hf.compiled]
    change s.compiled.filter _ = s.compiled
    rw [hc]
    rfl

/-- A rebuild that writes nothing and has something to do, by the pass that it comes to. -/
theorem exists_rebuild {w : World} {changed : Path} {fuel : Nat} {q : Pass} {i : Inquiries}
    (h : s.options.outdir = none) (hc : s.cancelled = false) (hb : s.built = true)
    (hne : ¬ ((s.graph.markStale w.files (s.absolute changed)).2 = [] ∧
      s.failedEntries.isEmpty = true))
    (hq : s.rebuildPass w (s.absolute changed) fuel = some (q, i)) :
    let t := { s with
      graph := (s.graph.markStale w.files (s.absolute changed)).1, inquiries := i }
    ∃ rep, s.rebuild w changed fuel = some rep ∧ t.Finished q rep.session ∧ rep.Written ∧
      rep.session.last = t.finalResult q ∧ rep.outcome = s.answer rep.session.last := by
  intro t
  obtain ⟨hw, hlast, hout⟩ := finish_of_no_outdir (s := t) h w.files q
    (s.graph.markStale w.files (s.absolute changed)).2 [.started s.failedEntries.size]
  exact ⟨_, rebuild_of_pass hc hb hne hq, t.finished_finish .., hw, hlast, by rw [hout, hlast]; rfl⟩

theorem fullBuild_written {w : World} {fuel : Nat} {rep : Report} (h : s.options.outdir = none)
    (hrep : s.fullBuild w fuel = some rep) : rep.Written := by
  obtain ⟨_, _, q, j, -, -, rfl⟩ := fullBuild_eq_some hrep
  refine (finish_of_no_outdir ?_ _ _ _ _).1
  exact h

theorem incrementalBuild_written {w : World} {changed : Path} {fuel : Nat} {rep : Report}
    (h : s.options.outdir = none) (hrep : s.incrementalBuild w changed fuel = some rep) :
    rep.Written := by
  rcases incrementalBuild_eq_some hrep with ⟨-, rfl⟩ | ⟨p, i, q, j, -, -, rfl⟩
  · exact fun _ _ he => nomatch he
  · refine (finish_of_no_outdir ?_ _ _ _ _).1
    exact h

/-! ## Sessions that compiled nothing on demand -/

theorem fullBuild_compiled {w : World} {fuel : Nat} {rep : Report} (h : s.compiled = {})
    (hrep : s.fullBuild w fuel = some rep) : rep.session.compiled = {} := by
  obtain ⟨_, _, q, j, -, -, rfl⟩ := fullBuild_eq_some hrep
  rw [(finished_finish _ _ _ _ _).compiled, h]
  rfl

theorem incrementalBuild_compiled {w : World} {changed : Path} {fuel : Nat} {rep : Report}
    (h : s.compiled = {}) (hrep : s.incrementalBuild w changed fuel = some rep) :
    rep.session.compiled = {} := by
  rcases incrementalBuild_eq_some hrep with ⟨-, rfl⟩ | ⟨p, i, q, j, -, -, rfl⟩
  · exact h
  · rw [(finished_finish _ _ _ _ _).compiled, h]
    rfl

/-! ## An entry and what it imports -/

/-- The modules are that of the entry `main` and the one that it imports. -/
def MainImports (a b : ModuleId) (g : ModuleGraph) : Prop :=
  g.entries.get? "main" = some a ∧ g.ids = [a, b] ∧
    (g.get? a).any (fun m => m.targets = [b]) = true

instance (a b : ModuleId) (g : ModuleGraph) : Decidable (MainImports a b g) :=
  inferInstanceAs (Decidable (_ ∧ _ ∧ _))

theorem MainImports.prune_eq {a b : ModuleId} {g : ModuleGraph} (h : MainImports a b g) :
    g.prune = (g, []) := by
  obtain ⟨hentry, hids, hmain⟩ := h
  obtain ⟨m, hm, ht⟩ := (Option.any_eq_true _ _).mp hmain
  refine ModuleGraph.prune_eq_self fun id hid => ?_
  rw [← ModuleGraph.mem_ids, hids] at hid
  simp only [List.mem_cons, List.not_mem_nil, or_false] at hid
  rcases hid with rfl | rfl
  · exact .entry hentry
  · refine (ModuleGraph.Reached.entry hentry).step ⟨m, hm, ?_⟩
    rw [of_decide_eq_true ht]
    exact List.mem_singleton_self _

/-! ## First builds -/

/-- A full build comes to an end if only some ids can be needed. -/
theorem AtEase.fullBuild_rests (h : s.AtEase) {w : World} {D : Path → Prop} (hw : w.Proper D)
    {ids : List ModuleId}
    (hids : ∀ rs, Pass.Sowing s.project w s.limit s.options.entries rs →
      ∀ id, (s.project.plan w s.limit {} s.compiled.ids ⟨rs, []⟩).Needed id → id ∈ ids) :
    ∃ N, ∀ fuel ≥ N, ∃ rep, s.fullBuild w fuel = some rep := by
  obtain ⟨rs, i, hsow, hrs, hi⟩ := Pass.seedEntries_sowing hw.answers (hw.tidy _ h.tidy)
    (h.steady hw) (s.newPass {}) s.options.entries
  obtain ⟨N, hN⟩ := @Pass.run_start_rests _ _ _ _ _ _ ⟨rs, []⟩ hw.answers
    (s.project.closed_of_proper hw) (fun _ => dir_of_needed_build hw hsow) ids (hids rs hsow) _ hi
  refine ⟨N, fun fuel hf => ?_⟩
  obtain ⟨⟨q, j⟩, hq⟩ := hN fuel hf
  exact fullBuild_of_run hrs hq

end Session

end Bundler
