import Bundler.Proofs.Build.Demand
import Bundler.Proofs.Build.Notice
import Bundler.Proofs.Session.Repeat

/-!
# Sessions that hold what a build gives

A session is faithful to a world if its graph holds what the entries demand there and nothing more,
and its chunks and files are those of the graph. A build in that world comes to the same result,
whatever the calls were that made the session.
-/

namespace Bundler

theorem Pass.Ends.notices {project : Project} {w : World} {limit : Option Nat} {g : ModuleGraph}
    {eager : List ModuleId} {seeds : Pass.Seeds} {q : Pass}
    (h : Pass.Ends project w limit g eager seeds q) : q.Notices g :=
  Pass.Completes.notices ⟨_, Pass.begins_start project w limit g eager seeds, h.runs, h.rest⟩

namespace Session

/-- A session that is up to date, with nothing in its graph that the world does not account for, and
with the chunks and the files of its graph. -/
structure Faithful (s : Session) (w : World) (D : Path → Prop) (R : Realm) : Prop
    extends s.Shows w D where
  within : s.graph.Within R
  tight : s.graph.Tight s.project w s.limit s.compiled.ids s.options.entries
  fits : s.bundle.Fits s.graph s.options.splitOptions s.renderer

/-- No id is inside and outside for a project in a world. -/
def Bounded (s : Session) (w : World) (R : Realm) : Prop :=
  s.project.Bounded w s.limit s.options.entries R

section
variable {s t : Session} {w : World} {D : Path → Prop} {R : Realm} {q : Pass}

theorem Faithful.exact (h : s.Faithful w D R) :
    s.graph.Exact s.project w s.limit s.compiled.ids s.options.entries R where
  toCurrent := h.current
  wellFormed := h.wellFormed
  within := h.within
  tight := h.tight

/-- Without lazy compilation, a session that is up to date holds nothing that is not demanded. -/
theorem Shows.exact (h : s.Shows w D) (hb : s.Bounded w R) (hw : s.graph.Within R)
    (hlazy : s.project.lazyCompilation = false) :
    s.graph.Exact s.project w s.limit s.compiled.ids s.options.entries R where
  toCurrent := h.current
  wellFormed := h.wellFormed
  within := hw
  tight := h.current.tight hb hw hlazy h.wellFormed.reached

theorem SameProject.bounded (h : s.SameProject t) (hb : s.Bounded w R) : t.Bounded w R := by
  unfold Bounded
  rw [h.limit, h.project, h.options]
  exact hb

/-- A finished pass whose graph holds what is demanded leaves a session behind that is faithful. -/
theorem Finished.faithful (hf : s.Finished q t) {r : Session} (h : r.SameProject s)
    (ht : t.Shows w D) (hb : r.Bounded w R)
    (he : q.graph.prune.1.settle.Exact r.project w r.limit s.compiled.ids r.options.entries R)
    (hfit : (s.finalBundle q).Fits q.graph.prune.1.settle r.options.splitOptions r.renderer) :
    r.SameProject t ∧ t.Faithful w D R := by
  have hsame := h.trans hf.sameProject
  refine ⟨hsame, ht, ?_, ?_, ?_⟩
  · rw [hf.graph]
    exact he.within
  · rw [hf.graph, hsame.limit, hsame.project, hsame.options]
    exact (he.restrict hb (fun id hid => (hf.mem_compiled.mp hid).1)
      fun id hid hc => hf.mem_compiled.mpr ⟨hid, hc⟩).tight
  · rw [hf.graph, hf.bundle, hsame.options, hsame.renderer]
    exact hfit

/-! ## Builds -/

theorem BuildEnds.exact {rs : List ((String × String) × Resolution)}
    (hb : s.Bounded w R) (hsow : Pass.Sowing s.project w s.limit s.options.entries rs)
    (hends : s.BuildEnds w rs q) :
    q.graph.prune.1.settle.Exact s.project w s.limit s.compiled.ids s.options.entries R :=
  Pass.Ends.exact hends hb (hends.current hsow) hends.graph_wellFormed
    (fun _ => Pass.demanded_of_needed (fun _ h => absurd h List.not_mem_nil) hsow fun _ _ h => h)
    (fun _ _ hm => nomatch hm) fun _ _ hm => nomatch hm

theorem fullBuild_faithful (h : s.AtEase) (hw : w.Proper D) (hb : s.Bounded w R) {fuel : Nat}
    {rep : Report} (hrep : s.fullBuild w fuel = some rep) (hwr : rep.Written) :
    s.SameProject rep.session ∧ rep.session.Faithful w D R := by
  have hshows := fullBuild_shows h hw hrep hwr
  obtain ⟨rs, q, j, hsow, hends, hj, rfl⟩ := h.of_fullBuild hw hrep
  exact (finished_finish { s with inquiries := j, bundle := {}, built := true } w.files q []
    _).faithful (r := s) ⟨rfl, rfl, rfl, rfl, hj.limit⟩ hshows hb (hends.exact hb hsow)
    (Bundle.fits_update_empty _ _ _ _)

/-- A full build ends, and comes to the result of a session that is faithful already. -/
theorem Faithful.fullBuild_same (h : s.Faithful w D R) (hw : w.Proper D) (hb : s.Bounded w R)
    (ht : s.SameProject t) (hc : t.compiled = s.compiled) (hease : t.AtEase) : ∃ N, ∀ fuel ≥ N, ∃ rep r,
      t.fullBuild w fuel = some rep ∧ s.last.Alike r ∧ s.Returns w.files s.last r rep.outcome := by
  have hbt : t.Bounded w R := ht.bounded hb
  -- What the build processes is in the graph of the faithful session.
  obtain ⟨N, hN⟩ := hease.fullBuild_rests hw fun rs hsow id
      (hn : (t.project.plan w t.limit {} t.compiled.ids ⟨rs, []⟩).Needed id) => by
    have hd := Pass.demanded_of_needed (fun _ h => absurd h List.not_mem_nil) hsow
      (fun _ _ h => h) hn
    rw [ht.project, ht.limit, hc, ht.options] at hd
    obtain ⟨m, hm, -⟩ := (h.exact.live_iff_demanded hb).mpr hd
    exact ModuleGraph.mem_ids.mpr (ModuleGraph.contains_iff.mpr ⟨m, hm⟩)
  refine ⟨N, fun fuel hf => ?_⟩
  obtain ⟨rep, hrep⟩ := hN fuel hf
  obtain ⟨rs, q, j, hsow, hends, hj, rfl⟩ := hease.of_fullBuild hw hrep
  have hexact := hends.exact hbt hsow
  rw [ht.project, ht.limit, hc, ht.options] at hexact
  have hbare := h.exact.sameBare hexact hb fun _ => Iff.rfl
  have halike := h.current.alike hexact.toCurrent hbare
  have hbundle : finalBundle { t with inquiries := j, bundle := {}, built := true } q = s.bundle := by
    refine (h.fits.of_sameBare hbare halike.entries).unique ?_
    rw [← ht.options, ← ht.renderer]
    exact Bundle.fits_update_empty _ _ _ _
  have hresult : s.last.Alike
      (finalResult { t with inquiries := j, bundle := {}, built := true } q) := by
    unfold finalResult
    rw [h.last, hbundle]
    exact BuildResult.assemble_alike halike _ _
  exact ⟨_, _, hrep, hresult, returns_finish (t := { t with
    inquiries := j, bundle := {}, built := true }) ht.options ht.root hresult.outputs⟩

/-! ## Other worlds -/

theorem Faithful.demanded_overlooks {w' : World} (h : s.Faithful w D R) (hb : s.Bounded w R)
    (hu : s.Overlooks w w' D) {id : ModuleId}
    (hd : s.project.Demanded w s.limit s.compiled.ids s.options.entries id) :
    s.project.Demanded w' s.limit s.compiled.ids s.options.entries id := by
  induction hd with
  | @entry name specifier id hn he =>
    refine .entry hn ?_
    have hsame : s.project.entry w' s.limit specifier = s.project.entry w s.limit specifier := by
      cases hc : s.graph.entryErrors.contains name with
      | true => exact hu.failed name specifier hn hc
      | false => exact hu.entries name specifier hn hc
    rw [hsame]
    exact he
  | dependency hk hd hw ih =>
    obtain ⟨m, hm, hl⟩ := (h.exact.live_iff_demanded hb).mpr hk
    rw [← hu.modules _ m hm hl List.not_mem_nil] at hd
    exact .dependency ih hd hw

theorem Shows.overlooks_refl (h : s.Shows w D) : s.Overlooks w w D where
  toUnmoved := .refl s w []
  failed _ _ _ _ := rfl
  cache := h.cache

theorem Faithful.overlooks {w' : World} (h : s.Faithful w D R) (hb : s.Bounded w R)
    (hu : s.Overlooks w w' D) : s.Faithful w' D R where
  toShows := h.toShows.overlooks hu
  within := h.within
  tight id m hm hl := h.demanded_overlooks hb hu (h.tight id m hm hl)
  fits := h.fits

/-! ## Rebuilds without a change -/

theorem Faithful.forget (h : s.Faithful w D R) : s.forgetLookups.Faithful w D R where
  toShows := h.toShows.forget
  within := h.within
  tight := h.tight
  fits := h.fits

/-- A rebuild without a change keeps a session faithful. -/
theorem incrementalBuild_faithful_same (h : s.Faithful w D R) (hw : w.Proper D) (hb : s.Bounded w R)
    {changed : Path} {fuel : Nat} {rep : Report}
    (hrep : s.incrementalBuild w changed fuel = some rep) (hwr : rep.Written) :
    s.SameProject rep.session ∧ rep.session.Faithful w D R := by
  have hawaits := h.toShows.awaits (s.graph.markStale w.files changed).2
  have hshows := incrementalBuild_shows hawaits hw hrep hwr
  rcases hawaits.of_incrementalBuild hw hrep with ⟨-, rfl⟩ | ⟨rs, q, j, hsow, hends, hj, rfl⟩
  · exact ⟨⟨rfl, rfl, rfl, rfl, rfl⟩, h.forget⟩
  have halike := (h.toShows.unchanged hsow hends).2
  have hf := finished_finish { s with
    graph := (s.graph.markStale w.files changed).1, inquiries := j } w.files q
    (s.graph.markStale w.files changed).2 [.started s.failedEntries.size]
  refine hf.faithful (r := s) ⟨rfl, rfl, rfl, rfl, hj.limit⟩ hshows hb ?_ ?_
  · refine h.exact.of_sameBare (hawaits.current hsow hends).settle_prune ?_ halike.sameBare
    rw [← hf.graph]
    exact hshows.wellFormed
  · have hbundle : finalBundle { s with
        graph := (s.graph.markStale w.files changed).1, inquiries := j } q = s.bundle :=
      h.toShows.finalBundle_eq hsow hends
    rw [hbundle]
    exact h.fits.of_sameBare halike.sameBare halike.entries

/-! ## Compilation on request -/

section
variable {id : ModuleId}

theorem demanded_add {x : ModuleId}
    (h : s.project.Demanded w s.limit s.compiled.ids s.options.entries x) :
    s.project.Demanded w s.limit (s.compiled.add id).ids s.options.entries x :=
  h.mono fun t _ ht => by
    rw [IdSet.mem_ids, IdSet.contains_add, ← IdSet.mem_ids]
    exact .inr ht

theorem Faithful.demanded_of_placeholder (h : s.Faithful w D R) (hb : s.Bounded w R)
    (hid : (s.graph.get? id).any (·.isLazy) = true) :
    s.project.Demanded w s.limit (s.compiled.add id).ids s.options.entries id := by
  obtain ⟨m, hm, hl⟩ := (Option.any_eq_true _ _).mp hid
  obtain rfl := (h.current.mirrors.modules id m hm List.not_mem_nil).eq_placeholder hl
  obtain ⟨a, ma, hma, hla, ht⟩ := h.exact.exists_importer hb hm rfl
  refine h.current.demanded_of_edge hb h.within (demanded_add (h.tight a ma hma hla))
    ⟨ma, hma, ht⟩ hm rfl (.inl ?_)
  rw [IdSet.mem_ids, IdSet.contains_add]
  exact .inl rfl

theorem LazyEnds.exact (h : s.Faithful w D R) (hb : s.Bounded w R)
    (hid : (s.graph.get? id).any (·.isLazy) = true) (hends : s.LazyEnds w id q) :
    q.graph.prune.1.settle.Exact s.project w s.limit (s.compiled.add id).ids s.options.entries R := by
  have hsow : Pass.Sowing s.project w s.limit {} [] := ⟨rfl, fun _ h => absurd h List.not_mem_nil⟩
  have hsub : ∀ name x, ({} : Table String String).get? name = some x →
      s.options.entries.get? name = some x := fun _ _ hx => nomatch hx
  refine Pass.Ends.exact hends hb (hends.current h.toShows) (hends.graph_wellFormed h.toShows)
    (fun _ => Pass.demanded_of_needed (fun x hx => ?_) hsow hsub) h.within
    fun x m hm hl => demanded_add (h.tight x m hm hl)
  obtain rfl := List.mem_singleton.mp hx
  exact h.demanded_of_placeholder hb hid

/-- If the compiled module has a size or depends on something, the chunks are formed anew. -/
theorem LazyEnds.mustRepartition (h : s.Faithful w D R)
    (hid : (s.graph.get? id).any (·.isLazy) = true) (hends : s.LazyEnds w id q) {m : Module}
    (hm : q.graph.get? id = some m) (hs : m.size ≠ 0 ∨ m.targets ≠ []) :
    s.bundle.mustRepartition (finalDelta q) = true := by
  obtain ⟨m₀, hm₀, hl⟩ := (Option.any_eq_true _ _).mp hid
  obtain rfl := (h.current.mirrors.modules id m₀ hm₀ List.not_mem_nil).eq_placeholder hl
  have htold := Pass.Ends.notices hends id m hm
  rw [hm₀] at htold
  by_contra hno
  obtain ⟨htopology, -, hsize, -⟩ := mustRepartition_eq_false.mp (eq_false_of_ne_true hno)
  rcases hs with hs | ht
  · obtain ⟨m₁, hm₁, he⟩ := htold.size htopology hsize
    obtain rfl := Option.some.inj hm₁
    exact hs he.symm
  · obtain ⟨m₁, hm₁, he⟩ := htold.dependencies htopology
    obtain rfl := Option.some.inj hm₁
    refine ht (List.eq_nil_iff_forall_not_mem.mpr fun t ht => ?_)
    have hmem : t ∈ m.dependencyIds := Module.mem_distinct.mpr ht
    rw [← he] at hmem
    cases hmem

/-- The compilation of a placeholder keeps a session faithful, if the compiled module has a size or
depends on something. -/
theorem compileLazy_faithful (h : s.Faithful w D R) (hw : w.Proper D) (hb : s.Bounded w R)
    {fuel : Nat} {rep : Report} (hrep : s.compileLazy w id fuel = some rep) (hwr : rep.Written)
    (hs : ∀ m, rep.session.graph.get? id = some m → m.size ≠ 0 ∨ m.targets ≠ []) :
    s.SameProject rep.session ∧ rep.session.Faithful w D R := by
  have hshows := compileLazy_shows h.toShows hw hrep hwr
  by_cases hid : (s.graph.get? id).any (·.isLazy) = true
  case neg =>
    rw [(h.toAtEase.compileLazy_refused hid hrep).1]
    exact ⟨.refl s, h⟩
  obtain ⟨q, j, hends, hj, rfl⟩ := h.toShows.of_compileLazy hw hid hrep
  have hexact := hends.exact h hb hid
  have hgrows := h.exact.grows hexact hb fun _ => demanded_add
  obtain ⟨m, hm, -⟩ := (hexact.live_iff_demanded hb).mpr (h.demanded_of_placeholder hb hid)
  have hmust : s.bundle.mustRepartition (finalDelta q) = true := by
    rw [finish_graph] at hs
    obtain ⟨-, m', hm', rfl⟩ := ModuleGraph.get?_settle_prune.mp hm
    have hs := hs _ hm
    rw [Module.settled_size, Module.settled_targets] at hs
    exact hends.mustRepartition h hid hm' hs
  exact (finished_finish { s with compiled := s.compiled.add id, inquiries := j } w.files q []
    []).faithful (r := s) ⟨rfl, rfl, rfl, rfl, hj.limit⟩ hshows hb hexact (h.fits.update
      (fun hno => nomatch hmust.symm.trans hno)
      fun c hc hc' _ => Bundle.renderChunk_of_grows hgrows hc hc')

end

end

end Session

end Bundler
