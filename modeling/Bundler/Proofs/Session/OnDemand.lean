import Bundler.Proofs.Session.Faithful

/-!
# Compilation on request

A request for a placeholder compiles it in place, and a build after it compiles everything anew with
the placeholder among it. Both come to the same result, as long as each module that was compiled on
request has a size or depends on something: else the request does not tell that anything changed,
and the module is left without a chunk.
-/

namespace Bundler

namespace Session

/-- A session after a build, with rebuilds and compilations on request while nothing changed that it
read. The modules that were compiled have a size or depend on something, results could be written,
no id is inside and outside, and the directories of ids are in `D`. -/
inductive OnDemand (D : Path → Prop) (R : Realm) : World → Session → Prop
  | build {w : World} {s : Session} {fuel : Nat} {rep : Report} (hs : s.AtEase) (hw : w.Proper D)
      (hb : s.Bounded w R) (hrep : s.build w fuel = some rep) (hwr : rep.Written) :
      OnDemand D R w rep.session
  | rebuild {w : World} {s : Session} {changed : Path} {fuel : Nat} {rep : Report}
      (h : OnDemand D R w s) (hrep : s.rebuild w changed fuel = some rep) (hwr : rep.Written) :
      OnDemand D R w rep.session
  | compileLazy {w : World} {s : Session} {id : ModuleId} {fuel : Nat} {rep : Report}
      (h : OnDemand D R w s) (hrep : s.compileLazy w id fuel = some rep) (hwr : rep.Written)
      (hm : ∀ m, rep.session.graph.get? id = some m → m.size ≠ 0 ∨ m.targets ≠ []) :
      OnDemand D R w rep.session
  | overlooked {w w' : World} {s : Session} (h : OnDemand D R w s) (ho : s.Overlooks w w' D)
      (hw : w'.Proper D) (hb : s.Bounded w' R) : OnDemand D R w' s

section
variable {s t : Session} {w : World} {D : Path → Prop} {R : Realm} {rep : Report} {fuel : Nat}

theorem OnDemand.faithful (h : OnDemand D R w s) :
    w.Proper D ∧ s.Bounded w R ∧ s.Faithful w D R := by
  induction h with
  | build hs hw hb hrep hwr =>
    rw [build_of_atEase hs] at hrep
    obtain ⟨hsame, hf⟩ := fullBuild_faithful hs hw hb hrep hwr
    exact ⟨hw, hsame.bounded hb, hf⟩
  | rebuild h hrep hwr ih =>
    obtain ⟨hw, hb, hs⟩ := ih
    rw [rebuild_of_atEase hs.toAtEase, hs.built, if_pos rfl] at hrep
    obtain ⟨hsame, hf⟩ := incrementalBuild_faithful_same hs hw hb hrep hwr
    exact ⟨hw, hsame.bounded hb, hf⟩
  | compileLazy h hrep hwr hm ih =>
    obtain ⟨hw, hb, hs⟩ := ih
    obtain ⟨hsame, hf⟩ := compileLazy_faithful hs hw hb hrep hwr hm
    exact ⟨hw, hsame.bounded hb, hf⟩
  | overlooked h ho hw hb ih => exact ⟨hw, hb, ih.2.2.overlooks ih.2.1 ho⟩

/-- A build comes to the result that is there already: it is the same, but that it may tell other
reasons for what could not be resolved. -/
theorem OnDemand.build_again (h : OnDemand D R w s) : ∃ N, ∀ fuel ≥ N, ∃ rep r,
    s.build w fuel = some rep ∧ s.last.Alike r ∧
      ((∀ d ∈ s.last.errors, d.code ≠ "RESOLVE_ERROR") → r = s.last) ∧
      s.Returns w.files s.last r rep.outcome := by
  obtain ⟨hw, hb, hs⟩ := h.faithful
  obtain ⟨N, hN⟩ := hs.fullBuild_same hw hb (.refl s) rfl hs.toAtEase
  refine ⟨N, fun fuel hf => ?_⟩
  obtain ⟨rep, r, hrep, ha, hr⟩ := hN fuel hf
  refine ⟨rep, r, (build_of_atEase hs.toAtEase w fuel).trans hrep, ha, fun hno => ha.eq hno ?_, hr⟩
  rw [hs.last]
  exact BuildResult.errors_assemble

/-- A compilation on request publishes what it returns, and a build after it comes to the same, if
nothing changed in between that the session read. -/
theorem OnDemand.compileLazy_build (h : OnDemand D R w s) {id : ModuleId}
    (hrep : s.compileLazy w id fuel = some rep) (hwr : rep.Written)
    (hm : ∀ m, rep.session.graph.get? id = some m → m.size ≠ 0 ∨ m.targets ≠ []) {w' : World}
    (ho : rep.session.Overlooks w w' D) (hw : w'.Proper D) (hb : rep.session.Bounded w' R) :
    (∀ r, rep.outcome = .ok r → r = rep.session.last) ∧
      ∃ N, ∀ fuel ≥ N, ∃ rep' r', rep.session.build w' fuel = some rep' ∧
        rep.session.last.Alike r' ∧
        ((∀ d ∈ rep.session.last.errors, d.code ≠ "RESOLVE_ERROR") → r' = rep.session.last) ∧
        rep.session.Returns w'.files rep.session.last r' rep'.outcome := by
  obtain ⟨hproper, -, hs⟩ := h.faithful
  refine ⟨fun r hr => ?_, ((h.compileLazy hrep hwr hm).overlooked ho hw hb).build_again⟩
  by_cases hid : (s.graph.get? id).any (·.isLazy) = true
  · obtain ⟨q, j, -, -, rfl⟩ := hs.toShows.of_compileLazy hproper hid hrep
    exact (last_of_finish hwr hr).symm
  · exact absurd hr ((hs.toAtEase.compileLazy_refused hid hrep).2 r)

end

/-! ## A project of two files -/

/-- A file that imports another one dynamically. -/
def twoFiles : World :=
  ⟨⟨.dir [("a.js", .file (Text.Utf8.encode "import(\"./b.js\");")),
    ("b.js", .file (Text.Utf8.encode "1"))], []⟩, none⟩

def lazyOptions : Options :=
  { entries := .ofList [("main", "./a.js")], root := ⟨"/"⟩, codeSplitting := true
    lazyCompilation := true }

def lazySession : Session := new lazyOptions ⟨"/"⟩ (fun _ => Transform.builtin) minifyBlanks

def importerId : ModuleId := ⟨"/a.js"⟩

def importedId : ModuleId := ⟨"/b.js"⟩

def twoRealm : Realm := ⟨fun id => id = importerId ∨ id = importedId, fun _ => False⟩

set_option maxRecDepth 10000 in
theorem two_entry : (lazySession.project.entry twoFiles none "./a.js").2.outcome =
    .ok ⟨importerId, false⟩ := by
  decide +kernel

set_option maxRecDepth 10000 in
theorem two_ideal : (lazySession.project.ideal twoFiles none importerId).dependencies =
      [⟨"./b.js", .dynamicImport, 1, some importedId, false⟩] ∧
    (lazySession.project.ideal twoFiles none importedId).dependencies = [] ∧
    (lazySession.project.ideal twoFiles none importedId).size = 1 := by
  decide +kernel

theorem proper_twoFiles : twoFiles.Proper Path.Tidy := World.proper_of_files fun _ h => nomatch h

theorem two_entryId? {name specifier : String} {id : ModuleId}
    (hn : lazyOptions.entries.get? name = some specifier)
    (he : (lazySession.project.entry twoFiles none specifier).2.entryId? = some id) :
    id = importerId := by
  rw [Table.eq_of_get?_singleton hn] at he
  unfold Resolution.entryId? at he
  rw [two_entry] at he
  exact (Option.some.inj he).symm

theorem bounded_two : lazySession.Bounded twoFiles twoRealm where
  apart _ _ h := h
  keeps := by
    rintro id (rfl | rfl) d hd t ht
    · have hd : d ∈ (lazySession.project.ideal twoFiles none importerId).dependencies := hd
      rw [two_ideal.1] at hd
      obtain rfl := List.mem_singleton.mp hd
      exact .of_inside rfl (.inr (Option.some.inj ht).symm)
    · have hd : d ∈ (lazySession.project.ideal twoFiles none importedId).dependencies := hd
      rw [two_ideal.2.1] at hd
      cases hd
  enters _ _ hn _ he := .inl (two_entryId? hn he)

theorem eq_importer_of_demanded {id : ModuleId}
    (h : lazySession.project.Demanded twoFiles none [] lazyOptions.entries id) : id = importerId := by
  induction h with
  | entry hn he => exact two_entryId? hn he
  | dependency _ hd hw ih =>
    subst ih
    rw [two_ideal.1] at hd
    obtain rfl := List.mem_singleton.mp hd
    exact nomatch hw.2.2

theorem create_two : create lazyOptions twoFiles.files (fun _ => Transform.builtin)
    minifyBlanks = .ok lazySession :=
  create_eq_ok.mpr ⟨rfl, ⟨"/"⟩, by decide +kernel, rfl⟩

/-- The first build leaves a placeholder for what is imported dynamically. -/
theorem build_two : ∃ fuel rep, lazySession.build twoFiles fuel = some rep ∧
    OnDemand Path.Tidy twoRealm twoFiles rep.session ∧ lazySession.SameProject rep.session ∧
    (rep.session.graph.get? importedId).any (·.isLazy) = true := by
  have hease : lazySession.AtEase := atEase_create proper_twoFiles.start create_two
  obtain ⟨N, hN⟩ := hease.fullBuild_rests proper_twoFiles fun rs hsow id
      (hn : (lazySession.project.plan twoFiles none {} [] ⟨rs, []⟩).Needed id) =>
    List.mem_singleton.mpr (eq_importer_of_demanded
      (Pass.demanded_of_needed (fun _ h => absurd h List.not_mem_nil) hsow (fun _ _ h => h) hn))
  obtain ⟨rep, hfull⟩ := hN N (Nat.le_refl N)
  have hwr : rep.Written := fullBuild_written rfl hfull
  have hrep := (build_of_atEase hease twoFiles N).trans hfull
  obtain ⟨hsame, hs⟩ := fullBuild_faithful hease proper_twoFiles bounded_two hfull hwr
  have hb := hsame.bounded bounded_two
  have hcompiled : rep.session.compiled.ids = [] :=
    congrArg IdSet.ids (fullBuild_compiled rfl hfull)
  refine ⟨N, rep, hrep, .build hease proper_twoFiles bounded_two hrep hwr, hsame, ?_⟩
  -- The importer is live, so that what it imports stands in the graph.
  have hentry : rep.session.project.Demanded twoFiles rep.session.limit rep.session.compiled.ids
      rep.session.options.entries importerId := by
    rw [hsame.project, hsame.limit, hsame.options]
    refine .entry (show lazyOptions.entries.get? "main" = some "./a.js" from rfl) ?_
    unfold Resolution.entryId?
    rw [show (lazySession.project.entry twoFiles lazySession.limit "./a.js").2.outcome = _ from
      two_entry]
    rfl
  obtain ⟨ma, hma, -, htells⟩ := hs.exact.live_of_demanded hb hs.within hentry
  rw [hsame.project, hsame.limit] at htells
  have hedge : rep.session.graph.Edge importerId importedId := by
    have hdeps := (Project.dependencies_of_tells htells).trans two_ideal.1
    exact ⟨ma, hma, Module.mem_targets.mpr ⟨_, hdeps ▸ List.mem_singleton_self _, rfl⟩⟩
  obtain ⟨m, hm⟩ := ModuleGraph.contains_iff.mp
    (ModuleGraph.danglingEdges_eq_nil.mp hs.wellFormed.closed _ _ hedge)
  -- It is inside, and nothing demands it.
  rw [hm, Option.any_some]
  refine eq_true_of_ne_false fun hl => ?_
  have hx : m.external = false := eq_false_of_ne_true fun hx => (hs.within _ m hm).outside hx
  have hd := hs.tight _ m hm (Module.isLive_iff.mpr ⟨hx, hl⟩)
  rw [hcompiled, hsame.project, hsame.limit, hsame.options] at hd
  exact absurd (eq_importer_of_demanded hd) (by decide)

/-- The compilation of the file that is imported dynamically. -/
theorem compileLazy_build_of_two_files : ∃ (s : Session) (fuel : Nat) (rep : Report),
    (s.graph.get? importedId).any (·.isLazy) = true ∧
    s.compileLazy twoFiles importedId fuel = some rep ∧
    ∃ N, ∀ fuel ≥ N, ∃ rep' r', rep.session.build twoFiles fuel = some rep' ∧
      rep.session.last.Alike r' := by
  obtain ⟨-, rep₁, -, hon, hsame, hid⟩ := build_two
  generalize rep₁.session = s at hon hsame hid
  obtain ⟨hw, hb, hs⟩ := hon.faithful
  have hinside : ∀ x ∈ [importedId], twoRealm.inside x := fun x hx =>
    .inr (List.mem_singleton.mp hx)
  obtain ⟨N, hN⟩ := hs.toShows.compileLazy_rests hw hid fun x hx => by
    have hin : twoRealm.inside x := Pass.inside_of_needed hb.keeps hinside
      (fun _ h => absurd h List.not_mem_nil) hx
    show x ∈ [importerId, importedId]
    rcases hin with rfl | rfl <;> simp
  obtain ⟨rep, hrep⟩ := hN N (Nat.le_refl N)
  obtain ⟨q, j, hends, -, rfl⟩ := hs.toShows.of_compileLazy hw hid hrep
  have hwr := (finish_of_no_outdir (s := { s with
    compiled := s.compiled.add importedId, inquiries := j })
    (congrArg Options.outdir hsame.options) twoFiles.files q [] []).1
  have hm : ∀ m, q.graph.prune.1.settle.get? importedId = some m → m.size ≠ 0 ∨ m.targets ≠ [] := by
    intro m hm
    obtain ⟨m', hm', -, htells⟩ := (hends.exact hs hb hid).live_of_demanded hb
      (hends.exact hs hb hid).within (hs.demanded_of_placeholder hb hid)
    obtain rfl := Option.some.inj (hm.symm.trans hm')
    rw [hsame.project, hsame.limit] at htells
    have hsize : m.size = 1 := (congrArg Module.size htells.same).trans two_ideal.2.2
    exact .inl (by rw [hsize]; decide)
  rw [← finish_graph] at hm
  have hshows := compileLazy_shows hs.toShows hw hrep hwr
  obtain ⟨hsame', -⟩ := compileLazy_faithful hs hw hb hrep hwr hm
  obtain ⟨-, M, hM⟩ := hon.compileLazy_build hrep hwr hm hshows.overlooks_refl hw
    (hsame'.bounded hb)
  refine ⟨s, N, _, hid, hrep, M, fun fuel hf => ?_⟩
  obtain ⟨rep', r', hrep', ha, -⟩ := hM fuel hf
  exact ⟨rep', r', hrep', ha⟩

end Session

end Bundler
