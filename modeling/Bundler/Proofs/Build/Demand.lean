import Bundler.Proofs.Build.Seeding
import Bundler.Proofs.Chunk.Growth

/-!
# What entries demand

The entries of a project lead to ids, along dependencies whose targets are compiled with their
importers. A graph that is up to date has a live module for each of these ids. If it has no other
live module, and no id is both inside and outside, then the world decides what is in the graph, and
it does not matter how the graph came about.
-/

namespace Bundler

namespace Project

/-- Where the entries lead, along dependencies whose targets are compiled with their importers. -/
inductive Demanded (p : Project) (w : World) (limit : Option Nat) (eager : List ModuleId)
    (entries : Table String String) : ModuleId → Prop
  | entry {name specifier : String} {id : ModuleId} (hn : entries.get? name = some specifier)
      (he : (p.entry w limit specifier).2.entryId? = some id) : Demanded p w limit eager entries id
  | dependency {k t : ModuleId} {d : Dependency} (hk : Demanded p w limit eager entries k)
      (hd : d ∈ (p.ideal w limit k).dependencies) (hw : p.Wants eager d t) :
      Demanded p w limit eager entries t

/-- A realm that tells inside from outside, and that entries and dependencies do not lead out of. -/
structure Bounded (p : Project) (w : World) (limit : Option Nat) (entries : Table String String)
    (R : Realm) : Prop where
  apart : ∀ id, R.inside id → ¬ R.outside id
  keeps : p.Keeps w limit R
  enters : ∀ name specifier, entries.get? name = some specifier →
    ∀ id, (p.entry w limit specifier).2.entryId? = some id → R.inside id

variable {p : Project} {w : World} {limit : Option Nat} {eager eager' : List ModuleId}
  {entries : Table String String} {R : Realm}

/-- Of the ids that are compiled at once, only those matter that are demanded. -/
theorem Demanded.mono {id : ModuleId} (h : p.Demanded w limit eager entries id)
    (ht : ∀ t, p.Demanded w limit eager entries t → t ∈ eager → t ∈ eager') :
    p.Demanded w limit eager' entries id := by
  induction h with
  | entry hn he => exact .entry hn he
  | dependency hk hd hw ih => exact .dependency ih hd (hw.mono (ht _ (.dependency hk hd hw)))

theorem Demanded.inside (hb : p.Bounded w limit entries R) {id : ModuleId}
    (h : p.Demanded w limit eager entries id) : R.inside id := by
  induction h with
  | entry hn he => exact hb.enters _ _ hn _ he
  | dependency _ hd hw ih => exact (hb.keeps _ ih _ hd _ hw.1).inside hw.2.1

theorem Shows.isLive_of_mem_targets {id t : ModuleId} {m : Module} (h : p.Shows w limit id m)
    (ht : t ∈ m.targets) : m.isLive = true := by
  cases h with
  | outside h => rw [h] at ht; cases ht
  | placeholder h => rw [h] at ht; cases ht
  | processed h => exact isLive_of_tells h

/-- What is not live stands outside or is a placeholder, and has no content. -/
theorem Shows.bare_eq {id : ModuleId} {m m' : Module} (h : p.Shows w limit id m)
    (h' : p.Shows w limit id m') (hl : m.isLive = false) (hl' : m'.isLive = false)
    (hx : m.external = m'.external) : m.bare = m'.bare := by
  cases h with
  | processed h => exact nomatch hl.symm.trans (isLive_of_tells h)
  | outside h =>
    cases h' with
    | outside h' => rw [h, h']
    | placeholder h' => rw [h, h'] at hx; cases hx
    | processed h' => exact nomatch hl'.symm.trans (isLive_of_tells h')
  | placeholder h =>
    cases h' with
    | outside h' => rw [h, h'] at hx; cases hx
    | placeholder h' => rw [h, h']
    | processed h' => exact nomatch hl'.symm.trans (isLive_of_tells h')

end Project

namespace ModuleGraph

variable {p : Project} {w : World} {limit : Option Nat} {eager eager' : List ModuleId}
  {entries : Table String String} {R : Realm} {g h : ModuleGraph}

/-- Inside, what is not a placeholder was processed. -/
theorem Mirrors.live_of_inside (hg : g.Mirrors p w limit eager [])
    (hb : p.Bounded w limit entries R) (hw : g.Within R) {id : ModuleId} {m : Module}
    (hid : R.inside id) (hm : g.get? id = some m) (hl : m.isLazy = false) :
    m.isLive = true ∧ (p.ideal w limit id).Tells m := by
  have hx : m.external = false := eq_false_of_ne_true fun hx =>
    hb.apart id hid ((hw id m hm).outside hx)
  have hlive := Module.isLive_iff.mpr ⟨hx, hl⟩
  exact ⟨hlive, (hg.modules id m hm List.not_mem_nil).tells hlive⟩

namespace Current

theorem live_of_demanded (hg : g.Current p w limit eager entries)
    (hb : p.Bounded w limit entries R) (hw : g.Within R) {id : ModuleId}
    (hd : p.Demanded w limit eager entries id) :
    ∃ m, g.get? id = some m ∧ m.isLive = true ∧ (p.ideal w limit id).Tells m := by
  induction hd with
  | entry hn he =>
    have hseat := hg.seats _ _ hn
    obtain ⟨m, hm, hl⟩ := hseat.loaded _ (hseat.entry.trans he)
    exact ⟨m, hm, hg.mirrors.live_of_inside hb hw (hb.enters _ _ hn _ he) hm hl⟩
  | @dependency k t d hk hd hwant ih =>
    obtain ⟨mk, hmk, -, htells⟩ := ih
    have hd' : d ∈ mk.dependencies := Project.dependencies_of_tells htells ▸ hd
    obtain ⟨m, hm, hl⟩ := hg.mirrors.wanted k mk hmk List.not_mem_nil d hd' t hwant
    have hin : R.inside t := (Project.Demanded.dependency hk hd hwant).inside hb
    exact ⟨m, hm, hg.mirrors.live_of_inside hb hw hin hm hl⟩

/-- What a demanded module depends on is demanded, if it is inside and to be compiled. -/
theorem demanded_of_edge (hg : g.Current p w limit eager entries)
    (hb : p.Bounded w limit entries R) (hw : g.Within R) {a b : ModuleId}
    (ha : p.Demanded w limit eager' entries a) (he : g.Edge a b) {m : Module}
    (hm : g.get? b = some m) (hx : m.external = false)
    (hc : b ∈ eager' ∨ p.lazyCompilation = false) : p.Demanded w limit eager' entries b := by
  obtain ⟨ma, hma, hab⟩ := he
  have hshows := hg.mirrors.modules a ma hma List.not_mem_nil
  obtain ⟨d, hd, ht⟩ := Module.mem_targets.mp hab
  rw [Project.dependencies_of_tells (hshows.tells (hshows.isLive_of_mem_targets hab))] at hd
  have hdx : d.external = false := eq_false_of_ne_true fun hdx =>
    hb.apart b ((hw b m hm).inside hx) ((hb.keeps a (ha.inside hb) d hd b ht).outside hdx)
  refine .dependency ha hd ⟨ht, hdx, ?_⟩
  rcases hc with hc | hc
  · rw [List.contains_iff_mem.mpr hc, Bool.not_true, Bool.and_false]
  · rw [hc, Bool.false_and, Bool.false_and]

end Current

/-! ## Graphs with nothing that is not demanded -/

/-- No module is live that the entries do not demand. -/
def Tight (p : Project) (w : World) (limit : Option Nat) (eager : List ModuleId)
    (entries : Table String String) (g : ModuleGraph) : Prop :=
  ∀ id m, g.get? id = some m → m.isLive = true → p.Demanded w limit eager entries id

/-- A graph that is up to date and holds nothing that the world does not account for. -/
structure Exact (p : Project) (w : World) (limit : Option Nat) (eager : List ModuleId)
    (entries : Table String String) (R : Realm) (g : ModuleGraph) : Prop
    extends g.Current p w limit eager entries where
  wellFormed : g.WellFormed
  within : g.Within R
  tight : g.Tight p w limit eager entries

theorem Tight.settle_prune (hg : g.Tight p w limit eager entries) :
    g.prune.1.settle.Tight p w limit eager entries := by
  intro id m hm hl
  obtain ⟨-, m', hm', rfl⟩ := get?_settle_prune.mp hm
  exact hg id m' hm' (Module.settled_isLive m' ▸ hl)

/-- Without lazy compilation, all that the entries reach is demanded. -/
theorem Current.tight (hg : g.Current p w limit eager entries) (hb : p.Bounded w limit entries R)
    (hw : g.Within R) (hlazy : p.lazyCompilation = false)
    (hr : ∀ id, g.contains id = true → g.Reached id) : g.Tight p w limit eager entries := by
  -- The induction is on the path to a module; only live modules lead on.
  have hpath : ∀ id, g.Reached id → ∀ m, g.get? id = some m → m.isLive = true →
      p.Demanded w limit eager entries id := by
    rintro id ⟨name, e, hn, hpath⟩
    induction hpath with
    | refl =>
      intro m hm hl
      cases hs : entries.get? name with
      | none => exact nomatch (hg.others name hs).1.symm.trans hn
      | some specifier => exact .entry hs ((hg.seats name specifier hs).entry.symm.trans hn)
    | tail _ hedge ih =>
      intro m hm hl
      have ⟨ma, hma, hab⟩ := hedge
      have hla := (hg.mirrors.modules _ ma hma List.not_mem_nil).isLive_of_mem_targets hab
      exact hg.demanded_of_edge hb hw (ih ma hma hla) hedge hm (Module.isLive_iff.mp hl).1
        (.inr hlazy)
  exact fun id m hm hl => hpath id (hr id (contains_iff.mpr ⟨m, hm⟩)) m hm hl

namespace Exact

theorem live_iff_demanded (hg : g.Exact p w limit eager entries R)
    (hb : p.Bounded w limit entries R) {id : ModuleId} :
    (∃ m, g.get? id = some m ∧ m.isLive = true) ↔ p.Demanded w limit eager entries id := by
  constructor
  · rintro ⟨m, hm, hl⟩
    exact hg.tight id m hm hl
  · intro hd
    obtain ⟨m, hm, hl, -⟩ := hg.live_of_demanded hb hg.within hd
    exact ⟨m, hm, hl⟩

theorem exists_importer (hg : g.Exact p w limit eager entries R)
    (hb : p.Bounded w limit entries R) {id : ModuleId} {m : Module} (hm : g.get? id = some m)
    (hl : m.isLive = false) :
    ∃ a ma, g.get? a = some ma ∧ ma.isLive = true ∧ id ∈ ma.targets := by
  obtain ⟨name, e, hn, hpath⟩ := hg.wellFormed.reached id (contains_iff.mpr ⟨m, hm⟩)
  rcases Relation.ReflTransGen.cases_tail hpath with rfl | ⟨a, -, ma, hma, ht⟩
  · -- An entry is live.
    cases hs : entries.get? name with
    | none => exact nomatch (hg.others name hs).1.symm.trans hn
    | some specifier =>
      obtain ⟨m', hm', hl', -⟩ := hg.live_of_demanded hb hg.within
        (.entry hs ((hg.seats name specifier hs).entry.symm.trans hn))
      obtain rfl : m' = m := Option.some.inj (hm'.symm.trans hm)
      exact nomatch hl.symm.trans hl'
  · exact ⟨a, ma, hma, (hg.mirrors.modules a ma hma List.not_mem_nil).isLive_of_mem_targets ht, ht⟩

theorem isLive_iff_inside (hg : g.Exact p w limit eager entries R)
    (hb : p.Bounded w limit entries R) (hlazy : p.lazyCompilation = false) {id : ModuleId}
    {m : Module} (hm : g.get? id = some m) : m.isLive = true ↔ R.inside id := by
  refine ⟨fun hl => (hg.within id m hm).inside (Module.isLive_iff.mp hl).1, fun hid => ?_⟩
  refine eq_true_of_ne_false fun hl => ?_
  have hx : m.external = false := eq_false_of_ne_true fun hx =>
    hb.apart id hid ((hg.within id m hm).outside hx)
  obtain ⟨a, ma, hma, hla, ht⟩ := hg.exists_importer hb hm hl
  have hd := hg.demanded_of_edge hb hg.within (hg.tight a ma hma hla) ⟨ma, hma, ht⟩ hm hx (.inr hlazy)
  obtain ⟨m', hm', hl', -⟩ := hg.live_of_demanded hb hg.within hd
  obtain rfl := Option.some.inj (hm.symm.trans hm')
  exact nomatch hl.symm.trans hl'

theorem kept (hg : g.Exact p w limit eager entries R) (hh : h.Exact p w limit eager' entries R)
    (hb : p.Bounded w limit entries R) {id : ModuleId}
    (hd : p.Demanded w limit eager entries id → p.Demanded w limit eager' entries id) {m : Module}
    (hm : g.get? id = some m) (hl : m.isLive = true) :
    ∃ m', h.get? id = some m' ∧ m.bare = m'.bare := by
  obtain ⟨m', hm', -, htells⟩ := hh.live_of_demanded hb hh.within (hd (hg.tight id m hm hl))
  exact ⟨m', hm', (((hg.mirrors.modules id m hm List.not_mem_nil).tells hl).alike htells).bare⟩

theorem grows (hg : g.Exact p w limit eager entries R) (hh : h.Exact p w limit eager' entries R)
    (hb : p.Bounded w limit entries R)
    (hd : ∀ id, p.Demanded w limit eager entries id → p.Demanded w limit eager' entries id) :
    g.Grows h where
  kept id m hm hl := hg.kept hh hb (hd id) hm hl
  static id m hm hl t ht hlt := by
    obtain ⟨mt, hmt, hlt⟩ := isLive_iff.mp hlt
    have hin := (hh.tight t mt hmt hlt).inside hb
    have hk := hg.tight id m hm hl
    -- A static dependency is compiled with its importer.
    obtain ⟨d, hd, htarget⟩ := List.mem_filterMap.mp ht
    obtain ⟨hd, hstatic⟩ := List.mem_filter.mp hd
    rw [Project.dependencies_of_tells ((hg.mirrors.modules id m hm List.not_mem_nil).tells hl)] at hd
    have hx : d.external = false := eq_false_of_ne_true fun hx =>
      hb.apart t hin ((hb.keeps id (hk.inside hb) d hd t htarget).outside hx)
    have hwant : p.Wants eager d t :=
      ⟨htarget, hx, by rw [hstatic, Bool.not_true, Bool.and_false, Bool.false_and]⟩
    exact isLive_iff.mpr ((hg.live_iff_demanded hb).mpr (.dependency hk hd hwant))

/-- Ids that are not in the graph need not be compiled at once. -/
theorem restrict (hg : g.Exact p w limit eager entries R) (hb : p.Bounded w limit entries R)
    (hs : ∀ id ∈ eager', id ∈ eager)
    (hk : ∀ id ∈ eager, g.contains id = true → id ∈ eager') :
    g.Exact p w limit eager' entries R where
  mirrors := hg.mirrors.mono hs fun _ h => h
  seats := hg.seats
  others := hg.others
  wellFormed := hg.wellFormed
  within := hg.within
  tight id m hm hl := (hg.tight id m hm hl).mono fun t ht he => by
    obtain ⟨m', hm', -⟩ := (hg.live_iff_demanded hb).mpr ht
    exact hk t he (contains_iff.mpr ⟨m', hm'⟩)

theorem exists_of_get? (hg : g.Exact p w limit eager entries R)
    (hh : h.Exact p w limit eager' entries R) (hb : p.Bounded w limit entries R)
    (hd : ∀ id, p.Demanded w limit eager entries id ↔ p.Demanded w limit eager' entries id)
    {id : ModuleId} {m : Module} (hm : g.get? id = some m) :
    ∃ m', h.get? id = some m' ∧ m.bare = m'.bare := by
  cases hl : m.isLive with
  | true => exact hg.kept hh hb (hd id).mp hm hl
  | false =>
    -- A live importer is the same in the other graph, so that something stands there too.
    obtain ⟨a, ma, hma, hla, ht⟩ := hg.exists_importer hb hm hl
    obtain ⟨ma', hma', hbare⟩ := hg.kept hh hb (hd a).mp hma hla
    have hedge : h.Edge a id := by
      refine ⟨ma', hma', Module.mem_targets.mpr ?_⟩
      rw [← Module.dependencies_of_bare hbare]
      exact Module.mem_targets.mp ht
    obtain ⟨m', hm'⟩ := contains_iff.mp (danglingEdges_eq_nil.mp hh.wellFormed.closed a id hedge)
    have hl' : m'.isLive = false := by
      refine eq_false_of_ne_true fun hl' => ?_
      obtain ⟨m'', hm'', hl''⟩ := (hg.live_iff_demanded hb).mpr
        ((hd id).mpr (hh.tight id m' hm' hl'))
      obtain rfl : m'' = m := Option.some.inj (hm''.symm.trans hm)
      exact nomatch hl.symm.trans hl''
    refine ⟨m', hm', (hg.mirrors.modules id m hm List.not_mem_nil).bare_eq
      (hh.mirrors.modules id m' hm' List.not_mem_nil) hl hl' ?_⟩
    -- Inside and outside cannot be mistaken for each other.
    cases hx : m.external with
    | true =>
      refine (eq_true_of_ne_false fun hx' => ?_).symm
      exact hb.apart id ((hh.within id m' hm').inside hx') ((hg.within id m hm).outside hx)
    | false =>
      refine (eq_false_of_ne_true fun hx' => ?_).symm
      exact hb.apart id ((hg.within id m hm).inside hx) ((hh.within id m' hm').outside hx')

/-- Graphs that hold what is demanded and nothing more are the same, but for errors and states. -/
theorem sameBare (hg : g.Exact p w limit eager entries R)
    (hh : h.Exact p w limit eager' entries R) (hb : p.Bounded w limit entries R)
    (hd : ∀ id, p.Demanded w limit eager entries id ↔ p.Demanded w limit eager' entries id) :
    g.SameBare h := by
  intro id
  cases hm : g.get? id with
  | some m =>
    obtain ⟨m', hm', he⟩ := hg.exists_of_get? hh hb hd hm
    rw [hm', Option.map_some, Option.map_some, he]
  | none =>
    cases hm' : h.get? id with
    | none => rfl
    | some m' =>
      obtain ⟨m, hm'', -⟩ := hh.exists_of_get? hg hb (fun id => (hd id).symm) hm'
      exact nomatch hm.symm.trans hm''

theorem of_sameBare (hg : g.Exact p w limit eager entries R)
    (hh : h.Current p w limit eager entries) (hwf : h.WellFormed) (hb : g.SameBare h) :
    h.Exact p w limit eager entries R where
  toCurrent := hh
  wellFormed := hwf
  within := hb.within hg.within
  tight id m hm hl := by
    obtain ⟨m', hm', he⟩ := hb.symm.get? hm
    exact hg.tight id m' hm' (Module.isLive_of_bare he ▸ hl)

end Exact

end ModuleGraph

/-! ## Passes -/

namespace Pass

variable {p : Project} {w : World} {limit : Option Nat} {eager : List ModuleId}
  {entries : Table String String} {R : Realm} {g : ModuleGraph} {seeds : Seeds} {q : Pass}

theorem demanded_of_needed (hr : ∀ id ∈ seeds.reprocessed, p.Demanded w limit eager entries id)
    {sown : Table String String} (hs : Sowing p w limit sown seeds.entries)
    (hsub : ∀ name s, sown.get? name = some s → entries.get? name = some s) {id : ModuleId}
    (hn : (p.plan w limit g eager seeds).Needed id) : p.Demanded w limit eager entries id := by
  induction hn with
  | reprocessed h => exact hr _ h
  | @entry e t he ht hx _ =>
    obtain ⟨specifier, hname, -, htells⟩ := hs.tells e he
    refine .entry (hsub _ _ hname) ?_
    rw [← (htells.entry p.resolver.root e.1.2).1]
    unfold Resolution.entryId?
    rw [ht]
    exact if_neg (Bool.eq_false_iff.mp hx)
  | dependency _ hd hw _ ih => exact .dependency ih hd hw

theorem Ends.tight (h : Ends p w limit g eager seeds q)
    (hn : ∀ id, (p.plan w limit g eager seeds).Needed id → p.Demanded w limit eager entries id)
    (hg : g.Tight p w limit eager entries) : q.graph.Tight p w limit eager entries := by
  intro id m hm hl
  rcases h.advanced.cases h.rest hm with ⟨hv, -⟩ | ⟨-, hm | ⟨rfl, -⟩ | ⟨rfl, -⟩⟩
  · exact hn id (h.advanced.needed id hv)
  · exact hg id m hm hl
  · cases hl
  · cases hl

/-- The graph of a pass for what is demanded, pruned, holds that and nothing more. -/
theorem Ends.exact (h : Ends p w limit g eager seeds q) (hb : p.Bounded w limit entries R)
    (hc : q.graph.Current p w limit eager entries) (hwf : q.graph.prune.1.settle.WellFormed)
    (hn : ∀ id, (p.plan w limit g eager seeds).Needed id → p.Demanded w limit eager entries id)
    (hw : g.Within R) (ht : g.Tight p w limit eager entries) :
    q.graph.prune.1.settle.Exact p w limit eager entries R where
  toCurrent := hc.settle_prune
  wellFormed := hwf
  within := (h.advanced.within hb.keeps hw (fun id hid => (hn id hid).inside hb) h.rest).settle_prune
  tight := (h.tight hn ht).settle_prune

end Pass

end Bundler
