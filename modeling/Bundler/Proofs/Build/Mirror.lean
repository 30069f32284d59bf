import Bundler.Proofs.Build.Alike
import Bundler.Proofs.Build.Rounds
import Bundler.Proofs.Session.Calls

/-!
# Graphs that are up to date

A graph mirrors a world if its modules are what their processing gives there. A pass whose start
mirrors the world but for some ids, and that processes those, ends with a graph that mirrors it.
-/

namespace Bundler

/-! ## Ideal modules at rest -/

namespace Project

variable {p : Project} {w : World} {limit : Option Nat}

theorem atRest_assemble (id : ModuleId) (l : Loaded) (t : Transformed)
    (ds : List (Dependency × List BuildError)) (errors : List BuildError) :
    (assemble id l t ds errors).AtRest := by
  intro _
  unfold assemble
  simp only [List.isEmpty_iff]

theorem atRest_failed (id : ModuleId) (errors : List BuildError) (e : BuildError) :
    (Module.failed id (errors ++ [e])).AtRest := fun _ => by
  rw [if_neg (by simp [Module.failed])]
  rfl

theorem ideal_atRest (id : ModuleId) : (p.ideal w limit id).AtRest := by
  unfold ideal
  split
  next => exact atRest_failed id [] _
  next r _ =>
    split
    next m hm =>
      unfold search at hm
      dsimp only at hm
      split at hm
      · cases hm
        exact atRest_failed id _ _
      · split at hm
        · cases hm
          exact atRest_failed id _ _
        · split at hm <;> cases hm
    next => exact atRest_assemble _ _ _ _ _

theorem atRest_of_tells {id : ModuleId} {m : Module} (h : (p.ideal w limit id).Tells m) :
    m.AtRest := by
  have hi : (p.ideal w limit id).AtRest := ideal_atRest id
  intro hl
  rw [h.same] at hl ⊢
  rw [show ({ p.ideal w limit id with errors := m.errors } : Module).state =
    (p.ideal w limit id).state from rfl, hi hl]
  simp only [← List.isEmpty_iff, isEmpty_of_forall₂ h.errors]

theorem isLazy_of_tells {id : ModuleId} {m : Module} (h : (p.ideal w limit id).Tells m) :
    m.isLazy = false := by
  rw [h.same]
  exact (p.ideal_isOutput w limit id).2.2

theorem external_of_tells {id : ModuleId} {m : Module} (h : (p.ideal w limit id).Tells m) :
    m.external = false := by
  rw [h.same]
  exact (p.ideal_isOutput w limit id).2.1

theorem isLive_of_tells {id : ModuleId} {m : Module} (h : (p.ideal w limit id).Tells m) :
    m.isLive = true := Module.isLive_iff.mpr ⟨external_of_tells h, isLazy_of_tells h⟩

/-- A dependency whose target is compiled with its importer. -/
def Wants (p : Project) (eager : List ModuleId) (d : Dependency) (t : ModuleId) : Prop :=
  d.target = some t ∧ d.external = false ∧
    (p.lazyCompilation && !d.kind.isStatic && !eager.contains t) = false

theorem Wants.mono {eager eager' : List ModuleId} {d : Dependency} {t : ModuleId}
    (h : p.Wants eager d t) (ht : t ∈ eager → t ∈ eager') :
    p.Wants eager' d t := by
  refine ⟨h.1, h.2.1, ?_⟩
  have hl := h.2.2
  rw [Bool.and_eq_false_iff, Bool.not_eq_false', List.contains_iff_mem] at hl ⊢
  exact hl.imp_right ht

end Project

theorem Module.settled_of_atRest {m : Module} (h : m.AtRest) : m.settled = m := by
  unfold settled
  split
  next => rfl
  next hl =>
    have hs := h (eq_false_of_ne_true hl)
    cases m
    simp_all

/-! ## The notion -/

/-- What stands at an id that was brought up to date. -/
inductive Project.Shows (p : Project) (w : World) (limit : Option Nat) (id : ModuleId)
    (m : Module) : Prop
  | outside (h : m = .outside id)
  | placeholder (h : m = .placeholder id)
  | processed (h : (p.ideal w limit id).Tells m)

/-- Every module, but for those of some stale ids, is what its processing gives, and what it wants
compiled is not a placeholder. -/
structure ModuleGraph.Mirrors (p : Project) (w : World) (limit : Option Nat)
    (eager stale : List ModuleId) (g : ModuleGraph) : Prop where
  modules : ∀ id m, g.get? id = some m → id ∉ stale → p.Shows w limit id m
  wanted : ∀ id m, g.get? id = some m → id ∉ stale → ∀ d ∈ m.dependencies, ∀ t,
    p.Wants eager d t → ∃ m', g.get? t = some m' ∧ m'.isLazy = false

section
variable {p : Project} {w : World} {limit : Option Nat} {eager stale : List ModuleId}
  {g : ModuleGraph}

theorem Project.Shows.atRest {id : ModuleId} {m : Module} (h : p.Shows w limit id m) :
    m.AtRest := by
  cases h with
  | outside h => rw [h]; exact fun _ => rfl
  | placeholder h => rw [h]; exact fun hl => nomatch hl
  | processed h => exact atRest_of_tells h

theorem Project.Shows.eq_placeholder {id : ModuleId} {m : Module} (h : p.Shows w limit id m)
    (hl : m.isLazy = true) : m = .placeholder id := by
  cases h with
  | outside h => subst h; cases hl
  | placeholder h => exact h
  | processed h => rw [isLazy_of_tells h] at hl; cases hl

theorem Project.Shows.tells {id : ModuleId} {m : Module} (h : p.Shows w limit id m) (hl : m.isLive = true) :
    (p.ideal w limit id).Tells m := by
  cases h with
  | outside h => subst h; cases hl
  | placeholder h => subst h; cases hl
  | processed h => exact h

theorem ModuleGraph.Mirrors.empty : ModuleGraph.Mirrors p w limit eager [] {} :=
  ⟨fun _ _ h => (nomatch h), fun _ _ h => (nomatch h)⟩

theorem ModuleGraph.Mirrors.mono (h : g.Mirrors p w limit eager stale)
    {eager' stale' : List ModuleId} (he : ∀ id ∈ eager', id ∈ eager)
    (hs : ∀ id ∈ stale, id ∈ stale') : g.Mirrors p w limit eager' stale' where
  modules id m hm hn := h.modules id m hm fun hid => hn (hs id hid)
  wanted id m hm hn d hd t hw := by
    exact h.wanted id m hm (fun hid => hn (hs id hid)) d hd t (hw.mono (he t))

theorem ModuleGraph.Mirrors.get?_settle_prune (h : g.Mirrors p w limit eager []) {id : ModuleId}
    {m : Module} : g.prune.1.settle.get? id = some m ↔ g.Reached id ∧ g.get? id = some m := by
  have hrest : ∀ {m}, g.get? id = some m → m.settled = m := fun hm =>
    Module.settled_of_atRest (h.modules id _ hm List.not_mem_nil).atRest
  refine ModuleGraph.get?_settle_prune.trans (and_congr_right fun _ => ⟨?_, fun hm => ?_⟩)
  · rintro ⟨m', hm', rfl⟩
    rwa [hrest hm']
  · exact ⟨m, hm, hrest hm⟩

/-- Pruning and settling leave a graph up to date. -/
theorem ModuleGraph.Mirrors.settle_prune (h : g.Mirrors p w limit eager []) :
    g.prune.1.settle.Mirrors p w limit eager [] := by
  refine ⟨fun id m hm hs => h.modules id m (h.get?_settle_prune.mp hm).2 hs,
    fun id m hm hs d hd t hw => ?_⟩
  obtain ⟨hr, hm'⟩ := h.get?_settle_prune.mp hm
  obtain ⟨m', hmt, hl⟩ := h.wanted id m hm' hs d hd t hw
  have hrt : g.Reached t := hr.step ⟨m, hm', Module.mem_targets.mpr ⟨d, hd, hw.1⟩⟩
  exact ⟨m', h.get?_settle_prune.mpr ⟨hrt, hmt⟩, hl⟩

end

/-! ## Marking -/

namespace ModuleGraph

/-- Marking changes nothing but states of modules that are loaded. -/
theorem sameBare_markStale (g : ModuleGraph) (files : FileTree) (path : Path) :
    g.SameBare (g.markStale files path).1 := by
  intro id
  rw [get?_markStale]
  split
  next hid =>
    obtain ⟨m, hm, hl⟩ := isLive_of_mem_markStale hid
    have hlazy : m.isLazy = false := (Module.isLive_iff.mp hl).2
    rw [hm]
    simp only [Option.map_some, Option.some.injEq]
    unfold Module.bare
    rw [hlazy]
    simp [Module.isLazy]
  next => rfl

theorem SameBare.loaded {g h : ModuleGraph} (hb : g.SameBare h) {id : ModuleId}
    (hl : ∃ m, g.get? id = some m ∧ m.isLazy = false) :
    ∃ m, h.get? id = some m ∧ m.isLazy = false := by
  obtain ⟨m, hm, hl⟩ := hl
  obtain ⟨m', hm', he⟩ := hb.get? hm
  exact ⟨m', hm', Module.isLazy_of_bare he ▸ hl⟩

theorem Mirrors.markStale {p : Project} {w : World} {limit : Option Nat} {eager : List ModuleId}
    {g : ModuleGraph} {files : FileTree} {path : Path}
    (h : g.Mirrors p w limit eager (g.markStale files path).2) :
    (g.markStale files path).1.Mirrors p w limit eager (g.markStale files path).2 := by
  have hb := g.sameBare_markStale files path
  have hget : ∀ id m, (g.markStale files path).1.get? id = some m →
      id ∉ (g.markStale files path).2 → g.get? id = some m := by
    intro id m hm hn
    rwa [get?_markStale, if_neg hn] at hm
  exact ⟨fun id m hm hn => h.modules id m (hget id m hm hn) hn, fun id m hm hn d hd t hw =>
    hb.loaded (h.wanted id m (hget id m hm hn) hn d hd t hw)⟩

end ModuleGraph

/-! ## Realms -/

/-- Where modules may lie, inside and outside the bundle. -/
structure Realm where
  inside : ModuleId → Prop
  outside : ModuleId → Prop

/-- Whether an id may be that of a module inside, or outside. -/
structure Realm.Has (R : Realm) (external : Bool) (id : ModuleId) : Prop where
  inside : external = false → R.inside id
  outside : external = true → R.outside id

theorem Realm.Has.of_inside {R : Realm} {external : Bool} {id : ModuleId} (hx : external = false)
    (h : R.inside id) : R.Has external id :=
  ⟨fun _ => h, fun h => nomatch hx.symm.trans h⟩

/-- The ids in directories in `D`, and whatever lies outside. -/
def Realm.dirs (D : Path → Prop) : Realm := ⟨fun id => D id.dir, fun _ => True⟩

def ModuleGraph.Within (g : ModuleGraph) (R : Realm) : Prop :=
  ∀ id m, g.get? id = some m → R.Has m.external id

theorem ModuleGraph.Within.settle_prune {g : ModuleGraph} {R : Realm} (h : g.Within R) :
    g.prune.1.settle.Within R := by
  intro id m hm
  obtain ⟨-, m', hm', rfl⟩ := get?_settle_prune.mp hm
  rw [Module.settled_external]
  exact h id m' hm'

theorem ModuleGraph.SameBare.within {g h : ModuleGraph} (hb : g.SameBare h) {R : Realm}
    (hg : g.Within R) : h.Within R := by
  intro id m hm
  obtain ⟨m', hm', he⟩ := hb.symm.get? hm
  rw [show m.external = m'.external from congrArg (·.external) he]
  exact hg id m' hm'

/-- Dependencies of modules in a realm lead into it. -/
def Project.Keeps (p : Project) (w : World) (limit : Option Nat) (R : Realm) : Prop :=
  ∀ id, R.inside id → ∀ d ∈ (p.ideal w limit id).dependencies, ∀ t, d.target = some t →
    R.Has d.external t

theorem Project.Closed.keeps {p : Project} {w : World} {limit : Option Nat} {D : Path → Prop}
    (h : p.Closed w limit D) : p.Keeps w limit (.dirs D) :=
  fun id hid d hd t ht => ⟨fun hx => h id hid d hd hx t ht, fun _ => trivial⟩

/-! ## Passes -/

namespace Pass

variable {p : Project} {w : World} {limit : Option Nat} {eager stale : List ModuleId}
  {g : ModuleGraph} {seeds : Seeds}

theorem inside_of_needed {R : Realm} (hk : p.Keeps w limit R)
    (hr : ∀ id ∈ seeds.reprocessed, R.inside id)
    (he : ∀ e ∈ seeds.entries, ∀ t, e.2.outcome = .ok t → t.external = false → R.inside t.id)
    {id : ModuleId} (hn : (p.plan w limit g eager seeds).Needed id) : R.inside id := by
  induction hn with
  | reprocessed h => exact hr _ h
  | entry hm ht hx _ => exact he _ hm _ ht hx
  | dependency _ hd hw _ ih => exact (hk _ ih _ hd _ hw.1).inside hw.2.1

/-- At rest, what had a task is loaded, and what was loaded is. -/
theorem Advanced.loaded {q : Pass}
    (hq : q.Advanced (p.plan w limit g eager seeds) (p.rules w limit).output [])
    (hrest : q.outstanding = []) {id : ModuleId}
    (h : id ∈ q.visited ∨ ∃ m, g.get? id = some m ∧ m.isLazy = false) :
    ∃ m, q.graph.get? id = some m ∧ m.isLazy = false := by
  by_cases hv : id ∈ q.visited
  · obtain ⟨m, hm, hget⟩ := hq.held id hv (by rw [hrest]; exact List.not_mem_nil) fun h => nomatch h
    exact ⟨m, hget, Project.isLazy_of_tells hm⟩
  · obtain ⟨m, hm, hl⟩ := h.resolve_left hv
    rcases hq.others id hv with he | ⟨hnone, -⟩
    · exact ⟨m, he.trans hm, hl⟩
    · exact nomatch hnone.symm.trans hm

/-- At rest, a module is what its task told, or was there before, or stands for a target that was
not loaded. -/
theorem Advanced.cases {q : Pass}
    (hq : q.Advanced (p.plan w limit g eager seeds) (p.rules w limit).output [])
    (hrest : q.outstanding = []) {id : ModuleId} {m : Module} (hm : q.graph.get? id = some m) :
    id ∈ q.visited ∧ (p.ideal w limit id).Tells m ∨
      id ∉ q.visited ∧ (g.get? id = some m ∨
        m = .outside id ∧ (p.plan w limit g eager seeds).Excludes id ∨
        m = .placeholder id ∧ (p.plan w limit g eager seeds).Awaits id) := by
  by_cases hv : id ∈ q.visited
  · obtain ⟨m', hm', hget⟩ := hq.held id hv (by rw [hrest]; exact List.not_mem_nil) fun h => nomatch h
    rw [hm] at hget
    cases hget
    exact .inl ⟨hv, hm'⟩
  · refine .inr ⟨hv, ?_⟩
    rcases hq.others id hv with he | ⟨-, ⟨hx, he⟩ | ⟨ha, he⟩⟩
    · exact .inl (he ▸ hm)
    · exact .inr (.inl ⟨Option.some.inj (hm.symm.trans he), hx⟩)
    · exact .inr (.inr ⟨Option.some.inj (hm.symm.trans he), ha⟩)

theorem Advanced.contains {q : Pass}
    (hq : q.Advanced (p.plan w limit g eager seeds) (p.rules w limit).output [])
    (hrest : q.outstanding = []) {id : ModuleId} (hid : g.contains id = true) :
    q.graph.contains id = true := by
  by_cases hv : id ∈ q.visited
  · obtain ⟨m, -, hm⟩ := hq.held id hv (by rw [hrest]; exact List.not_mem_nil) fun h => nomatch h
    exact ModuleGraph.contains_iff.mpr ⟨m, hm⟩
  · obtain ⟨m, hm⟩ := ModuleGraph.contains_iff.mp hid
    rcases hq.others id hv with he | ⟨hnone, -⟩
    · exact ModuleGraph.contains_iff.mpr ⟨m, he.trans hm⟩
    · exact nomatch hnone.symm.trans hm

theorem Advanced.within {R : Realm} {q : Pass} (hk : p.Keeps w limit R) (hg : g.Within R)
    (hn : ∀ id, (p.plan w limit g eager seeds).Needed id → R.inside id)
    (hq : q.Advanced (p.plan w limit g eager seeds) (p.rules w limit).output [])
    (hrest : q.outstanding = []) : q.graph.Within R := by
  intro id m hm
  rcases hq.cases hrest hm with ⟨hv, h⟩ | ⟨-, h | ⟨rfl, k, hk', d, hd, hx, ht⟩ |
    ⟨rfl, k, hk', d, hd, hdef⟩⟩
  · exact .of_inside (Project.external_of_tells h) (hn id (hq.needed id hv))
  · exact hg id m h
  · exact ⟨fun h => (nomatch h), fun _ => (hk k (hn k hk') d hd id ht).2 hx⟩
  · exact .of_inside rfl ((hk k (hn k hk') d hd id hdef.1).1 hdef.2.1)

/-- A pass brings its graph up to date if it processes what was stale, and what is to be compiled
from now on. -/
theorem Advanced.mirrors {earlier : List ModuleId} {q : Pass}
    (hg : g.Mirrors p w limit earlier stale)
    (he : ∀ t ∈ eager, t ∈ earlier ∨ t ∈ seeds.reprocessed)
    (hs : ∀ id ∈ stale, id ∈ seeds.reprocessed)
    (hq : q.Advanced (p.plan w limit g eager seeds) (p.rules w limit).output [])
    (hsown : q.Sown (p.plan w limit g eager seeds)) (hrest : q.outstanding = []) :
    q.graph.Mirrors p w limit eager [] := by
  have hstale : ∀ id, id ∉ q.visited → id ∉ stale := fun id hv h =>
    hv (hsown.reprocessed id (hs id h))
  -- In each part: the module had a task, or was there before, or stands for a target.
  refine ⟨fun id m hm _ => ?_, fun id m hm _ d hd t hw => ?_⟩
  · rcases hq.cases hrest hm with ⟨-, h⟩ | ⟨hv, h | ⟨h, -⟩ | ⟨h, -⟩⟩
    · exact .processed h
    · exact hg.modules id m h (hstale id hv)
    · exact .outside h
    · exact .placeholder h
  · rcases hq.cases hrest hm with ⟨hv, h⟩ | ⟨hv, h | ⟨rfl, -⟩ | ⟨rfl, -⟩⟩
    · rw [Project.dependencies_of_tells h] at hd
      have hmet := (hq.followed id hv (by rw [hrest]; exact List.not_mem_nil)
        (fun h => nomatch h) d hd).wanted t hw
      exact hmet.elim (fun hv => hq.loaded hrest (.inl hv)) fun h => h
    · by_cases ht : t ∈ seeds.reprocessed
      · exact hq.loaded hrest (.inl (hsown.reprocessed t ht))
      · have hw' : p.Wants earlier d t := hw.mono fun hm => (he t hm).resolve_right ht
        exact hq.loaded hrest (.inr (hg.wanted id m h (hstale id hv) d hd t hw'))
    · cases hd
    · cases hd

end Pass

end Bundler
