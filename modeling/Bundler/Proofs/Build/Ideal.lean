import Mathlib.Data.List.Forall2
import Bundler.Proofs.Build.Confluence
import Bundler.Proofs.Build.Tasks
import Bundler.Proofs.Resolve.Told

/-!
# Ideal modules

What the processing of an id gives, if nothing was asked before it. Whatever was asked before,
tasks deliver the ideal module, perhaps with other reasons for what could not be resolved.
-/

namespace Bundler

/-! ## Errors -/

/-- What an error may tell that would otherwise be `e`. -/
def BuildError.Tells (e told : BuildError) : Prop :=
  told = e ∨ ∃ importer specifier reason, e = .resolve importer specifier reason ∧
    told = .resolve importer specifier LookupFault.notFound.message

theorem BuildError.Tells.refl (e : BuildError) : e.Tells e := .inl rfl

theorem BuildError.tells_refl (es : List BuildError) : List.Forall₂ BuildError.Tells es es := by
  induction es with
  | nil => exact .nil
  | cons e es ih => exact .cons (.refl e) ih

/-- A module that may be told, where `m` is the ideal one. -/
structure Module.Tells (m told : Module) : Prop where
  errors : List.Forall₂ BuildError.Tells m.errors told.errors
  same : told = { m with errors := told.errors }

theorem Module.Tells.refl (m : Module) : m.Tells m := ⟨BuildError.tells_refl m.errors, rfl⟩

/-! ## The processing -/

namespace Loading

/-- A load before which nothing was asked. -/
def ideal (p : Loading) (w : World) (limit : Option Nat) (id : ModuleId) :
    Except String LoadResult := (p.load w { limit } id).2

theorem load_ideal (p : Loading) {w : World} (hw : w.Answers) {b : Bridge} (hb : b.Quiet)
    (id : ModuleId) : (p.load w b id).1.Quiet ∧ (p.load w b id).1.limit = b.limit ∧
      (p.load w b id).2 = p.ideal w b.limit id := by
  have hnew : Bridge.Quiet { limit := b.limit } := ⟨rfl, ⟨rfl, rfl⟩, ⟨rfl, rfl⟩⟩
  obtain ⟨h1, h2, h3⟩ := hb.load hw id.text
  obtain ⟨-, -, h3'⟩ := hnew.load hw id.text
  have hsame := h3.trans h3'.symm
  unfold ideal load
  generalize Bridge.load { limit := b.limit } w.host id.text = y at hsame
  generalize b.load w.host id.text = x at h1 h2 hsame
  obtain ⟨b1, o⟩ := x
  obtain ⟨b2, o'⟩ := y
  obtain rfl : o = o' := hsame
  cases o with
  | answered a => cases a <;> exact ⟨h1, h2, rfl⟩
  | failed f => exact ⟨h1, h2, rfl⟩
  | panicked reason => exact ⟨h1, h2, rfl⟩

end Loading

namespace Project

variable (p : Project) (w : World) (limit : Option Nat)

/-- A draft with every mention resolved as if nothing was asked before. -/
def idealDraft (d : Draft) : Draft :=
  { d with mentions := d.mentions.map fun x =>
      (x.1, some (p.resolver.ideal w limit x.1.specifier (some d.id) d.id.dir)) }

/-- The module that the processing of an id gives, if nothing was asked before. -/
def ideal (id : ModuleId) : Module :=
  match p.loading.ideal w limit id with
  | .error reason => broken id reason
  | .ok r =>
    match p.search id r with
    | .error m => m
    | .ok d => (p.idealDraft w limit d).toModule

theorem ideal_isOutput (id : ModuleId) : (p.ideal w limit id).IsOutput id := by
  unfold ideal
  split
  next => exact Module.isOutput_failed _ _
  next =>
    split
    next hm => exact isOutput_of_search hm
    next d hd =>
      have hid : d.id = id := id_of_search hd
      exact ⟨hid, rfl, isLazy_assemble ..⟩

end Project

/-! ## What tasks deliver -/

namespace Project

theorem dependency_tells {r told : Resolution} (h : r.Tells told) (m : Mention) :
    (dependency m told).1 = (dependency m r).1 ∧
      List.Forall₂ BuildError.Tells (dependency m r).2 (dependency m told).2 := by
  rcases h with rfl | ⟨e, he, rfl⟩
  · exact ⟨rfl, BuildError.tells_refl _⟩
  · unfold dependency
    rw [he]
    refine ⟨rfl, List.rel_append (BuildError.tells_refl _) ?_⟩
    exact .cons (.inr ⟨_, _, _, rfl, rfl⟩) .nil

/-- Dependencies that are the same, but for what their errors tell. -/
def SameDependency (a b : Dependency × List BuildError) : Prop :=
  b.1 = a.1 ∧ List.Forall₂ BuildError.Tells a.2 b.2

theorem isEmpty_of_forall₂ {α β : Type} {R : α → β → Prop} {as : List α} {bs : List β}
    (h : List.Forall₂ R as bs) : as.isEmpty = bs.isEmpty := by
  cases h <;> rfl

theorem assemble_tells {id : ModuleId} {l : Loaded} {t : Transformed}
    {ds told : List (Dependency × List BuildError)} {errors : List BuildError}
    (h : List.Forall₂ SameDependency ds told) :
    (assemble id l t ds errors).Tells (assemble id l t told errors) := by
  have hdeps : told.map (·.1) = ds.map (·.1) := by
    induction h with
    | nil => rfl
    | cons hd _ ih => exact congrArg₂ List.cons hd.1 ih
  have herrors : List.Forall₂ BuildError.Tells (errors ++ ds.flatMap (·.2))
      (errors ++ told.flatMap (·.2)) := by
    refine List.rel_append (BuildError.tells_refl errors) ?_
    clear hdeps
    induction h with
    | nil => exact .nil
    | cons hd _ ih => exact List.rel_append hd.2 ih
  refine ⟨herrors, ?_⟩
  unfold assemble
  simp only [hdeps, isEmpty_of_forall₂ herrors]

theorem mentions_of_search {p : Project} {id : ModuleId} {r : LoadResult} {d : Draft}
    (h : p.search id r = .ok d) : ∀ x ∈ d.mentions, x.2 = none := by
  unfold search at h
  dsimp only at h
  split at h
  · cases h
  · split at h
    · cases h
    · split at h
      · cases h
        intro x hx
        obtain ⟨m, -, rfl⟩ := List.mem_map.mp hx
        rfl
      · cases h
        intro x hx
        cases hx

theorem idealDraft_congr {p : Project} {w : World} {limit : Option Nat} {d : Draft}
    {ms : List (Mention × Option Resolution)} (h : ms.map (·.1) = d.mentions.map (·.1)) :
    p.idealDraft w limit { d with mentions := ms } = p.idealDraft w limit d := by
  have hmap := congrArg (List.map fun m : Mention => (m,
    some (p.resolver.ideal w limit m.specifier (some d.id) d.id.dir))) h
  rw [List.map_map, List.map_map] at hmap
  unfold idealDraft
  exact congrArg (fun ms => Draft.mk d.id d.loaded d.transformed ms d.errors) hmap

theorem toModule_tells {p : Project} {w : World} {limit : Option Nat} {d : Draft}
    (hf : ∀ x ∈ d.mentions,
      p.resolver.Fits w limit (·.specifier) (some d.id) d.id.dir x ∧ x.2 ≠ none) :
    (p.idealDraft w limit d).toModule.Tells d.toModule := by
  unfold Draft.toModule idealDraft
  refine assemble_tells ?_
  dsimp only
  generalize d.mentions = ms at hf ⊢
  induction ms with
  | nil => exact .nil
  | cons x ms ih =>
    obtain ⟨m, res⟩ := x
    obtain ⟨hfit, hne⟩ := hf _ List.mem_cons_self
    cases res with
    | none => exact absurd rfl hne
    | some res =>
      obtain ⟨h1, h2⟩ := dependency_tells (hfit res rfl) m
      exact .cons ⟨h1, h2⟩ (ih fun x hx => hf x (List.mem_cons_of_mem _ hx))

end Project

theorem Draft.ne_none_of_openMentions {d : Draft} (h : d.openMentions.isEmpty = true)
    {x : Mention × Option Resolution} (hx : x ∈ d.mentions) : x.2 ≠ none := by
  intro hn
  have hmem : x.1 ∈ d.openMentions :=
    List.mem_filterMap.mpr ⟨x, hx, by rw [hn]; rfl⟩
  rw [List.isEmpty_iff.mp h] at hmem
  cases hmem

namespace Task

/-- How a task for an id in a directory in `D` stands to the ideal module of the id. -/
def Fits (p : Project) (w : World) (limit : Option Nat) (D : Path → Prop) : Task → Prop
  | .loading id => D id.dir
  | .resolving d => D d.id.dir ∧
      p.ideal w limit d.id = (p.idealDraft w limit d).toModule ∧
      ∀ x ∈ d.mentions, p.resolver.Fits w limit (·.specifier) (some d.id) d.id.dir x
  | .done m => D m.id.dir ∧ (p.ideal w limit m.id).Tells m

section
variable {p : Project} {w : World} {limit : Option Nat} {D : Path → Prop}

variable {late : Bool} {i : Inquiries}

theorem step_loading_fits (hw : w.Answers) (hi : i.Steady limit D ⟨w.files, p.resolver.extensions⟩)
    {id : ModuleId} (hid : D id.dir) :
    (step p w late i (.loading id)).1.Steady limit D ⟨w.files, p.resolver.extensions⟩ ∧
      (step p w late i (.loading id)).2.Fits p w limit D := by
  obtain ⟨h1, h2, h3⟩ := p.loading.load_ideal hw hi.bridge id
  rw [hi.limit] at h2 h3
  have hideal : p.ideal w limit id = match p.loading.ideal w limit id with
    | .error reason => Project.broken id reason
    | .ok r =>
      match p.search id r with
      | .error m => m
      | .ok d => (p.idealDraft w limit d).toModule := rfl
  rw [← h3] at hideal
  unfold step
  dsimp only
  generalize p.loading.load w i.bridge id = x at h1 h2 hideal
  obtain ⟨b, res⟩ := x
  have hsteady : Inquiries.Steady { i with bridge := b } limit D
      ⟨w.files, p.resolver.extensions⟩ := ⟨h1, h2, hi.cache, hi.blind⟩
  cases res with
  | error reason =>
    refine ⟨hsteady, hid, ?_⟩
    have hbroken : (Project.broken id reason).id = id := rfl
    rw [hbroken, hideal]
    exact .refl _
  | ok r =>
    dsimp only at hideal ⊢
    cases hs : p.search id r with
    | error m =>
      rw [hs] at hideal
      obtain rfl := (Project.isOutput_of_search hs).1
      refine ⟨hsteady, hid, ?_⟩
      rw [hideal]
      exact .refl _
    | ok d =>
      rw [hs] at hideal
      obtain rfl := Project.id_of_search hs
      refine ⟨hsteady, hid, hideal, fun x hx res hres => ?_⟩
      rw [Project.mentions_of_search hs x hx] at hres
      cases hres

theorem step_resolving_fits (hw : w.Answers)
    (hi : i.Steady limit D ⟨w.files, p.resolver.extensions⟩) {d : Draft}
    (ht : Fits p w limit D (.resolving d)) :
    (step p w late i (.resolving d)).1.Steady limit D ⟨w.files, p.resolver.extensions⟩ ∧
      (step p w late i (.resolving d)).2.Fits p w limit D := by
  obtain ⟨hgood, hideal, hfit⟩ := ht
  obtain ⟨h1, out, hout, h2, h3⟩ := Resolver.resolveOpen_fits hw hgood late d.mentions hi hfit
  unfold step
  dsimp only
  generalize p.resolver.resolveOpen w _ _ _ late d.mentions i = x at h1 hout
  obtain ⟨j, res⟩ := x
  obtain rfl : res = .ok out := hout
  have hsame := @Project.idealDraft_congr p w limit d _ h3
  refine ⟨h1, ?_⟩
  dsimp only
  split
  next ho =>
    refine ⟨hgood, ?_⟩
    have htells := @Project.toModule_tells p w limit { d with mentions := out } fun x hx =>
      ⟨(h2 x hx).1, Draft.ne_none_of_openMentions ho hx⟩
    rw [hsame, ← hideal] at htells
    exact htells
  next => exact ⟨hgood, hideal.trans (congrArg _ hsame.symm), fun x hx => (h2 x hx).1⟩

theorem step_fits (hw : w.Answers) (late : Bool)
    (hi : i.Steady limit D ⟨w.files, p.resolver.extensions⟩) {t : Task}
    (ht : t.Fits p w limit D) :
    (t.step p w late i).1.Steady limit D ⟨w.files, p.resolver.extensions⟩ ∧
      (t.step p w late i).2.Fits p w limit D := by
  cases t with
  | loading id => exact step_loading_fits hw hi ht
  | resolving d => exact step_resolving_fits hw hi ht
  | done m => exact ⟨hi, ht⟩

end

end Task

namespace Project

variable (p : Project) (w : World) (limit : Option Nat)

/-- Tasks tell of the ideal modules, and the session is not cancelled. -/
def rules : Pass.Rules where
  lazyCompilation := p.lazyCompilation
  output id m := (p.ideal w limit id).Tells m
  seen c := c = false

variable {p : Project} {w : World} {limit : Option Nat}

theorem id_of_tells {id : ModuleId} {m : Module} (h : (p.ideal w limit id).Tells m) : m.id = id := by
  rw [h.same]
  exact (p.ideal_isOutput w limit id).1

theorem dependencies_of_tells {m told : Module} (h : m.Tells told) :
    told.dependencies = m.dependencies := by
  rw [h.same]

/-- Imports of ids in directories in `D` lead to such ids. -/
def Closed (p : Project) (w : World) (limit : Option Nat) (D : Path → Prop) : Prop :=
  ∀ id : ModuleId, D id.dir → ∀ d ∈ (p.ideal w limit id).dependencies, d.external = false →
    ∀ t, d.target = some t → D t.dir

theorem discipline {D : Path → Prop} (hw : w.Answers) (hc : p.Closed w limit D) :
    Task.Discipline p w (p.rules w limit)
      (fun i => i.Steady limit D ⟨w.files, p.resolver.extensions⟩) (Task.Fits p w limit D)
      (fun id => D id.dir) where
  lazyCompilation := rfl
  seen := fun _ hi => hi.bridge.cancelled
  start := fun _ h => h
  step := fun late _ _ hi ht => Task.step_fits hw late hi ht
  output := fun _ h => h.2
  good := fun m h d hd hx t ht =>
    hc m.id h.1 d (dependencies_of_tells h.2 ▸ hd) hx t ht

/-- The plan of a pass whose tasks tell of the ideal modules. -/
def plan (p : Project) (w : World) (limit : Option Nat) (g : ModuleGraph) (eager : List ModuleId)
    (seeds : Pass.Seeds) : Pass.Plan where
  graph := g
  eager
  seeds
  lazyCompilation := p.lazyCompilation
  dependencies id := (p.ideal w limit id).dependencies

theorem plan_binds (g : ModuleGraph) (eager : List ModuleId) (seeds : Pass.Seeds) :
    (p.plan w limit g eager seeds).Binds (p.rules w limit) where
  lazyCompilation := rfl
  seen _ h := h
  id _ _ h := id_of_tells h
  dependencies _ _ h := dependencies_of_tells h

end Project

end Bundler
