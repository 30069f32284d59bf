import Bundler.Chunk.Partition
import Bundler.Proofs.Chunk.Collect

/-!
# What the partition looks at

The partition of a graph depends on the entries and on the outlines of the modules. Each target of a
module counts once.
-/

namespace Bundler

/-- A module without what went wrong and without what is done to it. -/
def Module.bare (m : Module) : Module :=
  { m with errors := [], state := if m.isLazy then .lazy else .fresh }

namespace Module

theorem isLive_bare (m : Module) : m.bare.isLive = m.isLive := by
  unfold bare isLive isLazy
  cases h : m.state <;> simp

@[simp] theorem bare_settled (m : Module) : m.settled.bare = m.bare := by
  unfold settled bare isLazy
  cases h : m.state <;> simp [h] <;> split <;> simp

theorem isLive_of_bare {m m' : Module} (h : m.bare = m'.bare) : m.isLive = m'.isLive := by
  rw [← isLive_bare m, h, isLive_bare]

theorem isLazy_of_bare {m m' : Module} (h : m.bare = m'.bare) : m.isLazy = m'.isLazy := by
  have hb : ∀ m : Module, m.bare.isLazy = m.isLazy := by
    intro m
    unfold bare isLazy
    cases h : m.state <;> simp
  rw [← hb m, h, hb]

theorem dependencies_of_bare {m m' : Module} (h : m.bare = m'.bare) :
    m.dependencies = m'.dependencies := congrArg (·.dependencies) (show m.bare = m'.bare from h)

end Module

namespace ModuleGraph

/-- Two graphs whose modules are the same, but for errors and states. -/
def SameBare (g h : ModuleGraph) : Prop :=
  ∀ id, (g.get? id).map Module.bare = (h.get? id).map Module.bare

theorem SameBare.symm {g h : ModuleGraph} (hb : g.SameBare h) : h.SameBare g := fun id => (hb id).symm

theorem SameBare.get? {g h : ModuleGraph} (hb : g.SameBare h) {id : ModuleId} {m : Module}
    (hm : g.get? id = some m) : ∃ m', h.get? id = some m' ∧ m.bare = m'.bare := by
  have hid := hb id
  rw [hm] at hid
  obtain ⟨m', hm', he⟩ := Option.map_eq_some_iff.mp hid.symm
  exact ⟨m', hm', he.symm⟩

theorem SameBare.get?_eq_none {g h : ModuleGraph} (hb : g.SameBare h) {id : ModuleId}
    (hm : g.get? id = none) : h.get? id = none := by
  have hid := hb id
  rw [hm] at hid
  exact Option.map_eq_none_iff.mp hid.symm

theorem SameBare.map {α : Type} {g h : ModuleGraph} (hb : g.SameBare h) {f : Module → α}
    (hf : ∀ m m' : Module, m.bare = m'.bare → f m = f m') (id : ModuleId) :
    (g.get? id).map f = (h.get? id).map f := by
  cases hg : g.get? id with
  | none => rw [hb.get?_eq_none hg]
  | some m =>
    obtain ⟨m', hm', he⟩ := hb.get? hg
    rw [hm']
    exact congrArg some (hf m m' he)

/-! ## What the partition reads -/

/-- What the partition reads off a module; without code splitting, only what it depends on. -/
structure Outline where
  live : Bool
  targets : List ModuleId
  staticTargets : List ModuleId
  dynamicTargets : List ModuleId
  size : Nat
deriving DecidableEq

end ModuleGraph

open ModuleGraph (Outline) in
def Module.outline (splitting : Bool) (m : Module) : Outline where
  live := m.isLive
  targets := m.dependencyIds
  staticTargets := if splitting then distinct m.staticTargets else []
  dynamicTargets := if splitting then distinct m.dynamicTargets else []
  size := if splitting then m.size else 0

theorem Module.outline_of_bare {m m' : Module} (h : m.bare = m'.bare) (splitting : Bool) :
    m.outline splitting = m'.outline splitting := by
  have hsize : m.size = m'.size := congrArg (·.size) (show m.bare = m'.bare from h)
  unfold outline dependencyIds targets staticTargets dynamicTargets
  rw [isLive_of_bare h, dependencies_of_bare h, hsize]

namespace ModuleGraph

/-- Two graphs whose modules are the same for the partition. -/
def SameOutline (splitting : Bool) (g h : ModuleGraph) : Prop :=
  ∀ id, (g.get? id).map (·.outline splitting) = (h.get? id).map (·.outline splitting)

theorem SameBare.sameOutline {g h : ModuleGraph} (hb : g.SameBare h) (splitting : Bool) :
    SameOutline splitting g h := hb.map fun _ _ he => Module.outline_of_bare he splitting

namespace SameOutline

variable {splitting : Bool} {g h : ModuleGraph}

theorem get? (ho : SameOutline splitting g h) {id : ModuleId} {m : Module}
    (hm : g.get? id = some m) :
    ∃ m', h.get? id = some m' ∧ m.outline splitting = m'.outline splitting := by
  have hid := ho id
  rw [hm] at hid
  obtain ⟨m', hm', he⟩ := Option.map_eq_some_iff.mp hid.symm
  exact ⟨m', hm', he.symm⟩

theorem get?_eq_none (ho : SameOutline splitting g h) {id : ModuleId} (hm : g.get? id = none) :
    h.get? id = none := by
  have hid := ho id
  rw [hm] at hid
  exact Option.map_eq_none_iff.mp hid.symm

theorem map {α : Type} (ho : SameOutline splitting g h) (f : Outline → α) (id : ModuleId) :
    (g.get? id).map (fun m => f (m.outline splitting)) =
      (h.get? id).map fun m => f (m.outline splitting) := by
  have hid := congrArg (Option.map f) (ho id)
  rwa [Option.map_map, Option.map_map] at hid

theorem isLive (ho : SameOutline splitting g h) (id : ModuleId) : g.isLive id = h.isLive id := by
  unfold ModuleGraph.isLive
  cases hg : g.get? id with
  | none => rw [ho.get?_eq_none hg]
  | some m =>
    obtain ⟨m', hm', he⟩ := ho.get? hg
    rw [hm']
    exact congrArg Outline.live he

/-- Along all dependencies, or with code splitting along the static ones, the same is collected. -/
theorem collect (ho : SameOutline splitting g h) (start : ModuleId) {dynamic : Bool}
    (hd : dynamic = true ∨ splitting = true) : g.collect start dynamic = h.collect start dynamic := by
  refine collect_congr (fun id m hp hm => ?_) (fun _ _ _ _ t _ hl => ?_) fun hl => ?_
  · obtain ⟨m', hm', he⟩ := ho.get? hm
    have hlive : m.isLive = m'.isLive := congrArg Outline.live he
    refine ⟨m', hm', hlive ▸ hp.live_of_get? hm, ?_⟩
    unfold followed
    cases dynamic with
    | true => exact (congrArg Outline.targets he).symm
    | false =>
      rw [hd.resolve_left (by decide)] at he
      exact (congrArg Outline.staticTargets he).symm
  · rwa [ho.isLive]
  · rwa [ho.isLive]

end SameOutline

end ModuleGraph

/-! ## Imports -/

namespace Partition

open ModuleGraph (SameOutline Outline)

variable {g h : ModuleGraph}

namespace Discovery

variable {d : Discovery} {t : ModuleId}

/-- There is nothing left to note of a target. -/
def Heeds (g : ModuleGraph) (d : Discovery) (t : ModuleId) : Prop :=
  g.isLive t = true → ∃ e, d.asyncs.find? (·.1 = t) = some e ∧ e.2 ∈ d.imports

theorem mem_imports_addImport {name n : String} :
    n ∈ (d.addImport name).imports ↔ n ∈ d.imports ∨ n = name := by
  unfold addImport
  dsimp only
  split
  next h =>
    refine ⟨.inl, ?_⟩
    rintro (hn | rfl)
    · exact hn
    · exact List.contains_iff_mem.mp h
  next => rw [List.mem_append, List.mem_singleton]

theorem Heeds.note_eq (hd : d.Heeds g t) : d.note g t = d := by
  unfold note
  split
  next hl =>
    obtain ⟨⟨t', n⟩, he, hn⟩ := hd hl
    rw [he]
    unfold addImport
    simp only [List.contains_iff_mem.mpr hn, if_true]
  next => rfl

theorem heeds_note_self (g : ModuleGraph) (d : Discovery) (t : ModuleId) :
    (d.note g t).Heeds g t := by
  intro hl
  unfold note
  rw [if_pos hl]
  split
  next t' n he => exact ⟨(t', n), he, mem_imports_addImport.mpr (.inr rfl)⟩
  next =>
    refine ⟨(t, _), ?_, mem_imports_addImport.mpr (.inr rfl)⟩
    exact List.find?_cons_of_pos (decide_eq_true rfl)

theorem Heeds.note (hd : d.Heeds g t) (t' : ModuleId) : (d.note g t').Heeds g t := by
  intro hl
  obtain ⟨e, he, hn⟩ := hd hl
  unfold Discovery.note
  split
  next =>
    split
    next => exact ⟨e, he, mem_imports_addImport.mpr (.inl hn)⟩
    next hnone =>
      refine ⟨e, ?_, mem_imports_addImport.mpr (.inl hn)⟩
      have hne : t' ≠ t := by
        rintro rfl
        exact nomatch hnone.symm.trans he
      exact (List.find?_cons_of_neg (by simpa using hne)).trans he
  next => exact ⟨e, he, hn⟩

theorem heeds_foldl {ts : List ModuleId} (ht : t ∈ ts) : (ts.foldl (note g) d).Heeds g t := by
  induction ts using List.reverseRecOn with
  | nil => cases ht
  | append_singleton ts x ih =>
    rw [List.foldl_append]
    rcases List.mem_append.mp ht with ht | ht
    · exact (ih ht).note x
    · obtain rfl := List.mem_singleton.mp ht
      exact heeds_note_self g _ t

theorem foldl_note_distinct (g : ModuleGraph) (d : Discovery) (ts : List ModuleId) :
    (Module.distinct ts).foldl (note g) d = ts.foldl (note g) d := by
  induction ts using List.reverseRecOn with
  | nil => rfl
  | append_singleton ts t ih =>
    rw [Module.distinct_concat, List.foldl_append]
    split
    next ht => exact ih.trans (heeds_foldl ht).note_eq.symm
    next => rw [List.foldl_append, ih]

end Discovery

/-! ## One partition for graphs that are the same -/

theorem note_congr (ho : SameOutline true g h) (d : Discovery) (target : ModuleId) :
    d.note g target = d.note h target := by
  unfold Discovery.note
  rw [ho.isLive, ho.collect target (.inr rfl)]

theorem dynamicTargets_congr (ho : SameOutline true g h) (c : Chunk) :
    Module.distinct (Discovery.dynamicTargets g c) =
      Module.distinct (Discovery.dynamicTargets h c) := by
  unfold Discovery.dynamicTargets
  induction c.modules with
  | nil => rfl
  | cons id ids ih =>
    rw [List.flatMap_cons, List.flatMap_cons]
    refine Module.distinct_append_congr ?_ ih
    cases hm : g.get? id with
    | none => rw [ho.get?_eq_none hm]
    | some m =>
      obtain ⟨m', hm', he⟩ := ho.get? hm
      rw [hm']
      exact congrArg Outline.dynamicTargets he

theorem ofChunk_congr (ho : SameOutline true g h) (names : List String)
    (asyncs : List (ModuleId × String)) (c : Chunk) :
    Discovery.ofChunk g names asyncs c = Discovery.ofChunk h names asyncs c := by
  unfold Discovery.ofChunk
  rw [← Discovery.foldl_note_distinct, dynamicTargets_congr ho, ← Discovery.foldl_note_distinct h]
  exact congrArg (fun f => List.foldl f _ _) (funext fun d => funext fun t => note_congr ho d t)

theorem discover_congr (ho : SameOutline true g h) (names : List String)
    (asyncs : List (ModuleId × String)) (pending : List Chunk) :
    discover g names asyncs pending = discover h names asyncs pending := by
  fun_induction discover g names asyncs pending with
  | case1 names asyncs => rw [discover]
  | case2 names asyncs c rest d ih =>
    rw [discover, ← ofChunk_congr ho]
    exact congrArg _ ih

theorem totalSize_congr (ho : SameOutline true g h) (ids : List ModuleId) :
    totalSize g ids = totalSize h ids := by
  have hfold : ∀ g : ModuleGraph, totalSize g ids =
      (ids.filterMap fun id => (g.get? id).map (·.size)).foldl (· + ·) 0 := by
    intro g
    unfold totalSize
    rw [← List.foldl_map (f := fun m : Module => m.size) (g := (· + ·)), List.map_filterMap]
  rw [hfold, hfold]
  exact congrArg (fun f => (ids.filterMap f).foldl (· + ·) 0) (funext (ho.map Outline.size))

theorem applyGroup_congr (ho : SameOutline true g h) (state : List Chunk × List ModuleId)
    (group : CacheGroup) : applyGroup g state group = applyGroup h state group := by
  unfold applyGroup
  simp only [totalSize_congr ho]

/-- The chunks depend on the entries and on the outlines of the modules. -/
theorem chunks_congr {o : SplitOptions} (ho : SameOutline o.codeSplitting g h)
    (he : g.entries = h.entries) : chunks g o = chunks h o := by
  have hentry : ∀ dynamic, dynamic = true ∨ o.codeSplitting = true →
      entryChunk g dynamic = entryChunk h dynamic := fun dynamic hd =>
    funext fun e => by unfold entryChunk; rw [ho.collect e.2 hd]
  unfold chunks
  cases hs : o.codeSplitting with
  | false => rw [if_neg (by decide), if_neg (by decide), he, hentry true (.inl rfl)]
  | true =>
    rw [hs] at ho
    have hgroup : applyGroup g = applyGroup h :=
      funext fun s => funext fun group => applyGroup_congr ho s group
    rw [if_pos rfl, if_pos rfl, hgroup]
    unfold splitChunks
    simp only [he, hentry false (.inr hs), discover_congr ho]

end Partition

theorem ChunkGraph.partition_congr {g h : ModuleGraph} {o : SplitOptions}
    (ho : ModuleGraph.SameOutline o.codeSplitting g h) (he : g.entries = h.entries) :
    partition g o = partition h o := congrArg ofChunks (Partition.chunks_congr ho he)

end Bundler
