import Bundler.Manifest
import Bundler.Proofs.Build.Bundle
import Bundler.Proofs.Build.Ideal

/-!
# Results that are alike

Two builds that process the same modules may tell different reasons for what could not be resolved.
Everything else in their results is the same.
-/

namespace Bundler

/-! ## Errors and modules -/

/-- Errors that may both be told of one error. -/
def BuildError.Alike (a b : BuildError) : Prop := ∃ e : BuildError, e.Tells a ∧ e.Tells b

theorem BuildError.Alike.refl (e : BuildError) : e.Alike e := ⟨e, .refl e, .refl e⟩

/-- Modules that are the same, but for what their errors tell. -/
structure Module.Alike (m m' : Module) : Prop where
  errors : List.Forall₂ BuildError.Alike m.errors m'.errors
  same : m' = { m with errors := m'.errors }

namespace Module

theorem Alike.refl (m : Module) : m.Alike m :=
  ⟨List.forall₂_same.mpr fun e _ => .refl e, rfl⟩

theorem Tells.alike {m a b : Module} (ha : m.Tells a) (hb : m.Tells b) : a.Alike b := by
  refine ⟨?_, ?_⟩
  · have h := ha.errors
    have h' := hb.errors
    generalize m.errors = es at h h'
    generalize a.errors = as at h
    generalize b.errors = bs at h'
    induction h generalizing bs with
    | nil => cases h'; exact .nil
    | cons hd _ ih =>
      cases h' with
      | cons hd' h' => exact .cons ⟨_, hd, hd'⟩ (ih _ h')
  · rw [hb.same, ha.same]

theorem Alike.bare {m m' : Module} (h : m.Alike m') : m.bare = m'.bare := by
  rw [h.same]
  rfl

theorem Tells.bare {m told : Module} (h : m.Tells told) : m.bare = told.bare :=
  ((Tells.refl m).alike h).bare

end Module

theorem map_eq_of_rel {α β γ : Type} {R : α → β → Prop} {f : α → γ} {f' : β → γ}
    (hf : ∀ a b, R a b → f a = f' b) {x : Option α} {y : Option β} (h : Option.Rel R x y) :
    x.map f = y.map f' := by
  cases h with
  | some h => exact congrArg some (hf _ _ h)
  | none => rfl

theorem Table.forall₂_toList {κ α β : Type} [Ord κ] [Std.TransOrd κ] [Std.LawfulEqOrd κ]
    {R : α → β → Prop} {s : Table κ α} {t : Table κ β}
    (h : ∀ k, Option.Rel R (s.get? k) (t.get? k)) :
    List.Forall₂ (fun a b => a.1 = b.1 ∧ R a.2 b.2) s.toList t.toList := by
  have hkeys : s.mapValues (fun _ _ => ()) = t.mapValues (fun _ _ => ()) := by
    refine Table.ext_get? fun k => ?_
    rw [Table.get?_mapValues, Table.get?_mapValues]
    exact map_eq_of_rel (fun _ _ _ => rfl) (h k)
  have hfst : s.toList.map (·.1) = t.toList.map (·.1) := by
    have := congrArg (fun t => t.entries.map (·.1)) hkeys
    simp only [Table.mapValues, List.map_map] at this
    exact this
  have hrel : ∀ a ∈ s.toList, ∀ b ∈ t.toList, a.1 = b.1 → R a.2 b.2 := by
    intro a ha b hb he
    have hk := h a.1
    rw [Table.mem_toList.mp ha, he, Table.mem_toList.mp hb] at hk
    cases hk with
    | some hr => exact hr
  generalize s.toList = as at hfst hrel
  generalize t.toList = bs at hfst hrel
  induction as generalizing bs with
  | nil => rw [List.map_eq_nil_iff.mp hfst.symm]; exact .nil
  | cons a as ih =>
    cases bs with
    | nil => cases hfst
    | cons b bs =>
      obtain ⟨he, hfst⟩ := List.cons.inj hfst
      refine .cons ⟨he, hrel a List.mem_cons_self b List.mem_cons_self he⟩ (ih bs hfst ?_)
      exact fun x hx y hy => hrel x (List.mem_cons_of_mem _ hx) y (List.mem_cons_of_mem _ hy)

/-- Graphs whose modules and entries are alike. -/
structure ModuleGraph.Alike (g h : ModuleGraph) : Prop where
  modules : ∀ id, Option.Rel Module.Alike (g.get? id) (h.get? id)
  entries : g.entries = h.entries
  entryErrors : ∀ name, Option.Rel BuildError.Alike (g.entryErrors.get? name) (h.entryErrors.get? name)

theorem ModuleGraph.Alike.refl (g : ModuleGraph) : g.Alike g where
  modules id := by
    cases g.get? id with
    | none => exact .none
    | some m => exact .some (.refl m)
  entries := rfl
  entryErrors name := by
    cases g.entryErrors.get? name with
    | none => exact .none
    | some e => exact .some (.refl e)

theorem ModuleGraph.Alike.sameBare {g h : ModuleGraph} (ha : g.Alike h) : g.SameBare h :=
  fun id => map_eq_of_rel (fun _ _ h => Module.Alike.bare h) (ha.modules id)

/-! ## Results -/

/-- What is printed of errors that are alike. -/
def Diagnostic.Alike (a b : Diagnostic) : Prop :=
  ∃ (e e' : BuildError) (m : Option String), e.Alike e' ∧ a = e.diagnostic m ∧ b = e'.diagnostic m

structure ModuleInfo.Alike (a b : ModuleInfo) : Prop where
  errors : List.Forall₂ Diagnostic.Alike a.errors b.errors
  same : b = { a with errors := b.errors }

/-- Results that are the same, but for what errors tell. -/
structure BuildResult.Alike (r s : BuildResult) : Prop where
  success : r.success = s.success
  entries : r.entries = s.entries
  chunks : r.chunks = s.chunks
  modules : List.Forall₂ ModuleInfo.Alike r.modules s.modules
  errors : List.Forall₂ Diagnostic.Alike r.errors s.errors
  outputs : r.outputs = s.outputs

theorem diagnostics_alike {es es' : List BuildError} (h : List.Forall₂ BuildError.Alike es es')
    (m : Option String) :
    List.Forall₂ Diagnostic.Alike (es.map (·.diagnostic m)) (es'.map (·.diagnostic m)) := by
  rw [List.forall₂_map_left_iff, List.forall₂_map_right_iff]
  exact h.imp fun e e' he => ⟨e, e', m, he, rfl, rfl⟩

theorem moduleInfo_alike {id : ModuleId} {m m' : Module} (h : m.Alike m') :
    (BuildResult.moduleInfo (id, m)).Alike (BuildResult.moduleInfo (id, m')) := by
  refine ⟨diagnostics_alike h.errors _, ?_⟩
  unfold BuildResult.moduleInfo
  rw [h.same]
  rfl

theorem BuildResult.assemble_alike {g h : ModuleGraph} (ha : g.Alike h) (chunks : ChunkGraph)
    (rendered : List RenderedChunk) : (assemble g chunks rendered).Alike (assemble h chunks rendered) := by
  have hmods : List.Forall₂ ModuleInfo.Alike (g.modules.toList.map moduleInfo)
      (h.modules.toList.map moduleInfo) := by
    rw [List.forall₂_map_left_iff, List.forall₂_map_right_iff]
    refine (Table.forall₂_toList ha.modules).imp ?_
    rintro ⟨id, m⟩ ⟨_, m'⟩ ⟨rfl, he⟩
    exact moduleInfo_alike he
  have hentries : List.Forall₂ Diagnostic.Alike (g.entryErrors.values.map (·.diagnostic none))
      (h.entryErrors.values.map (·.diagnostic none)) := by
    refine diagnostics_alike ?_ none
    unfold Table.values
    rw [List.forall₂_map_left_iff, List.forall₂_map_right_iff]
    exact (Table.forall₂_toList ha.entryErrors).imp fun _ _ he => he.2
  have herrors := List.rel_append hentries
    (List.rel_flatMap hmods fun _ _ (he : ModuleInfo.Alike _ _) => he.errors)
  exact ⟨Project.isEmpty_of_forall₂ herrors, ha.entries, rfl, hmods, herrors, rfl⟩

/-- Only errors of resolutions may tell different reasons. -/
theorem Diagnostic.Alike.eq {a b : Diagnostic} (h : a.Alike b) (hc : a.code ≠ "RESOLVE_ERROR") :
    b = a := by
  obtain ⟨e, e', m, ⟨e₀, h1, h2⟩, rfl, rfl⟩ := h
  have hne : ∀ importer specifier reason, e ≠ .resolve importer specifier reason := by
    rintro importer specifier reason rfl
    exact hc rfl
  rcases h1 with rfl | ⟨_, _, _, -, he⟩
  · rcases h2 with rfl | ⟨_, _, _, he, -⟩
    · rfl
    · exact absurd he (hne _ _ _)
  · exact absurd he (hne _ _ _)

theorem eq_of_forall₂ {α : Type} {R : α → α → Prop} {as bs : List α} (h : List.Forall₂ R as bs)
    (he : ∀ a ∈ as, ∀ b, R a b → b = a) : bs = as := by
  induction h with
  | nil => rfl
  | cons hd _ ih =>
    rw [he _ List.mem_cons_self _ hd, ih fun a ha => he a (List.mem_cons_of_mem _ ha)]

/-- Results that are alike are the same if nothing was unresolved. -/
theorem BuildResult.Alike.eq {r s : BuildResult} (h : r.Alike s)
    (hr : ∀ d ∈ r.errors, d.code ≠ "RESOLVE_ERROR")
    (hm : ∀ m ∈ r.modules, ∀ d ∈ m.errors, d ∈ r.errors) : s = r := by
  have hmods : s.modules = r.modules := by
    refine eq_of_forall₂ h.modules fun m hmem m' he => ?_
    have herr : m'.errors = m.errors :=
      eq_of_forall₂ he.errors fun d hd d' hdd => hdd.eq (hr d (hm m hmem d hd))
    rw [he.same, herr]
  have herrs : s.errors = r.errors := eq_of_forall₂ h.errors fun d hd d' hdd => hdd.eq (hr d hd)
  obtain ⟨h1, h2, h3, -, -, h6⟩ := h
  cases r
  cases s
  simp_all

theorem BuildResult.errors_assemble {g : ModuleGraph} {chunks : ChunkGraph}
    {rendered : List RenderedChunk} : ∀ m ∈ (assemble g chunks rendered).modules, ∀ d ∈ m.errors,
      d ∈ (assemble g chunks rendered).errors := by
  intro m hm d hd
  exact List.mem_append_right _ (List.mem_flatMap.mpr ⟨m, hm, hd⟩)

end Bundler
