import Bundler.Proofs.Chunk.Outline
import Bundler.Proofs.Chunk.References

/-!
# Chunks of two graphs

What a chunk imports is decided by the modules that its entry leads to statically. Where two graphs
agree on these, a chunk that the partition forms both times imports the async chunks of the same
modules. They do when more modules come to be live because placeholders are compiled: the modules
that were live before lead statically to what they led to.
-/

namespace Bundler

namespace ModuleGraph

/-- Two graphs hold the same, but for errors and states, of whatever `e` leads to statically in one
of them. -/
def AgreeFrom (g h : ModuleGraph) (e : ModuleId) : Prop :=
  ∀ id, g.LivePath false e id ∨ h.LivePath false e id →
    (g.get? id).map Module.bare = (h.get? id).map Module.bare

namespace AgreeFrom

variable {g h : ModuleGraph} {e id : ModuleId}

theorem symm (ha : g.AgreeFrom h e) : h.AgreeFrom g e := fun id hp => (ha id hp.symm).symm

theorem get? (ha : g.AgreeFrom h e) (hp : g.LivePath false e id) {m : Module}
    (hm : g.get? id = some m) : ∃ m', h.get? id = some m' ∧ m.bare = m'.bare := by
  have hid := ha id (.inl hp)
  rw [hm] at hid
  obtain ⟨m', hm', he⟩ := Option.map_eq_some_iff.mp hid.symm
  exact ⟨m', hm', he.symm⟩

theorem isLive (ha : g.AgreeFrom h e) (hp : g.LivePath false e id) : h.isLive id = true := by
  obtain ⟨m, hm, hl⟩ := isLive_iff.mp hp.isLive_end
  obtain ⟨m', hm', hb⟩ := ha.get? hp hm
  exact isLive_iff.mpr ⟨m', hm', Module.isLive_of_bare hb ▸ hl⟩

theorem livePath (ha : g.AgreeFrom h e) (hp : g.LivePath false e id) : h.LivePath false e id := by
  induction hp with
  | start hl => exact .start (ha.isLive (.start hl))
  | @step a b m hp hm hb hl ih =>
    obtain ⟨m', hm', hbare⟩ := ha.get? hp hm
    refine ih.step hm' ?_ (ha.isLive (hp.step hm hb hl))
    unfold followed Module.staticTargets at hb ⊢
    rwa [← Module.dependencies_of_bare hbare]

theorem collect_eq (ha : g.AgreeFrom h e) : g.collect e false = h.collect e false := by
  refine collect_congr (fun id m hp hm => ?_) (fun id m hp hm t ht hl => ?_)
    fun hl => ha.symm.isLive (.start hl)
  · obtain ⟨m', hm', hb⟩ := ha.get? hp hm
    refine ⟨m', hm', Module.isLive_of_bare hb ▸ hp.live_of_get? hm, ?_⟩
    unfold followed Module.targets Module.staticTargets
    rw [Module.dependencies_of_bare hb]
  · obtain ⟨m', hm', hb⟩ := ha.get? hp hm
    unfold followed Module.staticTargets at ht
    rw [Module.dependencies_of_bare hb] at ht
    exact ha.symm.isLive ((ha.livePath hp).step hm' ht hl)

end AgreeFrom

/-- Live modules stay as they are, but for errors and states, and what they depend on statically is
not live unless it was. -/
structure Grows (g h : ModuleGraph) : Prop where
  kept : ∀ id m, g.get? id = some m → m.isLive = true →
    ∃ m', h.get? id = some m' ∧ m.bare = m'.bare
  static : ∀ id m, g.get? id = some m → m.isLive = true → ∀ t ∈ m.staticTargets,
    h.isLive t = true → g.isLive t = true

namespace Grows

variable {g h : ModuleGraph}

theorem isLive (hg : g.Grows h) {id : ModuleId} (hl : g.isLive id = true) : h.isLive id = true := by
  obtain ⟨m, hm, hl⟩ := isLive_iff.mp hl
  obtain ⟨m', hm', hb⟩ := hg.kept id m hm hl
  exact isLive_iff.mpr ⟨m', hm', Module.isLive_of_bare hb ▸ hl⟩

theorem agreeFrom (hg : g.Grows h) {e : ModuleId} (he : g.isLive e = true) : g.AgreeFrom h e := by
  have hkept : ∀ id, g.isLive id = true →
      (g.get? id).map Module.bare = (h.get? id).map Module.bare := fun id hl => by
    obtain ⟨m, hm, hl⟩ := isLive_iff.mp hl
    obtain ⟨m', hm', hb⟩ := hg.kept id m hm hl
    rw [hm, hm', Option.map_some, Option.map_some, hb]
  rintro id (hp | hp)
  · exact hkept id hp.isLive_end
  · -- A path of the other graph is one of the first.
    refine hkept id ?_
    induction hp with
    | start => exact he
    | @step a b m _ hm hb hl ih =>
      obtain ⟨m₀, hm₀, hl₀⟩ := isLive_iff.mp ih
      obtain ⟨m', hm', hbare⟩ := hg.kept a m₀ hm₀ hl₀
      obtain rfl := Option.some.inj (hm.symm.trans hm')
      unfold followed Module.staticTargets at hb
      rw [← Module.dependencies_of_bare hbare] at hb
      exact hg.static a m₀ hm₀ hl₀ b hb hl

end Grows

end ModuleGraph

namespace Partition

variable {g h : ModuleGraph}

theorem importsFrom_of_dead {e : ModuleId} (he : g.isLive e = false) : importsFrom g e = [] := by
  refine List.eq_nil_iff_forall_not_mem.mpr fun t ht => ?_
  obtain ⟨a, m, hp, -⟩ := mem_importsFrom.mp ht
  exact nomatch he.symm.trans hp.isLive_start

theorem importsFrom_congr {e : ModuleId} (ha : g.AgreeFrom h e) :
    importsFrom g e = importsFrom h e := by
  unfold importsFrom Discovery.dynamicTargets
  dsimp only
  rw [← ha.collect_eq]
  refine List.flatMap_congr fun id hid => ?_
  have hp := ModuleGraph.mem_collect.mp hid
  obtain ⟨m, hm, -⟩ := ModuleGraph.isLive_iff.mp hp.isLive_end
  obtain ⟨m', hm', hb⟩ := ha.get? hp hm
  rw [hm, hm']
  simp only [Option.map_some, Option.getD_some, Module.dynamicTargets,
    Module.dependencies_of_bare hb]

/-- The imports of the same targets are the names of the same targets, if none of these was lost. -/
theorem Imports.agree {table table' : List (ModuleId × String)} {targets : List ModuleId}
    {imports : List String} (hi : Imports g table targets imports)
    (hi' : Imports h table' targets imports)
    (hl : ∀ t ∈ targets, g.isLive t = true → h.isLive t = true) :
    ∀ n ∈ imports, ∃ t, (t, n) ∈ table ∧ (t, n) ∈ table' := by
  -- No target came to be live, for there are as many imports as before.
  have hsub : (liveTargets g targets).Sublist (liveTargets h targets) := by
    have hfilter : liveTargets g targets = (liveTargets h targets).filter (g.isLive ·) := by
      unfold liveTargets
      rw [List.filter_filter]
      refine List.filter_congr fun t ht => ?_
      cases hg : g.isLive t with
      | false => rfl
      | true => rw [hl t (Module.mem_distinct.mp ht) hg]; rfl
    rw [hfilter]
    exact List.filter_sublist
  have heq := hsub.eq_of_length (hi.length_eq.trans hi'.length_eq.symm)
  unfold Imports at hi hi'
  rw [← heq] at hi'
  intro n hn
  obtain ⟨t, -, ht⟩ := (exists_of_forall₂ (hi.mp (fun _ _ => And.intro) hi')).2 n hn
  exact ⟨t, ht⟩

/-- A chunk that is formed both times imports async chunks that start from the same modules. -/
theorem agree_of_grows (hg : g.Grows h) {o : SplitOptions} {c : Chunk} (hc : c ∈ chunks g o)
    (hc' : c ∈ chunks h o) : ∀ n ∈ c.dynamicImports,
      ∃ t, (t, n) ∈ asyncEntries (chunks g o) ∧ (t, n) ∈ asyncEntries (chunks h o) := by
  rcases imports_of_mem_chunks hc with hnil | ⟨e, he, hi⟩
  · rw [hnil]
    exact fun _ hn => nomatch hn
  rcases imports_of_mem_chunks hc' with hnil | ⟨e', he', hi'⟩
  · rw [hnil]
    exact fun _ hn => nomatch hn
  obtain rfl : e' = e := Option.some.inj (he'.symm.trans he)
  cases hl : g.isLive e' with
  | false =>
    unfold Imports at hi
    rw [importsFrom_of_dead hl] at hi
    rw [List.forall₂_nil_left_iff.mp hi]
    exact fun _ hn => nomatch hn
  | true =>
    rw [← importsFrom_congr (hg.agreeFrom hl)] at hi'
    exact hi.agree hi' fun t _ => hg.isLive

end Partition

end Bundler
