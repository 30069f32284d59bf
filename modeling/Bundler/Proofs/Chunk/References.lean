import Bundler.Proofs.Chunk.Members

/-!
# What a chunk needs

A chunk that starts from a module can be run from its own members and those of the chunks that it
refers to: together they have all that static dependencies lead to, and what these modules import
dynamically has an async chunk, which the chunk names.
-/

namespace Bundler

namespace Partition

variable {g : ModuleGraph}

theorem asyncEntries_regroup (group : CacheGroup) (moved : List ModuleId) (cs : List Chunk) :
    asyncEntries (regroup group moved cs) = asyncEntries cs := by
  have hpass : ∀ cs : List Chunk, asyncEntries (cs.map (passOn group moved)) = asyncEntries cs := by
    intro cs
    unfold asyncEntries
    rw [List.filterMap_map]
    refine List.filterMap_congr fun c _ => ?_
    simp
  unfold regroup
  rw [hpass]
  unfold withChunkOf
  split
  next => rfl
  next => rw [asyncEntries_append]; exact List.append_nil _

/-- What the modules on static paths from `e` import dynamically. -/
def importsFrom (g : ModuleGraph) (e : ModuleId) : List ModuleId :=
  Discovery.dynamicTargets g { name := "", kind := .async, modules := g.collect e false }

theorem mem_importsFrom {e t : ModuleId} : t ∈ importsFrom g e ↔
    ∃ a m, g.LivePath false e a ∧ g.get? a = some m ∧ t ∈ m.dynamicTargets := by
  unfold importsFrom
  rw [Discovery.mem_dynamicTargets]
  constructor
  · rintro ⟨a, ha, m, hm, ht⟩
    exact ⟨a, m, ModuleGraph.mem_collect.mp ha, hm, ht⟩
  · rintro ⟨a, m, ha, hm, ht⟩
    exact ⟨a, ModuleGraph.mem_collect.mpr ha, m, hm, ht⟩

/-- What a chunk that starts from `e` has at hand, when some modules were claimed by groups: each
module on a static path from `e` is a member, or was claimed and moved to a chunk that it refers
to. -/
structure Provided (g : ModuleGraph) (cs : List Chunk) (claimed : List ModuleId) (c : Chunk)
    (e : ModuleId) : Prop where
  entry : c.entry = some e
  static : ∀ id, g.LivePath false e id →
    id ∈ c.modules ∨ id ∈ claimed ∧ ∃ b ∈ cs, b.name ∈ c.references ∧ id ∈ b.modules
  imports : Imports g (asyncEntries cs) (importsFrom g e) c.dynamicImports

/-- Chunks that start from a module have what it needs, and refer to chunks only. -/
structure Runnable (g : ModuleGraph) (cs : List Chunk) (claimed : List ModuleId) : Prop where
  oneToOne : OneToOne (asyncEntries cs)
  provided : ∀ c ∈ cs, c.kind ≠ .shared → ∃ e, Provided g cs claimed c e
  shared : ∀ c ∈ cs, c.kind = .shared → c.dynamicImports = []
  named : ∀ c ∈ cs, ∀ n ∈ c.references, ∃ b ∈ cs, b.name = n

theorem runnable_splitChunks (g : ModuleGraph) : Runnable g (splitChunks g) [] := by
  obtain ⟨-, -, -, hone, himp⟩ := splitChunks_spec g
  refine ⟨hone, fun c hc _ => ?_, fun c hc hk => ?_, fun c hc n hn => ?_⟩
  · obtain ⟨-, -, e, he, hm⟩ := rooted_of_mem_splitChunks hc
    refine ⟨e, he, fun id hp => .inl (hm ▸ ModuleGraph.mem_collect.mpr hp), ?_⟩
    have htargets : Discovery.dynamicTargets g c = importsFrom g e := by
      unfold importsFrom Discovery.dynamicTargets
      rw [hm]
    exact htargets ▸ himp c hc
  · exact absurd hk (rooted_of_mem_splitChunks hc).1
  · rw [(rooted_of_mem_splitChunks hc).2.1] at hn
    cases hn

/-- A claimed module stays where it is, and a chunk that loses one to a group refers to the chunk
of the group. -/
theorem Runnable.regroup {cs : List Chunk} {claimed : List ModuleId} (h : Runnable g cs claimed)
    (group : CacheGroup) : Runnable g (regroup group (candidates group cs claimed) cs)
      (claimed ++ candidates group cs claimed) := by
  have htable := asyncEntries_regroup group (candidates group cs claimed) cs
  obtain ⟨receiver, hreceiver, hname, hall⟩ :=
    exists_receiver group (candidates group cs claimed) cs
  refine ⟨htable ▸ h.oneToOne, fun c hc hk => ?_, fun c hc hk => ?_, fun c hc n hn => ?_⟩
  -- What is reached is still a member, or was moved now, or before: then it is not moved again.
  · rcases mem_regroup hc with ⟨c', hc', rfl⟩ | rfl
    · rw [kind_passOn] at hk
      obtain ⟨e, hp⟩ := h.provided c' hc' hk
      refine ⟨e, (entry_passOn c').trans hp.entry, fun id hpath => ?_, ?_⟩
      · rcases hp.static id hpath with hid | ⟨hclaimed, b, hb, hr, hid⟩
        · by_cases hkept : id ∈ (passOn group (candidates group cs claimed) c').modules
          · exact .inl hkept
          · obtain ⟨hm, hr⟩ := refers_of_lost hid hkept
            exact .inr ⟨List.mem_append_right _ hm, receiver, hreceiver, hname.symm ▸ hr, hall id hm⟩
        · have hn : id ∉ candidates group cs claimed := fun hm =>
            (held_of_mem_candidates hm).2 hclaimed
          refine .inr ⟨List.mem_append_left _ hclaimed, _, mem_regroup_of_mem hb, ?_,
            mem_modules_of_not_mem hid hn⟩
          rw [name_passOn]
          exact mem_references_passOn hr
      · rw [dynamicImports_passOn, htable]
        exact hp.imports
    · rw [kind_passOn] at hk
      exact absurd rfl hk
  · rcases mem_regroup hc with ⟨c', hc', rfl⟩ | rfl
    · rw [kind_passOn] at hk
      rw [dynamicImports_passOn]
      exact h.shared c' hc' hk
    · exact dynamicImports_passOn _
  · have hold : ∀ b ∈ cs, ∃ b' ∈ Partition.regroup group (candidates group cs claimed) cs,
        b'.name = b.name := fun b hb => ⟨_, mem_regroup_of_mem hb, name_passOn b⟩
    rcases mem_regroup hc with ⟨c', hc', rfl⟩ | rfl
    · rcases mem_references_of_passOn hn with hn | rfl
      · obtain ⟨b, hb, rfl⟩ := h.named c' hc' n hn
        exact hold b hb
      · exact ⟨receiver, hreceiver, hname⟩
    · rcases mem_references_of_passOn hn with hn | rfl
      · cases hn
      · exact ⟨receiver, hreceiver, hname⟩

theorem runnable_chunks (g : ModuleGraph) (groups : List CacheGroup) :
    ∃ claimed, Runnable g (chunks g ⟨true, groups⟩) claimed :=
  ⟨_, groups_keep (P := Runnable g) (fun group _ _ h => h.regroup group) groups
    (runnable_splitChunks g)⟩

/-- A chunk with imports starts from a module that decides what it imports, and what that module
leads to statically is in the chunk or in chunks that it refers to. -/
theorem provided_of_imports {o : SplitOptions} {c : Chunk} (hc : c ∈ chunks g o)
    (hne : c.dynamicImports ≠ []) : ∃ e, c.entry = some e ∧
      Imports g (asyncEntries (chunks g o)) (importsFrom g e) c.dynamicImports ∧
      ∀ id, g.LivePath false e id →
        id ∈ c.modules ∨ ∃ b ∈ chunks g o, b.name ∈ c.references ∧ id ∈ b.modules := by
  obtain ⟨codeSplitting, groups⟩ := o
  cases codeSplitting with
  | true =>
    obtain ⟨_, h⟩ := runnable_chunks g groups
    obtain ⟨e, hp⟩ := h.provided c hc fun hk => hne (h.shared c hc hk)
    exact ⟨e, hp.entry, hp.imports, fun id hid => (hp.static id hid).imp_right And.right⟩
  | false =>
    obtain ⟨e, -, rfl⟩ := List.mem_map.mp hc
    exact absurd rfl hne

theorem imports_of_mem_chunks {o : SplitOptions} {c : Chunk} (hc : c ∈ chunks g o) :
    c.dynamicImports = [] ∨ ∃ e, c.entry = some e ∧
      Imports g (asyncEntries (chunks g o)) (importsFrom g e) c.dynamicImports := by
  by_cases hne : c.dynamicImports = []
  · exact .inl hne
  · obtain ⟨e, he, hi, -⟩ := provided_of_imports hc hne
    exact .inr ⟨e, he, hi⟩

theorem exists_of_import {o : SplitOptions} {c : Chunk} (hc : c ∈ chunks g o) {n : String}
    (hn : n ∈ c.dynamicImports) : ∃ t, (t, n) ∈ asyncEntries (chunks g o) := by
  rcases imports_of_mem_chunks hc with hnil | ⟨e, -, hi⟩
  · rw [hnil] at hn
    cases hn
  · obtain ⟨t, -, ht⟩ := (exists_of_forall₂ hi).2 n hn
    exact ⟨t, ht⟩

theorem filter_async_eq {cs : List Chunk} (h : ((asyncEntries cs).map (·.1)).Nodup) {b : Chunk}
    (hb : b ∈ cs) {t : ModuleId} (hk : b.kind = .async) (he : b.entry = some t) :
    cs.filter (fun c => c.kind = .async && c.entry = some t) = [b] := by
  induction cs with
  | nil => cases hb
  | cons c cs ih =>
    have htail : ((asyncEntries cs).map (·.1)).Nodup := by
      rw [← List.singleton_append, asyncEntries_append, List.map_append] at h
      exact (List.nodup_append.mp h).2.1
    by_cases hc : c.kind = .async ∧ c.entry = some t
    · have hnone : ∀ x ∈ cs, ¬ (x.kind = .async ∧ x.entry = some t) := by
        rintro x hx ⟨hxk, hxe⟩
        have hx' : t ∈ (asyncEntries cs).map (·.1) :=
          List.mem_map_of_mem (f := (·.1)) (mem_asyncEntries.mpr ⟨x, hx, hxk, hxe, rfl⟩)
        have hc' : asyncEntries [c] = [(t, c.name)] := by
          unfold asyncEntries
          simp [hc.1, hc.2]
        rw [← List.singleton_append, asyncEntries_append, List.map_append, hc'] at h
        exact (List.nodup_cons.mp h).1 hx'
      have hbc : b = c := (List.mem_cons.mp hb).resolve_right fun hb => hnone b hb ⟨hk, he⟩
      rw [List.filter_cons_of_pos (by simpa using hc), hbc, List.filter_eq_nil_iff.mpr]
      intro x hx hp
      exact hnone x hx (by simpa using hp)
    · have hb' : b ∈ cs := (List.mem_cons.mp hb).resolve_left fun e => hc (e ▸ ⟨hk, he⟩)
      rw [List.filter_cons_of_neg (by simpa using hc)]
      exact ih htail hb'

end Partition

open Bundler.Partition in
/-- References lead to chunks, and a chunk that starts from a module can be run from its members
and its references. -/
theorem ChunkGraph.partition_runnable (g : ModuleGraph) (groups : List CacheGroup) :
    let cs := (partition g ⟨true, groups⟩).chunks
    (∀ c ∈ cs, ∀ n ∈ c.references, ∃ b ∈ cs, b.name = n) ∧
      ∀ c ∈ cs, c.kind = .entry ∨ c.kind = .async → ∃ e, c.entry = some e ∧
        (∀ id, g.LivePath false e id →
          id ∈ c.modules ∨ ∃ b ∈ cs, b.name ∈ c.references ∧ id ∈ b.modules) ∧
        (∀ id m t, g.LivePath false e id → g.get? id = some m → t ∈ m.dynamicTargets →
          g.isLive t = true → ∃ b,
            cs.filter (fun b => b.kind = .async && b.entry = some t) = [b] ∧
            b.name ∈ c.dynamicImports) ∧
        (∀ n ∈ c.dynamicImports, ∃ id m t, g.LivePath false e id ∧ g.get? id = some m ∧
          t ∈ m.dynamicTargets ∧ g.isLive t = true ∧
          ∃ b ∈ cs, b.kind = .async ∧ b.entry = some t ∧ b.name = n) ∧
        c.dynamicImports.Nodup := by
  obtain ⟨claimed, h⟩ := runnable_chunks g groups
  refine ⟨h.named, fun c hc hk => ?_⟩
  have hshared : c.kind ≠ .shared := by
    rcases hk with hk | hk <;> rw [hk] <;> decide
  obtain ⟨e, hp⟩ := h.provided c hc hshared
  refine ⟨e, hp.entry, fun id hpath => (hp.static id hpath).imp_right And.right,
    fun id m t hpath hm ht hl => ?_, fun n hn => ?_, hp.imports.nodup h.oneToOne⟩
  · have htarget : t ∈ importsFrom g e := mem_importsFrom.mpr ⟨id, m, hpath, hm, ht⟩
    obtain ⟨n, hmem, hn⟩ := hp.imports.listed htarget hl
    obtain ⟨b, hb, hbk, hbe, rfl⟩ := mem_asyncEntries.mp hn
    exact ⟨b, filter_async_eq h.oneToOne.targets hb hbk hbe, hmem⟩
  · obtain ⟨t, ht, hl, hm⟩ := (hp.imports.mem h.oneToOne).mp hn
    obtain ⟨id, m, hpath, hget, htm⟩ := mem_importsFrom.mp ht
    exact ⟨id, m, t, hpath, hget, htm, hl, mem_asyncEntries.mp hm⟩

end Bundler
