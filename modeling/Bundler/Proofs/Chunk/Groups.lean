import Bundler.Proofs.Chunk.Names
import Bundler.Proofs.Graph.Modules

/-!
# Cache groups

What one group does to the chunks: it moves modules that were not claimed into the chunk with its
name, and each chunk that loses one refers to that chunk.
-/

namespace Bundler

namespace Partition

variable (group : CacheGroup) (moved : List ModuleId)

/-- The chunks with one for the group. -/
def withChunkOf (cs : List Chunk) : List Chunk :=
  if cs.any (·.name = group.name) then cs else cs ++ [{ name := group.name, kind := .shared }]

/-- What a chunk becomes when a group takes modules. -/
def passOn (c : Chunk) : Chunk :=
  if c.name = group.name then takeUp moved c
  else if inScope group c then giveUp group.name moved c
  else c

/-- What the chunks become when a group takes modules. -/
def regroup (cs : List Chunk) : List Chunk := (withChunkOf group cs).map (passOn group moved)

variable {group moved}

/-- A group leaves everything alone, or takes its candidates, which are claimed then. -/
theorem applyGroup_cases (g : ModuleGraph) (cs : List Chunk) (claimed : List ModuleId)
    (group : CacheGroup) :
    applyGroup g (cs, claimed) group = (cs, claimed) ∨
      applyGroup g (cs, claimed) group = (regroup group (candidates group cs claimed) cs,
        claimed ++ candidates group cs claimed) := by
  unfold applyGroup
  dsimp only
  split
  next => exact .inl rfl
  next => exact .inr rfl

/-- What every group that takes its candidates keeps holds when all groups were applied. -/
theorem groups_keep {g : ModuleGraph} {P : List Chunk → List ModuleId → Prop}
    (hP : ∀ group cs claimed, P cs claimed →
      P (regroup group (candidates group cs claimed) cs) (claimed ++ candidates group cs claimed))
    (groups : List CacheGroup) {s : List Chunk × List ModuleId} (hs : P s.1 s.2) :
    P (groups.foldl (applyGroup g) s).1 (groups.foldl (applyGroup g) s).2 := by
  induction groups generalizing s with
  | nil => exact hs
  | cons group groups ih =>
    refine ih ?_
    obtain ⟨cs, claimed⟩ := s
    rcases applyGroup_cases g cs claimed group with h | h
    · rw [h]; exact hs
    · rw [h]; exact hP group cs claimed hs

/-! ## Candidates -/

theorem candidates_nodup (group : CacheGroup) (cs : List Chunk) (claimed : List ModuleId) :
    (candidates group cs claimed).Nodup := (Module.distinct_nodup _).filter _

/-- A candidate is in a chunk that the group looks at, and was not claimed. -/
theorem held_of_mem_candidates {cs : List Chunk} {claimed : List ModuleId} {id : ModuleId}
    (h : id ∈ candidates group cs claimed) : (∃ c ∈ cs, id ∈ c.modules) ∧ id ∉ claimed := by
  obtain ⟨hheld, hcond⟩ := List.mem_filter.mp h
  rw [Module.mem_distinct, List.mem_flatMap] at hheld
  obtain ⟨c, hc, hid⟩ := hheld
  rw [Bool.and_eq_true, Bool.and_eq_true] at hcond
  exact ⟨⟨c, (List.mem_filter.mp hc).1, hid⟩, by simpa using hcond.1.2⟩

/-! ## One chunk -/

theorem passOn_cases (group : CacheGroup) (moved : List ModuleId) (c : Chunk) :
    c.name = group.name ∧ passOn group moved c = takeUp moved c ∨
      c.name ≠ group.name ∧ passOn group moved c = giveUp group.name moved c ∨
      c.name ≠ group.name ∧ passOn group moved c = c := by
  unfold passOn
  split
  next hc => exact .inl ⟨hc, rfl⟩
  next hc =>
    split
    next => exact .inr (.inl ⟨hc, rfl⟩)
    next => exact .inr (.inr ⟨hc, rfl⟩)

theorem passOn_eq (group : CacheGroup) (moved : List ModuleId) (c : Chunk) :
    ∃ modules references, passOn group moved c = { c with modules, references } := by
  rcases passOn_cases group moved c with ⟨-, h⟩ | ⟨-, h⟩ | ⟨-, h⟩
  · exact ⟨_, c.references, h⟩
  · exact ⟨_, _, h⟩
  · exact ⟨c.modules, c.references, h⟩

@[simp] theorem name_passOn (c : Chunk) : (passOn group moved c).name = c.name := by
  obtain ⟨_, _, h⟩ := passOn_eq group moved c
  rw [h]

@[simp] theorem kind_passOn (c : Chunk) : (passOn group moved c).kind = c.kind := by
  obtain ⟨_, _, h⟩ := passOn_eq group moved c
  rw [h]

@[simp] theorem entry_passOn (c : Chunk) : (passOn group moved c).entry = c.entry := by
  obtain ⟨_, _, h⟩ := passOn_eq group moved c
  rw [h]

@[simp] theorem dynamicImports_passOn (c : Chunk) :
    (passOn group moved c).dynamicImports = c.dynamicImports := by
  obtain ⟨_, _, h⟩ := passOn_eq group moved c
  rw [h]

theorem mem_takeUp {c : Chunk} {id : ModuleId} :
    id ∈ (takeUp moved c).modules ↔ id ∈ c.modules ∨ id ∈ moved := by
  unfold takeUp
  dsimp only
  rw [List.mem_append, List.mem_filter]
  simp only [Bool.not_eq_true', List.contains_eq_mem, decide_eq_false_iff_not]
  tauto

theorem mem_giveUp {c : Chunk} {n : String} {id : ModuleId} :
    id ∈ (giveUp n moved c).modules ↔ id ∈ c.modules ∧ id ∉ moved := by
  unfold giveUp
  dsimp only
  rw [List.mem_filter]
  simp only [Bool.not_eq_true', List.contains_eq_mem, decide_eq_false_iff_not]

theorem mem_modules_receiver {c : Chunk} (hc : c.name = group.name) {id : ModuleId} :
    id ∈ (passOn group moved c).modules ↔ id ∈ c.modules ∨ id ∈ moved := by
  rw [passOn, if_pos hc]
  exact mem_takeUp

theorem mem_modules_of_not_mem {c : Chunk} {id : ModuleId} (h : id ∈ c.modules) (hn : id ∉ moved) :
    id ∈ (passOn group moved c).modules := by
  rcases passOn_cases group moved c with ⟨-, hp⟩ | ⟨-, hp⟩ | ⟨-, hp⟩ <;> rw [hp]
  · exact mem_takeUp.mpr (.inl h)
  · exact mem_giveUp.mpr ⟨h, hn⟩
  · exact h

theorem mem_of_mem_passOn {c : Chunk} {id : ModuleId} (h : id ∈ (passOn group moved c).modules) :
    id ∈ c.modules ∨ id ∈ moved := by
  rcases passOn_cases group moved c with ⟨-, hp⟩ | ⟨-, hp⟩ | ⟨-, hp⟩ <;> rw [hp] at h
  · exact mem_takeUp.mp h
  · exact .inl (mem_giveUp.mp h).1
  · exact .inl h

theorem passOn_nodup {c : Chunk} (hm : moved.Nodup) (hc : c.modules.Nodup) :
    (passOn group moved c).modules.Nodup := by
  rcases passOn_cases group moved c with ⟨-, hp⟩ | ⟨-, hp⟩ | ⟨-, hp⟩ <;> rw [hp]
  · refine List.nodup_append.mpr ⟨hc, hm.filter _, fun a ha b hb e => ?_⟩
    have := (List.mem_filter.mp hb).2
    rw [← e] at this
    simp [ha] at this
  · exact hc.filter _
  · exact hc

theorem mem_references_passOn {c : Chunk} {n : String} (h : n ∈ c.references) :
    n ∈ (passOn group moved c).references := by
  rcases passOn_cases group moved c with ⟨-, hp⟩ | ⟨-, hp⟩ | ⟨-, hp⟩ <;> rw [hp]
  · exact h
  · unfold giveUp
    dsimp only
    split
    next => exact List.mem_append_left _ h
    next => exact h
  · exact h

theorem mem_references_of_passOn {c : Chunk} {n : String}
    (h : n ∈ (passOn group moved c).references) : n ∈ c.references ∨ n = group.name := by
  rcases passOn_cases group moved c with ⟨-, hp⟩ | ⟨-, hp⟩ | ⟨-, hp⟩ <;> rw [hp] at h
  · exact .inl h
  · unfold giveUp at h
    dsimp only at h
    split at h
    next => exact (List.mem_append.mp h).imp_right List.mem_singleton.mp
    next => exact .inl h
  · exact .inl h

/-- A chunk that loses a module refers to the chunk of the group, which takes it. -/
theorem refers_of_lost {c : Chunk} {id : ModuleId} (h : id ∈ c.modules)
    (hn : id ∉ (passOn group moved c).modules) :
    id ∈ moved ∧ group.name ∈ (passOn group moved c).references := by
  have hm : id ∈ moved := by
    by_contra hm
    exact hn (mem_modules_of_not_mem h hm)
  refine ⟨hm, ?_⟩
  rcases passOn_cases group moved c with ⟨-, hp⟩ | ⟨-, hp⟩ | ⟨-, hp⟩ <;> rw [hp] at hn ⊢
  · exact absurd (mem_takeUp.mpr (.inl h)) hn
  · unfold giveUp
    dsimp only
    split
    next => exact List.mem_append_right _ List.mem_cons_self
    next hr =>
      -- Fewer modules are kept, so the chunk referred to the group before.
      have hr : ∀ x ∈ c.modules, x ∈ moved → group.name ∈ c.references := by simpa using hr
      exact hr id h hm
  · exact absurd h hn

/-! ## All chunks -/

theorem mem_withChunkOf {cs : List Chunk} {c : Chunk} (h : c ∈ withChunkOf group cs) :
    c ∈ cs ∨ c = { name := group.name, kind := .shared } := by
  unfold withChunkOf at h
  split at h
  next => exact .inl h
  next => exact (List.mem_append.mp h).imp_right List.mem_singleton.mp

theorem mem_withChunkOf_of_mem {cs : List Chunk} {c : Chunk} (h : c ∈ cs) :
    c ∈ withChunkOf group cs := by
  unfold withChunkOf
  split
  next => exact h
  next => exact List.mem_append_left _ h

theorem withChunkOf_nodup {cs : List Chunk} (h : (cs.map (·.name)).Nodup) :
    ((withChunkOf group cs).map (·.name)).Nodup := by
  unfold withChunkOf
  split
  next => exact h
  next hn =>
    exact concat_nodup h fun c hc he => hn (List.any_eq_true.mpr ⟨c, hc, decide_eq_true he⟩)

@[simp] theorem names_regroup (cs : List Chunk) :
    (regroup group moved cs).map (·.name) = (withChunkOf group cs).map (·.name) := by
  rw [regroup, List.map_map]
  exact List.map_congr_left fun c _ => name_passOn c

theorem exists_receiver (group : CacheGroup) (moved : List ModuleId) (cs : List Chunk) :
    ∃ b ∈ regroup group moved cs, b.name = group.name ∧ ∀ id ∈ moved, id ∈ b.modules := by
  have hb : ∃ b ∈ withChunkOf group cs, b.name = group.name := by
    unfold withChunkOf
    split
    next h => simpa using h
    next => exact ⟨_, List.mem_append_right _ List.mem_cons_self, rfl⟩
  obtain ⟨b, hb, hn⟩ := hb
  exact ⟨_, List.mem_map_of_mem hb, (name_passOn b).trans hn,
    fun id hid => (mem_modules_receiver hn).mpr (.inr hid)⟩

theorem mem_regroup_of_mem {cs : List Chunk} {c : Chunk} (h : c ∈ cs) :
    passOn group moved c ∈ regroup group moved cs := List.mem_map_of_mem (mem_withChunkOf_of_mem h)

theorem mem_regroup {cs : List Chunk} {c : Chunk} (h : c ∈ regroup group moved cs) :
    (∃ c' ∈ cs, c = passOn group moved c') ∨
      c = passOn group moved { name := group.name, kind := .shared } := by
  obtain ⟨c', hc', rfl⟩ := List.mem_map.mp h
  rcases mem_withChunkOf hc' with hc' | rfl
  · exact .inl ⟨c', hc', rfl⟩
  · exact .inr rfl

/-! ## The partition -/

/-- What holds of the chunks of the entries and of the split ones, and is kept by every group, holds
of a partition. -/
theorem chunks_keep {g : ModuleGraph} {P : List Chunk → Prop}
    (hentries : P (g.entries.toList.map (entryChunk g true))) (hsplit : P (splitChunks g))
    (hgroup : ∀ group cs claimed, P cs → P (regroup group (candidates group cs claimed) cs))
    (o : SplitOptions) : P (chunks g o) := by
  unfold chunks
  split
  next => exact groups_keep (P := fun cs _ => P cs) hgroup o.cacheGroups hsplit
  next => exact hentries

/-- No two chunks have one name. -/
theorem names_nodup (g : ModuleGraph) (o : SplitOptions) : ((chunks g o).map (·.name)).Nodup := by
  refine chunks_keep (P := fun cs => (cs.map (·.name)).Nodup) (entryChunks_nodup g true)
    (splitChunks_nodup g) (fun group cs claimed h => ?_) o
  rw [names_regroup]
  exact withChunkOf_nodup h

end Partition

end Bundler
