import Bundler.Proofs.Chunk.Async
import Bundler.Proofs.Chunk.Groups

/-!
# Members of chunks

The chunks of a partition hold the modules that live paths from the entries lead to, and no others,
each chunk holds a module at most once, and the chunks can be told apart by their names. The index
of a chunk graph gives the chunks of a module in their order.
-/

namespace Bundler

namespace Partition

variable {g : ModuleGraph}

/-! ## Before any group -/

theorem asyncEntries_of_plain {cs cs' : List Chunk} (h : cs.map plain = cs'.map plain) :
    asyncEntries cs = asyncEntries cs' := by
  have hplain : ∀ cs : List Chunk, asyncEntries (cs.map plain) = asyncEntries cs := by
    intro cs
    unfold asyncEntries
    rw [List.filterMap_map]
    rfl
  rw [← hplain cs, h, hplain cs']

theorem asyncEntries_entryChunks (g : ModuleGraph) (dynamic : Bool) :
    asyncEntries (g.entries.toList.map (entryChunk g dynamic)) = [] := by
  unfold asyncEntries
  rw [List.filterMap_map, List.filterMap_eq_nil_iff]
  exact fun e _ => rfl

/-- Entry chunks, and behind them an async chunk for each live target of a dynamic import. -/
theorem splitChunks_spec (g : ModuleGraph) :
    ∃ made, (∀ c ∈ made, ∃ t, g.isLive t = true ∧ c = asyncChunk g c.name t) ∧
      (splitChunks g).map plain = (g.entries.toList.map (entryChunk g false) ++ made).map plain ∧
      OneToOne (asyncEntries (splitChunks g)) ∧
      ∀ c ∈ splitChunks g, Imports g (asyncEntries (splitChunks g))
        (Discovery.dynamicTargets g c) c.dynamicImports := by
  obtain ⟨made, hmade, hone, hplain, himp⟩ := discover_spec g
    ((g.entries.toList.map (entryChunk g false)).map (·.name)) []
    (g.entries.toList.map (entryChunk g false)) ⟨List.nodup_nil, List.nodup_nil⟩
    fun _ h => nomatch h
  have htable : asyncEntries (splitChunks g) = asyncEntries made := by
    unfold splitChunks
    dsimp only
    rw [asyncEntries_of_plain hplain, asyncEntries_append, asyncEntries_entryChunks, List.nil_append]
  rw [List.append_nil] at hone himp
  refine ⟨made, hmade, hplain, ?_, fun c hc => (himp c hc).mono fun e he => ?_⟩
  · rw [htable]
    exact ⟨List.nodup_reverse.mp (by rw [← List.map_reverse]; exact hone.targets),
      List.nodup_reverse.mp (by rw [← List.map_reverse]; exact hone.names)⟩
  · rw [htable]
    exact List.mem_reverse.mp he

/-- Before any group, a chunk has what its entry leads to along static dependencies. -/
theorem rooted_of_mem_splitChunks {c : Chunk} (h : c ∈ splitChunks g) :
    c.kind ≠ .shared ∧ c.references = [] ∧ ∃ e, c.entry = some e ∧ c.modules = g.collect e false := by
  obtain ⟨made, hmade, hplain, -, -⟩ := splitChunks_spec g
  have hc : plain c ∈ (g.entries.toList.map (entryChunk g false) ++ made).map plain :=
    hplain ▸ List.mem_map_of_mem h
  obtain ⟨c', hc', he⟩ := List.mem_map.mp hc
  -- It is enough to look at the chunk without its imports.
  change (plain c).kind ≠ .shared ∧ (plain c).references = [] ∧ ∃ e, (plain c).entry = some e ∧
    (plain c).modules = g.collect e false
  rw [← he]
  rcases List.mem_append.mp hc' with hc' | hc'
  · obtain ⟨e, -, rfl⟩ := List.mem_map.mp hc'
    exact ⟨fun h => (nomatch h), rfl, e.2, rfl, rfl⟩
  · obtain ⟨t, -, he⟩ := hmade c' hc'
    rw [he]
    exact ⟨fun h => (nomatch h), rfl, t, rfl, rfl⟩

theorem exists_entryChunk {name : String} {e : ModuleId} (h : g.entries.get? name = some e) :
    ∃ c ∈ splitChunks g, c.entry = some e := by
  obtain ⟨made, -, hplain, -, -⟩ := splitChunks_spec g
  have he : (name, e) ∈ g.entries.toList := Table.mem_toList.mpr h
  have hc : plain (entryChunk g false (name, e)) ∈ (splitChunks g).map plain :=
    hplain ▸ List.mem_map_of_mem (List.mem_append_left _ (List.mem_map_of_mem he))
  obtain ⟨c, hc, hp⟩ := List.mem_map.mp hc
  exact ⟨c, hc, congrArg Chunk.entry hp⟩

theorem exists_asyncChunk {c : Chunk} (hc : c ∈ splitChunks g) {a t : ModuleId} {m : Module}
    (ha : a ∈ c.modules) (hm : g.get? a = some m) (ht : t ∈ m.dynamicTargets)
    (hl : g.isLive t = true) : ∃ c' ∈ splitChunks g, c'.entry = some t := by
  obtain ⟨-, -, -, -, himp⟩ := splitChunks_spec g
  obtain ⟨n, -, hn⟩ := (himp c hc).listed (Discovery.mem_dynamicTargets.mpr ⟨a, ha, m, hm, ht⟩) hl
  obtain ⟨c', hc', -, he, -⟩ := mem_asyncEntries.mp hn
  exact ⟨c', hc', he⟩

/-- A live module that a module behind an entry imports dynamically. -/
def Asked (g : ModuleGraph) (t : ModuleId) : Prop :=
  g.isLive t = true ∧ ∃ a m, g.LiveReachable a ∧ g.get? a = some m ∧ t ∈ m.dynamicTargets

/-- Members are behind an entry, so that what they import dynamically is asked for. -/
theorem reached_of_mem_splitChunks {c : Chunk} (hc : c ∈ splitChunks g) :
    (∀ id ∈ c.modules, g.LiveReachable id) ∧
      (c.kind = .async → ∃ t, Asked g t ∧ c.entry = some t) := by
  refine discover_keeps (P := fun c => (∀ id ∈ c.modules, g.LiveReachable id) ∧
    (c.kind = .async → ∃ t, Asked g t ∧ c.entry = some t)) ?_ (fun hc _ => hc) _ [] _
    ⟨List.nodup_nil, List.nodup_nil⟩ (fun _ h => nomatch h) ?_ c hc
  · intro c t hc ht hl name
    obtain ⟨a, ha, m, hm, hta⟩ := Discovery.mem_dynamicTargets.mp ht
    have hreach := hc.1 a ha
    refine ⟨?_, fun _ => ⟨t, ⟨hl, a, m, hreach, hm, hta⟩, rfl⟩⟩
    intro id hid
    apply (hreach.step hm (ModuleGraph.mem_targets_of_mem_dynamicTargets hta) hl).path
    exact ModuleGraph.mem_collect.mp hid
  · intro c hc
    obtain ⟨⟨name, e⟩, he, rfl⟩ := List.mem_map.mp hc
    refine ⟨?_, fun hk => nomatch hk⟩
    intro id hid
    have hp := ModuleGraph.mem_collect.mp hid
    exact (ModuleGraph.LiveReachable.entry (Table.mem_toList.mp he) hp.isLive_start).path hp

theorem mem_splitChunks {id : ModuleId} :
    (∃ c ∈ splitChunks g, id ∈ c.modules) ↔ g.LiveReachable id := by
  have hroot : ∀ {t : ModuleId}, g.isLive t = true → (∃ c ∈ splitChunks g, c.entry = some t) →
      ∃ c ∈ splitChunks g, t ∈ c.modules := by
    rintro t hl ⟨c, hc, he⟩
    obtain ⟨-, -, e, he', hm⟩ := rooted_of_mem_splitChunks hc
    cases he.symm.trans he'
    exact ⟨c, hc, hm ▸ ModuleGraph.mem_collect.mpr (.start hl)⟩
  constructor
  · intro h
    obtain ⟨c, hc, hid⟩ := h
    exact (reached_of_mem_splitChunks hc).1 id hid
  · intro h
    induction h with
    | entry h hl => exact hroot hl (exists_entryChunk h)
    | @step a b m _ hm hb hl ih =>
      obtain ⟨c, hc, ha⟩ := ih
      rcases ModuleGraph.mem_targets_cases hb with hs | hd
      · obtain ⟨-, -, e, -, he⟩ := rooted_of_mem_splitChunks hc
        rw [he] at ha
        exact ⟨c, hc, he ▸ ModuleGraph.mem_collect.mpr ((ModuleGraph.mem_collect.mp ha).step hm hs hl)⟩
      · exact hroot hl (exists_asyncChunk hc ha hm hd hl)

/-! ## Through the groups -/

/-- The chunks hold certain modules, none of them twice. -/
structure Holds (held : ModuleId → Prop) (cs : List Chunk) : Prop where
  mem : ∀ id, (∃ c ∈ cs, id ∈ c.modules) ↔ held id
  nodup : ∀ c ∈ cs, c.modules.Nodup

theorem Holds.regroup {held : ModuleId → Prop} {cs : List Chunk} (h : Holds held cs)
    (group : CacheGroup) (claimed : List ModuleId) :
    Holds held (regroup group (candidates group cs claimed) cs) where
  mem id := by
    rw [← h.mem id]
    constructor
    · rintro ⟨c, hc, hid⟩
      rcases mem_regroup hc with ⟨c', hc', rfl⟩ | rfl
      · rcases mem_of_mem_passOn hid with hid | hid
        · exact ⟨c', hc', hid⟩
        · exact (held_of_mem_candidates hid).1
      · rcases mem_of_mem_passOn hid with hid | hid
        · cases hid
        · exact (held_of_mem_candidates hid).1
    · rintro ⟨c, hc, hid⟩
      by_cases hm : id ∈ candidates group cs claimed
      · obtain ⟨b, hb, -, hall⟩ := exists_receiver group (candidates group cs claimed) cs
        exact ⟨b, hb, hall id hm⟩
      · exact ⟨_, mem_regroup_of_mem hc, mem_modules_of_not_mem hid hm⟩
  nodup c hc := by
    rcases mem_regroup hc with ⟨c', hc', rfl⟩ | rfl
    · exact passOn_nodup (candidates_nodup _ _ _) (h.nodup c' hc')
    · exact passOn_nodup (candidates_nodup _ _ _) List.nodup_nil

theorem holds_entries (g : ModuleGraph) :
    Holds g.LiveReachable (g.entries.toList.map (entryChunk g true)) where
  mem id := by
    rw [ModuleGraph.liveReachable_iff]
    constructor
    · rintro ⟨c, hc, hid⟩
      obtain ⟨e, he, rfl⟩ := List.mem_map.mp hc
      exact ⟨e.1, e.2, Table.mem_toList.mp he, ModuleGraph.mem_collect.mp hid⟩
    · rintro ⟨name, e, he, hp⟩
      have hmem : (name, e) ∈ g.entries.toList := Table.mem_toList.mpr he
      exact ⟨_, List.mem_map_of_mem hmem, ModuleGraph.mem_collect.mpr hp⟩
  nodup c hc := by
    obtain ⟨e, -, rfl⟩ := List.mem_map.mp hc
    exact g.collect_nodup e.2 true

theorem holds_splitChunks (g : ModuleGraph) : Holds g.LiveReachable (splitChunks g) where
  mem _ := mem_splitChunks
  nodup c hc := by
    obtain ⟨-, -, e, -, hm⟩ := rooted_of_mem_splitChunks hc
    exact hm ▸ g.collect_nodup e false

theorem holds_chunks (g : ModuleGraph) (o : SplitOptions) : Holds g.LiveReachable (chunks g o) :=
  chunks_keep (holds_entries g) (holds_splitChunks g)
    (fun group _ claimed h => h.regroup group claimed) o

end Partition

/-! ## The index -/

namespace ChunkGraph

/-- The positions of a module. -/
def positionsOf (t : Table ModuleId (List Nat)) (id : ModuleId) : List Nat := (t.get? id).getD []

theorem positionsOf_insert (t : Table ModuleId (List Nat)) (id id' : ModuleId) (l : List Nat) :
    positionsOf (t.insert id l) id' = if id' = id then l else positionsOf t id' := by
  unfold positionsOf
  rw [Table.get?_insert]
  split <;> rfl

/-- A chunk is added at the end of the positions of each of its members. -/
theorem positionsOf_addPositions (t : Table ModuleId (List Nat)) (c : Chunk × Nat) (id : ModuleId) :
    positionsOf (addPositions t c) id =
      positionsOf t id ++ List.replicate (c.1.modules.count id) c.2 := by
  unfold addPositions
  induction c.1.modules generalizing t with
  | nil => exact (List.append_nil _).symm
  | cons x l ih =>
    rw [List.foldl_cons, ih, positionsOf_insert, List.count_cons]
    by_cases hx : id = x
    · subst hx
      rw [if_pos rfl, beq_self_eq_true, if_pos rfl, List.replicate_succ, List.append_assoc]
      rfl
    · have hne : (x == id) = false := by simpa using fun e => hx e.symm
      rw [if_neg hx, hne]
      rfl

theorem positionsOf_foldl (cs : List (Chunk × Nat)) (h : ∀ c ∈ cs, c.1.modules.Nodup)
    (t : Table ModuleId (List Nat)) (id : ModuleId) :
    positionsOf (cs.foldl addPositions t) id =
      positionsOf t id ++ (cs.filter (·.1.modules.contains id)).map (·.2) := by
  induction cs generalizing t with
  | nil => exact (List.append_nil _).symm
  | cons c cs ih =>
    rw [List.foldl_cons, ih (fun x hx => h x (List.mem_cons_of_mem _ hx)), positionsOf_addPositions,
      List.append_assoc]
    congr 1
    by_cases hid : id ∈ c.1.modules
    · rw [List.count_eq_one_of_mem (h c List.mem_cons_self) hid,
        List.filter_cons_of_pos (by simpa using hid)]
      rfl
    · rw [List.count_eq_zero_of_not_mem hid, List.filter_cons_of_neg (by simpa using hid)]
      rfl

theorem chunksFor_ofChunks {cs : List Chunk} (h : ∀ c ∈ cs, c.modules.Nodup) (id : ModuleId) :
    (ofChunks cs).chunksFor id = (cs.filter (·.modules.contains id)).map (·.name) := by
  have hzip : ∀ c ∈ cs.zipIdx, c.1.modules.Nodup := fun c hc => h _ (List.fst_mem_of_mem_zipIdx hc)
  have hpos := positionsOf_foldl cs.zipIdx hzip {} id
  have hname : ∀ c ∈ cs.zipIdx.filter (·.1.modules.contains id),
      (cs[c.2]?).map (·.name) = some c.1.name := by
    intro c hc
    rw [List.mem_zipIdx_iff_getElem?.mp (List.mem_filter.mp hc).1]
    rfl
  calc (ofChunks cs).chunksFor id
    _ = (positionsOf (cs.zipIdx.foldl addPositions {}) id).filterMap fun i => cs[i]?.map (·.name) :=
      rfl
    _ = ((cs.zipIdx.filter (·.1.modules.contains id)).map (·.2)).filterMap
          fun i => cs[i]?.map (·.name) := by rw [hpos]; rfl
    _ = (cs.zipIdx.filter (·.1.modules.contains id)).map fun c => c.1.name := by
      rw [List.filterMap_map, ← List.filterMap_eq_map]
      exact List.filterMap_congr hname
    _ = ((cs.zipIdx.map (·.1)).filter (·.modules.contains id)).map (·.name) := by
      rw [List.filter_map, List.map_map]
      rfl
    _ = (cs.filter (·.modules.contains id)).map (·.name) := by rw [List.zipIdx_map_fst]

/-- A partition loses no module that an entry leads to, holds no other, holds none twice in one
chunk, and gives the chunks of a module by their names, which tell them apart. -/
theorem partition_exact (g : ModuleGraph) (o : SplitOptions) :
    (∀ id, (∃ c ∈ (partition g o).chunks, id ∈ c.modules) ↔ g.LiveReachable id) ∧
      (∀ c ∈ (partition g o).chunks, c.modules.Nodup) ∧
      ((partition g o).chunks.map (·.name)).Nodup ∧
      ∀ id, (partition g o).chunksFor id =
        ((partition g o).chunks.filter (·.modules.contains id)).map (·.name) := by
  have hold := Partition.holds_chunks g o
  exact ⟨hold.mem, hold.nodup, Partition.names_nodup g o, chunksFor_ofChunks hold.nodup⟩

end ChunkGraph

end Bundler
