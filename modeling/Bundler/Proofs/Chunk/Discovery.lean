import Bundler.Proofs.Chunk.References

/-!
# The discovery of async chunks

The search for dynamic imports walks a list of chunks that it extends while it walks. It ends with
one async chunk for each live module that a module behind an entry imports dynamically, and with no
other, also where such imports run in circles. Each gets the first name that is free when it is
made.
-/

namespace Bundler

namespace Partition

/-! ## Free names -/

/-- The name is the base itself, or the base with the least number, that is not taken. -/
def FirstFree (taken : List String) (base name : String) : Prop :=
  ∃ n, name = numbered base n ∧ name ∉ taken ∧ ∀ k < n, numbered base k ∈ taken

theorem FirstFree.congr {taken taken' : List String} {base name : String}
    (h : FirstFree taken base name) (hs : ∀ n, n ∈ taken ↔ n ∈ taken') :
    FirstFree taken' base name := by
  obtain ⟨n, hn, hfree, hleast⟩ := h
  refine ⟨n, hn, ?_, ?_⟩
  · intro hm
    exact hfree ((hs name).mpr hm)
  · intro k hk
    exact (hs _).mp (hleast k hk)

theorem firstFree_freshName (taken : List String) (base : String) :
    FirstFree taken base (freshName taken base) := by
  have hfree := freshName_not_mem taken base
  unfold freshName at hfree ⊢
  rw [List.find?_map] at hfree ⊢
  cases hf : (List.range (taken.length + 1)).find? ((!taken.contains ·) ∘ numbered base) with
  | none =>
    rw [hf] at hfree
    exact ⟨0, rfl, hfree, fun k hk => absurd hk (Nat.not_lt_zero k)⟩
  | some n =>
    rw [hf] at hfree
    refine ⟨n, rfl, hfree, ?_⟩
    intro k hk
    have hleast := (List.find?_range_eq_some.mp hf).2.2 k hk
    simpa using hleast

/-- Targets with names that were given one after the other, each the first that was free. -/
def Named (taken : List String) : List (ModuleId × String) → Prop
  | [] => True
  | e :: rest => FirstFree taken (stem e.1) e.2 ∧ Named (e.2 :: taken) rest

theorem named_append {taken : List String} {a b : List (ModuleId × String)} :
    Named taken (a ++ b) ↔ Named taken a ∧ Named ((a.map (·.2)).reverse ++ taken) b := by
  induction a generalizing taken with
  | nil => simp [Named]
  | cons e a ih => simp [Named, ih, and_assoc]

namespace Discovery

variable {g : ModuleGraph} {names : List String} {d : Discovery}

/-- The chunks of a discovery got their names in the order in which they were made. -/
structure InOrder (names : List String) (d : Discovery) : Prop where
  taken : d.names = ((asyncEntries d.created).map (·.2)).reverse ++ names
  named : Named names (asyncEntries d.created)

theorem InOrder.note (h : d.InOrder names) (t : ModuleId) : (d.note g t).InOrder names := by
  unfold Discovery.note
  split
  next =>
    split
    next => exact ⟨h.taken, h.named⟩
    next =>
      have hone : asyncEntries [asyncChunk g (freshName d.names (stem t)) t] =
          [(t, freshName d.names (stem t))] := rfl
      constructor
      · change _ :: d.names = ((asyncEntries (d.created ++ [asyncChunk g _ t])).map _).reverse ++ names
        rw [asyncEntries_append, hone, h.taken]
        simp
      · change Named names (asyncEntries (d.created ++ [asyncChunk g _ t]))
        rw [asyncEntries_append, hone, named_append, ← h.taken]
        exact ⟨h.named, firstFree_freshName d.names (stem t), trivial⟩
  next => exact h

theorem inOrder_ofChunk (g : ModuleGraph) (names : List String)
    (asyncs : List (ModuleId × String)) (c : Chunk) : (ofChunk g names asyncs c).InOrder names := by
  unfold ofChunk
  apply List.foldlRecOn (motive := InOrder names)
  · exact ⟨rfl, trivial⟩
  · exact fun d h t _ => h.note t

end Discovery

theorem discover_named (g : ModuleGraph) (names : List String) (asyncs : List (ModuleId × String))
    (pending : List Chunk) : ∃ made, Named names made ∧
      asyncEntries (discover g names asyncs pending) = asyncEntries pending ++ made := by
  fun_induction discover g names asyncs pending with
  | case1 names asyncs => exact ⟨[], trivial, rfl⟩
  | case2 names asyncs c rest d ih =>
    obtain ⟨made, hmade, he⟩ := ih
    have hd : d.InOrder names := Discovery.inOrder_ofChunk g names asyncs c
    rw [hd.taken] at hmade
    refine ⟨asyncEntries d.created ++ made, named_append.mpr ⟨hd.named, hmade⟩, ?_⟩
    rw [← List.singleton_append, asyncEntries_append, he, asyncEntries_append,
      ← List.singleton_append (l := rest), asyncEntries_append]
    simp only [List.append_assoc]
    rfl

/-! ## Before any group -/

section
variable {g : ModuleGraph}

theorem exists_of_asked {t : ModuleId} (h : Asked g t) :
    ∃ c ∈ splitChunks g, c.kind = .async ∧ c.entry = some t := by
  obtain ⟨hl, a, m, ha, hm, ht⟩ := h
  obtain ⟨-, -, -, -, himp⟩ := splitChunks_spec g
  obtain ⟨c, hc, ha⟩ := mem_splitChunks.mpr ha
  have htarget : t ∈ Discovery.dynamicTargets g c :=
    Discovery.mem_dynamicTargets.mpr ⟨a, ha, m, hm, ht⟩
  obtain ⟨n, -, hn⟩ := (himp c hc).listed htarget hl
  obtain ⟨c', hc', hk, he, -⟩ := mem_asyncEntries.mp hn
  exact ⟨c', hc', hk, he⟩

theorem length_asyncEntries {made : List Chunk}
    (h : ∀ c ∈ made, ∃ t, g.isLive t = true ∧ c = asyncChunk g c.name t) :
    (asyncEntries made).length = made.length := by
  induction made with
  | nil => rfl
  | cons c made ih =>
    have ih := ih fun x hx => h x (List.mem_cons_of_mem _ hx)
    obtain ⟨t, -, he⟩ := h c List.mem_cons_self
    have hone : asyncEntries [c] = [(t, c.name)] := by rw [he]; rfl
    rw [← List.singleton_append, asyncEntries_append, hone, List.length_append, ih,
      List.length_append]
    rfl

/-- Behind the entries, there is no chunk that no live module stands for. -/
theorem length_splitChunks_le (g : ModuleGraph) :
    (splitChunks g).length ≤ g.entries.size + (g.ids.filter (g.isLive ·)).length := by
  obtain ⟨made, hmade, hplain, hone, -⟩ := splitChunks_spec g
  have htable : asyncEntries (splitChunks g) = asyncEntries made := by
    rw [asyncEntries_of_plain hplain, asyncEntries_append, asyncEntries_entryChunks, List.nil_append]
  have hlive : (asyncEntries made).map (·.1) ⊆ g.ids.filter (g.isLive ·) := by
    intro t ht
    obtain ⟨⟨t, n⟩, he, rfl⟩ := List.mem_map.mp ht
    obtain ⟨c, hc, -, hct, -⟩ := mem_asyncEntries.mp he
    obtain ⟨t', hl, hc'⟩ := hmade c hc
    rw [hc'] at hct
    cases hct
    obtain ⟨m, hm, -⟩ := ModuleGraph.isLive_iff.mp hl
    exact List.mem_filter.mpr ⟨ModuleGraph.mem_ids_of_get? hm, hl⟩
  have hle := (htable ▸ hone.targets).length_le_of_subset hlive
  have hlen := congrArg List.length hplain
  simp only [List.length_map, List.length_append, length_asyncEntries hmade] at hle hlen
  rw [hlen]
  exact Nat.add_le_add_left hle _

theorem asyncEntries_chunks (g : ModuleGraph) (groups : List CacheGroup) :
    asyncEntries (chunks g ⟨true, groups⟩) = asyncEntries (splitChunks g) :=
  groups_keep (P := fun cs _ => asyncEntries cs = asyncEntries (splitChunks g))
    (fun group cs _ h => (asyncEntries_regroup group _ cs).trans h) groups rfl

end

/-- What the async chunks among some chunks are, for a graph. -/
structure Discovered (g : ModuleGraph) (cs : List Chunk) : Prop where
  /-- Each target that is asked for has one async chunk. -/
  one : ∀ t, Asked g t ↔ ∃ c, cs.filter (fun c => c.kind = .async && c.entry = some t) = [c]
  /-- There is no other async chunk, and each holds what its target leads to statically. -/
  rooted : ∀ c ∈ cs, c.kind = .async → ∃ t, Asked g t ∧ c.entry = some t ∧ c.modules.Nodup ∧
    ∀ id, id ∈ c.modules ↔ g.LivePath false t id
  distinct : (cs.map (·.name)).Nodup
  /-- A name was the first that no entry and no async chunk before had. -/
  named : ∀ before t name after, asyncEntries cs = before ++ (t, name) :: after →
    FirstFree (g.entries.keys ++ before.map (·.2)) (stem t) name
  bounded : cs.length ≤ g.entries.size + (g.ids.filter (g.isLive ·)).length

/-- The discovery of async chunks is exact, and the cache groups leave it at that. -/
theorem splitChunks_discovered (g : ModuleGraph) : Discovered g (splitChunks g) ∧
    ∀ groups, asyncEntries (chunks g ⟨true, groups⟩) = asyncEntries (splitChunks g) := by
  obtain ⟨-, -, -, hone, -⟩ := splitChunks_spec g
  refine ⟨⟨?_, ?_, splitChunks_nodup g, ?_, length_splitChunks_le g⟩, asyncEntries_chunks g⟩
  · intro t
    constructor
    · intro ht
      obtain ⟨c, hc, hk, he⟩ := exists_of_asked ht
      exact ⟨c, filter_async_eq hone.targets hc hk he⟩
    · intro h
      obtain ⟨c, hc⟩ := h
      have hmem : c ∈ (splitChunks g).filter fun c => c.kind = .async && c.entry = some t :=
        hc ▸ List.mem_cons_self
      obtain ⟨hmem, hcond⟩ := List.mem_filter.mp hmem
      rw [Bool.and_eq_true, decide_eq_true_eq, decide_eq_true_eq] at hcond
      obtain ⟨t', ht', he'⟩ := (reached_of_mem_splitChunks hmem).2 hcond.1
      cases hcond.2.symm.trans he'
      exact ht'
  · intro c hc hk
    obtain ⟨t, ht, he⟩ := (reached_of_mem_splitChunks hc).2 hk
    obtain ⟨-, -, e, he', hm⟩ := rooted_of_mem_splitChunks hc
    cases he.symm.trans he'
    rw [hm]
    exact ⟨t, ht, he, g.collect_nodup t false, fun id => ModuleGraph.mem_collect⟩
  · intro before t name after hsplit
    obtain ⟨made, hmade, he⟩ := discover_named g
      ((g.entries.toList.map (entryChunk g false)).map (·.name)) []
      (g.entries.toList.map (entryChunk g false))
    rw [asyncEntries_entryChunks, List.nil_append] at he
    obtain rfl : before ++ (t, name) :: after = made := hsplit.symm.trans he
    obtain ⟨-, hfirst, -⟩ := named_append.mp hmade
    apply hfirst.congr
    intro n
    rw [List.map_map, List.mem_append, List.mem_append, List.mem_reverse, or_comm]
    rfl

end Partition

end Bundler
