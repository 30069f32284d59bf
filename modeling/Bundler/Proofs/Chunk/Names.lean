import Mathlib.Data.List.Nodup
import Bundler.Chunk.Partition
import Bundler.Proofs.Table

/-!
# Names of chunks

Async chunks take names that are free: no two of the chunks that the discovery makes have one name.
-/

namespace Bundler

namespace Partition

theorem numbered_injective {base : String} {m n : Nat} (h : numbered base m = numbered base n) :
    m = n := by
  have hlen : ∀ k : Nat, base.length < (base ++ "-" ++ toString k).length := by
    intro k
    simp only [String.length_append]
    exact Nat.lt_of_lt_of_le (Nat.lt_succ_self _) (Nat.le_add_right _ _)
  unfold numbered at h
  split at h
  next hm =>
    split at h
    next hn => rw [hm, hn]
    next => exact absurd (congrArg String.length h) (Nat.ne_of_lt (hlen n))
  next =>
    split at h
    next => exact absurd (congrArg String.length h) (Nat.ne_of_gt (hlen m))
    next =>
      have hd := congrArg String.toList ((String.append_right_inj _).mp h)
      rw [Nat.toString_eq_repr, Nat.toString_eq_repr, Nat.toList_repr, Nat.toList_repr] at hd
      rw [← @Nat.ofDigitChars_ten_toDigits m, hd, Nat.ofDigitChars_ten_toDigits]

/-- Of more names than are taken, one is free. -/
theorem freshName_not_mem (names : List String) (base : String) : freshName names base ∉ names := by
  unfold freshName
  have hn : ((List.range (names.length + 1)).map (numbered base)).Nodup :=
    List.nodup_range.map fun _ _ => numbered_injective
  cases hf : ((List.range (names.length + 1)).map (numbered base)).find? (!names.contains ·) with
  | some x => simpa using List.find?_some hf
  | none =>
    have hall : (List.range (names.length + 1)).map (numbered base) ⊆ names := fun x hx => by
      simpa using List.find?_eq_none.mp hf x hx
    have := hn.length_le_of_subset hall
    rw [List.length_map, List.length_range] at this
    exact absurd this (Nat.not_succ_le_self _)

theorem concat_nodup {cs : List Chunk} {c : Chunk} (h : (cs.map (·.name)).Nodup)
    (hc : ∀ c' ∈ cs, c'.name ≠ c.name) : ((cs ++ [c]).map (·.name)).Nodup := by
  rw [List.map_append, List.nodup_append]
  refine ⟨h, List.nodup_singleton _, fun a ha b hb e => ?_⟩
  obtain ⟨c', hc', rfl⟩ := List.mem_map.mp ha
  exact hc c' hc' (e.trans (List.mem_singleton.mp hb))

/-- The chunks that a discovery makes have names of their own, which were free before. -/
structure Discovery.Names (earlier : List String) (d : Discovery) : Prop where
  taken : ∀ n ∈ earlier, n ∈ d.names
  nodup : (d.created.map (·.name)).Nodup
  known : ∀ c ∈ d.created, c.name ∈ d.names
  fresh : ∀ c ∈ d.created, c.name ∉ earlier

theorem Discovery.Names.note {g : ModuleGraph} {taken : List String} {d : Discovery}
    (h : d.Names taken) (target : ModuleId) : (d.note g target).Names taken := by
  unfold Discovery.note
  split
  next =>
    split
    next => exact ⟨h.taken, h.nodup, h.known, h.fresh⟩
    next =>
      have hnew := freshName_not_mem d.names (stem target)
      refine ⟨fun n hn => List.mem_cons_of_mem _ (h.taken n hn), ?_, fun c hc => ?_, fun c hc => ?_⟩
      · refine concat_nodup h.nodup fun c hc he => hnew ?_
        have he : c.name = freshName d.names (stem target) := he
        exact he ▸ h.known c hc
      · rcases List.mem_append.mp hc with hc | hc
        · exact List.mem_cons_of_mem _ (h.known c hc)
        · rw [List.mem_singleton.mp hc]
          exact List.mem_cons_self
      · rcases List.mem_append.mp hc with hc | hc
        · exact h.fresh c hc
        · rw [List.mem_singleton.mp hc]
          exact fun ht => hnew (h.taken _ ht)
  next => exact h

theorem Discovery.names_ofChunk (g : ModuleGraph) (names : List String)
    (asyncs : List (ModuleId × String)) (c : Chunk) :
    (Discovery.ofChunk g names asyncs c).Names names := by
  have hfold : ∀ (ts : List ModuleId) (d : Discovery), d.Names names →
      (ts.foldl (Discovery.note g) d).Names names := by
    intro ts
    induction ts with
    | nil => exact fun d hd => hd
    | cons t ts ih => exact fun d hd => ih _ (hd.note t)
  exact hfold _ _
    ⟨fun _ hn => hn, List.nodup_nil, fun _ hc => (nomatch hc), fun _ hc => (nomatch hc)⟩

theorem entryChunks_nodup (g : ModuleGraph) (dynamic : Bool) :
    ((g.entries.toList.map (entryChunk g dynamic)).map (·.name)).Nodup := by
  rw [List.map_map]
  exact g.entries.keys_nodup

theorem discover_nodup (g : ModuleGraph) (names : List String)
    (asyncs : List (ModuleId × String)) (pending : List Chunk)
    (hp : (pending.map (·.name)).Nodup) (ht : ∀ c ∈ pending, c.name ∈ names) :
    ((discover g names asyncs pending).map (·.name)).Nodup ∧
      ∀ c ∈ discover g names asyncs pending, c.name ∈ pending.map (·.name) ∨ c.name ∉ names := by
  fun_induction discover g names asyncs pending with
  | case1 names asyncs => exact ⟨List.nodup_nil, fun _ hc => nomatch hc⟩
  | case2 names asyncs c rest d ih =>
    have hd : d.Names names := Discovery.names_ofChunk g names asyncs c
    rw [List.map_cons, List.nodup_cons] at hp
    have hrest := fun c hc => ht c (List.mem_cons_of_mem _ hc)
    obtain ⟨i1, i2⟩ := ih (by
      rw [List.map_append, List.nodup_append]
      refine ⟨hp.2, hd.nodup, fun a ha b hb e => ?_⟩
      obtain ⟨x, hx, rfl⟩ := List.mem_map.mp ha
      obtain ⟨y, hy, rfl⟩ := List.mem_map.mp hb
      exact hd.fresh y hy (e ▸ hrest x hx)) (fun x hx => by
      rcases List.mem_append.mp hx with hx | hx
      · exact hd.taken _ (hrest x hx)
      · exact hd.known x hx)
    have hc := ht c List.mem_cons_self
    -- A later chunk has the name of a pending one, of one that was made here, or a new one.
    have hlater : ∀ x ∈ discover g d.names d.asyncs (rest ++ d.created),
        x.name ∈ rest.map (·.name) ∨ x.name ∉ names := by
      intro x hx
      rcases i2 x hx with hm | hn
      · rw [List.map_append] at hm
        rcases List.mem_append.mp hm with hm | hm
        · exact .inl hm
        · obtain ⟨y, hy, he⟩ := List.mem_map.mp hm
          exact .inr (he ▸ hd.fresh y hy)
      · exact .inr fun h => hn (hd.taken _ h)
    refine ⟨?_, fun x hx => ?_⟩
    · rw [List.map_cons, List.nodup_cons]
      refine ⟨fun hm => ?_, i1⟩
      obtain ⟨x, hx, he⟩ := List.mem_map.mp hm
      have he : x.name = c.name := he
      rcases hlater x hx with h | h
      · exact hp.1 (he ▸ h)
      · exact h (he ▸ hc)
    · rcases List.mem_cons.mp hx with rfl | hx
      · exact .inl List.mem_cons_self
      · exact (hlater x hx).imp_left (List.mem_cons_of_mem _)

theorem splitChunks_nodup (g : ModuleGraph) : ((splitChunks g).map (·.name)).Nodup :=
  (discover_nodup g _ _ _ (entryChunks_nodup g false) fun _ => List.mem_map_of_mem).1

end Partition

end Bundler
