import Bundler.Build.Rebuild
import Bundler.Proofs.Chunk.Growth

/-!
# Chunks and files from pass to pass

A rendering depends on the members of its chunk, without their errors, and on where async chunks
start. Chunks and files that fit each other stay as they are where nothing was touched.
-/

namespace Bundler

/-! ## What a rendering looks at -/

namespace Render

variable (r : Renderer)

/-- A member without its errors. -/
def bareMember (x : ModuleId × Module) : ModuleId × Module := (x.1, x.2.bare)

theorem members_congr {g h : ModuleGraph} {c : Chunk}
    (hm : ∀ id ∈ c.modules, (g.get? id).map Module.bare = (h.get? id).map Module.bare) :
    (members g c).map bareMember = (members h c).map bareMember := by
  unfold members
  rw [List.map_filterMap, List.map_filterMap]
  refine List.filterMap_congr fun id hid => ?_
  have hb := congrArg (Option.map fun m => (id, m)) (hm id hid)
  rw [Option.map_map, Option.map_map] at hb
  rw [Option.map_map, Option.map_map]
  exact hb

theorem map_of_bareMember {α : Type} {f : ModuleId × Module → α}
    (hf : ∀ x, f (bareMember x) = f x) {l l' : List (ModuleId × Module)}
    (h : l.map bareMember = l'.map bareMember) : l.map f = l'.map f := by
  have hbare : ∀ l : List (ModuleId × Module), l.map f = (l.map bareMember).map f := by
    intro l
    rw [List.map_map]
    exact List.map_congr_left fun x _ => (hf x).symm
  rw [hbare l, h, ← hbare l']

theorem definitions_congr {l l' : List (ModuleId × Module)}
    (h : l.map bareMember = l'.map bareMember) :
    (l.zipIdx.flatMap fun m => definition r m.1.2 m.1.1 m.2) =
      l'.zipIdx.flatMap fun m => definition r m.1.2 m.1.1 m.2 := by
  have hbare : ∀ l : List (ModuleId × Module),
      (l.zipIdx.flatMap fun m => definition r m.1.2 m.1.1 m.2) =
        (l.map bareMember).zipIdx.flatMap fun m => definition r m.1.2 m.1.1 m.2 := by
    intro l
    rw [List.zipIdx_map, List.flatMap_map]
    rfl
  rw [hbare l, h, ← hbare l']

theorem styles_congr {g h : ModuleGraph} {c : Chunk}
    (hm : (members g c).map bareMember = (members h c).map bareMember) :
    styles r g c = styles r h c := by
  unfold styles
  split
  next => rfl
  next => exact congrArg String.join (map_of_bareMember (fun _ => rfl) hm)

theorem sourceMap_congr {g h : ModuleGraph} {c : Chunk}
    (hm : (members g c).map bareMember = (members h c).map bareMember) (s : List Segment) :
    sourceMap r g c s = sourceMap r h c s :=
  congrArg (SourceMap.mk · (mappings 0 s)) (map_of_bareMember (fun _ => rfl) hm)

end Render

open Render in
theorem Renderer.renderChunk_congr (r : Renderer) {g h : ModuleGraph} {chunks chunks' : ChunkGraph}
    {c : Chunk}
    (hm : ∀ id ∈ c.modules, (g.get? id).map Module.bare = (h.get? id).map Module.bare)
    (ht : asyncTable r chunks c = asyncTable r chunks' c) :
    r.renderChunk g chunks c = r.renderChunk h chunks' c := by
  have hmem := members_congr hm
  have hs : segments r g chunks c = segments r h chunks' c := by
    unfold segments
    rw [ht, definitions_congr r hmem]
  unfold Renderer.renderChunk
  simp only [hs, sourceMap_congr r hmem, styles_congr r hmem]

/-- The table of a chunk is made of the entries of the async chunks that it imports. -/
theorem Render.asyncTable_congr (r : Renderer) {chunks chunks' : ChunkGraph} {c : Chunk}
    (h : ∀ n ∈ c.dynamicImports, (chunks.get? n).bind (·.entry) = (chunks'.get? n).bind (·.entry)) :
    asyncTable r chunks c = asyncTable r chunks' c := by
  unfold asyncTable
  split
  next => rfl
  next =>
    dsimp only
    rw [List.filterMap_congr fun n hn => by rw [h n hn]]

/-! ## Chunks and files that can be told apart -/

/-- The files are those of the chunks, and the chunks can be told apart by name. -/
structure Bundle.Paired (b : Bundle) : Prop where
  names : b.rendered.map (·.name) = b.chunks.chunks.map (·.name)
  nodup : (b.chunks.chunks.map (·.name)).Nodup

namespace Bundle

theorem paired_empty : Paired {} := ⟨rfl, List.nodup_nil⟩

theorem name_of_kept? {b : Bundle} {touched : IdSet} {c : Chunk} {x : RenderedChunk}
    (h : b.kept? touched c = some x) : x.name = c.name := by
  unfold kept? at h
  split at h
  · simpa using List.find?_some h
  · cases h

theorem mem_of_kept? {b : Bundle} {touched : IdSet} {c : Chunk} {x : RenderedChunk}
    (h : b.kept? touched c = some x) : x ∈ b.rendered := by
  unfold kept? at h
  split at h
  · exact List.mem_of_find?_eq_some h
  · cases h

theorem Paired.nodup_nextChunks {b : Bundle} (h : b.Paired) (g : ModuleGraph) (split : SplitOptions)
    (d : Delta) : ((b.nextChunks g split d).chunks.map (·.name)).Nodup := by
  unfold nextChunks
  split
  · exact Partition.names_nodup g split
  · exact h.nodup

theorem Paired.update {b : Bundle} (h : b.Paired) (g : ModuleGraph) (split : SplitOptions)
    (r : Renderer) (d : Delta) : (b.update g split r d).Paired := by
  refine ⟨?_, ?_⟩
  · unfold Bundle.update renderAll
    dsimp only
    rw [List.map_map]
    refine List.map_congr_left fun c _ => ?_
    cases hk : b.kept? d.touched c with
    | none => simp only [Function.comp, hk, Option.getD_none]; rfl
    | some x => simp only [Function.comp, hk, Option.getD_some]; exact name_of_kept? hk
  · exact h.nodup_nextChunks g split d

theorem find?_key {α : Type} {key : α → String} {l : List α} (h : (l.map key).Nodup) {a : α}
    (ha : a ∈ l) : l.find? (key · = key a) = some a := by
  induction l with
  | nil => cases ha
  | cons b l ih =>
    rw [List.map_cons, List.nodup_cons] at h
    rcases List.mem_cons.mp ha with rfl | ha
    · exact List.find?_cons_of_pos (decide_eq_true rfl)
    · have hne : key b ≠ key a := fun e => h.1 (e ▸ List.mem_map_of_mem ha)
      rw [List.find?_cons_of_neg (by simpa using hne)]
      exact ih h.2 ha

theorem Paired.get?_chunk {b : Bundle} (h : b.Paired) {c : Chunk} (hc : c ∈ b.chunks.chunks) :
    b.chunks.get? c.name = some c := find?_key h.nodup hc

theorem Paired.kept?_eq {b : Bundle} (h : b.Paired) {touched : IdSet} {c : Chunk}
    (hc : c ∈ b.chunks.chunks) (ht : ∀ id ∈ c.modules, touched.contains id = false) :
    b.kept? touched c = b.rendered.find? (·.name = c.name) := by
  unfold kept?
  rw [if_pos]
  rw [Bool.and_eq_true, Bool.not_eq_true', List.any_eq_false]
  exact ⟨decide_eq_true (h.get?_chunk hc), fun id hid => by rw [ht id hid]; decide⟩

/-- Chunks of which no member was touched keep their files. -/
theorem Paired.renderAll_eq {b : Bundle} (h : b.Paired) {touched : IdSet} (r : Renderer)
    (g : ModuleGraph) (ht : ∀ c ∈ b.chunks.chunks, ∀ id ∈ c.modules, touched.contains id = false) :
    b.renderAll r g touched b.chunks = b.rendered := by
  have hr : (b.rendered.map (·.name)).Nodup := h.names ▸ h.nodup
  -- The chunks are gone through beside their files.
  have key : ∀ (cs : List Chunk) (xs : List RenderedChunk), xs.map (·.name) = cs.map (·.name) →
      (∀ c ∈ cs, c ∈ b.chunks.chunks) → (∀ x ∈ xs, x ∈ b.rendered) →
      cs.map (fun c => (b.kept? touched c).getD (r.renderChunk g b.chunks c)) = xs := by
    intro cs
    induction cs with
    | nil =>
      intro xs hn _ _
      exact (List.map_eq_nil_iff.mp hn).symm
    | cons c cs ih =>
      intro xs hn hc hx
      cases xs with
      | nil => cases hn
      | cons x xs =>
        obtain ⟨he, hn⟩ := List.cons.inj hn
        have hcb := hc c List.mem_cons_self
        have he : x.name = c.name := he
        rw [List.map_cons, h.kept?_eq hcb (ht c hcb), ← he,
          find?_key hr (hx x List.mem_cons_self)]
        exact congrArg (x :: ·) (ih xs hn (fun c h => hc c (List.mem_cons_of_mem _ h))
          fun x h => hx x (List.mem_cons_of_mem _ h))
  exact key _ _ h.names (fun _ h => h) fun _ h => h

/-! ## Chunks and files that are those of a graph -/

/-- The chunks are those of a graph, and each file is rendered from them. -/
structure Fits (b : Bundle) (g : ModuleGraph) (split : SplitOptions) (r : Renderer) : Prop where
  chunks : b.chunks = .partition g split
  rendered : b.rendered = b.chunks.chunks.map (r.renderChunk g b.chunks)

variable {b b' : Bundle} {g h : ModuleGraph} {split : SplitOptions} {r : Renderer}

theorem Fits.of_sameBare (hb : b.Fits g split r) (hs : g.SameBare h) (he : g.entries = h.entries) :
    b.Fits h split r where
  chunks := hb.chunks.trans (ChunkGraph.partition_congr (hs.sameOutline _) he)
  rendered := hb.rendered.trans
    (List.map_congr_left fun _ _ => r.renderChunk_congr (fun id _ => hs id) rfl)

theorem Fits.unique (hb : b.Fits g split r) (hb' : b'.Fits g split r) : b' = b := by
  have hc : b'.chunks = b.chunks := hb'.chunks.trans hb.chunks.symm
  have hr : b'.rendered = b.rendered := by rw [hb.rendered, hb'.rendered, hc]
  cases b
  cases b'
  cases hc
  cases hr
  rfl

theorem entry_of_mem_asyncEntries {t : ModuleId} {n : String}
    (h : (t, n) ∈ Partition.asyncEntries (Partition.chunks g split)) :
    ((ChunkGraph.partition g split).get? n).bind (·.entry) = some t := by
  obtain ⟨c, hc, -, he, rfl⟩ := Partition.mem_asyncEntries.mp h
  have hget : (ChunkGraph.partition g split).get? c.name = some c :=
    find?_key (Partition.names_nodup g split) hc
  rw [hget]
  exact he

/-- A chunk that is formed both times is rendered in the same way, if its members are as they were
and the names of its imports belong to the same modules. -/
theorem renderChunk_eq {c : Chunk}
    (hm : ∀ id ∈ c.modules, (g.get? id).map Module.bare = (h.get? id).map Module.bare)
    (ht : ∀ n ∈ c.dynamicImports, ∃ t, (t, n) ∈ Partition.asyncEntries (Partition.chunks g split) ∧
      (t, n) ∈ Partition.asyncEntries (Partition.chunks h split)) :
    r.renderChunk g (.partition g split) c = r.renderChunk h (.partition h split) c := by
  refine r.renderChunk_congr hm (Render.asyncTable_congr r fun n hn => ?_)
  obtain ⟨t, h₁, h₂⟩ := ht n hn
  rw [entry_of_mem_asyncEntries h₁, entry_of_mem_asyncEntries h₂]

theorem renderChunk_of_grows (hg : g.Grows h) {c : Chunk} (hc : c ∈ Partition.chunks g split)
    (hc' : c ∈ Partition.chunks h split) :
    r.renderChunk g (.partition g split) c = r.renderChunk h (.partition h split) c := by
  refine renderChunk_eq (fun id hid => ?_) (Partition.agree_of_grows hg hc hc')
  obtain ⟨m, hm, hl⟩ := ModuleGraph.isLive_iff.mp
    (((Partition.holds_chunks g split).mem id).mp ⟨c, hc, hid⟩).isLive
  obtain ⟨m', hm', hb⟩ := hg.kept id m hm hl
  rw [hm, hm', Option.map_some, Option.map_some, hb]

theorem Fits.paired (hb : b.Fits g split r) : b.Paired where
  names := by
    rw [hb.rendered, List.map_map]
    rfl
  nodup := by
    rw [hb.chunks]
    exact Partition.names_nodup g split

/-- A file that is kept was rendered from a chunk that no touched module is in. -/
theorem Fits.of_kept? (hb : b.Fits g split r) {touched : IdSet} {c : Chunk} {x : RenderedChunk}
    (hk : b.kept? touched c = some x) : c ∈ b.chunks.chunks ∧
      (∀ id ∈ c.modules, touched.contains id = false) ∧ x = r.renderChunk g b.chunks c := by
  unfold kept? at hk
  split at hk
  next hc =>
    rw [Bool.and_eq_true, decide_eq_true_eq, Bool.not_eq_true', List.any_eq_false] at hc
    have hmem : c ∈ b.chunks.chunks := List.mem_of_find?_eq_some hc.1
    refine ⟨hmem, fun id hid => eq_false_of_ne_true (hc.2 id hid), ?_⟩
    have hx : x ∈ b.chunks.chunks.map (r.renderChunk g b.chunks) :=
      hb.rendered ▸ List.mem_of_find?_eq_some hk
    obtain ⟨c', hc', rfl⟩ := List.mem_map.mp hx
    have hname : (r.renderChunk g b.chunks c').name = c.name := by simpa using List.find?_some hk
    have hname : c'.name = c.name := hname
    rw [List.inj_on_of_nodup_map hb.paired.nodup hc' hmem hname]
  next => cases hk

/-- The file of a chunk that no touched module is in is kept. -/
theorem Fits.kept?_eq (hb : b.Fits g split r) {touched : IdSet} {c : Chunk}
    (hc : c ∈ b.chunks.chunks) (ht : ∀ id ∈ c.modules, touched.contains id = false) :
    b.kept? touched c = some (r.renderChunk g b.chunks c) := by
  have hx : r.renderChunk g b.chunks c ∈ b.rendered :=
    hb.rendered ▸ List.mem_map_of_mem hc
  rw [hb.paired.kept?_eq hc ht]
  exact find?_key (hb.paired.names ▸ hb.paired.nodup) hx

theorem fits_update_empty (g : ModuleGraph) (split : SplitOptions) (r : Renderer) (d : Delta) :
    (update {} g split r d).Fits g split r where
  chunks := if_pos (Bool.or_true _)
  rendered := rfl

/-- The next chunks are those of the new graph, if chunks that are not formed anew are still right. -/
theorem Fits.nextChunks_eq (hb : b.Fits g split r) {d : Delta}
    (hpart : b.mustRepartition d = false →
      ChunkGraph.partition g split = ChunkGraph.partition h split) :
    b.nextChunks h split d = .partition h split := by
  unfold nextChunks
  split
  next => rfl
  next hm => rw [hb.chunks, hpart (eq_false_of_ne_true hm)]

/-- An update has the chunks and files of the new graph, if chunks that are not formed anew are
still right, and so are the files that it keeps. -/
theorem Fits.update (hb : b.Fits g split r) {d : Delta}
    (hpart : b.mustRepartition d = false →
      ChunkGraph.partition g split = ChunkGraph.partition h split)
    (hkept : ∀ c ∈ Partition.chunks g split, c ∈ Partition.chunks h split →
      (∀ id ∈ c.modules, d.touched.contains id = false) →
      r.renderChunk g (.partition g split) c = r.renderChunk h (.partition h split) c) :
    (b.update h split r d).Fits h split r := by
  have hchunks := hb.nextChunks_eq hpart
  refine ⟨hchunks, List.map_congr_left fun c hc => ?_⟩
  cases hk : b.kept? d.touched c with
  | none => rfl
  | some x =>
    obtain ⟨hold, huntouched, rfl⟩ := hb.of_kept? hk
    rw [hchunks] at hc
    rw [hb.chunks] at hold ⊢
    exact (hkept c hold hc huntouched).trans
      (congrArg (r.renderChunk h · c) hchunks.symm)

end Bundle

end Bundler
