import Bundler.Manifest
import Bundler.Proofs.Chunk.References
import Bundler.Proofs.Graph.Reach

/-!
# What a result lists

A result is put together from a graph, chunks and files that were not made at once. It hangs together
when every id and every name in it leads to something that it lists.
-/

namespace Bundler

/-! ## Keys -/

theorem filter_key {α : Type} {key : α → String} {l : List α} (h : (l.map key).Nodup) {a : α}
    (ha : a ∈ l) : l.filter (key · = key a) = [a] := by
  induction l with
  | nil => cases ha
  | cons b l ih =>
    rw [List.map_cons, List.nodup_cons] at h
    rcases List.mem_cons.mp ha with rfl | ha
    · rw [List.filter_cons_of_pos (by simp), List.filter_eq_nil_iff.mpr]
      intro x hx he
      exact h.1 (of_decide_eq_true he ▸ List.mem_map_of_mem hx)
    · have hne : key b ≠ key a := fun e => h.1 (e ▸ List.mem_map_of_mem ha)
      rw [List.filter_cons_of_neg (by simpa using hne)]
      exact ih h.2 ha

namespace BuildResult

section
variable {α : Type} {key : α → String} {k : String} {l : List α} {a : α}

/-- What stands before an element of a sorted list has a smaller key, and what stands behind it has
a greater one. -/
theorem cases_of_drop (h : l.Pairwise fun x y => compare (key x) (key y) = .lt) {n : Nat} {b : α}
    {after : List α} (hd : l.drop n = b :: after) (ha : a ∈ l) :
    a ∈ l.take n ∧ compare (key a) (key b) = .lt ∨ a = b ∨
      a ∈ after ∧ compare (key b) (key a) = .lt := by
  rw [← l.take_append_drop n, hd] at ha h
  rw [List.pairwise_append, List.pairwise_cons] at h
  obtain ⟨-, ⟨hb, -⟩, hcross⟩ := h
  rcases List.mem_append.mp ha with ha | ha
  · exact .inl ⟨ha, hcross a ha b List.mem_cons_self⟩
  · exact .inr ((List.mem_cons.mp ha).imp_right fun ha => ⟨ha, hb a ha⟩)

/-- Halving finds what is there, if the keys stand in order. -/
theorem bisect_eq_some (h : l.Pairwise fun x y => compare (key x) (key y) = .lt) :
    bisect key k l = some a ↔ a ∈ l ∧ key a = k := by
  have hne : ∀ {x y : String}, compare x y = .lt → x ≠ y := fun hlt he =>
    Table.compare_self_ne_lt _ (he ▸ hlt)
  fun_induction bisect key k l with
  | case1 l hd =>
    have hlen := congrArg List.length hd
    rw [List.length_drop, List.length_nil] at hlen
    have hnil : l = [] := List.length_eq_zero_iff.mp (by omega)
    simp [hnil]
  | case2 l b after hd hlt ih =>
    have hsub : (b :: after).Sublist l := hd ▸ List.drop_sublist ..
    refine (ih (h.sublist (List.sublist_of_cons_sublist hsub))).trans ?_
    refine ⟨fun ha => ⟨hsub.subset (List.mem_cons_of_mem _ ha.1), ha.2⟩, ?_⟩
    rintro ⟨ha, rfl⟩
    rcases cases_of_drop h hd ha with ⟨-, hab⟩ | rfl | ⟨ha, -⟩
    · exact absurd rfl (hne (Std.TransCmp.lt_trans hab hlt))
    · exact absurd rfl (hne hlt)
    · exact ⟨ha, rfl⟩
  | case3 l b after hd heq =>
    have hsub : (b :: after).Sublist l := hd ▸ List.drop_sublist ..
    obtain rfl := Table.compare_eq_iff.mp heq
    rw [Option.some.injEq]
    constructor
    · rintro rfl
      exact ⟨hsub.subset List.mem_cons_self, rfl⟩
    · rintro ⟨ha, he⟩
      rcases cases_of_drop h hd ha with ⟨-, hab⟩ | rfl | ⟨-, hba⟩
      · exact absurd he (hne hab)
      · rfl
      · exact absurd he.symm (hne hba)
  | case4 l b after hd hgt ih =>
    have hlt := Std.OrientedCmp.gt_iff_lt.mp hgt
    refine (ih (h.sublist (List.take_sublist ..))).trans ?_
    refine ⟨fun ha => ⟨List.mem_of_mem_take ha.1, ha.2⟩, ?_⟩
    rintro ⟨ha, rfl⟩
    rcases cases_of_drop h hd ha with ⟨ha, -⟩ | rfl | ⟨-, hba⟩
    · exact ⟨ha, rfl⟩
    · exact absurd rfl (hne hlt)
    · exact absurd rfl (hne (Std.TransCmp.lt_trans hlt hba))

end

end BuildResult

/-! ## Chunks and their graph -/

/-- What chunks tell of is there: their members are live, the modules that they start from are in
the graph, and the chunks that they name are among them. -/
structure ModuleGraph.Backs (g : ModuleGraph) (cs : List Chunk) : Prop where
  names : (cs.map (·.name)).Nodup
  starts : ∀ c ∈ cs, ∀ id, c.entry = some id → g.contains id = true
  members : ∀ c ∈ cs, ∀ id ∈ c.modules, g.isLive id = true
  named : ∀ c ∈ cs, ∀ n ∈ c.references ++ c.dynamicImports, ∃ b ∈ cs, b.name = n

namespace ModuleGraph

variable {g : ModuleGraph}

theorem Backs.mono {h : ModuleGraph} {cs : List Chunk} (hb : g.Backs cs)
    (hc : ∀ id, g.contains id = true → h.contains id = true)
    (hl : ∀ id, g.isLive id = true → h.isLive id = true) : h.Backs cs :=
  ⟨hb.names, fun c hm id he => hc id (hb.starts c hm id he),
    fun c hm id hid => hl id (hb.members c hm id hid), hb.named⟩

end ModuleGraph

namespace Partition

variable {g : ModuleGraph}

theorem contains_of_start (he : ∀ name id, g.entries.get? name = some id → g.contains id = true)
    (o : SplitOptions) :
    ∀ c ∈ chunks g o, ∀ id, c.entry = some id → g.contains id = true := by
  have hentry : ∀ dynamic, ∀ c ∈ g.entries.toList.map (entryChunk g dynamic), ∀ id,
      c.entry = some id → g.contains id = true := by
    intro dynamic c hc id hid
    obtain ⟨e, hmem, rfl⟩ := List.mem_map.mp hc
    cases hid
    exact he e.1 e.2 (Table.mem_toList.mp hmem)
  refine chunks_keep (P := fun cs => ∀ c ∈ cs, ∀ id, c.entry = some id → g.contains id = true)
    (hentry true) ?_ (fun group cs claimed h c hc id hid => ?_) o
  · obtain ⟨made, hmade, hplain, -, -⟩ := splitChunks_spec g
    intro c hc id hid
    have hc : plain c ∈ (g.entries.toList.map (entryChunk g false) ++ made).map plain :=
      hplain ▸ List.mem_map_of_mem hc
    obtain ⟨c', hc', hp⟩ := List.mem_map.mp hc
    have hid : c'.entry = some id := (congrArg Chunk.entry hp).trans hid
    rcases List.mem_append.mp hc' with hc' | hc'
    · exact hentry false c' hc' id hid
    · obtain ⟨t, hl, ht⟩ := hmade c' hc'
      rw [ht] at hid
      cases hid
      exact ModuleGraph.contains_of_isLive hl
  · rcases mem_regroup hc with ⟨c', hc', rfl⟩ | rfl <;> rw [entry_passOn] at hid
    · exact h c' hc' id hid
    · cases hid

theorem exists_named {o : SplitOptions} {c : Chunk} (hc : c ∈ chunks g o) {n : String}
    (hn : n ∈ c.references ++ c.dynamicImports) : ∃ b ∈ chunks g o, b.name = n := by
  rcases List.mem_append.mp hn with hn | hn
  · obtain ⟨codeSplitting, groups⟩ := o
    cases codeSplitting with
    | true =>
      obtain ⟨_, h⟩ := runnable_chunks g groups
      exact h.named c hc n hn
    | false =>
      obtain ⟨e, -, rfl⟩ := List.mem_map.mp hc
      cases hn
  · obtain ⟨t, ht⟩ := exists_of_import hc hn
    obtain ⟨b, hb, -, -, he⟩ := mem_asyncEntries.mp ht
    exact ⟨b, hb, he⟩

theorem backs_chunks (he : ∀ name id, g.entries.get? name = some id → g.contains id = true)
    (o : SplitOptions) : g.Backs (chunks g o) where
  names := names_nodup g o
  starts := contains_of_start he o
  members c hc id hid := (((holds_chunks g o).mem id).mp ⟨c, hc, hid⟩).isLive
  named _ hc _ hn := exists_named hc hn

end Partition

/-! ## Results -/

namespace BuildResult

def Lists (r : BuildResult) (id : ModuleId) : Prop := ∃ m ∈ r.modules, m.id = id

/-- Everything that a result tells of is listed in it, once and in order, and it is successful if
nothing went wrong: for an entry, of which the errors are given, or in a module. -/
structure Integral (r : BuildResult) (entryErrors : Table String BuildError) : Prop where
  sorted : r.modules.Pairwise fun a b => compare a.id b.id = .lt
  found : ∀ id m, r.module? id = some m ↔ m ∈ r.modules ∧ m.id.text = id
  entries : ∀ name id, r.entries.get? name = some id → r.Lists id
  starts : ∀ c ∈ r.chunks, ∀ id, c.entry = some id → r.Lists id
  members : ∀ c ∈ r.chunks, ∀ id ∈ c.modules,
    ∃ m ∈ r.modules, m.id = id ∧ m.external = false ∧ m.state ≠ .lazy
  dependencies : ∀ m ∈ r.modules, ∀ id ∈ m.dependencies, r.Lists id
  named : ∀ c ∈ r.chunks, ∀ n ∈ c.references ++ c.dynamicImports,
    ∃ b, r.chunks.filter (·.name = n) = [b]
  files : ∀ c ∈ r.chunks, ∀ f ∈ c.files, ∃ o ∈ r.outputs, o.fileName = f
  success : r.success = true ↔ entryErrors.isEmpty = true ∧ ∀ m ∈ r.modules, m.errors = []

variable {g : ModuleGraph} {chunks : ChunkGraph} {rendered : List RenderedChunk}

theorem mem_modules_assemble {m : ModuleInfo} : m ∈ (assemble g chunks rendered).modules ↔
    ∃ id x, g.get? id = some x ∧ m = moduleInfo (id, x) := by
  have hmem : m ∈ (assemble g chunks rendered).modules ↔
      ∃ e ∈ g.modules.toList, moduleInfo e = m := List.mem_map
  rw [hmem]
  constructor
  · rintro ⟨e, he, rfl⟩
    exact ⟨e.1, e.2, Table.mem_toList.mp he, rfl⟩
  · rintro ⟨id, x, hx, rfl⟩
    exact ⟨(id, x), Table.mem_toList.mpr hx, rfl⟩

theorem lists_assemble {id : ModuleId} :
    (assemble g chunks rendered).Lists id ↔ g.contains id = true := by
  rw [ModuleGraph.contains_iff]
  constructor
  · rintro ⟨m, hm, rfl⟩
    obtain ⟨id, x, hx, rfl⟩ := mem_modules_assemble.mp hm
    exact ⟨x, hx⟩
  · rintro ⟨x, hx⟩
    exact ⟨_, mem_modules_assemble.mpr ⟨id, x, hx, rfl⟩, rfl⟩

theorem modules_sorted (g : ModuleGraph) (chunks : ChunkGraph) (rendered : List RenderedChunk) :
    (assemble g chunks rendered).modules.Pairwise fun a b => compare a.id b.id = .lt :=
  List.pairwise_map.mpr g.modules.sorted

theorem names_assemble (g : ModuleGraph) (chunks : ChunkGraph) (rendered : List RenderedChunk) :
    (assemble g chunks rendered).chunks.map (·.name) = chunks.chunks.map (·.name) := by
  unfold assemble
  dsimp only
  rw [List.map_map]
  rfl

theorem mem_outputs_of_chunkInfo {c : Chunk} {f : String} (hf : f ∈ (chunkInfo rendered c).files) :
    ∃ o ∈ (assemble g chunks rendered).outputs, o.fileName = f := by
  have hfiles : (chunkInfo rendered c).files =
      ((rendered.find? (·.name = c.name)).map fun r => r.files.map (·.fileName)).getD [] := rfl
  rw [hfiles] at hf
  cases hr : rendered.find? (·.name = c.name) with
  | none =>
    rw [hr] at hf
    cases hf
  | some r =>
    rw [hr] at hf
    obtain ⟨o, ho, rfl⟩ := List.mem_map.mp hf
    exact ⟨o, List.mem_flatMap.mpr ⟨r, List.mem_of_find?_eq_some hr, ho⟩, rfl⟩

theorem success_assemble : (assemble g chunks rendered).success = true ↔
    g.entryErrors.isEmpty = true ∧ ∀ m ∈ (assemble g chunks rendered).modules, m.errors = [] := by
  have hsuccess : (assemble g chunks rendered).success =
      (g.entryErrors.values.map (·.diagnostic none) ++
        (assemble g chunks rendered).modules.flatMap (·.errors)).isEmpty := rfl
  have hvalues : g.entryErrors.values = [] ↔ g.entryErrors.isEmpty = true := by
    unfold Table.values Table.isEmpty
    rw [List.map_eq_nil_iff, List.isEmpty_iff]
  rw [hsuccess, List.isEmpty_iff, List.append_eq_nil_iff, List.map_eq_nil_iff,
    List.flatMap_eq_nil_iff, hvalues]

/-- A result is integral if no edge of its graph dangles, its entries have modules, and the graph
backs its chunks. -/
theorem integral_assemble (hd : g.danglingEdges = [])
    (he : ∀ name id, g.entries.get? name = some id → g.contains id = true)
    (hb : g.Backs chunks.chunks) : (assemble g chunks rendered).Integral g.entryErrors := by
  have hchunk : ∀ c ∈ (assemble g chunks rendered).chunks,
      ∃ c' ∈ chunks.chunks, c = chunkInfo rendered c' := fun c hc => by
    obtain ⟨c', hc', rfl⟩ := List.mem_map.mp hc
    exact ⟨c', hc', rfl⟩
  refine ⟨modules_sorted g chunks rendered, fun id m => ?_, fun name id hn => ?_,
    fun c hc id hid => ?_, fun c hc id hid => ?_, fun m hm id hid => ?_, fun c hc n hn => ?_,
    fun c hc f hf => ?_, success_assemble⟩
  · exact bisect_eq_some (modules_sorted g chunks rendered)
  · exact lists_assemble.mpr (he name id hn)
  · obtain ⟨c', hc', rfl⟩ := hchunk c hc
    exact lists_assemble.mpr (hb.starts c' hc' id hid)
  · obtain ⟨c', hc', rfl⟩ := hchunk c hc
    obtain ⟨x, hx, hl⟩ := ModuleGraph.isLive_iff.mp (hb.members c' hc' id hid)
    obtain ⟨hext, hlazy⟩ := Module.isLive_iff.mp hl
    exact ⟨_, mem_modules_assemble.mpr ⟨id, x, hx, rfl⟩, rfl, hext, of_decide_eq_false hlazy⟩
  · obtain ⟨a, x, hx, rfl⟩ := mem_modules_assemble.mp hm
    have hedge : g.Edge a id := ⟨x, hx, Module.mem_dependencyIds.mp hid⟩
    exact lists_assemble.mpr (ModuleGraph.danglingEdges_eq_nil.mp hd a id hedge)
  · obtain ⟨c', hc', rfl⟩ := hchunk c hc
    obtain ⟨b, hmem, rfl⟩ := hb.named c' hc' n hn
    have hnames : ((assemble g chunks rendered).chunks.map (·.name)).Nodup := by
      rw [names_assemble]
      exact hb.names
    exact ⟨_, filter_key (a := chunkInfo rendered b) hnames (List.mem_map_of_mem hmem)⟩
  · obtain ⟨c', hc', rfl⟩ := hchunk c hc
    exact mem_outputs_of_chunkInfo hf

end BuildResult

end Bundler
