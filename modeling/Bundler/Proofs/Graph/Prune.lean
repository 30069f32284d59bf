import Bundler.Proofs.Graph.Edits

/-!
# What pruning leaves

Pruning removes the modules that no path from an entry leads to and nothing else: what is kept is as
it was, with the same paths, and the indexes forget what has gone. A second pruning finds nothing.
-/

namespace Bundler

namespace ModuleGraph

/-! ## The indexes -/

theorem edge_remove {g : ModuleGraph} {id a b : ModuleId} :
    (g.remove id).Edge a b ↔ a ≠ id ∧ g.Edge a b := by
  unfold Edge
  rw [get?_remove]
  by_cases h : a = id <;> simp [h]

theorem holds_importers_remove (g : ModuleGraph) (id t x : ModuleId) :
    Index.Holds (g.remove id).importers t x ↔
      Index.Holds g.importers t x ∧ ¬ (x = id ∧ g.Edge id t) := by
  unfold remove Edge
  cases hm : g.get? id with
  | none => simp
  | some m =>
    simp only [Index.holds_unlink, Option.some.injEq, exists_eq_left']
    exact and_comm

/-- Of the importers of an id, those go that are removed and depend on it. -/
theorem holds_importers_foldl_remove (ids : List ModuleId) (g : ModuleGraph) (t x : ModuleId) :
    Index.Holds (ids.foldl remove g).importers t x ↔
      Index.Holds g.importers t x ∧ ¬ (x ∈ ids ∧ g.Edge x t) := by
  induction ids generalizing g with
  | nil => simp
  | cons a ids ih =>
    rw [List.foldl_cons, ih, holds_importers_remove, edge_remove, List.mem_cons]
    by_cases hxa : x = a
    · subst hxa
      simp
    · simp [hxa]

theorem mem_importersOf_prune {g : ModuleGraph} {t x : ModuleId} :
    x ∈ g.prune.1.importersOf t ↔ x ∈ g.importersOf t ∧ ¬ (x ∈ g.prune.2 ∧ g.Edge x t) := by
  rw [mem_importersOf, mem_importersOf]
  exact holds_importers_foldl_remove g.unreachable g t x

theorem importersOf_sorted (g : ModuleGraph) (t : ModuleId) :
    (g.importersOf t).Pairwise fun a b => compare a b = .lt := Table.keys_sorted _

theorem contains_prune {g : ModuleGraph} {id : ModuleId} :
    g.prune.1.contains id = true ↔ g.Reached id ∧ g.contains id = true := by
  simp only [contains_iff, get?_prune_eq_some, exists_and_left]

/-- The importers of an id that are left are those that were not removed. -/
theorem Indexed.importersOf_prune {g : ModuleGraph} (hg : g.Indexed) (t : ModuleId) :
    g.prune.1.importersOf t = (g.importersOf t).filter (!g.prune.2.contains ·) := by
  refine Table.eq_of_sorted (importersOf_sorted _ t) ((importersOf_sorted g t).filter _) fun x => ?_
  rw [mem_importersOf_prune, List.mem_filter]
  refine and_congr_right fun hx => ?_
  obtain ⟨m, hm, ht⟩ := hg.mem_importersOf.mp hx
  have he : g.Edge x t := ⟨m, hm, Module.mem_dependencyIds.mp ht⟩
  simp [he]

theorem Indexed.idsForPath_prune {g : ModuleGraph} (hg : g.Indexed) (p : String) :
    g.prune.1.idsForPath p = (g.idsForPath p).filter (!g.prune.2.contains ·) := by
  refine Table.eq_of_sorted (Table.keys_sorted _) ((Table.keys_sorted _).filter _) fun x => ?_
  have hnew : x ∈ g.prune.1.idsForPath p ↔ _ := hg.prune.mem_idsForPath
  have hold : x ∈ g.idsForPath p ↔ _ := hg.mem_idsForPath
  refine hnew.trans (Iff.trans ?_ List.mem_filter.symm)
  refine Iff.trans ?_ (and_congr_left' hold).symm
  rw [Bool.not_eq_true', List.contains_eq_mem, decide_eq_false_iff_not, mem_prune_snd,
    contains_prune]
  tauto

/-! ## Edges that lead nowhere -/

/-- The order in which such edges are listed. -/
def edgeLe (a b : ModuleId × ModuleId) : Bool :=
  a.1.text < b.1.text || (a.1.text = b.1.text && a.2.text ≤ b.2.text)

theorem edgeLe_iff {a b : ModuleId × ModuleId} :
    edgeLe a b = true ↔ a.1.text < b.1.text ∨ a.1.text = b.1.text ∧ a.2.text ≤ b.2.text := by
  simp [edgeLe]

theorem edgeLe_antisymm {a b : ModuleId × ModuleId} (hab : edgeLe a b = true)
    (hba : edgeLe b a = true) : a = b := by
  rw [edgeLe_iff] at hab hba
  obtain ⟨⟨a₁⟩, ⟨a₂⟩⟩ := a
  obtain ⟨⟨b₁⟩, ⟨b₂⟩⟩ := b
  dsimp only at hab hba
  have h₁ : a₁ = b₁ := by grind
  have h₂ : a₂ = b₂ := by grind
  rw [h₁, h₂]

theorem danglingEdges_sorted (g : ModuleGraph) :
    g.danglingEdges.Pairwise fun a b => edgeLe a b = true := by
  refine @List.pairwise_mergeSort _ edgeLe (fun a b c hab hbc => ?_) (fun a b => ?_) _
  · rw [edgeLe_iff] at *
    grind
  · rw [Bool.or_eq_true, edgeLe_iff, edgeLe_iff]
    grind

theorem modules_prune (g : ModuleGraph) :
    g.prune.1.modules = g.modules.filter fun id _ => !g.prune.2.contains id := by
  refine Table.ext_get? fun id => ?_
  have hget : g.prune.1.modules.get? id = if id ∈ g.prune.2 then none else g.modules.get? id :=
    get?_foldl_remove g.unreachable g id
  rw [hget, Table.get?_filter]
  by_cases h : id ∈ g.prune.2 <;> cases g.modules.get? id <;> simp [h, Option.filter]

/-- A kept module leads to the same missing modules as before. -/
theorem contains_prune_of_edge {g : ModuleGraph} {a b : ModuleId} (ha : a ∉ g.prune.2)
    (he : g.Edge a b) : g.prune.1.contains b = g.contains b := by
  obtain ⟨m, hm, ht⟩ := id he
  have hc : g.contains a = true := contains_iff.mpr ⟨m, hm⟩
  have hr : g.Reached a := by_contra fun hr => ha (mem_prune_snd.mpr ⟨hc, hr⟩)
  rw [Bool.eq_iff_iff, contains_prune]
  exact and_iff_right (hr.step he)

/-- The edges that lead nowhere after pruning are those from before that leave a kept module. -/
theorem danglingEdges_prune (g : ModuleGraph) :
    g.prune.1.danglingEdges = g.danglingEdges.filter (!g.prune.2.contains ·.1) := by
  refine List.Perm.eq_of_pairwise (fun a b _ _ => edgeLe_antisymm) (danglingEdges_sorted _)
    ((danglingEdges_sorted g).filter _) ?_
  refine (List.mergeSort_perm _ _).trans (List.Perm.trans (.of_eq ?_)
    ((List.mergeSort_perm _ _).filter _).symm)
  have hlist : g.prune.1.modules.toList =
      g.modules.toList.filter fun e => !g.prune.2.contains e.1 := by
    rw [modules_prune]
    rfl
  have hflat : ∀ (p : ModuleId × Module → Bool) (f : ModuleId × Module → List (ModuleId × ModuleId))
      (l : List (ModuleId × Module)),
      (l.filter p).flatMap f = l.flatMap fun e => if p e then f e else [] := by
    intro p f l
    induction l with
    | nil => rfl
    | cons e l ih => cases hp : p e <;> simp [hp, ih]
  rw [hlist, hflat, List.filter_flatMap]
  refine List.flatMap_congr fun e he => ?_
  rw [List.filter_map]
  split
  next ha =>
    have ha : e.1 ∉ g.prune.2 := by simpa using ha
    have hid : ∀ b ∈ e.2.targets, g.prune.1.contains b = g.contains b := fun b hb =>
      contains_prune_of_edge ha ⟨e.2, Table.mem_toList.mp he, hb⟩
    rw [List.filter_filter]
    refine congrArg _ (List.filter_congr fun b hb => ?_)
    simp [hid b hb, ha]
  next ha =>
    have ha : e.1 ∈ g.prune.2 := by simpa using ha
    simp [Function.comp_def, ha]

/-! ## The whole -/

/-- `h` is what is left of `g` without the modules that no path from an entry leads to; `gone` are
their ids. -/
structure Swept (g h : ModuleGraph) (gone : List ModuleId) : Prop where
  gone_iff : ∀ id, id ∈ gone ↔ g.contains id = true ∧ ¬ g.Reached id
  sorted : gone.Pairwise fun a b => compare a b = .lt
  removed : ∀ id ∈ gone, h.get? id = none
  kept : ∀ id, id ∉ gone → h.get? id = g.get? id
  entries : h.entries = g.entries
  entryErrors : h.entryErrors = g.entryErrors
  reachable : h.reachable = g.reachable
  danglingEdges : h.danglingEdges = g.danglingEdges.filter (!gone.contains ·.1)
  /-- Of the importers of an id, those have gone that were removed and depend on it. -/
  importers : ∀ t x, x ∈ h.importersOf t ↔ x ∈ g.importersOf t ∧ ¬ (x ∈ gone ∧ g.Edge x t)
  /-- Nothing more would go. -/
  settled : h.prune = (h, [])

theorem reachable_prune (g : ModuleGraph) : g.prune.1.reachable = g.reachable := by
  refine IdSet.ext_contains fun id => ?_
  rw [contains_reachable, contains_reachable, reached_prune]

theorem prune_prune (g : ModuleGraph) : g.prune.1.prune = (g.prune.1, []) := by
  refine prune_eq_self fun id hid => ?_
  rw [reached_prune]
  exact (contains_prune.mp hid).1

theorem swept_prune (g : ModuleGraph) : g.Swept g.prune.1 g.prune.2 where
  gone_iff _ := mem_prune_snd
  sorted := (Table.keys_sorted g.modules).filter _
  removed id hid := (get?_foldl_remove g.unreachable g id).trans (if_pos hid)
  kept id hid := (get?_foldl_remove g.unreachable g id).trans (if_neg hid)
  entries := entries_prune g
  entryErrors := entryErrors_prune g
  reachable := reachable_prune g
  danglingEdges := danglingEdges_prune g
  importers _ _ := mem_importersOf_prune
  settled := prune_prune g

/-- Pruning removes exactly the modules that no path from an entry leads to, tells their ids in
order, and leaves all else as it was; where the indexes are what the modules say, they lose exactly
what was removed. -/
theorem prune_exact (g : ModuleGraph) :
    g.Swept g.prune.1 g.prune.2 ∧
      (g.Indexed →
        (∀ t, g.prune.1.importersOf t = (g.importersOf t).filter (!g.prune.2.contains ·)) ∧
          ∀ p, g.prune.1.idsForPath p = (g.idsForPath p).filter (!g.prune.2.contains ·)) :=
  ⟨swept_prune g, fun hg => ⟨hg.importersOf_prune, hg.idsForPath_prune⟩⟩

/-- An entry `a` and `b` import each other; `o`, that nothing leads to, imports `b`. -/
def orphanGraph : ModuleGraph :=
  let imports (id : ModuleId) (targets : List ModuleId) : Module :=
    { id
      dependencies := targets.map fun t => ⟨t.text, .staticImport, 1, some t, false⟩
      state := .fresh }
  ofEdits [.insert (imports ⟨"a"⟩ [⟨"b"⟩]), .insert (imports ⟨"b"⟩ [⟨"a"⟩, ⟨"gone"⟩]),
    .insert (imports ⟨"o"⟩ [⟨"b"⟩, ⟨"lost"⟩]), .setEntry "main" ⟨"a"⟩]

/-- What the graph holds. -/
theorem orphan_holds : (⟨"o"⟩ ∉ orphanGraph.entries.values ∧ orphanGraph.importersOf ⟨"o"⟩ = []) ∧
    (orphanGraph.entries.get? "main" = some ⟨"a"⟩ ∧ orphanGraph.contains ⟨"o"⟩ = true) ∧
      orphanGraph.importersOf ⟨"b"⟩ = [⟨"a"⟩, ⟨"o"⟩] := by
  decide +kernel

theorem not_reached_orphan : ¬ orphanGraph.Reached ⟨"o"⟩ := by
  rintro ⟨name, e, he, hp⟩
  rcases hp.cases_tail with rfl | ⟨x, -, m, hm, ht⟩
  · have hv : (⟨"o"⟩ : ModuleId) ∈ orphanGraph.entries.values := Table.mem_values.mpr ⟨name, he⟩
    exact absurd hv orphan_holds.1.1
  · have hx : x ∈ orphanGraph.importersOf ⟨"o"⟩ :=
      (kept_ofEdits _).mem_importersOf.mpr ⟨m, hm, Module.mem_dependencyIds.mpr ht⟩
    rw [orphan_holds.1.2] at hx
    cases hx

/-- The importer that nothing leads to is forgotten, and the other one stays. -/
theorem prune_exact_of_orphan :
    orphanGraph.Indexed ∧ orphanGraph.importersOf ⟨"b"⟩ = [⟨"a"⟩, ⟨"o"⟩] ∧
      orphanGraph.prune.1.importersOf ⟨"b"⟩ = [⟨"a"⟩] := by
  have hg : orphanGraph.Indexed := (kept_ofEdits _).toIndexed
  obtain ⟨-, ⟨hentry, hcontains⟩, hold⟩ := orphan_holds
  obtain ⟨hswept, hindexes⟩ := prune_exact orphanGraph
  have ha : (⟨"a"⟩ : ModuleId) ∉ orphanGraph.prune.2 := fun h =>
    ((hswept.gone_iff _).mp h).2 (.entry hentry)
  have ho : (⟨"o"⟩ : ModuleId) ∈ orphanGraph.prune.2 :=
    (hswept.gone_iff _).mpr ⟨hcontains, not_reached_orphan⟩
  refine ⟨hg, hold, ?_⟩
  rw [(hindexes hg).1, hold]
  simp [ha, ho]

end ModuleGraph

end Bundler
