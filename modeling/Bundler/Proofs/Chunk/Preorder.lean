import Bundler.Proofs.Chunk.Collect

/-!
# Depth-first preorder

`ModuleGraph.collect` works with a stack on which an id may lie several times, and marks an id when
it takes it from the stack. Here is the search as a recursion over the dependencies, and the proof
that both list the same modules in the same order.
-/

namespace Bundler

namespace ModuleGraph

/-! ## The recursive search -/

/-- What a search comes back with: what it lists, and all that was visited so far. -/
structure Walk (before : List ModuleId) where
  out : List ModuleId
  visited : List ModuleId
  grows : before ⊆ visited

namespace Walk

variable {before : List ModuleId} {id : ModuleId}

/-- Lists an id, then what one search found below it, then what another found behind it. -/
def list (below : Walk (id :: before)) (behind : Walk below.visited) : Walk before :=
  ⟨id :: (below.out ++ behind.out), behind.visited,
    fun _ h => behind.grows (below.grows (List.mem_cons_of_mem _ h))⟩

/-- Marks an id only. -/
def mark (behind : Walk (id :: before)) : Walk before :=
  ⟨behind.out, behind.visited, fun _ h => behind.grows (List.mem_cons_of_mem _ h)⟩

end Walk

theorem unseen_le_of_subset (g : ModuleGraph) {a b : List ModuleId} (h : a ⊆ b) :
    g.unseen b ≤ g.unseen a := by
  unfold unseen
  rw [← List.countP_eq_length_filter, ← List.countP_eq_length_filter]
  apply List.countP_mono_left
  intro x _ hx
  simp only [List.contains_eq_mem, Bool.not_eq_true', decide_eq_false_iff_not] at hx ⊢
  exact fun ha => hx (h ha)

/-- Visits ids one after the other. An id that was visited before is passed over. A live module is
listed, and then what it depends on is visited, before the next id is. Any other id is marked, but
neither listed nor followed. -/
def walk (g : ModuleGraph) (dynamic : Bool) (before ids : List ModuleId) : Walk before :=
  match ids with
  | [] => ⟨[], before, List.Subset.refl _⟩
  | id :: rest =>
    if _seen : id ∈ before then g.walk dynamic before rest
    else
      match _found : (g.get? id).filter (·.isLive) with
      | some m =>
        let below := g.walk dynamic (id :: before) (followed dynamic m)
        below.list (g.walk dynamic below.visited rest)
      | none => (g.walk dynamic (id :: before) rest).mark
termination_by (g.unseen before, ids.length)
decreasing_by
  · exact Prod.Lex.right _ (Nat.lt_succ_self _)
  · have hid := mem_ids_of_get? (Option.filter_eq_some_iff.mp _found).1
    exact Prod.Lex.left _ _ (unseen_cons_lt hid (by simpa using _seen))
  · have hid := mem_ids_of_get? (Option.filter_eq_some_iff.mp _found).1
    have hlt : g.unseen (id :: before) < g.unseen before := unseen_cons_lt hid (by simpa using _seen)
    have hle := g.unseen_le_of_subset below.grows
    exact Prod.Lex.left _ _ (Nat.lt_of_le_of_lt hle hlt)
  · rcases Nat.lt_or_eq_of_le (unseen_cons_le g id before) with h | h
    · exact Prod.Lex.left _ _ h
    · rw [h]
      exact Prod.Lex.right _ (Nat.lt_succ_self _)

/-! ## One order -/

section
variable {g : ModuleGraph} {dynamic : Bool}

theorem Collects.of_filter {ids rest seen out : List ModuleId}
    (h : g.Collects dynamic (ids ++ rest) seen out) :
    g.Collects dynamic (ids.filter (!seen.contains ·) ++ rest) seen out := by
  apply h.congr
  · exact fun _ _ m hm hl => ⟨m, hm, hl, rfl⟩
  · exact fun _ _ _ _ _ _ _ hl => hl
  · exact fun _ _ hl => hl
  · simp [brings, List.filter_append, List.filter_filter]

/-- A stack that goes on with `rest` behind some ids lists what the recursion lists for the ids, and
then what it lists for `rest`, when all that the recursion visited was seen. -/
theorem collects_walk {before ids rest out : List ModuleId}
    (h : g.Collects dynamic rest (g.walk dynamic before ids).visited out) :
    g.Collects dynamic (ids ++ rest) before ((g.walk dynamic before ids).out ++ out) := by
  -- The induction is on the recursive calls; `rest` changes, since the ids behind a module wait on
  -- the stack while what the module leads to is listed.
  fun_induction walk g dynamic before ids generalizing rest out with
  | case1 before => exact h
  | case2 before id ids hs ih => exact .again hs (ih h)
  | case3 before id ids hs m hm below ihBelow =>
    rename_i ihBehind
    obtain ⟨hm, hl⟩ := Option.filter_eq_some_iff.mp hm
    have hall := (ihBelow (ihBehind h)).of_filter
    rw [← List.append_assoc below.out] at hall
    exact .live hs hm hl hall
  | case4 before id ids hs hm ih =>
    apply Collects.dead hs _ (ih h)
    apply eq_false_of_ne_true
    intro hl
    obtain ⟨m, hm', hl⟩ := isLive_iff.mp hl
    exact nomatch hm.symm.trans (Option.filter_eq_some_iff.mpr ⟨hm', hl⟩)

end

theorem collectFrom_eq_walk (g : ModuleGraph) (dynamic : Bool) (stack seen : List ModuleId) :
    g.collectFrom dynamic stack seen = (g.walk dynamic seen stack).out := by
  have h := collects_walk (g := g) (.nil (g.walk dynamic seen stack).visited)
  rw [List.append_nil, List.append_nil] at h
  exact h.eq

/-- A chunk lists what the recursive search lists, in its order; no module comes twice, and each is
one that takes part in chunks. -/
theorem collect_preorder (g : ModuleGraph) (start : ModuleId) (dynamic : Bool) :
    g.collect start dynamic = (g.walk dynamic [] [start]).out ∧
      (g.collect start dynamic).Nodup ∧
      ∀ id ∈ g.collect start dynamic, ∃ m, g.get? id = some m ∧ m.external = false ∧
        m.isLazy = false := by
  refine ⟨g.collectFrom_eq_walk dynamic [start] [], g.collect_nodup start dynamic, ?_⟩
  intro id hid
  obtain ⟨m, hm, hl⟩ := isLive_iff.mp (mem_collect.mp hid).isLive_end
  unfold Module.isLive at hl
  rw [Bool.and_eq_true, Bool.not_eq_true', Bool.not_eq_true'] at hl
  exact ⟨m, hm, hl⟩

end ModuleGraph

end Bundler
