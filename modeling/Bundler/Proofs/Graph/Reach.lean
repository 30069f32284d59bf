import Bundler.Proofs.Graph.Modules
import Mathlib.Logic.Relation

/-!
# Paths in a graph

The marking of `ModuleGraph.reachable` finds exactly the ids on paths from the entries, so pruning
keeps exactly the modules on such paths.
-/

namespace Bundler

namespace ModuleGraph

/-- A module `a` with a dependency, of any kind, on `b`. -/
def Edge (g : ModuleGraph) (a b : ModuleId) : Prop := ∃ m, g.get? a = some m ∧ b ∈ m.targets

/-- A path along edges of every kind. -/
def Leads (g : ModuleGraph) : ModuleId → ModuleId → Prop := Relation.ReflTransGen g.Edge

/-- An id on a path from an entry. -/
def Reached (g : ModuleGraph) (id : ModuleId) : Prop :=
  ∃ name e, g.entries.get? name = some e ∧ g.Leads e id

theorem Reached.entry {g : ModuleGraph} {name : String} {e : ModuleId}
    (h : g.entries.get? name = some e) : g.Reached e := ⟨name, e, h, .refl⟩

theorem Reached.step {g : ModuleGraph} {a b : ModuleId} (h : g.Reached a) (e : g.Edge a b) :
    g.Reached b := by
  obtain ⟨name, r, hr, hp⟩ := h
  exact ⟨name, r, hr, hp.tail e⟩

theorem mem_reachFrom_of_mem_seen {g : ModuleGraph} {stack seen : List ModuleId} {x : ModuleId}
    (h : x ∈ seen) : x ∈ g.reachFrom stack seen := by
  fun_induction reachFrom g stack seen with
  | case1 seen => exact h
  | case2 seen id rest hs ih => exact ih h
  | case3 seen id rest hs m hm ih => exact ih (List.mem_cons_of_mem _ h)
  | case4 seen id rest hs hn ih => exact ih (List.mem_cons_of_mem _ h)

theorem mem_reachFrom_of_mem_stack {g : ModuleGraph} {stack seen : List ModuleId} {x : ModuleId}
    (h : x ∈ stack) : x ∈ g.reachFrom stack seen := by
  fun_induction reachFrom g stack seen with
  | case1 seen => cases h
  | case2 seen id rest hs ih =>
    rcases List.mem_cons.mp h with rfl | h
    · exact mem_reachFrom_of_mem_seen (by simpa using hs)
    · exact ih h
  | case3 seen id rest hs m hm ih =>
    rcases List.mem_cons.mp h with rfl | h
    · exact mem_reachFrom_of_mem_seen List.mem_cons_self
    · exact ih (List.mem_append_right _ h)
  | case4 seen id rest hs hn ih =>
    rcases List.mem_cons.mp h with rfl | h
    · exact mem_reachFrom_of_mem_seen List.mem_cons_self
    · exact ih h

theorem leads_of_mem_reachFrom {g : ModuleGraph} {stack seen : List ModuleId} {x : ModuleId}
    (h : x ∈ g.reachFrom stack seen) : x ∈ seen ∨ ∃ s ∈ stack, g.Leads s x := by
  fun_induction reachFrom g stack seen with
  | case1 seen => exact .inl h
  | case2 seen id rest hs ih =>
    refine (ih h).imp_right ?_
    rintro ⟨s, hs, hp⟩
    exact ⟨s, List.mem_cons_of_mem _ hs, hp⟩
  | case3 seen id rest hs m hm ih =>
    rcases ih h with h | ⟨s, hs, hp⟩
    · rcases List.mem_cons.mp h with rfl | h
      · exact .inr ⟨x, List.mem_cons_self, .refl⟩
      · exact .inl h
    · rcases List.mem_append.mp hs with hs | hs
      · have he : g.Edge id s := ⟨m, hm, (List.mem_filter.mp hs).1⟩
        exact .inr ⟨id, List.mem_cons_self, hp.head he⟩
      · exact .inr ⟨s, List.mem_cons_of_mem _ hs, hp⟩
  | case4 seen id rest hs hn ih =>
    rcases ih h with h | ⟨s, hs, hp⟩
    · rcases List.mem_cons.mp h with rfl | h
      · exact .inr ⟨x, List.mem_cons_self, .refl⟩
      · exact .inl h
    · exact .inr ⟨s, List.mem_cons_of_mem _ hs, hp⟩

/-- The marking misses no edge, if those that leave what was seen lead into it or onto the
stack. -/
theorem reachFrom_closed {g : ModuleGraph} {stack seen : List ModuleId}
    (hc : ∀ a ∈ seen, ∀ b, g.Edge a b → b ∈ seen ∨ b ∈ stack) :
    ∀ a ∈ g.reachFrom stack seen, ∀ b, g.Edge a b → b ∈ g.reachFrom stack seen := by
  -- Each step hands the same condition on to the rest of the stack.
  fun_induction reachFrom g stack seen with
  | case1 seen =>
    intro a ha b he
    simpa using hc a ha b he
  | case2 seen id rest hs ih =>
    refine ih fun a ha b he => ?_
    rcases hc a ha b he with h | h
    · exact .inl h
    · rcases List.mem_cons.mp h with rfl | h
      · exact .inl (by simpa using hs)
      · exact .inr h
  | case3 seen id rest hs m hm ih =>
    refine ih fun a ha b he => ?_
    by_cases hb : b ∈ id :: seen
    · exact .inl hb
    refine .inr (List.mem_append.mpr ?_)
    rcases List.mem_cons.mp ha with rfl | ha
    · obtain ⟨m', hm', ht⟩ := he
      rw [hm] at hm'
      cases hm'
      exact .inl (List.mem_filter.mpr ⟨ht, by simpa using hb⟩)
    · exact .inr (mem_rest (hc a ha b he) hb)
  | case4 seen id rest hs hn ih =>
    refine ih fun a ha b he => ?_
    by_cases hb : b ∈ id :: seen
    · exact .inl hb
    rcases List.mem_cons.mp ha with rfl | ha
    · obtain ⟨m', hm', _⟩ := he
      rw [hn] at hm'
      cases hm'
    · exact .inr (mem_rest (hc a ha b he) hb)

/-- The marked ids are those on paths from the entries. -/
theorem contains_reachable {g : ModuleGraph} {id : ModuleId} :
    g.reachable.contains id = true ↔ g.Reached id := by
  unfold reachable
  rw [IdSet.contains_ofList]
  constructor
  · intro h
    rcases leads_of_mem_reachFrom h with h | ⟨e, he, hp⟩
    · cases h
    · obtain ⟨name, hn⟩ := Table.mem_values.mp he
      exact ⟨name, e, hn, hp⟩
  · rintro ⟨name, e, hn, hp⟩
    have hclosed := @reachFrom_closed g g.entries.values [] (by simp)
    induction hp with
    | refl => exact mem_reachFrom_of_mem_stack (Table.mem_values.mpr ⟨name, hn⟩)
    | tail _ he ih => exact hclosed _ ih _ he

/-! ## Pruning -/

theorem mem_unreachable {g : ModuleGraph} {id : ModuleId} :
    id ∈ g.unreachable ↔ g.contains id = true ∧ ¬ g.Reached id := by
  unfold unreachable
  rw [List.mem_filter, mem_ids, Bool.not_eq_true', ← contains_reachable, Bool.not_eq_true]

/-- Pruning keeps the modules on paths from the entries, as they are. -/
theorem get?_prune (g : ModuleGraph) (id : ModuleId) [Decidable (g.Reached id)] :
    g.prune.1.get? id = if g.Reached id then g.get? id else none := by
  have h := get?_foldl_remove g.unreachable g id
  unfold prune
  rw [h]
  by_cases hr : g.Reached id
  · have : id ∉ g.unreachable := fun hu => (mem_unreachable.mp hu).2 hr
    rw [if_neg this, if_pos hr]
  · rw [if_neg hr]
    split
    next => rfl
    next hu =>
      rw [← contains_eq_false, Bool.eq_false_iff]
      exact fun hc => hu (mem_unreachable.mpr ⟨hc, hr⟩)

theorem get?_prune_of_reached {g : ModuleGraph} {id : ModuleId} (h : g.Reached id) :
    g.prune.1.get? id = g.get? id := by
  classical
  rw [get?_prune, if_pos h]

theorem get?_prune_eq_some {g : ModuleGraph} {id : ModuleId} {m : Module} :
    g.prune.1.get? id = some m ↔ g.Reached id ∧ g.get? id = some m := by
  classical
  rw [get?_prune]
  by_cases h : g.Reached id <;> simp [h]

@[simp] theorem entries_prune (g : ModuleGraph) : g.prune.1.entries = g.entries :=
  entries_foldl_remove _ g

@[simp] theorem entryErrors_prune (g : ModuleGraph) : g.prune.1.entryErrors = g.entryErrors :=
  entryErrors_foldl_remove _ g

theorem mem_prune_snd {g : ModuleGraph} {id : ModuleId} :
    id ∈ g.prune.2 ↔ g.contains id = true ∧ ¬ g.Reached id := mem_unreachable

/-- Nothing is pruned from a graph in which entries lead to all modules. -/
theorem prune_eq_self {g : ModuleGraph}
    (h : ∀ id, g.contains id = true → g.Reached id) : g.prune = (g, []) := by
  have hnone : g.unreachable = [] := by
    rw [List.eq_nil_iff_forall_not_mem]
    intro id hid
    obtain ⟨hc, hr⟩ := mem_unreachable.mp hid
    exact hr (h id hc)
  simp only [prune, hnone, List.foldl_nil]

theorem reached_of_prune {g : ModuleGraph} (h : g.prune.2 = []) {id : ModuleId}
    (hid : g.contains id = true) : g.Reached id := by
  by_contra hr
  exact List.ne_nil_of_mem (mem_prune_snd.mpr ⟨hid, hr⟩) h

/-! ## The graph at the end of a pass -/

theorem get?_settle_prune {g : ModuleGraph} {id : ModuleId} {m : Module} :
    g.prune.1.settle.get? id = some m ↔ g.Reached id ∧ ∃ m', g.get? id = some m' ∧ m'.settled = m := by
  rw [get?_settle, Option.map_eq_some_iff]
  simp only [get?_prune_eq_some, and_assoc, exists_and_left]

theorem contains_settle_prune {g : ModuleGraph} {id : ModuleId} :
    g.prune.1.settle.contains id = true ↔ g.Reached id ∧ g.contains id = true := by
  simp only [contains_iff, get?_settle_prune, exists_and_left]
  exact and_congr_right fun _ => ⟨fun ⟨_, m, hm, _⟩ => ⟨m, hm⟩, fun ⟨m, hm⟩ => ⟨_, m, hm, rfl⟩⟩

/-! ## Paths and changes -/

/-- Paths from entries stay through a change that keeps entries, and the targets of modules on
such paths. -/
theorem Reached.mono {g h : ModuleGraph} (he : h.entries = g.entries)
    (hm : ∀ id m, g.Reached id → g.get? id = some m →
      ∃ m', h.get? id = some m' ∧ ∀ t ∈ m.targets, t ∈ m'.targets)
    {id : ModuleId} (hr : g.Reached id) : h.Reached id := by
  obtain ⟨name, e, hn, hp⟩ := hr
  induction hp with
  | refl => exact ⟨name, e, by rw [he, hn], .refl⟩
  | @tail a b hab hb ih =>
    obtain ⟨m, hma, hbm⟩ := hb
    obtain ⟨m', hm', hsub⟩ := hm a m ⟨name, e, hn, hab⟩ hma
    exact ih.step ⟨m', hm', hsub b hbm⟩

theorem reached_prune {g : ModuleGraph} {id : ModuleId} : g.prune.1.Reached id ↔ g.Reached id := by
  constructor
  · refine Reached.mono (entries_prune g).symm fun a m _ hm => ?_
    exact ⟨m, (get?_prune_eq_some.mp hm).2, fun _ h => h⟩
  · refine Reached.mono (entries_prune g) fun a m hr hm => ?_
    exact ⟨m, get?_prune_eq_some.mpr ⟨hr, hm⟩, fun _ h => h⟩

theorem reached_settle {g : ModuleGraph} {id : ModuleId} : g.settle.Reached id ↔ g.Reached id := by
  constructor
  · refine Reached.mono (entries_settle g).symm fun a m _ hm => ?_
    rw [get?_settle] at hm
    obtain ⟨m', hm', rfl⟩ := Option.map_eq_some_iff.mp hm
    exact ⟨m', hm', by simp⟩
  · refine Reached.mono (entries_settle g) fun a m _ hm => ?_
    exact ⟨m.settled, by rw [get?_settle, hm]; rfl, by simp⟩

/-! ## Dangling edges -/

theorem mem_danglingEdges {g : ModuleGraph} {e : ModuleId × ModuleId} :
    e ∈ g.danglingEdges ↔ g.Edge e.1 e.2 ∧ g.contains e.2 = false := by
  obtain ⟨a, b⟩ := e
  unfold danglingEdges Edge
  dsimp only
  rw [List.mem_mergeSort, List.mem_flatMap]
  constructor
  · rintro ⟨⟨id, m⟩, hm, hb⟩
    obtain ⟨t, ht, he⟩ := List.mem_map.mp hb
    obtain ⟨ht, hc⟩ := List.mem_filter.mp ht
    cases he
    exact ⟨⟨m, Table.mem_toList.mp hm, ht⟩, by simpa using hc⟩
  · rintro ⟨⟨m, hm, ht⟩, hc⟩
    refine ⟨(a, m), Table.mem_toList.mpr hm, List.mem_map.mpr ⟨b, List.mem_filter.mpr ⟨ht, ?_⟩, rfl⟩⟩
    simpa using hc

theorem danglingEdges_eq_nil {g : ModuleGraph} :
    g.danglingEdges = [] ↔ ∀ a b, g.Edge a b → g.contains b = true := by
  rw [List.eq_nil_iff_forall_not_mem]
  constructor
  · intro h a b he
    have := h (a, b)
    rw [mem_danglingEdges] at this
    by_contra hc
    exact this ⟨he, by simpa using hc⟩
  · rintro h ⟨a, b⟩ he
    obtain ⟨he, hc⟩ := mem_danglingEdges.mp he
    rw [h a b he] at hc
    cases hc

end ModuleGraph

end Bundler
