import Bundler.Proofs.Build.Run

/-!
# What every pass keeps

Whatever tasks deliver, in whatever order, and wherever a pass is cancelled: no edge leads to an id
of which nobody takes care (`Pass.Sound`). A pass at rest therefore has no dangling edge.
-/

namespace Bundler

/-- Modules outside the bundle and placeholders have nothing in them. -/
def Module.Hollow (m : Module) : Prop :=
  m.external = true ∨ m.isLazy = true → m.dependencies = [] ∧ m.errors = [] ∧ m.code = ""

/-- What the processing of an id can give: its own module, which is in the bundle and compiled. -/
def Module.IsOutput (id : ModuleId) (m : Module) : Prop :=
  m.id = id ∧ m.external = false ∧ m.isLazy = false

namespace Module

theorem Hollow.of_isOutput {id : ModuleId} {m : Module} (h : IsOutput id m) : m.Hollow := by
  rintro (he | hl)
  · rw [h.2.1] at he; cases he
  · rw [h.2.2] at hl; cases hl

theorem Hollow.setState {m : Module} (h : m.Hollow) {s : ModuleState} (hs : s ≠ .lazy) :
    Hollow { m with state := s } := by
  rintro (he | hl)
  · exact h (.inl he)
  · simp [isLazy, hs] at hl

theorem hollow_outside (id : ModuleId) : (outside id).Hollow := fun _ => ⟨rfl, rfl, rfl⟩

theorem hollow_placeholder (id : ModuleId) : (placeholder id).Hollow := fun _ => ⟨rfl, rfl, rfl⟩

theorem isOutput_failed (id : ModuleId) (errors : List BuildError) :
    IsOutput id (failed id errors) := ⟨rfl, rfl, rfl⟩

end Module

/-- The parts of a graph at rest that a pass keeps up: modules stand under their ids, and those that
were not loaded are hollow. -/
structure ModuleGraph.Regular (g : ModuleGraph) : Prop where
  named : ∀ id m, g.get? id = some m → m.id = id
  hollow : ∀ id m, g.get? id = some m → m.Hollow

namespace ModuleGraph.Regular

variable {g : ModuleGraph}

theorem empty : Regular {} := ⟨fun _ _ h => (nomatch h), fun _ _ h => (nomatch h)⟩

theorem insert (h : g.Regular) {m : Module} (hm : m.Hollow) : (g.insert m).Regular := by
  refine ⟨fun id x hx => ?_, fun id x hx => ?_⟩ <;> rw [get?_insert] at hx <;> split at hx
  · cases hx
    symm
    assumption
  · exact h.named id x hx
  · cases hx
    exact hm
  · exact h.hollow id x hx

theorem setState (h : g.Regular) (id : ModuleId) {s : ModuleState} (hs : s ≠ .lazy) :
    (g.setState id s).Regular := by
  have key : ∀ x m, (g.setState id s).get? x = some m →
      ∃ m', g.get? x = some m' ∧ (m = m' ∨ m = { m' with state := s }) := by
    intro x m hm
    rw [get?_setState] at hm
    split at hm
    · obtain ⟨m', hm', rfl⟩ := Option.map_eq_some_iff.mp hm
      exact ⟨m', hm', .inr rfl⟩
    · exact ⟨m, hm, .inl rfl⟩
  refine ⟨fun x m hm => ?_, fun x m hm => ?_⟩
  · obtain ⟨m', hm', rfl | rfl⟩ := key x m hm
    · exact h.named x m hm'
    · exact h.named x m' hm'
  · obtain ⟨m', hm', rfl | rfl⟩ := key x m hm
    · exact h.hollow x m hm'
    · exact (h.hollow x m' hm').setState hs

theorem markStale (h : g.Regular) (files : FileTree) (path : Path) :
    (g.markStale files path).1.Regular := by
  unfold ModuleGraph.markStale
  dsimp only
  generalize List.filter _ _ = ids
  induction ids generalizing g with
  | nil => exact h
  | cons a ids ih => exact ih (h.setState a (by decide))

end ModuleGraph.Regular

namespace Pass

/-- Every edge leads to an id that is taken care of, and each id for which a task was started is in
the graph or outstanding, except for those in `ended`, whose modules are on their way in. -/
structure Sound (ended : List ModuleId) (p : Pass) : Prop extends p.graph.Regular where
  edges : ∀ id m, p.graph.get? id = some m → ∀ t ∈ m.targets, p.Covers t
  kept : ∀ id ∈ p.visited, p.graph.contains id = true ∨ id ∈ p.outstanding ∨ id ∈ ended

namespace Sound

variable {ended : List ModuleId} {p : Pass}

theorem record (h : p.Sound ended) {m : Module} (hm : m.Hollow) (ht : ∀ t ∈ m.targets, p.Covers t) :
    (p.record m).Sound ended := by
  refine ⟨h.toRegular.insert hm, fun id x hx t hxt => ?_, fun id hid => ?_⟩
  · rw [get?_record] at hx
    split at hx
    · cases hx
      exact (ht t hxt).record m
    · exact (h.edges id x hx t hxt).record m
  · rcases h.kept id hid with hc | ho
    · exact .inl ((contains_record p m id).mpr (.inr hc))
    · exact .inr ho

theorem spawn (h : p.Sound ended) (c : Bool) (id : ModuleId) : (p.spawn c id).Sound ended := by
  have hcov : ∀ x, p.Covers x → (p.spawn c id).Covers x := fun x hx => hx.spawn c id
  cases c with
  | false =>
    refine ⟨h.toRegular.setState id (by decide), fun x m hm t ht => ?_, fun x hx => ?_⟩
    · rw [spawn_false, ModuleGraph.get?_setState] at hm
      split at hm
      · obtain ⟨m', hm', rfl⟩ := Option.map_eq_some_iff.mp hm
        exact hcov t (h.edges x m' hm' t ht)
      · exact hcov t (h.edges x m hm t ht)
    · rw [spawn_false] at hx ⊢
      dsimp only
      rw [ModuleGraph.contains_setState, List.mem_append]
      rcases List.mem_cons.mp hx with rfl | hx
      · exact .inr (.inl (.inr List.mem_cons_self))
      · exact (h.kept x hx).imp_right (Or.imp_left .inl)
  | true =>
    rw [spawn_true] at hcov ⊢
    have hm : (Module.failed id [.load id.text "build cancelled"]).Hollow :=
      .of_isOutput (Module.isOutput_failed _ _)
    refine ⟨h.toRegular.insert hm, fun x m hx t ht => ?_, fun x hx => ?_⟩
    · rw [get?_record] at hx
      split at hx
      · cases hx
        cases ht
      · exact hcov t (h.edges x m hx t ht)
    · rw [contains_record]
      rcases List.mem_cons.mp hx with rfl | hx
      · exact .inl (.inl rfl)
      · exact (h.kept x hx).imp_left .inr

theorem enqueue (h : p.Sound ended) (c : Bool) (id : ModuleId) : (p.enqueue c id).Sound ended :=
  enqueue_keeps (I := Sound ended) h c id fun _ _ => h.spawn c id

theorem reprocess (h : p.Sound ended) (c : Bool) (id : ModuleId) :
    (p.reprocess c id).Sound ended :=
  reprocess_keeps (I := Sound ended) h c id fun _ => h.spawn c id

theorem follow (h : p.Sound ended) (lazyCompilation c : Bool) (d : Dependency) :
    (p.follow lazyCompilation c d).Sound ended :=
  follow_keeps (I := Sound ended) h lazyCompilation c d
    (fun t _ => h.record (Module.hollow_outside t) fun _ ht => nomatch ht)
    (fun t _ _ => h.record (Module.hollow_placeholder t) fun _ ht => nomatch ht)
    fun t _ _ => h.spawn c t

/-- A task that ends is on its way into the graph. -/
theorem takeIn (h : p.Sound []) (id : ModuleId) : (p.takeIn id).Sound [id] := by
  refine ⟨h.toRegular, h.edges, fun x hx => ?_⟩
  rcases h.kept x hx with hc | ho | he
  · exact .inl hc
  · by_cases hxi : x = id
    · exact .inr (.inr (List.mem_singleton.mpr hxi))
    · exact .inr (.inl ((List.mem_erase_of_ne hxi).mpr ho))
  · cases he

theorem accept {m : Module} (h : p.Sound [m.id]) (hm : m.Hollow)
    (ht : ∀ t ∈ m.targets, p.Covers t) : (p.accept m).Sound [] := by
  obtain ⟨hr, he, hk⟩ := h.record hm ht
  refine ⟨hr, he, fun x hx => ?_⟩
  rcases hk x hx with hc | ho | he
  · exact .inl hc
  · exact .inr (.inl ho)
  · exact .inl ((contains_record p m x).mpr (.inl (List.mem_singleton.mp he)))

theorem delivers {r : Rules} {q : Pass} (hr : ∀ id m, r.output id m → m.IsOutput id)
    (h : p.Sound []) (hd : Delivers r p q) : q.Sound [] := by
  obtain ⟨hid, hm, hf⟩ := hd
  have hout := hr _ _ hm
  have hs := hf.keeps (fun c _ d _ s hs => hs.follow r.lazyCompilation c d) (h.takeIn _)
  have hcov := hf.brings (I := fun _ => True) (J := fun (d : Dependency) s => ∀ t, d.target = some t → s.Covers t)
    (fun _ _ _ _ _ _ => trivial)
    (fun c _ d _ s _ t ht => follow_covers s r.lazyCompilation c ht)
    (fun c _ d _ b s _ hb t ht => (hb t ht).follow r.lazyCompilation c d) trivial
  rw [← hout.1] at hs
  refine hs.accept (.of_isOutput hout) fun t ht => ?_
  obtain ⟨d, hd, hdt⟩ := Module.mem_targets.mp ht
  exact hcov d hd t hdt

theorem runs {r : Rules} {q : Pass} (hr : ∀ id m, r.output id m → m.IsOutput id)
    (h : p.Sound []) (hq : Runs r p q) : q.Sound [] := by
  induction hq with
  | refl => exact h
  | tail _ hd ih => exact ih.delivers hr hd

end Sound

/-! ## Entries -/

/-- Every entry leads to an id that is taken care of. -/
def EntriesCovered (p : Pass) : Prop :=
  ∀ name id, p.graph.entries.get? name = some id → p.Covers id

theorem EntriesCovered.of_eq {p q : Pass} (h : p.EntriesCovered)
    (he : q.graph.entries = p.graph.entries) (hc : ∀ id, p.Covers id → q.Covers id) :
    q.EntriesCovered := fun name id hn => hc id (h name id (he ▸ hn))

theorem EntriesCovered.reprocess {p : Pass} (h : p.EntriesCovered) (c : Bool) (id : ModuleId) :
    (p.reprocess c id).EntriesCovered :=
  h.of_eq (entries_reprocess p c id).1 fun _ hx => hx.reprocess c id

theorem seed_sound {ended : List ModuleId} {p : Pass} (h : p.Sound ended) (root : Path) (c : Bool)
    (name specifier : String) (r : Resolution) : (p.seed root c name specifier r).Sound ended := by
  apply seed_keeps root c name specifier r
  · exact fun _ => ⟨⟨h.named, h.hollow⟩, h.edges, h.kept⟩
  · intro id
    have hs : Sound ended { p with graph := p.graph.setEntry name id } :=
      ⟨⟨h.named, h.hollow⟩, h.edges, h.kept⟩
    exact hs.enqueue c id

theorem EntriesCovered.seed {p : Pass} (h : p.EntriesCovered) (root : Path) (c : Bool)
    (name specifier : String) (r : Resolution) :
    (p.seed root c name specifier r).EntriesCovered := by
  apply seed_keeps root c name specifier r
  · intro e n id hn
    have hn' : (p.graph.entries.erase name).get? n = some id := hn
    rw [Table.get?_erase] at hn'
    split at hn'
    · cases hn'
    · exact h n id hn'
  · intro t n id hn
    rw [(entries_enqueue _ c t).1] at hn
    have hn' : (p.graph.entries.insert name t).get? n = some id := hn
    rw [Table.get?_insert] at hn'
    split at hn'
    · cases hn'
      exact enqueue_covers _ c t
    · have hc : Covers { p with graph := p.graph.setEntry name t } id := h n id hn'
      exact hc.enqueue c t

/-! ## Passes at rest -/

/-- A pass from a graph without dangling edges comes to rest without dangling edges. -/
theorem Completes.closed {r : Rules} {root : Path} {g : ModuleGraph} {eager : List ModuleId}
    {seeds : Seeds} {q : Pass} (hr : ∀ id m, r.output id m → m.IsOutput id) (hg : g.Regular)
    (hc : ∀ a b, g.Edge a b → g.contains b = true)
    (he : ∀ name id, g.entries.get? name = some id → g.contains id = true)
    (h : Completes r root g eager seeds q) :
    q.graph.Regular ∧ (∀ a b, q.graph.Edge a b → q.graph.contains b = true) ∧
      ∀ name id, q.graph.entries.get? name = some id → q.graph.contains id = true := by
  obtain ⟨p, ⟨hes, hrs⟩, hruns, hrest⟩ := h
  have h0 : Sound [] { graph := g, eager } :=
    ⟨hg, fun id m hm t ht => .inl (hc id t ⟨m, hm, ht⟩), fun _ h => nomatch h⟩
  have e0 : EntriesCovered { graph := g, eager } := fun name id hn => .inl (he name id hn)
  have h1 := hes.keeps (I := fun p => p.Sound [] ∧ p.EntriesCovered)
    (fun c _ e _ s hs => ⟨seed_sound hs.1 root c _ _ _, hs.2.seed root c _ _ _⟩) ⟨h0, e0⟩
  have h2 := hrs.keeps (I := fun p => p.Sound [] ∧ p.EntriesCovered)
    (fun c _ id _ s hs => ⟨hs.1.reprocess c id, hs.2.reprocess c id⟩) h1
  have h3 := h2.1.runs hr hruns
  have e3 : q.EntriesCovered := h2.2.of_eq hruns.entries_eq.1 fun _ hx => hx.runs hruns
  have hin : ∀ id, q.Covers id → q.graph.contains id = true := by
    rintro id (hid | hid)
    · exact hid
    · rcases h3.kept id hid with hk | hk | hk
      · exact hk
      · rw [hrest] at hk; cases hk
      · cases hk
  refine ⟨h3.toRegular, fun a b hab => ?_, fun name id hn => hin id (e3 name id hn)⟩
  obtain ⟨m, hm, hb⟩ := hab
  exact hin b (h3.edges a m hm b hb)

end Pass

end Bundler
