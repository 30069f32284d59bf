import Bundler.Proofs.Build.Mirror

/-!
# Passes that repeat what is there

A pass that delivers what the graph holds already, but for errors, changes nothing of what chunks
and files are formed from.
-/

namespace Bundler

namespace Pass

/-- Every needed id is loaded at the start, delivers what is there, and leads to what is there. -/
structure Plan.Repeats (P : Plan) (output : ModuleId → Module → Prop) : Prop where
  live : ∀ id, P.Needed id → ∃ m, P.graph.get? id = some m ∧ m.isLazy = false
  same : ∀ id m m', P.Needed id → P.graph.get? id = some m → output id m' → m'.bare = m.bare
  contained : ∀ id, P.Needed id → ∀ d ∈ P.dependencies id, ∀ t, d.target = some t →
    P.graph.contains t = true

/-- Nothing has changed but errors and states. -/
structure Still (P : Plan) (p : Pass) : Prop where
  eager : p.eager = P.eager
  graph : P.graph.SameBare p.graph
  topology : p.delta.topologyChanged = false
  size : p.delta.sizeChanged = false
  touched : ∀ id, p.delta.touched.contains id = false

theorem Plan.Repeats.not_open {P : Plan} {output : ModuleId → Module → Prop} (h : P.Repeats output)
    {id : ModuleId} (hn : P.Open id → P.Needed id) :
    ∃ m, P.graph.get? id = some m ∧ m.isLazy = false := by
  by_contra hno
  have ho : P.Open id := fun m hm => by
    by_contra hl
    exact hno ⟨m, hm, eq_false_of_ne_true hl⟩
  exact hno (h.live id (hn ho))

theorem compare_of_bare (d : Delta) {m prev : Module} (h : m.bare = prev.bare) :
    compare d m (some prev) = d := by
  have hdeps : prev.dependencyIds = m.dependencyIds := by
    unfold Module.dependencyIds Module.targets
    rw [Module.dependencies_of_bare h]
  have hfp : prev.fingerprint = m.fingerprint := congrArg (·.fingerprint) h.symm
  have hsize : prev.size = m.size := congrArg (·.size) h.symm
  simp [compare, hdeps, Module.isLazy_of_bare h, hfp, hsize]

namespace Still

variable {P : Plan} {r : Rules} {p q : Pass}

theorem new (P : Plan) : Still P { graph := P.graph, eager := P.eager } :=
  ⟨rfl, fun _ => rfl, rfl, rfl, fun _ => rfl⟩

/-- A task for a loaded id changes its state only. -/
theorem spawn (h : p.Still P) {id : ModuleId} {m : Module} (hm : P.graph.get? id = some m)
    (hl : m.isLazy = false) : (p.spawn false id).Still P := by
  refine ⟨h.eager, fun x => ?_, h.topology, h.size, h.touched⟩
  have hx := h.graph x
  rw [hx, spawn_false, ModuleGraph.get?_setState]
  split
  next he =>
    subst he
    obtain ⟨m', hm', hb⟩ := h.graph.get? hm
    have hl' : m'.isLazy = false := Module.isLazy_of_bare hb ▸ hl
    rw [hm']
    simp only [Option.map_some, Option.some.injEq]
    unfold Module.bare
    rw [hl']
    simp [Module.isLazy]
  next => rfl

theorem enqueue_eq (h : p.Still P) {id : ModuleId} {m : Module} (hm : P.graph.get? id = some m)
    (hl : m.isLazy = false) : p.enqueue false id = p := by
  obtain ⟨m', hm', hb⟩ := h.graph.get? hm
  have hl' : ¬ m'.isLazy = true := by rw [← Module.isLazy_of_bare hb, hl]; decide
  unfold enqueue
  rw [hm']
  dsimp only
  rw [if_neg hl', ite_self]

theorem reprocess {output : ModuleId → Module → Prop} (hr : P.Repeats output) (h : p.Still P)
    {id : ModuleId} (hid : id ∈ P.seeds.reprocessed) : (p.reprocess false id).Still P := by
  obtain ⟨m, hm, hl⟩ := hr.live id (.reprocessed hid)
  exact reprocess_keeps (I := Still P) h false id fun _ => h.spawn hm hl

theorem seed {output : ModuleId → Module → Prop} (hr : P.Repeats output) (h : p.Still P)
    (root : Path) {e : (String × String) × Resolution} (he : e ∈ P.seeds.entries) :
    (p.seed root false e.1.1 e.1.2 e.2).Still P := by
  have hsame : ∀ g : ModuleGraph, (∀ id, g.get? id = p.graph.get? id) →
      Still P { p with graph := g } := fun g hg =>
    ⟨h.eager, fun id => (h.graph id).trans (congrArg (Option.map Module.bare) (hg id).symm),
      h.topology, h.size, h.touched⟩
  unfold Pass.seed
  split
  next t ht =>
    split
    next => exact hsame _ fun _ => rfl
    next hx =>
      obtain ⟨m, hm, hl⟩ := hr.not_open fun ho => .entry he ht (by simpa using hx) ho
      have hs := hsame (p.graph.setEntry e.1.1 t.id) fun _ => rfl
      rw [hs.enqueue_eq hm hl]
      exact hs
  next => exact hsame _ fun _ => rfl

theorem follow_eq {output : ModuleId → Module → Prop} (hr : P.Repeats output) (h : p.Still P)
    {k : ModuleId} (hk : P.Needed k) {d : Dependency} (hd : d ∈ P.dependencies k) :
    p.follow P.lazyCompilation false d = p := by
  unfold Pass.follow
  split
  next => rfl
  next t ht =>
    have hc : p.graph.contains t = true := by
      obtain ⟨m, hm⟩ := ModuleGraph.contains_iff.mp (hr.contained k hk d hd t ht)
      obtain ⟨m', hm', -⟩ := h.graph.get? hm
      exact ModuleGraph.contains_iff.mpr ⟨m', hm'⟩
    rw [hc, h.eager]
    split
    next => rfl
    next hx =>
      split
      next => rfl
      next hl =>
        have hw : P.Wants d t := ⟨ht, by simpa using hx, eq_false_of_ne_true hl⟩
        obtain ⟨m, hm, hl⟩ := hr.not_open fun ho => .dependency hk hd hw ho
        exact h.enqueue_eq hm hl

theorem accept {output : ModuleId → Module → Prop} (hr : P.Repeats output) (h : p.Still P)
    {m : Module} (hn : P.Needed m.id) (hm : output m.id m) : (p.accept m).Still P := by
  obtain ⟨m₀, hm₀, -⟩ := hr.live m.id hn
  have hb := hr.same m.id m₀ m hn hm₀ hm
  obtain ⟨prev, hprev, hb'⟩ := h.graph.get? hm₀
  have hdelta : (p.accept m).delta =
      { p.delta with processed := p.delta.processed ++ [m.id] } := by
    show compare _ m (p.graph.get? m.id) = _
    rw [hprev]
    exact compare_of_bare _ (hb.trans hb')
  refine ⟨h.eager, fun x => ?_, by rw [hdelta]; exact h.topology, by rw [hdelta]; exact h.size,
    fun x => by rw [hdelta]; exact h.touched x⟩
  rw [get?_accept]
  split
  next he =>
    subst he
    rw [hm₀]
    exact congrArg some hb.symm
  next => exact h.graph x

theorem delivers (hb : P.Binds r) (hr : P.Repeats r.output) (h : p.Still P)
    (ha : p.Advanced P r.output []) (hd : Delivers r p q) : q.Still P := by
  cases hd with
  | @intro s id m hid hm hf =>
    obtain rfl := hb.id id m hm
    have hn : P.Needed m.id := ha.needed m.id (ha.started m.id hid)
    unfold Follows at hf
    rw [hb.dependencies m.id m hm, hb.lazyCompilation] at hf
    have hs : s.Still P := by
      refine hf.keeps (I := Still P) (fun c hc d hd s hs => ?_)
        ⟨h.eager, h.graph, h.topology, h.size, h.touched⟩
      rw [hb.seen c hc, hs.follow_eq hr hn hd]
      exact hs
    exact hs.accept hr hn hm

theorem runs (hb : P.Binds r) (hr : P.Repeats r.output) (h : p.Still P)
    (ha : p.Advanced P r.output []) (hq : Runs r p q) : q.Still P := by
  induction hq with
  | refl => exact h
  | tail hruns hd ih => exact ih.delivers hb hr (ha.runs hb hruns) hd

/-- A pass that repeats what is there ends with what was there. -/
theorem begins {root : Path} (hb : P.Binds r) (hr : P.Repeats r.output)
    (h : Begins r root P.seeds { graph := P.graph, eager := P.eager } p) : p.Still P := by
  cases h with
  | intro he hre =>
    have hs := he.keeps (I := Still P)
      (fun c hc e he s hs => by rw [hb.seen c hc]; exact hs.seed hr root he) (.new P)
    exact hre.keeps (fun c hc id hid s hs => by rw [hb.seen c hc]; exact hs.reprocess hr hid) hs

end Still

end Pass

end Bundler
