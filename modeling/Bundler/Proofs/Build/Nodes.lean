import Bundler.Proofs.Build.Sound
import Bundler.Proofs.Chunk.Collect

/-!
# What a pass does to a node

Few things happen to the node of an id in a pass: it comes, as a module outside or as a placeholder,
a task is started for it, or the task delivers. So no node goes, live modules stay live, and an id
that is compiled at once never becomes a placeholder. A pass that only compiles placeholders leaves
all other modules as they are.
-/

namespace Bundler

/-- What a step of a pass does to the node of an id, if some ids are compiled at once. -/
inductive Turn (eager : List ModuleId) (id : ModuleId) : Option Module → Option Module → Prop
  | outside : Turn eager id none (some (.outside id))
  | placeholder (h : id ∉ eager) : Turn eager id none (some (.placeholder id))
  | started (m : Module) : Turn eager id (some m) (some { m with state := .rebuilding })
  | delivered (before : Option Module) {m : Module} (h : m.IsOutput id) :
      Turn eager id before (some m)

/-- What any number of steps does to a node. -/
def Turns (eager : List ModuleId) (id : ModuleId) : Option Module → Option Module → Prop :=
  Relation.ReflTransGen (Turn eager id)

/-- No placeholder. -/
def NotLazy (x : Option Module) : Prop := ∀ m, x = some m → m.isLazy = false

namespace Turns

variable {eager : List ModuleId} {id : ModuleId} {x y : Option Module}

theorem exists_some (h : Turns eager id x y) {m : Module} (hx : x = some m) :
    ∃ m', y = some m' := by
  induction h with
  | refl => exact ⟨m, hx⟩
  | tail _ ht _ => cases ht <;> exact ⟨_, rfl⟩

theorem isLive (h : Turns eager id x y) {m : Module} (hx : x = some m) (hl : m.isLive = true) :
    ∃ m', y = some m' ∧ m'.isLive = true := by
  induction h with
  | refl => exact ⟨m, hx, hl⟩
  | tail _ ht ih =>
    obtain ⟨m', rfl, hl'⟩ := ih
    cases ht with
    | started => exact ⟨_, rfl, Module.isLive_iff.mpr ⟨(Module.isLive_iff.mp hl').1, rfl⟩⟩
    | delivered _ ho => exact ⟨_, rfl, Module.isLive_iff.mpr ho.2⟩

theorem notLazy (h : Turns eager id x y) (he : id ∈ eager) (hx : NotLazy x) : NotLazy y := by
  induction h with
  | refl => exact hx
  | tail _ ht ih =>
    intro m hm
    cases ht with
    | outside => cases hm; rfl
    | placeholder hn => exact absurd he hn
    | started m' => cases hm; rfl
    | delivered _ ho => cases hm; exact ho.2.2

end Turns

namespace Pass

/-- The nodes of a pass came of those of an earlier graph. -/
structure Turned (g : ModuleGraph) (eager : List ModuleId) (p : Pass) : Prop where
  atOnce : p.eager = eager
  nodes : ∀ id, Turns eager id (g.get? id) (p.graph.get? id)

namespace Turned

variable {g : ModuleGraph} {eager : List ModuleId} {p : Pass}

theorem new (g : ModuleGraph) (eager : List ModuleId) : Turned g eager { graph := g, eager } :=
  ⟨rfl, fun _ => .refl⟩

theorem record (h : p.Turned g eager) {m : Module}
    (hm : Turn eager m.id (p.graph.get? m.id) (some m)) : (p.record m).Turned g eager := by
  refine ⟨h.atOnce, fun id => ?_⟩
  rw [get?_record]
  split
  next hid =>
    rw [hid]
    exact (h.nodes m.id).tail hm
  next => exact h.nodes id

theorem spawn (h : p.Turned g eager) (c : Bool) (id : ModuleId) :
    (p.spawn c id).Turned g eager := by
  cases c with
  | true =>
    have hv : Turned g eager { p with visited := id :: p.visited } := ⟨h.atOnce, h.nodes⟩
    exact hv.record (.delivered _ (Module.isOutput_failed _ _))
  | false =>
    refine ⟨h.atOnce, fun x => ?_⟩
    rw [spawn_false, ModuleGraph.get?_setState]
    split
    · have hx := h.nodes x
      cases hm : p.graph.get? x with
      | none => rwa [hm] at hx
      | some m =>
        rw [hm] at hx
        exact hx.tail (.started m)
    · exact h.nodes x

theorem enqueue (h : p.Turned g eager) (c : Bool) (id : ModuleId) :
    (p.enqueue c id).Turned g eager := enqueue_keeps h c id fun _ _ => h.spawn c id

theorem reprocess (h : p.Turned g eager) (c : Bool) (id : ModuleId) :
    (p.reprocess c id).Turned g eager := reprocess_keeps h c id fun _ => h.spawn c id

theorem follow (h : p.Turned g eager) (lazyCompilation c : Bool) (d : Dependency) :
    (p.follow lazyCompilation c d).Turned g eager := by
  have habsent : ∀ {t : ModuleId} {m : Module}, p.graph.contains t = false →
      Turn eager t none (some m) → Turn eager t (p.graph.get? t) (some m) := fun hc ht => by
    rwa [ModuleGraph.contains_eq_false.mp hc]
  exact follow_keeps h lazyCompilation c d (fun _ hc => h.record (habsent hc .outside))
    (fun _ hc he => h.record (habsent hc (.placeholder (h.atOnce ▸ he))))
    fun t _ _ => h.spawn c t

theorem seed (h : p.Turned g eager) (root : Path) (c : Bool) (name specifier : String)
    (r : Resolution) : (p.seed root c name specifier r).Turned g eager := by
  apply seed_keeps root c name specifier r
  · exact fun _ => ⟨h.atOnce, h.nodes⟩
  · intro id
    have ht : Turned g eager { p with graph := p.graph.setEntry name id } := ⟨h.atOnce, h.nodes⟩
    exact ht.enqueue c id

theorem begins {r : Rules} {root : Path} {seeds : Seeds} {q : Pass} (h : p.Turned g eager)
    (hb : Begins r root seeds p q) : q.Turned g eager := by
  obtain ⟨he, hr⟩ := hb
  exact hr.keeps (I := Turned g eager) (fun c _ id _ s hs => hs.reprocess c id)
    (he.keeps (I := Turned g eager) (fun c _ e _ s hs => hs.seed root c _ _ _) h)

theorem delivers {r : Rules} {q : Pass} (hout : ∀ id m, r.output id m → m.IsOutput id)
    (h : p.Turned g eager) (hd : Delivers r p q) : q.Turned g eager := by
  cases hd with
  | @intro s id m _ hm hf =>
    have ho := hout id m hm
    have hs : s.Turned g eager := hf.keeps (fun c _ d _ s hs => hs.follow r.lazyCompilation c d)
      (⟨h.atOnce, h.nodes⟩ : Turned g eager (p.takeIn id))
    have hs' : Turned g eager
        { s with delta := { s.delta with processed := s.delta.processed ++ [m.id] } } :=
      ⟨hs.atOnce, hs.nodes⟩
    exact hs'.record (.delivered _ ⟨rfl, ho.2⟩)

theorem runs {r : Rules} {q : Pass} (hout : ∀ id m, r.output id m → m.IsOutput id)
    (h : p.Turned g eager) (hr : Runs r p q) : q.Turned g eager := by
  induction hr with
  | refl => exact h
  | tail _ hd ih => exact ih.delivers hout hd

end Turned

/-- What a pass comes to in its graph came of the nodes that were there before. -/
theorem Completes.turns {r : Rules} {root : Path} {g : ModuleGraph} {eager : List ModuleId}
    {seeds : Seeds} {q : Pass} (hout : ∀ id m, r.output id m → m.IsOutput id)
    (h : Completes r root g eager seeds q) (id : ModuleId) :
    Turns eager id (g.get? id) (q.graph.get? id) := by
  obtain ⟨p, hb, hr, -⟩ := h
  exact (((Turned.new g eager).begins hb).runs hout hr).nodes id

theorem Completes.isLive {r : Rules} {root : Path} {g : ModuleGraph} {eager : List ModuleId}
    {seeds : Seeds} {q : Pass} (hout : ∀ id m, r.output id m → m.IsOutput id)
    (h : Completes r root g eager seeds q) {id : ModuleId} (hl : g.isLive id = true) :
    q.graph.isLive id = true := by
  obtain ⟨m, hm, hl⟩ := ModuleGraph.isLive_iff.mp hl
  exact ModuleGraph.isLive_iff.mpr ((h.turns hout id).isLive hm hl)

/-! ## Passes that only compile -/

/-- Of the modules of a graph that are no placeholders, each is as it was, and no task is under way
for it. -/
def Spares (g : ModuleGraph) (p : Pass) : Prop :=
  ∀ id m, g.get? id = some m → m.isLazy = false → p.graph.get? id = some m ∧ id ∉ p.outstanding

namespace Spares

variable {g : ModuleGraph} {p : Pass}

theorem new (g : ModuleGraph) (eager : List ModuleId) : Spares g { graph := g, eager } :=
  fun _ _ hm _ => ⟨hm, List.not_mem_nil⟩

theorem record (h : p.Spares g) {m : Module}
    (hm : ∀ m', g.get? m.id = some m' → m'.isLazy = true) : (p.record m).Spares g := by
  intro id m' hm' hl
  rw [get?_record, if_neg]
  · exact h id m' hm' hl
  · rintro rfl
    exact nomatch hl.symm.trans (hm m' hm')

theorem spawn (h : p.Spares g) (c : Bool) {id : ModuleId}
    (hid : ∀ m, g.get? id = some m → m.isLazy = true) : (p.spawn c id).Spares g := by
  cases c with
  | true =>
    have hv : Spares g { p with visited := id :: p.visited } := h
    exact hv.record hid
  | false =>
    intro x m hm hl
    have hne : x ≠ id := by
      rintro rfl
      exact nomatch hl.symm.trans (hid m hm)
    obtain ⟨hget, hout⟩ := h x m hm hl
    rw [spawn_false]
    refine ⟨?_, ?_⟩
    · rw [ModuleGraph.get?_setState, if_neg hne]
      exact hget
    · rw [List.mem_append, List.mem_singleton, not_or]
      exact ⟨hout, hne⟩

/-- What is not loaded now was not loaded before. -/
theorem lazy_of (h : p.Spares g) {id : ModuleId}
    (hl : ∀ m, p.graph.get? id = some m → m.isLazy = true) :
    ∀ m, g.get? id = some m → m.isLazy = true := fun m hm =>
  eq_true_of_ne_false fun hn => nomatch hn.symm.trans (hl m (h id m hm hn).1)

theorem follow (h : p.Spares g) (lazyCompilation c : Bool) (d : Dependency) :
    (p.follow lazyCompilation c d).Spares g := by
  have habsent : ∀ {t : ModuleId}, p.graph.contains t = false →
      ∀ m, g.get? t = some m → m.isLazy = true := fun hc =>
    h.lazy_of fun _ hm => nomatch (ModuleGraph.contains_eq_false.mp hc).symm.trans hm
  exact follow_keeps h lazyCompilation c d (fun _ hc => h.record (habsent hc))
    (fun _ hc _ => h.record (habsent hc)) fun _ _ hl => h.spawn c (h.lazy_of hl)

theorem delivers {r : Rules} {q : Pass} (hout : ∀ id m, r.output id m → m.IsOutput id)
    (h : p.Spares g) (hd : Delivers r p q) : q.Spares g := by
  cases hd with
  | @intro s id m hid hm hf =>
    have ht : Spares g (p.takeIn id) := fun x m hm hl =>
      ⟨(h x m hm hl).1, fun hx => (h x m hm hl).2 (List.mem_of_mem_erase hx)⟩
    have hs : s.Spares g := hf.keeps (fun c _ d _ s hs => hs.follow r.lazyCompilation c d) ht
    have hs' : Spares g
        { s with delta := { s.delta with processed := s.delta.processed ++ [m.id] } } := hs
    refine hs'.record fun m' hm' => eq_true_of_ne_false fun hl => ?_
    rw [(hout id m hm).1] at hm'
    exact (h id m' hm' hl).2 hid

theorem runs {r : Rules} {q : Pass} (hout : ∀ id m, r.output id m → m.IsOutput id)
    (h : p.Spares g) (hr : Runs r p q) : q.Spares g := by
  induction hr with
  | refl => exact h
  | tail _ hd ih => exact ih.delivers hout hd

end Spares

theorem notLazy_spawn (p : Pass) (c : Bool) (id : ModuleId) :
    NotLazy ((p.spawn c id).graph.get? id) := by
  intro m hm
  cases c with
  | true =>
    rw [spawn_true, get?_record] at hm
    obtain rfl := Option.some.inj ((if_pos rfl).symm.trans hm)
    rfl
  | false =>
    rw [spawn_false, ModuleGraph.get?_setState, if_pos rfl] at hm
    obtain ⟨m', -, rfl⟩ := Option.map_eq_some_iff.mp hm
    rfl

theorem Begins.eq_reprocess {r : Rules} {root : Path} {id : ModuleId} {p q : Pass}
    (h : Begins r root { reprocessed := [id] } p q) : ∃ c, q = p.reprocess c id := by
  obtain ⟨he, hr⟩ := h
  cases he
  cases hr with
  | cons c _ hn => cases hn; exact ⟨c, rfl⟩

/-- A pass for a placeholder compiles it, and whatever entries led to they still lead to. -/
theorem Completes.compiles {r : Rules} {root : Path} {g : ModuleGraph} {eager : List ModuleId}
    {id : ModuleId} {q : Pass} (hout : ∀ id m, r.output id m → m.IsOutput id)
    (h : Completes r root g eager { reprocessed := [id] } q) (he : id ∈ eager)
    (hid : (g.get? id).any (·.isLazy) = true) (hg : g.Regular) :
    NotLazy (q.graph.get? id) ∧ ∀ x, g.Reached x → q.graph.Reached x := by
  have hturns := h.turns hout
  obtain ⟨p, hb, hruns, -⟩ := h
  obtain ⟨c, rfl⟩ := hb.eq_reprocess
  have hspawn : Pass.reprocess { graph := g, eager } c id = Pass.spawn { graph := g, eager } c id :=
    rfl
  rw [hspawn] at hruns
  refine ⟨?_, fun x hx => ?_⟩
  · have ht : Turned (Pass.spawn { graph := g, eager } c id).graph eager
        (Pass.spawn { graph := g, eager } c id) :=
      ⟨((Turned.new g eager).spawn c id).atOnce, fun _ => .refl⟩
    exact ((ht.runs hout hruns).nodes id).notLazy he (notLazy_spawn _ c id)
  · have hs : q.Spares g := ((Spares.new g eager).spawn c fun m hm => by
      rw [hm] at hid
      exact hid).runs hout hruns
    refine hx.mono (hruns.entries_eq.1.trans (entries_spawn _ c id).1) fun a m _ hm => ?_
    cases hl : m.isLazy with
    | false => exact ⟨m, (hs a m hm hl).1, fun _ ht => ht⟩
    | true =>
      -- Nothing is in a placeholder, so that paths end there.
      obtain ⟨m', hm'⟩ := (hturns a).exists_some hm
      refine ⟨m', hm', fun t ht => ?_⟩
      obtain ⟨d, hd, -⟩ := Module.mem_targets.mp ht
      rw [(hg.hollow a m hm (.inr hl)).1] at hd
      cases hd

end Pass

end Bundler
