import Bundler.Build.Pass
import Bundler.Proofs.Graph.Index
import Bundler.Proofs.Graph.Reach

/-!
# Runs of a pass

`Pass.Runs` relates a pass to all that can come of it: outstanding tasks deliver in any order, what
they deliver is any module that the rules allow, and each step looks for itself whether the session
is cancelled.
-/

namespace Bundler

namespace Pass

/-! ## The relation -/

section
variable {α : Type}

/-- A step for each item, which sees the session cancelled or not. -/
inductive Each (seen : Bool → Prop) (step : Bool → Pass → α → Pass) : Pass → List α → Pass → Prop
  | nil (p : Pass) : Each seen step p [] p
  | cons {p q : Pass} {a : α} {as : List α} (c : Bool) (hc : seen c)
      (h : Each seen step (step c p a) as q) : Each seen step p (a :: as) q

variable {seen : Bool → Prop} {step : Bool → Pass → α → Pass}

theorem Each.foldl {c : Bool} (hc : seen c) (p : Pass) (as : List α) :
    Each seen step p as (as.foldl (step c) p) := by
  induction as generalizing p with
  | nil => exact .nil p
  | cons a as ih => exact .cons c hc (ih (step c p a))

theorem Each.unique {p q q' : Pass} {as : List α} (hs : ∀ c, seen c → c = false)
    (h : Each seen step p as q) (h' : Each seen step p as q') : q = q' := by
  induction h with
  | nil p => cases h'; rfl
  | cons c hc _ ih =>
    cases h' with
    | cons c' hc' h' =>
      obtain rfl := hs c hc
      obtain rfl := hs c' hc'
      exact ih h'

/-- What every step keeps holds in the end. -/
theorem Each.keeps {I : Pass → Prop} {p q : Pass} {as : List α} (h : Each seen step p as q)
    (hs : ∀ c, seen c → ∀ a ∈ as, ∀ p, I p → I (step c p a)) (hp : I p) : I q := by
  induction h with
  | nil p => exact hp
  | cons c hc _ ih =>
    exact ih (fun c' hc' a' ha' => hs c' hc' a' (List.mem_cons_of_mem _ ha'))
      (hs c hc _ List.mem_cons_self _ hp)

/-- What one item brings about, and later steps keep, holds in the end. -/
theorem Each.brings {I : Pass → Prop} {J : α → Pass → Prop} {p q : Pass} {as : List α}
    (h : Each seen step p as q) (hs : ∀ c, seen c → ∀ a ∈ as, ∀ p, I p → I (step c p a))
    (hj : ∀ c, seen c → ∀ a ∈ as, ∀ p, I p → J a (step c p a))
    (hk : ∀ c, seen c → ∀ a ∈ as, ∀ b, ∀ p, I p → J b p → J b (step c p a)) (hp : I p) :
    ∀ a ∈ as, J a q := by
  induction h with
  | nil p => intro a ha; cases ha
  | @cons p q a as c hc h ih =>
    have hp' := hs c hc a List.mem_cons_self p hp
    intro b hb
    rcases List.mem_cons.mp hb with rfl | hb
    · have hkeep : I q ∧ J b q := h.keeps (I := fun p => I p ∧ J b p)
        (fun c' hc' a' ha' p hp =>
          ⟨hs c' hc' a' (List.mem_cons_of_mem _ ha') p hp.1,
            hk c' hc' a' (List.mem_cons_of_mem _ ha') b p hp.1 hp.2⟩)
        ⟨hp', hj c hc b List.mem_cons_self p hp⟩
      exact hkeep.2
    · exact ih (fun c' hc' a' ha' => hs c' hc' a' (List.mem_cons_of_mem _ ha'))
        (fun c' hc' a' ha' => hj c' hc' a' (List.mem_cons_of_mem _ ha'))
        (fun c' hc' a' ha' => hk c' hc' a' (List.mem_cons_of_mem _ ha')) hp' b hb

end

/-- What a pass leaves open. -/
structure Rules where
  lazyCompilation : Bool
  /-- What the task of an id may deliver. -/
  output : ModuleId → Module → Prop
  /-- What may be seen of a cancellation. -/
  seen : Bool → Prop

/-- What a pass starts from: entries with what became of their specifiers, and ids. -/
structure Seeds where
  entries : List ((String × String) × Resolution) := []
  reprocessed : List ModuleId := []

section
variable (r : Rules) (root : Path)

def Follows : Pass → List Dependency → Pass → Prop :=
  Each r.seen fun c p d => p.follow r.lazyCompilation c d

/-- A task that is outstanding delivers. -/
inductive Delivers : Pass → Pass → Prop
  | intro {p q : Pass} {id : ModuleId} {m : Module} (hid : id ∈ p.outstanding)
      (hm : r.output id m) (hf : Follows r (p.takeIn id) m.dependencies q) :
      Delivers p (q.accept m)

/-- Any number of deliveries, in any order. -/
def Runs : Pass → Pass → Prop := Relation.ReflTransGen (Delivers r)

/-- Entries are seeded, and then ids are reprocessed. -/
inductive Begins (seeds : Seeds) : Pass → Pass → Prop
  | intro {p q s : Pass}
      (he : Each r.seen (fun c p e => p.seed root c e.1.1 e.1.2 e.2) p seeds.entries q)
      (hr : Each r.seen (fun c p id => p.reprocess c id) q seeds.reprocessed s) :
      Begins seeds p s

/-- A pass from its start to its rest. -/
def Completes (g : ModuleGraph) (eager : List ModuleId) (seeds : Seeds) (q : Pass) : Prop :=
  ∃ p, Begins r root seeds { graph := g, eager } p ∧ Runs r p q ∧ q.outstanding = []

end

theorem exists_begins {r : Rules} (hs : r.seen false) (root : Path) (seeds : Seeds) (p : Pass) :
    ∃ q, Begins r root seeds p q :=
  ⟨_, .intro (.foldl hs p seeds.entries) (.foldl hs _ seeds.reprocessed)⟩

theorem Delivers.of_deliver {r : Rules} {p : Pass} {c : Bool} {id : ModuleId} {m : Module}
    (hid : id ∈ p.outstanding) (hm : r.output id m) (hc : r.seen c) :
    Delivers r p (p.deliver r.lazyCompilation c id m) :=
  .intro hid hm (.foldl hc _ _)

/-! ## What the steps do -/

theorem spawn_true (p : Pass) (id : ModuleId) :
    p.spawn true id =
      { p with visited := id :: p.visited }.record (.failed id [.load id.text "build cancelled"]) :=
  rfl

theorem spawn_false (p : Pass) (id : ModuleId) :
    p.spawn false id =
      { p with
        visited := id :: p.visited
        graph := p.graph.setState id .rebuilding
        outstanding := p.outstanding ++ [id]
        inFlight := p.inFlight + 1
        spawned := p.spawned + 1 } := rfl

theorem get?_record (p : Pass) (m : Module) (id : ModuleId) :
    (p.record m).graph.get? id = if id = m.id then some m else p.graph.get? id :=
  p.graph.get?_insert m id

theorem contains_record (p : Pass) (m : Module) (id : ModuleId) :
    (p.record m).graph.contains id = true ↔ id = m.id ∨ p.graph.contains id = true :=
  Table.contains_insert p.graph.modules m.id id m

@[simp] theorem processed_record (p : Pass) (m : Module) :
    (p.record m).delta.processed = p.delta.processed := by
  unfold record compare
  dsimp only
  split <;> rfl

theorem processed_spawn (p : Pass) (c : Bool) (id : ModuleId) :
    (p.spawn c id).delta.processed = p.delta.processed := by
  cases c with
  | false => rfl
  | true => exact processed_record ..

theorem get?_accept (p : Pass) (m : Module) (id : ModuleId) :
    (p.accept m).graph.get? id = if id = m.id then some m else p.graph.get? id :=
  get?_record _ m id

theorem processed_accept (p : Pass) (m : Module) :
    (p.accept m).delta.processed = p.delta.processed ++ [m.id] := processed_record _ m

/-! What holds of a pass, and is kept by a task that is started and by a module that is put in where
there was none, is kept by all that comes of an entry or a dependency. -/

theorem enqueue_keeps {I : Pass → Prop} {p : Pass} (h : I p) (c : Bool) (id : ModuleId)
    (hs : id ∉ p.visited → (∀ m, p.graph.get? id = some m → m.isLazy = true) → I (p.spawn c id)) :
    I (p.enqueue c id) := by
  unfold enqueue
  split
  next => exact h
  next hv =>
    have hs := hs fun hm => hv (List.contains_iff_mem.mpr hm)
    split
    next m hm =>
      split
      next hl => exact hs fun m' hm' => Option.some.inj (hm.symm.trans hm') ▸ hl
      next => exact h
    next hn => exact hs fun m hm => nomatch hn.symm.trans hm

theorem reprocess_keeps {I : Pass → Prop} {p : Pass} (h : I p) (c : Bool) (id : ModuleId)
    (hs : id ∉ p.visited → I (p.spawn c id)) : I (p.reprocess c id) := by
  unfold reprocess
  split
  next => exact h
  next hv => exact hs fun hm => hv (List.contains_iff_mem.mpr hm)

theorem seed_keeps {I : Pass → Prop} {p : Pass} (root : Path) (c : Bool) (name specifier : String)
    (r : Resolution) (he : ∀ e, I { p with graph := p.graph.setEntryError name e })
    (hs : ∀ id, I (Pass.enqueue { p with graph := p.graph.setEntry name id } c id)) :
    I (p.seed root c name specifier r) := by
  unfold seed
  split
  · split
    · exact he _
    · exact hs _
  · exact he _

theorem follow_keeps {I : Pass → Prop} {p : Pass} (h : I p) (lazyCompilation c : Bool)
    (d : Dependency) (ho : ∀ t, p.graph.contains t = false → I (p.record (.outside t)))
    (hp : ∀ t, p.graph.contains t = false → t ∉ p.eager → I (p.record (.placeholder t)))
    (hs : ∀ t, t ∉ p.visited → (∀ m, p.graph.get? t = some m → m.isLazy = true) →
      I (p.spawn c t)) : I (p.follow lazyCompilation c d) := by
  unfold follow
  split
  next => exact h
  next t _ =>
    split
    · split
      next => exact h
      next hc => exact ho t (eq_false_of_ne_true hc)
    · split
      next hl =>
        split
        next => exact h
        next hc =>
          rw [Bool.or_eq_true, not_or] at hc
          rw [Bool.and_eq_true, Bool.not_eq_true', List.contains_eq_mem, decide_eq_false_iff_not]
            at hl
          exact hp t (eq_false_of_ne_true hc.1) hl.2
      next => exact enqueue_keeps h c t (hs t)

/-! ## Entries -/

@[simp] theorem entries_record (p : Pass) (m : Module) :
    (p.record m).graph.entries = p.graph.entries := rfl

@[simp] theorem entryErrors_record (p : Pass) (m : Module) :
    (p.record m).graph.entryErrors = p.graph.entryErrors := rfl

theorem entries_spawn (p : Pass) (c : Bool) (id : ModuleId) :
    (p.spawn c id).graph.entries = p.graph.entries ∧
      (p.spawn c id).graph.entryErrors = p.graph.entryErrors := by
  cases c <;> exact ⟨rfl, rfl⟩

theorem entries_enqueue (p : Pass) (c : Bool) (id : ModuleId) :
    (p.enqueue c id).graph.entries = p.graph.entries ∧
      (p.enqueue c id).graph.entryErrors = p.graph.entryErrors :=
  enqueue_keeps (I := fun q => q.graph.entries = p.graph.entries ∧
    q.graph.entryErrors = p.graph.entryErrors) ⟨rfl, rfl⟩ c id
    fun _ _ => entries_spawn p c id

theorem entries_reprocess (p : Pass) (c : Bool) (id : ModuleId) :
    (p.reprocess c id).graph.entries = p.graph.entries ∧
      (p.reprocess c id).graph.entryErrors = p.graph.entryErrors :=
  reprocess_keeps (I := fun q => q.graph.entries = p.graph.entries ∧
    q.graph.entryErrors = p.graph.entryErrors) ⟨rfl, rfl⟩ c id
    fun _ => entries_spawn p c id

theorem entries_follow (p : Pass) (lazyCompilation c : Bool) (d : Dependency) :
    (p.follow lazyCompilation c d).graph.entries = p.graph.entries ∧
      (p.follow lazyCompilation c d).graph.entryErrors = p.graph.entryErrors :=
  follow_keeps (I := fun q => q.graph.entries = p.graph.entries ∧
    q.graph.entryErrors = p.graph.entryErrors) ⟨rfl, rfl⟩ lazyCompilation c d
    (fun _ _ => ⟨rfl, rfl⟩) (fun _ _ _ => ⟨rfl, rfl⟩) fun t _ _ => entries_spawn p c t

theorem Runs.entries_eq {r : Rules} {p q : Pass} (h : Runs r p q) :
    q.graph.entries = p.graph.entries ∧ q.graph.entryErrors = p.graph.entryErrors := by
  induction h with
  | refl => exact ⟨rfl, rfl⟩
  | tail _ hd ih =>
    obtain ⟨_, _, hf⟩ := hd
    have := hf.keeps (I := fun s => s.graph.entries = _ ∧ s.graph.entryErrors = _)
      (fun c _ d _ s hs => by
        obtain ⟨h₁, h₂⟩ := entries_follow s r.lazyCompilation c d
        exact ⟨h₁.trans hs.1, h₂.trans hs.2⟩) ih
    exact this

/-! ## Ids that are taken care of -/

/-- What an id needs is taken care of: it is in the graph or a task was started for it. -/
def Covers (p : Pass) (id : ModuleId) : Prop := p.graph.contains id = true ∨ id ∈ p.visited

theorem Covers.record {p : Pass} {id : ModuleId} (h : p.Covers id) (m : Module) :
    (p.record m).Covers id :=
  h.imp_left fun h => (contains_record p m id).mpr (.inr h)

theorem Covers.spawn {p : Pass} {id : ModuleId} (h : p.Covers id) (c : Bool) (x : ModuleId) :
    (p.spawn c x).Covers id := by
  have hv : (p.spawn false x).Covers id := by
    rw [spawn_false]
    refine h.imp (fun h => ?_) (List.mem_cons_of_mem _)
    rw [ModuleGraph.contains_setState]
    exact h
  cases c with
  | false => exact hv
  | true =>
    have hv' : Covers { p with visited := x :: p.visited } id := h.imp_right (List.mem_cons_of_mem _)
    exact hv'.record _

theorem spawn_covers (p : Pass) (c : Bool) (id : ModuleId) : (p.spawn c id).Covers id := by
  cases c with
  | false => exact .inr List.mem_cons_self
  | true => exact .inl ((contains_record _ _ id).mpr (.inl rfl))

theorem Covers.enqueue {p : Pass} {x : ModuleId} (h : p.Covers x) (c : Bool) (id : ModuleId) :
    (p.enqueue c id).Covers x :=
  enqueue_keeps (I := fun q => q.Covers x) h c id fun _ _ => h.spawn c id

theorem Covers.reprocess {p : Pass} {x : ModuleId} (h : p.Covers x) (c : Bool) (id : ModuleId) :
    (p.reprocess c id).Covers x :=
  reprocess_keeps (I := fun q => q.Covers x) h c id fun _ => h.spawn c id

theorem Covers.follow {p : Pass} {x : ModuleId} (h : p.Covers x) (lazyCompilation c : Bool)
    (d : Dependency) : (p.follow lazyCompilation c d).Covers x :=
  follow_keeps (I := fun q => q.Covers x) h lazyCompilation c d (fun _ _ => h.record _)
    (fun _ _ _ => h.record _) fun t _ _ => h.spawn c t

theorem enqueue_covers (p : Pass) (c : Bool) (id : ModuleId) : (p.enqueue c id).Covers id := by
  unfold enqueue
  split
  next hv => exact .inr (by simpa using hv)
  next =>
    split
    next m hm =>
      split
      · exact spawn_covers p c id
      · exact .inl (ModuleGraph.contains_iff.mpr ⟨m, hm⟩)
    next => exact spawn_covers p c id

/-- The target of a dependency that was followed is taken care of. -/
theorem follow_covers (p : Pass) (lazyCompilation c : Bool) {d : Dependency} {t : ModuleId}
    (hd : d.target = some t) : (p.follow lazyCompilation c d).Covers t := by
  have hrec : ∀ m : Module, m.id = t → (p.record m).Covers t := fun m hm =>
    .inl ((contains_record p m t).mpr (.inl hm.symm))
  unfold follow
  rw [hd]
  dsimp only
  split
  · split
    next h => exact .inl h
    next => exact hrec _ rfl
  · split
    · split
      next h => exact (Bool.or_eq_true_iff.mp h).imp_right fun hv => by simpa using hv
      next => exact hrec _ rfl
    · exact enqueue_covers p c t

theorem Covers.runs {r : Rules} {p q : Pass} {x : ModuleId} (h : p.Covers x) (hr : Runs r p q) :
    q.Covers x := by
  induction hr with
  | refl => exact h
  | tail _ hd ih =>
    obtain ⟨_, _, hf⟩ := hd
    have hm := hf.keeps (I := fun s => s.Covers x)
      (fun c _ d _ s hs => hs.follow r.lazyCompilation c d) ih
    exact hm.record _

/-! ## Tasks that are under way -/

/-- No task is started twice, those that are outstanding were started, and they are counted. -/
structure Tidy (p : Pass) : Prop where
  visited : p.visited.Nodup
  outstanding : p.outstanding.Nodup
  started : ∀ id ∈ p.outstanding, id ∈ p.visited
  inFlight : p.inFlight = p.outstanding.length

namespace Tidy

variable {p : Pass}

theorem of_eq {q : Pass} (h : p.Tidy) (hv : q.visited = p.visited)
    (ho : q.outstanding = p.outstanding) (hi : q.inFlight = p.inFlight) : q.Tidy :=
  ⟨hv ▸ h.visited, ho ▸ h.outstanding, by rw [hv, ho]; exact h.started, by rw [hi, ho, h.inFlight]⟩

theorem outstanding_eq_nil (h : p.Tidy) : p.outstanding = [] ↔ p.inFlight ≤ 0 := by
  rw [h.inFlight, ← List.length_eq_zero_iff]
  omega

theorem spawn (h : p.Tidy) (c : Bool) {id : ModuleId} (hid : id ∉ p.visited) :
    (p.spawn c id).Tidy := by
  have hv : (id :: p.visited).Nodup := List.nodup_cons.mpr ⟨hid, h.visited⟩
  cases c with
  | false =>
    refine ⟨hv, ?_, fun x hx => ?_, ?_⟩
    · rw [spawn_false]
      refine List.nodup_append.mpr ⟨h.outstanding, by simp, fun a ha b hb => ?_⟩
      rw [List.mem_singleton.mp hb]
      exact fun e => hid (e ▸ h.started a ha)
    · rcases List.mem_append.mp hx with hx | hx
      · exact List.mem_cons_of_mem _ (h.started x hx)
      · exact List.mem_singleton.mp hx ▸ List.mem_cons_self
    · rw [spawn_false, List.length_append, h.inFlight]
      rfl
  | true =>
    exact ⟨hv, h.outstanding, fun x hx => List.mem_cons_of_mem _ (h.started x hx), h.inFlight⟩

theorem enqueue (h : p.Tidy) (c : Bool) (id : ModuleId) : (p.enqueue c id).Tidy :=
  enqueue_keeps h c id fun hv _ => h.spawn c hv

theorem reprocess (h : p.Tidy) (c : Bool) (id : ModuleId) : (p.reprocess c id).Tidy :=
  reprocess_keeps h c id fun hv => h.spawn c hv

theorem seed (h : p.Tidy) (root : Path) (c : Bool) (name specifier : String) (r : Resolution) :
    (p.seed root c name specifier r).Tidy := by
  have hg : ∀ g, Tidy { p with graph := g } := fun _ => h.of_eq rfl rfl rfl
  exact seed_keeps root c name specifier r (fun _ => hg _) fun id => (hg _).enqueue c id

theorem follow (h : p.Tidy) (lazyCompilation c : Bool) (d : Dependency) :
    (p.follow lazyCompilation c d).Tidy :=
  follow_keeps h lazyCompilation c d (fun _ _ => h.of_eq rfl rfl rfl)
    (fun _ _ _ => h.of_eq rfl rfl rfl) fun _ hv _ => h.spawn c hv

theorem takeIn (h : p.Tidy) {id : ModuleId} (hid : id ∈ p.outstanding) : (p.takeIn id).Tidy := by
  refine ⟨h.visited, h.outstanding.erase id, fun x hx => h.started x (List.mem_of_mem_erase hx), ?_⟩
  show p.inFlight - 1 = (p.outstanding.erase id).length
  rw [h.inFlight, List.length_erase_of_mem hid,
    Int.ofNat_sub (List.length_pos_of_mem hid)]
  rfl

theorem begins {r : Rules} {root : Path} {seeds : Seeds} {q : Pass} (h : p.Tidy)
    (hb : Begins r root seeds p q) : q.Tidy := by
  obtain ⟨he, hr⟩ := hb
  exact hr.keeps (I := Tidy) (fun c _ id _ s hs => hs.reprocess c id)
    (he.keeps (I := Tidy) (fun c _ e _ s hs => hs.seed root c _ _ _) h)

theorem delivers {r : Rules} {q : Pass} (h : p.Tidy) (hd : Delivers r p q) : q.Tidy := by
  obtain ⟨hid, _, hf⟩ := hd
  have := hf.keeps (I := Tidy) (fun c _ d _ s hs => hs.follow r.lazyCompilation c d) (h.takeIn hid)
  exact this.of_eq rfl rfl rfl

theorem runs {r : Rules} {q : Pass} (h : p.Tidy) (hr : Runs r p q) : q.Tidy := by
  induction hr with
  | refl => exact h
  | tail _ hd ih => exact ih.delivers hd

theorem new (g : ModuleGraph) (eager : List ModuleId) : Tidy { graph := g, eager } :=
  ⟨.nil, .nil, nofun, rfl⟩

end Tidy

theorem mem_outstanding_follow {p : Pass} {x : ModuleId} (h : x ∈ p.outstanding)
    (lazyCompilation c : Bool) (d : Dependency) :
    x ∈ (p.follow lazyCompilation c d).outstanding := by
  have hs : ∀ id, x ∈ (p.spawn c id).outstanding := by
    intro id
    cases c with
    | false => exact List.mem_append_left _ h
    | true => exact h
  exact follow_keeps (I := fun q => x ∈ q.outstanding) h lazyCompilation c d
    (fun _ _ => h) (fun _ _ _ => h) fun t _ _ => hs t

end Pass

end Bundler
