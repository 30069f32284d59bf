import Bundler.Proofs.Build.Run

/-!
# What a pass is bound to do

A pass that is not cancelled, and whose tasks decide for each id what it depends on, has no choice
but the order of its steps: the ids of `Plan.Needed` are processed once each, and what becomes of
every other id is settled by what those depend on.
-/

namespace Bundler

namespace Pass

/-- What a pass is determined by: where it starts, and what the ids depend on. -/
structure Plan where
  graph : ModuleGraph
  eager : List ModuleId
  seeds : Seeds
  lazyCompilation : Bool
  dependencies : ModuleId → List Dependency

namespace Plan

/-- An id that is absent at the start, or whose module is a placeholder. -/
def Open (P : Plan) (id : ModuleId) : Prop := ∀ m, P.graph.get? id = some m → m.isLazy = true

/-- A dependency whose target is left for later. -/
def Defers (P : Plan) (d : Dependency) (t : ModuleId) : Prop :=
  d.target = some t ∧ d.external = false ∧
    (P.lazyCompilation && !d.kind.isStatic && !P.eager.contains t) = true

/-- A dependency whose target is compiled with its importer. -/
def Wants (P : Plan) (d : Dependency) (t : ModuleId) : Prop :=
  d.target = some t ∧ d.external = false ∧
    (P.lazyCompilation && !d.kind.isStatic && !P.eager.contains t) = false

/-- The least set of ids that holds the seeds which need work, and is closed under dependencies
which do. -/
inductive Needed (P : Plan) : ModuleId → Prop
  | reprocessed {id : ModuleId} (h : id ∈ P.seeds.reprocessed) : Needed P id
  | entry {e : (String × String) × Resolution} {t : Resolved} (he : e ∈ P.seeds.entries)
      (ht : e.2.outcome = .ok t) (hx : t.external = false) (ho : P.Open t.id) : Needed P t.id
  | dependency {k t : ModuleId} {d : Dependency} (hk : Needed P k) (hd : d ∈ P.dependencies k)
      (hw : P.Wants d t) (ho : P.Open t) : Needed P t

/-- An id that a dependency says is outside. -/
def Excludes (P : Plan) (id : ModuleId) : Prop :=
  ∃ k, P.Needed k ∧ ∃ d ∈ P.dependencies k, d.external = true ∧ d.target = some id

/-- An id that a dependency leaves for later. -/
def Awaits (P : Plan) (id : ModuleId) : Prop :=
  ∃ k, P.Needed k ∧ ∃ d ∈ P.dependencies k, P.Defers d id

/-- No id is outside for one dependency and inside for another. -/
def Unambiguous (P : Plan) : Prop :=
  ∀ k k', P.Needed k → P.Needed k' → ∀ d ∈ P.dependencies k, ∀ d' ∈ P.dependencies k',
    d.external = true → d'.external = false → ∀ t, d.target = some t → d'.target ≠ some t

variable {P : Plan}

theorem Unambiguous.not_awaits (h : P.Unambiguous) {id : ModuleId} (he : P.Excludes id) :
    ¬ P.Awaits id := by
  rintro ⟨k', hk', d', hd', ht', hx', -⟩
  obtain ⟨k, hk, d, hd, hx, ht⟩ := he
  exact h k k' hk hk' d hd d' hd' hx hx' id ht ht'

theorem Unambiguous.not_wants (h : P.Unambiguous) {k id : ModuleId} {d : Dependency}
    (he : P.Excludes id) (hk : P.Needed k) (hd : d ∈ P.dependencies k) : ¬ P.Wants d id := by
  rintro ⟨ht', hx', -⟩
  obtain ⟨k', hk', d', hd', hx, ht⟩ := he
  exact h k' k hk' hk d' hd' d hd hx hx' id ht ht'

end Plan

/-! ## The state of a pass -/

/-- An id with a task, or with a module that is not a placeholder. -/
def Met (p : Pass) (id : ModuleId) : Prop :=
  id ∈ p.visited ∨ ∃ m, p.graph.get? id = some m ∧ m.isLazy = false

/-- Ids stay in the graph, keep their tasks, and do not become placeholders. -/
structure Grows (p q : Pass) : Prop where
  contains : ∀ id, p.graph.contains id = true → q.graph.contains id = true
  visited : ∀ id ∈ p.visited, id ∈ q.visited
  met : ∀ id, p.Met id → q.Met id

/-- What a dependency asks for was seen to. -/
structure Followed (P : Plan) (p : Pass) (d : Dependency) : Prop where
  outside : ∀ t, d.external = true → d.target = some t → p.graph.contains t = true
  deferred : ∀ t, P.Defers d t → p.graph.contains t = true ∨ t ∈ p.visited
  wanted : ∀ t, P.Wants d t → p.Met t

theorem Followed.mono {P : Plan} {p q : Pass} {d : Dependency} (h : p.Followed P d)
    (hg : p.Grows q) : q.Followed P d where
  outside t hx ht := hg.contains t (h.outside t hx ht)
  deferred t hd := (h.deferred t hd).imp (hg.contains t) (hg.visited t)
  wanted t hw := hg.met t (h.wanted t hw)

/-- How far a pass has come: ids with a task are needed, those whose tasks were delivered hold what
was delivered, and the others are as they were, or stand for a target that was not loaded. For the
ids in `ended` the task is over and the module on its way in. -/
structure Advanced (P : Plan) (output : ModuleId → Module → Prop) (ended : List ModuleId)
    (p : Pass) : Prop extends p.Tidy where
  eager : p.eager = P.eager
  needed : ∀ id ∈ p.visited, P.Needed id
  held : ∀ id ∈ p.visited, id ∉ p.outstanding → id ∉ ended →
    ∃ m, output id m ∧ p.graph.get? id = some m
  followed : ∀ id ∈ p.visited, id ∉ p.outstanding → id ∉ ended →
    ∀ d ∈ P.dependencies id, p.Followed P d
  others : ∀ id, id ∉ p.visited → p.graph.get? id = P.graph.get? id ∨
    P.graph.get? id = none ∧
      (P.Excludes id ∧ p.graph.get? id = some (.outside id) ∨
        P.Awaits id ∧ p.graph.get? id = some (.placeholder id))

/-- How often tasks were started, and which of them are over. -/
structure Counted (ended : List ModuleId) (p : Pass) : Prop where
  spawned : p.spawned = p.visited.length
  processed : (p.delta.processed ++ ended ++ p.outstanding).Perm p.visited

theorem contains_spawn_false (p : Pass) (id x : ModuleId) :
    (p.spawn false id).graph.contains x = p.graph.contains x :=
  p.graph.contains_setState id x .rebuilding

theorem spawn_grows (p : Pass) (id : ModuleId) : p.Grows (p.spawn false id) where
  contains x hx := (contains_spawn_false p id x).trans hx
  visited x hx := List.mem_cons_of_mem _ hx
  met x hx := by
    by_cases he : x = id
    · exact .inl (List.mem_cons.mpr (.inl he))
    · refine hx.imp (List.mem_cons_of_mem _) ?_
      rintro ⟨m, hm, hl⟩
      exact ⟨m, (ModuleGraph.get?_setState ..).trans ((if_neg he).trans hm), hl⟩

/-- A module goes in where there is none, or where its task was. -/
theorem record_grows {p : Pass} {m : Module}
    (h : p.graph.contains m.id = false ∨ m.id ∈ p.visited) : p.Grows (p.record m) where
  contains x hx := (contains_record p m x).mpr (.inr hx)
  visited x hx := hx
  met x hx := by
    refine hx.elim .inl ?_
    rintro ⟨m', hm', hl⟩
    by_cases he : x = m.id
    · subst he
      refine .inl (h.resolve_left fun hc => ?_)
      rw [ModuleGraph.contains_eq_false.mp hc] at hm'
      cases hm'
    · exact .inr ⟨m', (get?_record p m x).trans ((if_neg he).trans hm'), hl⟩

theorem Grows.refl (p : Pass) : p.Grows p := ⟨fun _ h => h, fun _ h => h, fun _ h => h⟩

theorem follow_grows (p : Pass) (lazyCompilation : Bool) (d : Dependency) :
    p.Grows (p.follow lazyCompilation false d) :=
  follow_keeps (.refl p) lazyCompilation false d (fun _ hc => record_grows (.inl hc))
    (fun _ hc _ => record_grows (.inl hc)) fun t _ _ => p.spawn_grows t

theorem enqueue_met (p : Pass) (id : ModuleId) : (p.enqueue false id).Met id := by
  unfold enqueue
  split
  next hv => exact .inl (List.contains_iff_mem.mp hv)
  next =>
    split
    next m hm =>
      split
      next => exact .inl List.mem_cons_self
      next hl => exact .inr ⟨m, hm, eq_false_of_ne_true hl⟩
    next => exact .inl List.mem_cons_self

namespace Advanced

variable {P : Plan} {output : ModuleId → Module → Prop} {ended : List ModuleId} {p : Pass}

theorem new (P : Plan) (output : ModuleId → Module → Prop) :
    Advanced P output [] { graph := P.graph, eager := P.eager } where
  toTidy := .new _ _
  eager := rfl
  needed := fun _ h => nomatch h
  held := fun _ h => nomatch h
  followed := fun _ h => nomatch h
  others := fun _ _ => .inl rfl

/-- An id without a task that is absent or a placeholder was so from the start. -/
theorem open_of_others (h : p.Advanced P output ended) {id : ModuleId} (hv : id ∉ p.visited)
    (ho : ∀ m, p.graph.get? id = some m → m.isLazy = true) : P.Open id := by
  rcases h.others id hv with he | ⟨hn, -⟩
  · intro m hm
    exact ho m (he.trans hm)
  · intro m hm
    rw [hn] at hm
    cases hm

theorem spawn (h : p.Advanced P output ended) {id : ModuleId} (hv : id ∉ p.visited)
    (hn : P.Needed id) : (p.spawn false id).Advanced P output ended := by
  have hget : ∀ x, x ≠ id → (p.spawn false id).graph.get? x = p.graph.get? x := fun x hx =>
    (ModuleGraph.get?_setState ..).trans (if_neg hx)
  have hold : ∀ x ∈ (p.spawn false id).visited, x ∉ (p.spawn false id).outstanding →
      x ≠ id ∧ x ∈ p.visited ∧ x ∉ p.outstanding := by
    intro x hx hox
    rw [spawn_false] at hx hox
    have hne : x ≠ id := fun e => hox (List.mem_append_right _ (List.mem_singleton.mpr e))
    exact ⟨hne, (List.mem_cons.mp hx).resolve_left hne, fun ho => hox (List.mem_append_left _ ho)⟩
  refine ⟨h.toTidy.spawn false hv, h.eager, fun x hx => ?_, fun x hx hox he => ?_,
    fun x hx hox he d hd => ?_, fun x hx => ?_⟩
  · rcases List.mem_cons.mp hx with rfl | hx
    · exact hn
    · exact h.needed x hx
  · obtain ⟨hne, hx, hox⟩ := hold x hx hox
    rw [hget x hne]
    exact h.held x hx hox he
  · obtain ⟨hne, hx, hox⟩ := hold x hx hox
    exact (h.followed x hx hox he d hd).mono (p.spawn_grows id)
  · have hne : x ≠ id := fun e => hx (List.mem_cons.mpr (.inl e))
    rw [hget x hne]
    exact h.others x fun hm => hx (List.mem_cons_of_mem _ hm)

theorem record (h : p.Advanced P output ended) {m : Module} (hc : p.graph.contains m.id = false)
    (hm : P.Excludes m.id ∧ m = .outside m.id ∨
      P.Awaits m.id ∧ m.id ∉ p.visited ∧ m = .placeholder m.id) :
    (p.record m).Advanced P output ended := by
  have hnone := ModuleGraph.contains_eq_false.mp hc
  have hget := get?_record p m
  refine ⟨h.toTidy.of_eq rfl rfl rfl, h.eager, h.needed, fun x hx ho he => ?_,
    fun x hx ho he d hd => ?_, fun x hx => ?_⟩
  · obtain ⟨m', hm', hx'⟩ := h.held x hx ho he
    have hne : x ≠ m.id := by
      rintro rfl
      rw [hnone] at hx'
      cases hx'
    exact ⟨m', hm', by rw [hget, if_neg hne, hx']⟩
  · exact (h.followed x hx ho he d hd).mono (record_grows (.inl hc))
  · rw [hget]
    by_cases hxm : x = m.id
    · subst hxm
      have hstart : P.graph.get? m.id = none := by
        rcases h.others m.id hx with he | ⟨hn, -⟩
        · rw [← he, hnone]
        · exact hn
      rw [if_pos rfl]
      refine .inr ⟨hstart, ?_⟩
      rcases hm with ⟨hm, e⟩ | ⟨hm, -, e⟩
      · exact .inl ⟨hm, congrArg some e⟩
      · exact .inr ⟨hm, congrArg some e⟩
    · rw [if_neg hxm]
      exact h.others x hx

theorem enqueue (h : p.Advanced P output ended) {id : ModuleId} (hn : P.Open id → P.Needed id) :
    (p.enqueue false id).Advanced P output ended :=
  enqueue_keeps h false id fun hv hl => h.spawn hv (hn (h.open_of_others hv hl))

theorem reprocess (h : p.Advanced P output ended) {id : ModuleId} (hn : P.Needed id) :
    (p.reprocess false id).Advanced P output ended :=
  reprocess_keeps h false id fun hv => h.spawn hv hn

/-- A dependency of a needed id is followed. -/
theorem follow (h : p.Advanced P output ended) {k : ModuleId} (hk : P.Needed k) {d : Dependency}
    (hd : d ∈ P.dependencies k) :
    (p.follow P.lazyCompilation false d).Advanced P output ended := by
  unfold Pass.follow
  split
  next => exact h
  next t ht =>
    split
    next hx =>
      split
      next => exact h
      next hc => exact h.record (eq_false_of_ne_true hc) (.inl ⟨⟨k, hk, d, hd, hx, ht⟩, rfl⟩)
    next hx =>
      have hx : d.external = false := by simpa using hx
      rw [h.eager]
      split
      next hl =>
        split
        next => exact h
        next hc =>
          rw [Bool.or_eq_true, not_or] at hc
          exact h.record (eq_false_of_ne_true hc.1) (.inr ⟨⟨k, hk, d, hd, ht, hx, hl⟩,
            fun hv => hc.2 (List.contains_iff_mem.mpr hv), rfl⟩)
      next hl =>
        exact h.enqueue fun ho => .dependency hk hd ⟨ht, hx, by simpa using hl⟩ ho

end Advanced

/-! ## Runs -/

/-- Rules that leave nothing open but the order of the steps, and modules whose dependencies are
those of the plan. -/
structure Plan.Binds (P : Plan) (r : Rules) : Prop where
  lazyCompilation : r.lazyCompilation = P.lazyCompilation
  seen : ∀ c, r.seen c → c = false
  id : ∀ id m, r.output id m → m.id = id
  dependencies : ∀ id m, r.output id m → m.dependencies = P.dependencies id

section
variable {P : Plan} {r : Rules} {p q : Pass}

theorem follow_followed (he : p.eager = P.eager) (d : Dependency) :
    (p.follow P.lazyCompilation false d).Followed P d := by
  refine ⟨fun t hx ht => ?_, fun t hw => ?_, fun t hw => ?_⟩
  · unfold follow
    rw [ht]
    dsimp only
    rw [if_pos hx]
    split
    next hc => exact hc
    next => exact (contains_record p _ t).mpr (.inl rfl)
  · obtain ⟨ht, hx, hl⟩ := hw
    unfold follow
    rw [ht]
    dsimp only
    rw [hx, he, if_neg (by decide), if_pos hl]
    split
    next hc =>
      rw [Bool.or_eq_true] at hc
      exact hc.imp_right List.contains_iff_mem.mp
    next => exact .inl ((contains_record p _ t).mpr (.inl rfl))
  · obtain ⟨ht, hx, hl⟩ := hw
    unfold follow
    rw [ht]
    dsimp only
    rw [hx, he, if_neg (by decide), if_neg (by rw [hl]; decide)]
    exact p.enqueue_met t

/-- The task of an id is over: nothing is known of its module yet. -/
theorem Advanced.takeIn {output : ModuleId → Module → Prop} (h : p.Advanced P output [])
    {id : ModuleId} (hid : id ∈ p.outstanding) : (p.takeIn id).Advanced P output [id] := by
  have hold : ∀ x, x ∉ p.outstanding.erase id → x ∉ [id] → x ∉ p.outstanding := by
    intro x ho he hx
    exact ho ((List.mem_erase_of_ne fun e => he (List.mem_singleton.mpr e)).mpr hx)
  exact ⟨h.toTidy.takeIn hid, h.eager, h.needed,
    fun x hx ho he => h.held x hx (hold x ho he) (fun hm => nomatch hm),
    fun x hx ho he d hd => (h.followed x hx (hold x ho he) (fun hm => nomatch hm) d hd).mono
      ⟨fun _ hc => hc, fun _ hv => hv, fun _ hm => hm⟩,
    h.others⟩

theorem Advanced.accept {output : ModuleId → Module → Prop} {m : Module}
    (h : p.Advanced P output [m.id]) (hm : output m.id m) (hv : m.id ∈ p.visited)
    (hf : ∀ d ∈ P.dependencies m.id, p.Followed P d) : (p.accept m).Advanced P output [] := by
  have hgrows : p.Grows (p.accept m) := by
    have hr := @record_grows
      { p with delta := { p.delta with processed := p.delta.processed ++ [m.id] } } m (.inr hv)
    exact ⟨hr.contains, hr.visited, hr.met⟩
  refine ⟨h.toTidy.of_eq rfl rfl rfl, h.eager, h.needed, fun x hx ho _ => ?_, fun x hx ho _ d hd => ?_,
    fun x hx => ?_⟩
  · by_cases hxm : x = m.id
    · subst hxm
      exact ⟨m, hm, by rw [get?_accept, if_pos rfl]⟩
    · rw [get?_accept, if_neg hxm]
      exact h.held x hx ho fun he => hxm (List.mem_singleton.mp he)
  · by_cases hxm : x = m.id
    · subst hxm
      exact (hf d hd).mono hgrows
    · exact (h.followed x hx ho (fun he => hxm (List.mem_singleton.mp he)) d hd).mono hgrows
  · have hxm : x ≠ m.id := fun e => hx (e ▸ hv)
    rw [get?_accept, if_neg hxm]
    exact h.others x hx

theorem Advanced.delivers (hb : P.Binds r) (h : p.Advanced P r.output [])
    (hd : Delivers r p q) : q.Advanced P r.output [] := by
  cases hd with
  | @intro s id m hid hm hf =>
    obtain rfl := hb.id id m hm
    have hv : m.id ∈ p.visited := h.started m.id hid
    have hn : P.Needed m.id := h.needed m.id hv
    unfold Follows at hf
    rw [hb.dependencies m.id m hm, hb.lazyCompilation] at hf
    have hstep : ∀ c, r.seen c → ∀ d ∈ P.dependencies m.id, ∀ s : Pass,
        s.Advanced P r.output [m.id] →
          (s.follow P.lazyCompilation c d).Advanced P r.output [m.id] := by
      intro c hc d hd s hs
      rw [hb.seen c hc]
      exact hs.follow hn hd
    have hs := hf.keeps hstep (h.takeIn hid)
    have hvis := hf.keeps (I := fun s => m.id ∈ s.visited)
      (fun c hc d _ s hs => by rw [hb.seen c hc]; exact (s.follow_grows _ d).visited _ hs) hv
    have hfol := hf.brings (J := fun d s => s.Followed P d) hstep
      (fun c hc d _ s hs => by rw [hb.seen c hc]; exact follow_followed hs.eager d)
      (fun c hc d _ d' s _ hs => by rw [hb.seen c hc]; exact hs.mono (s.follow_grows _ d))
      (h.takeIn hid)
    exact hs.accept hm hvis hfol

theorem Advanced.runs (hb : P.Binds r) (h : p.Advanced P r.output []) (hr : Runs r p q) :
    q.Advanced P r.output [] := by
  induction hr with
  | refl => exact h
  | tail _ hd ih => exact ih.delivers hb hd

end

end Pass

end Bundler
