import Mathlib.Data.List.Nodup
import Bundler.Proofs.Build.Sound

/-!
# Rounds of tasks are runs

The rounds in which `Pass.runTasks` lets tasks go on are one order of deliveries among those of
`Pass.Runs`: whatever every step of a task keeps (`Discipline`) decides what is delivered.
-/

namespace Bundler

namespace Project

theorem isLazy_assemble (id : ModuleId) (l : Loaded) (t : Transformed)
    (dependencies : List (Dependency × List BuildError)) (errors : List BuildError) :
    (assemble id l t dependencies errors).isLazy = false := by
  unfold assemble Module.isLazy
  dsimp only
  split <;> rfl

/-- A module that could not be loaded, or not be transformed, stands under its id. -/
theorem isOutput_of_search {p : Project} {id : ModuleId} {r : LoadResult} {m : Module}
    (h : p.search id r = .error m) : m.IsOutput id := by
  unfold search at h
  dsimp only at h
  split at h
  · cases h
    exact Module.isOutput_failed _ _
  · split at h
    · cases h
      exact ⟨rfl, rfl, rfl⟩
    · split at h <;> cases h

theorem id_of_search {p : Project} {id : ModuleId} {r : LoadResult} {d : Draft}
    (h : p.search id r = .ok d) : d.id = id := by
  unfold search at h
  dsimp only at h
  split at h
  · cases h
  · split at h
    · cases h
    · split at h <;> cases h <;> rfl

end Project

namespace Task

theorem id_step (project : Project) (w : World) (late : Bool) (s : Inquiries) (t : Task) :
    (t.step project w late s).2.id = t.id := by
  cases t with
  | loading id =>
    unfold step
    dsimp only
    split
    · rfl
    · split
      next hm => exact (Project.isOutput_of_search hm).1
      next hd => exact Project.id_of_search hd
  | resolving d =>
    unfold step
    dsimp only
    split
    · rfl
    · dsimp only
      split <;> rfl
  | done m => rfl

/-- What every step of every task keeps: `I` holds of what is known of earlier questions, `T` of
the tasks, `G` of the ids that tasks are started for. -/
structure Discipline (project : Project) (w : World) (r : Pass.Rules) (I : Inquiries → Prop)
    (T : Task → Prop) (G : ModuleId → Prop) : Prop where
  lazyCompilation : r.lazyCompilation = project.lazyCompilation
  seen : ∀ s, I s → r.seen s.bridge.cancelled
  start : ∀ id, G id → T (.loading id)
  step : ∀ late s t, I s → T t →
    I (t.step project w late s).1 ∧ T (t.step project w late s).2
  output : ∀ m, T (.done m) → r.output m.id m
  good : ∀ m, T (.done m) → ∀ d ∈ m.dependencies, d.external = false →
    ∀ t, d.target = some t → G t

section
variable {project : Project} {w : World} {r : Pass.Rules} {I : Inquiries → Prop}
  {T : Task → Prop} {G : ModuleId → Prop}

theorem stepAll_keeps (h : Discipline project w r I T G) (late : Bool) (s : Inquiries)
    (ts : List (Task × Bool)) (hs : I s) (ht : ∀ t ∈ ts, T t.1) :
    I (stepAll project w late s ts).1 ∧ (∀ t ∈ (stepAll project w late s ts).2, T t) ∧
      (stepAll project w late s ts).2.map id = ts.map (·.1.id) := by
  induction ts generalizing s with
  | nil =>
    refine ⟨hs, fun t h => ?_, rfl⟩
    cases h
  | cons t ts ih =>
    obtain ⟨t, held⟩ := t
    have h1 : I (if held then (s, t) else t.step project w late s).1 ∧
        T (if held then (s, t) else t.step project w late s).2 ∧
        (if held then (s, t) else t.step project w late s).2.id = t.id := by
      have htt := ht (t, held) List.mem_cons_self
      cases held with
      | true => exact ⟨hs, htt, rfl⟩
      | false =>
        obtain ⟨h₁, h₂⟩ := h.step late s t hs htt
        exact ⟨h₁, h₂, id_step project w late s t⟩
    obtain ⟨i2, t2, e2⟩ := ih _ h1.1 fun t ht' => ht t (List.mem_cons_of_mem _ ht')
    refine ⟨i2, ?_, ?_⟩
    · intro x hx
      rcases List.mem_cons.mp hx with rfl | hx
      · exact h1.2.1
      · exact t2 x hx
    · exact congrArg₂ List.cons h1.2.2 e2

theorem round_keeps (h : Discipline project w r I T G) (s : Inquiries) (ts : List Task)
    (hs : I s) (ht : ∀ t ∈ ts, T t) :
    I (round project w s ts).1 ∧ (∀ t ∈ (round project w s ts).2, T t) ∧
      (round project w s ts).2.map id = ts.map id := by
  unfold round
  dsimp only
  generalize ts.all _ = late
  obtain ⟨h1, h2, h3⟩ := stepAll_keeps h late s
    (ts.map fun t => (t, !late && t.isStalled project w s.bridge)) hs (by
      intro t htm
      obtain ⟨t', ht', rfl⟩ := List.mem_map.mp htm
      exact ht t' ht')
  refine ⟨h1, h2, h3.trans ?_⟩
  rw [List.map_map]
  rfl

end

end Task

namespace Pass

section
variable {project : Project} {w : World} {r : Rules} {I : Inquiries → Prop}
  {T : Task → Prop} {G : ModuleId → Prop}

theorem good_of_follow {p : Pass} (hg : ∀ id ∈ p.outstanding, G id) (lazyCompilation c : Bool)
    (d : Dependency) (hd : d.external = false → ∀ t, d.target = some t → G t) :
    ∀ id ∈ (p.follow lazyCompilation c d).outstanding, G id := by
  have hs : ∀ t, G t → ∀ id ∈ (p.spawn c t).outstanding, G id := by
    intro t ht id hid
    cases c with
    | false =>
      rcases List.mem_append.mp hid with hid | hid
      · exact hg id hid
      · exact List.mem_singleton.mp hid ▸ ht
    | true => exact hg id hid
  unfold follow
  split
  · exact hg
  next t ht =>
    split
    · split <;> exact hg
    next hx =>
      split
      · split <;> exact hg
      · exact enqueue_keeps (I := fun q => ∀ id ∈ q.outstanding, G id) hg c t
          fun _ _ => hs t (hd (by simpa using hx) t ht)

theorem follow_each (lazyCompilation c : Bool) (ds : List Dependency) (p : Pass) :
    Each (c = ·) (fun c p d => p.follow lazyCompilation c d) p ds
      (ds.foldl (fun p d => p.follow lazyCompilation c d) p) := .foldl rfl p ds

theorem mem_outstanding_deliver {p : Pass} {id x : ModuleId} (hx : x ∈ p.outstanding)
    (hne : x ≠ id) (lazyCompilation c : Bool) (m : Module) :
    x ∈ (p.deliver lazyCompilation c id m).outstanding := by
  have h : x ∈ (p.takeIn id).outstanding := (List.mem_erase_of_ne hne).mpr hx
  exact (follow_each lazyCompilation c m.dependencies (p.takeIn id)).keeps
    (I := fun q => x ∈ q.outstanding)
    (fun c' _ d _ _ hs => mem_outstanding_follow hs lazyCompilation c' d) h

theorem good_of_deliver {p : Pass} (hg : ∀ x ∈ p.outstanding, G x) (lazyCompilation c : Bool)
    (id : ModuleId) {m : Module}
    (hm : ∀ d ∈ m.dependencies, d.external = false → ∀ t, d.target = some t → G t) :
    ∀ x ∈ (p.deliver lazyCompilation c id m).outstanding, G x :=
  (follow_each lazyCompilation c m.dependencies (p.takeIn id)).keeps
    (I := fun q => ∀ x ∈ q.outstanding, G x)
    (fun c' _ d hd _ hs => good_of_follow hs lazyCompilation c' d (hm d hd))
    fun x hx => hg x (List.mem_of_mem_erase hx)

theorem deliverAll_runs (h : Task.Discipline project w r I T G) {c : Bool} (hc : r.seen c)
    (ts : List Task) (p : Pass) (ht : ∀ t ∈ ts, T t) (hp : p.Tidy)
    (hn : (ts.map Task.id).Nodup) (ho : ∀ id ∈ ts.map Task.id, id ∈ p.outstanding)
    (hg : ∀ id ∈ p.outstanding, G id) :
    Runs r p (p.deliverAll project.lazyCompilation c ts) ∧
      (∀ id ∈ (p.deliverAll project.lazyCompilation c ts).outstanding, G id) ∧
      ∀ t ∈ ts, t.module?.isNone →
        t.id ∈ (p.deliverAll project.lazyCompilation c ts).outstanding := by
  -- Tasks outside the list that are outstanding stay so, which carries the induction.
  suffices key : ∀ (ts : List Task) (p : Pass), (∀ t ∈ ts, T t) → p.Tidy →
      (ts.map Task.id).Nodup → (∀ id ∈ ts.map Task.id, id ∈ p.outstanding) →
      (∀ id ∈ p.outstanding, G id) →
      Runs r p (p.deliverAll project.lazyCompilation c ts) ∧
      (∀ id ∈ (p.deliverAll project.lazyCompilation c ts).outstanding, G id) ∧
      (∀ id ∈ p.outstanding, (∀ t ∈ ts, t.id = id → t.module?.isNone) →
        id ∈ (p.deliverAll project.lazyCompilation c ts).outstanding) by
    obtain ⟨h1, h2, h3⟩ := key ts p ht hp hn ho hg
    refine ⟨h1, h2, fun t htm hnone => h3 t.id (ho _ (List.mem_map_of_mem htm)) ?_⟩
    intro t' ht' e
    rwa [List.inj_on_of_nodup_map hn ht' htm e]
  intro ts
  induction ts with
  | nil => exact fun p _ _ _ _ hg => ⟨.refl, hg, fun id hid _ => hid⟩
  | cons t ts ih =>
    intro p ht hp hn ho hg
    rw [List.map_cons, List.nodup_cons] at hn
    have ht' : ∀ t ∈ ts, T t := fun t h => ht t (List.mem_cons_of_mem _ h)
    have ho' : ∀ id ∈ ts.map Task.id, id ∈ p.outstanding :=
      fun x hx => ho x (List.mem_cons_of_mem _ hx)
    cases t with
    | done m =>
      have hm := ht (.done m) List.mem_cons_self
      have hd : Delivers r p (p.deliver project.lazyCompilation c m.id m) := by
        rw [← h.lazyCompilation]
        exact .of_deliver (ho m.id List.mem_cons_self) (h.output m hm) hc
      have hother : m.id ∉ ts.map Task.id := hn.1
      obtain ⟨i1, i2, i3⟩ := ih (p.deliver project.lazyCompilation c m.id m) ht' (hp.delivers hd)
        hn.2
        (fun id hid => mem_outstanding_deliver (ho' id hid) (ne_of_mem_of_not_mem hid hother) _ c m)
        (good_of_deliver hg _ c m.id (h.good m hm))
      refine ⟨.head hd i1, i2, fun id hid hnone => ?_⟩
      refine i3 id (mem_outstanding_deliver hid ?_ _ c m)
        fun t ht e => hnone t (List.mem_cons_of_mem _ ht) e
      rintro rfl
      exact absurd (hnone (.done m) List.mem_cons_self rfl) Bool.false_ne_true
    | loading id =>
      obtain ⟨i1, i2, i3⟩ := ih p ht' hp hn.2 ho' hg
      exact ⟨i1, i2, fun x hx hnone => i3 x hx fun t ht e => hnone t (List.mem_cons_of_mem _ ht) e⟩
    | resolving d =>
      obtain ⟨i1, i2, i3⟩ := ih p ht' hp hn.2 ho' hg
      exact ⟨i1, i2, fun x hx hnone => i3 x hx fun t ht e => hnone t (List.mem_cons_of_mem _ ht) e⟩

/-- What is kept in the next round was kept before, and no task of it is done. -/
theorem nextTasks_keep (h : Task.Discipline project w r I T G) {p : Pass} {ts : List Task}
    (hg : ∀ id ∈ p.outstanding, G id) (ht : ∀ t ∈ ts, T t) :
    ∀ t ∈ p.nextTasks ts, T t ∧ t.module?.isNone = true := by
  intro t hnext
  unfold nextTasks at hnext
  rcases List.mem_append.mp hnext with hnext | hnext
  · obtain ⟨hmem, hnone⟩ := List.mem_filter.mp hnext
    exact ⟨ht t hmem, hnone⟩
  · obtain ⟨id, hid, rfl⟩ := List.mem_map.mp hnext
    exact ⟨h.start id (hg id (List.mem_filter.mp hid).1), rfl⟩

/-- The tasks of a pass are those that are outstanding. -/
def Matches (p : Pass) (ts : List Task) : Prop :=
  (ts.map Task.id).Nodup ∧ ∀ id, id ∈ ts.map Task.id ↔ id ∈ p.outstanding

theorem Matches.eq_nil {p : Pass} {ts : List Task} (h : p.Matches ts) (ho : p.outstanding = []) :
    ts = [] := by
  have hids : ts.map Task.id = [] := List.eq_nil_iff_forall_not_mem.mpr fun id hid => by
    rw [h.2, ho] at hid
    cases hid
  exact List.map_eq_nil_iff.mp hids

theorem matches_nextTasks {p : Pass} (hp : p.Tidy) {ts : List Task} (hn : (ts.map Task.id).Nodup)
    (hw : ∀ t ∈ ts, t.module?.isNone → t.id ∈ p.outstanding) : p.Matches (p.nextTasks ts) := by
  have hids : (p.nextTasks ts).map Task.id = (ts.filter (·.module?.isNone)).map Task.id ++
      p.outstanding.filter fun id => !(ts.filter (·.module?.isNone)).any (·.id = id) := by
    unfold nextTasks
    dsimp only
    rw [List.map_append, List.map_map]
    exact congrArg _ (List.map_id _)
  unfold Matches
  rw [hids]
  refine ⟨List.nodup_append.mpr ⟨?_, hp.outstanding.filter _, ?_⟩, fun id => ?_⟩
  · exact hn.sublist (List.filter_sublist.map _)
  · rintro a ha b hb rfl
    obtain ⟨t, ht, rfl⟩ := List.mem_map.mp ha
    have := (List.mem_filter.mp hb).2
    simp only [Bool.not_eq_true', List.any_eq_false, decide_eq_true_eq] at this
    exact this t ht rfl
  · rw [List.mem_append, List.mem_filter]
    constructor
    · rintro (h | h)
      · obtain ⟨t, ht, rfl⟩ := List.mem_map.mp h
        obtain ⟨ht, hnone⟩ := List.mem_filter.mp ht
        exact hw t ht hnone
      · exact h.1
    · intro h
      by_cases hmem : id ∈ (ts.filter (·.module?.isNone)).map Task.id
      · exact .inl hmem
      · refine .inr ⟨h, ?_⟩
        simp only [Bool.not_eq_true', List.any_eq_false, decide_eq_true_eq]
        exact fun t ht e => hmem (e ▸ List.mem_map_of_mem ht)

theorem runTasks_runs (h : Task.Discipline project w r I T G) {fuel : Nat} {p q : Pass}
    {ts : List Task} {s s' : Inquiries} (hrun : runTasks project w fuel p ts s = some (q, s'))
    (hs : I s) (ht : ∀ t ∈ ts, T t) (hp : p.Tidy) (hm : p.Matches ts)
    (hg : ∀ id ∈ p.outstanding, G id) : Runs r p q ∧ q.outstanding = [] ∧ I s' := by
  fun_induction runTasks project w fuel p ts s with
  | case1 p ts s hrest =>
    cases hrun
    exact ⟨.refl, hp.outstanding_eq_nil.mpr hrest, hs⟩
  | case2 p ts s => cases hrun
  | case3 fuel p ts s hrest =>
    cases hrun
    exact ⟨.refl, hp.outstanding_eq_nil.mpr hrest, hs⟩
  | case4 fuel p ts s hrest s₁ ts₁ hround p₁ ih =>
    obtain ⟨i1, t1, e1⟩ := Task.round_keeps h s ts hs ht
    rw [hround] at i1 t1 e1
    obtain ⟨d1, d2, d3⟩ := deliverAll_runs h (h.seen s₁ i1) ts₁ p t1 hp (e1 ▸ hm.1)
      (fun id hid => (hm.2 id).mp (e1 ▸ hid)) hg
    have hp₁ : p₁.Tidy := hp.runs d1
    have ht₁ := fun t ht => (nextTasks_keep h d2 t1 t ht).1
    obtain ⟨r1, r2, r3⟩ := ih hrun i1 ht₁ hp₁ (matches_nextTasks hp₁ (e1 ▸ hm.1) d3) d2
    exact ⟨d1.trans r1, r2, r3⟩

theorem run_runs (h : Task.Discipline project w r I T G) {fuel : Nat} {p q : Pass}
    {s s' : Inquiries} (hrun : p.run project w fuel s = some (q, s')) (hs : I s) (hp : p.Tidy)
    (hg : ∀ id ∈ p.outstanding, G id) : Runs r p q ∧ q.outstanding = [] ∧ I s' :=
  runTasks_runs h hrun hs
    (fun t ht => (nextTasks_keep h hg (List.forall_mem_nil T) t ht).1) hp
    (matches_nextTasks hp .nil fun _ h => nomatch h) hg

end

end Pass

end Bundler
