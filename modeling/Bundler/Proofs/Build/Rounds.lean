import Bundler.Proofs.Build.Ideal

/-!
# Passes come to rest

Each round lets some task go on, and a task is done after few steps. A pass whose plan needs
finitely many ids is therefore at rest after finitely many rounds.
-/

namespace Bundler

namespace Task

variable {p : Project} {w : World} {limit : Option Nat} {D : Path → Prop}

/-- How many steps a task may still take. -/
def rest (p : Project) (w : World) (t : Task) : Nat :=
  match t with
  | .loading _ => 3
  | .resolving d => if isStalled p w {} (.resolving d) then 1 else 2
  | .done _ => 0

theorem rest_resolving (d : Draft) :
    rest p w (.resolving d) = if isStalled p w {} (.resolving d) then 1 else 2 := rfl

theorem isStalled_eq {b : Bridge} (h : b.Quiet) (t : Task) :
    t.isStalled p w b = t.isStalled p w {} := by
  cases t with
  | loading id => exact h.isStalled w.host (.load id.text)
  | resolving d =>
    unfold isStalled
    simp only [Resolver.isStalled_eq h]
  | done m => rfl

theorem rest_lt_three {t : Task} (h : ∀ id, t ≠ .loading id) : t.rest p w < 3 := by
  cases t with
  | loading id => exact absurd rfl (h id)
  | resolving d =>
    rw [rest_resolving]
    split <;> omega
  | done m => exact Nat.zero_lt_succ 2

theorem step_loading_ne (late : Bool) (i : Inquiries) (id id' : ModuleId) :
    (step p w late i (.loading id)).2 ≠ .loading id' := by
  unfold step
  dsimp only
  split
  · exact fun h => nomatch h
  · split <;> exact fun h => nomatch h

theorem none_of_openMentions {d : Draft} {m : Mention} (h : m ∈ d.openMentions) :
    (m, none) ∈ d.mentions := by
  obtain ⟨⟨m', res⟩, hx, he⟩ := List.mem_filterMap.mp h
  split at he
  next hn =>
    cases he
    rwa [← Option.isNone_iff_eq_none.mp hn]
  next => cases he

/-- A task that goes on has fewer steps left. -/
theorem rest_step (hw : w.Answers) {late : Bool} {i : Inquiries}
    (hi : i.Steady limit D ⟨w.files, p.resolver.extensions⟩) {t : Task}
    (ht : t.Fits p w limit D) (hd : t.module?.isNone = true)
    (hl : late = true ∨ t.isStalled p w i.bridge = false) :
    (t.step p w late i).2.rest p w < t.rest p w := by
  cases t with
  | loading id => exact rest_lt_three (step_loading_ne late i id)
  | resolving d =>
    obtain ⟨hgood, -, hfit⟩ := ht
    obtain ⟨-, out, hout, h2, -⟩ := Resolver.resolveOpen_fits hw hgood late d.mentions hi hfit
    unfold step
    dsimp only
    generalize p.resolver.resolveOpen w _ _ _ late d.mentions i = x at hout
    obtain ⟨j, res⟩ := x
    obtain rfl : res = .ok out := hout
    dsimp only
    have hpos : 0 < rest p w (.resolving d) := by
      rw [rest_resolving]
      split <;> omega
    split
    next => exact hpos
    next ho =>
      -- What is left open waits for the host, so that it is not late and the task was not held.
      have hopen : ∀ m ∈ Draft.openMentions { d with mentions := out },
          late = false ∧ p.resolver.isStalled w {} m.specifier (some d.id) = true :=
        fun m hm => (h2 _ (none_of_openMentions hm)).2 rfl
      obtain ⟨m, hm⟩ := List.exists_mem_of_ne_nil _ fun h => ho (List.isEmpty_iff.mpr h)
      have hnot : isStalled p w {} (.resolving d) = false := by
        rw [← isStalled_eq hi.bridge]
        exact hl.resolve_left (by rw [(hopen m hm).1]; decide)
      have hstalled : isStalled p w {} (.resolving { d with mentions := out }) = true := by
        unfold isStalled
        rw [Bool.and_eq_true, List.all_eq_true]
        exact ⟨by simpa using ho, fun m hm => (hopen m hm).2⟩
      rw [rest_resolving, rest_resolving, if_pos hstalled, if_neg (by rw [hnot]; decide)]
      exact Nat.one_lt_two
  | done m => cases hd

/-- What is left of some tasks together. -/
def restAll (p : Project) (w : World) (ts : List Task) : Nat := ts.foldr (rest p w · + ·) 0

theorem restAll_append (ts ts' : List Task) :
    restAll p w (ts ++ ts') = restAll p w ts + restAll p w ts' := by
  induction ts with
  | nil => exact (Nat.zero_add _).symm
  | cons t ts ih => exact (congrArg (rest p w t + ·) ih).trans (Nat.add_assoc ..).symm

theorem stepAll_rest (hw : w.Answers) {late : Bool} {i : Inquiries}
    (hi : i.Steady limit D ⟨w.files, p.resolver.extensions⟩) {ts : List (Task × Bool)}
    (ht : ∀ t ∈ ts, t.1.Fits p w limit D ∧ t.1.module?.isNone = true)
    (hl : ∀ t ∈ ts, t.2 = false → late = true ∨ t.1.isStalled p w {} = false) :
    restAll p w (stepAll p w late i ts).2 ≤ restAll p w (ts.map (·.1)) ∧
      ((∃ t ∈ ts, t.2 = false) →
        restAll p w (stepAll p w late i ts).2 < restAll p w (ts.map (·.1))) := by
  induction ts generalizing i with
  | nil => exact ⟨Nat.le_refl _, fun ⟨t, ht, _⟩ => nomatch ht⟩
  | cons x ts ih =>
    obtain ⟨t, held⟩ := x
    have hfit : t.Fits p w limit D := (ht _ List.mem_cons_self).1
    have hnone : t.module?.isNone = true := (ht _ List.mem_cons_self).2
    have ht' := fun x hx => ht x (List.mem_cons_of_mem _ hx)
    have hl' := fun x hx => hl x (List.mem_cons_of_mem _ hx)
    cases held with
    | true =>
      obtain ⟨h1, h2⟩ := ih hi ht' hl'
      have he : restAll p w (stepAll p w late i ((t, true) :: ts)).2 =
          rest p w t + restAll p w (stepAll p w late i ts).2 := rfl
      have he' : restAll p w (((t, true) :: ts).map (·.1)) =
          rest p w t + restAll p w (ts.map (·.1)) := rfl
      refine ⟨by omega, fun ⟨x, hx, hf⟩ => ?_⟩
      rcases List.mem_cons.mp hx with rfl | hx
      · cases hf
      · have := h2 ⟨x, hx, hf⟩
        omega
    | false =>
      have hlt : (t.step p w late i).2.rest p w < t.rest p w := by
        refine rest_step hw hi hfit hnone ?_
        have hs := @isStalled_eq p w i.bridge hi.bridge t
        exact (hl _ List.mem_cons_self rfl).imp_right hs.trans
      obtain ⟨h1, -⟩ := ih (step_fits hw late hi hfit).1 ht' hl'
      have he : restAll p w (stepAll p w late i ((t, false) :: ts)).2 =
          rest p w (t.step p w late i).2 +
            restAll p w (stepAll p w late (t.step p w late i).1 ts).2 := rfl
      have he' : restAll p w (((t, false) :: ts).map (·.1)) =
          rest p w t + restAll p w (ts.map (·.1)) := rfl
      exact ⟨by omega, fun _ => by omega⟩

theorem round_rest (hw : w.Answers) {i : Inquiries}
    (hi : i.Steady limit D ⟨w.files, p.resolver.extensions⟩) {ts : List Task}
    (ht : ∀ t ∈ ts, t.Fits p w limit D ∧ t.module?.isNone = true) (hne : ts ≠ []) :
    restAll p w (round p w i ts).2 < restAll p w ts := by
  unfold round
  dsimp only
  have hstalled : ∀ t : Task, t.isStalled p w i.bridge = t.isStalled p w {} :=
    isStalled_eq hi.bridge
  simp only [hstalled]
  generalize hlate : (ts.all fun t => t.isStalled p w {}) = late
  obtain ⟨-, h2⟩ := @stepAll_rest p w limit D hw late i hi
    (ts.map fun t => (t, !late && t.isStalled p w {})) (by
      intro x hx
      obtain ⟨t, htm, rfl⟩ := List.mem_map.mp hx
      exact ht t htm) (by
      intro x hx hf
      obtain ⟨t, -, rfl⟩ := List.mem_map.mp hx
      cases late with
      | true => exact .inl rfl
      | false => exact .inr (by simpa using hf))
  rw [List.map_map] at h2
  have hid : (ts.map (Prod.fst ∘ fun t => (t, !late && t.isStalled p w {}))) = ts := List.map_id _
  rw [hid] at h2
  refine h2 ?_
  cases late with
  | true =>
    obtain ⟨t, htm⟩ := List.exists_mem_of_ne_nil _ hne
    exact ⟨_, List.mem_map_of_mem htm, rfl⟩
  | false =>
    rw [List.all_eq_false] at hlate
    obtain ⟨t, htm, hs⟩ := hlate
    exact ⟨_, List.mem_map_of_mem htm, by simpa using hs⟩

end Task

namespace Pass

theorem Matches.length_eq {p : Pass} {ts : List Task} (hp : p.Tidy) (h : p.Matches ts) :
    ts.length = p.outstanding.length := by
  have hperm := (List.perm_ext_iff_of_nodup h.1 hp.outstanding).mpr h.2
  rw [← hperm.length_eq, List.length_map]

theorem Matches.inFlight_nonpos {p : Pass} (h : p.Matches []) (hp : p.Tidy) : p.inFlight ≤ 0 :=
  hp.outstanding_eq_nil.mp (List.length_eq_zero_iff.mp (h.length_eq hp).symm)

theorem length_processed_deliver (p : Pass) (lazyCompilation c : Bool) (id : ModuleId)
    (m : Module) : (p.deliver lazyCompilation c id m).delta.processed.length =
      p.delta.processed.length + 1 := by
  have hfollow := processed_of_follows (follow_each lazyCompilation c m.dependencies (p.takeIn id))
  unfold deliver
  rw [processed_accept, List.length_append, List.length_singleton, hfollow]
  rfl

theorem length_processed_deliverAll (p : Pass) (lazyCompilation c : Bool) (ts : List Task) :
    (p.deliverAll lazyCompilation c ts).delta.processed.length =
      p.delta.processed.length + (ts.filterMap Task.module?).length := by
  unfold deliverAll
  induction ts.filterMap Task.module? generalizing p with
  | nil => rfl
  | cons m ms ih =>
    rw [List.foldl_cons, ih, length_processed_deliver, List.length_cons]
    omega

theorem length_waiting (ts : List Task) :
    ts.length = (ts.filter (·.module?.isNone)).length + (ts.filterMap Task.module?).length := by
  induction ts with
  | nil => rfl
  | cons t ts ih =>
    cases t with
    | loading id => exact congrArg (· + 1) ih |>.trans (Nat.add_right_comm ..)
    | resolving d => exact congrArg (· + 1) ih |>.trans (Nat.add_right_comm ..)
    | done m => exact congrArg (· + 1) ih

theorem restAll_nextTasks (project : Project) (w : World) (p : Pass) (ts : List Task) :
    Task.restAll project w (p.nextTasks ts) + 3 * (ts.filter (·.module?.isNone)).length ≤
      Task.restAll project w ts + 3 * (p.nextTasks ts).length := by
  unfold nextTasks
  dsimp only
  generalize p.outstanding.filter _ = new
  have hnew : Task.restAll project w (new.map Task.loading) = 3 * new.length := by
    induction new with
    | nil => rfl
    | cons id new ih =>
      have he : Task.restAll project w ((id :: new).map Task.loading) =
          3 + Task.restAll project w (new.map Task.loading) := rfl
      rw [he, ih, List.length_cons]
      omega
  have hwait : Task.restAll project w (ts.filter (·.module?.isNone)) ≤
      Task.restAll project w ts := by
    induction ts with
    | nil => exact Nat.le_refl _
    | cons t ts ih =>
      cases t with
      | loading id => exact Nat.add_le_add_left ih _
      | resolving d => exact Nat.add_le_add_left ih _
      | done m => exact Nat.le_trans ih (Nat.le_add_left _ _)
  rw [Task.restAll_append, hnew, List.length_append, List.length_map]
  omega

section
variable {project : Project} {w : World} {limit : Option Nat} {D : Path → Prop}
  {P : Plan} {ids : List ModuleId}

theorem runTasks_rests (hw : w.Answers) (hg : project.Closed w limit D)
    (hb : P.Binds (project.rules w limit)) (hids : ∀ id, P.Needed id → id ∈ ids) (fuel : Nat)
    {p : Pass} {ts : List Task} {i : Inquiries}
    (hp : p.Advanced P (project.rules w limit).output []) (hc : p.Counted [])
    (hm : p.Matches ts) (hgood : ∀ id ∈ p.outstanding, D id.dir)
    (ht : ∀ t ∈ ts, t.Fits project w limit D ∧ t.module?.isNone = true)
    (hi : i.Steady limit D ⟨w.files, project.resolver.extensions⟩)
    (hf : Task.restAll project w ts + 4 * (ids.length - p.visited.length) ≤ fuel) :
    ∃ res, runTasks project w fuel p ts i = some res := by
  have hd := Project.discipline hw hg
  induction fuel generalizing p ts i with
  | zero =>
    cases ts with
    | nil => exact ⟨_, if_pos (hm.inFlight_nonpos hp.toTidy)⟩
    | cons t ts =>
      have hlt := Task.round_rest hw hi ht (List.cons_ne_nil _ _)
      omega
  | succ fuel ih =>
    cases ts with
    | nil => exact ⟨_, if_pos (hm.inFlight_nonpos hp.toTidy)⟩
    | cons t ts =>
      have hlt := Task.round_rest hw hi ht (List.cons_ne_nil _ _)
      obtain ⟨hi₁, ht₁, he₁⟩ := Task.round_keeps hd i (t :: ts) hi fun t h => (ht t h).1
      have hmore : ¬p.inFlight ≤ 0 := fun h =>
        absurd (hm.eq_nil (hp.toTidy.outstanding_eq_nil.mpr h)) (List.cons_ne_nil _ _)
      rw [runTasks, if_neg hmore]
      dsimp only
      generalize Task.round project w i (t :: ts) = out at hlt hi₁ ht₁ he₁
      obtain ⟨j, ts₁⟩ := out
      dsimp only at hlt hi₁ ht₁ he₁ ⊢
      obtain ⟨d1, d2, d3⟩ := deliverAll_runs hd hi₁.bridge.cancelled ts₁ p ht₁ hp.toTidy
        (he₁ ▸ hm.1) (fun id hid => (hm.2 id).mp (he₁ ▸ hid)) hgood
      have hproc := length_processed_deliverAll p project.lazyCompilation j.bridge.cancelled ts₁
      generalize p.deliverAll project.lazyCompilation j.bridge.cancelled ts₁ = p₁ at d1 d2 d3 hproc ⊢
      have hp₁ := hp.runs hb d1
      have hc₁ := hc.runs hb d1
      have hm₁ := matches_nextTasks hp₁.toTidy (he₁ ▸ hm.1) d3
      refine ih hp₁ hc₁ hm₁ d2 (nextTasks_keep hd d2 ht₁) hi₁ ?_
      -- Each id that is new adds the three steps of its task, and is paid for with four.
      have hlen := hm.length_eq hp.toTidy
      have hlen₁ := hm₁.length_eq hp₁.toTidy
      have hsame : ts₁.length = (t :: ts).length := by
        simpa only [List.length_map] using congrArg List.length he₁
      have hcount := hc.processed.length_eq
      have hcount₁ := hc₁.processed.length_eq
      simp only [List.length_append, List.length_nil] at hcount hcount₁
      have hle : p₁.visited.length ≤ ids.length :=
        hp₁.visited.length_le_of_subset fun x hx => hids x (hp₁.needed x hx)
      have hwait := length_waiting ts₁
      have hrest := restAll_nextTasks project w p₁ ts₁
      have hmore : (ts₁.filter (·.module?.isNone)).length ≤ (p₁.nextTasks ts₁).length := by
        unfold nextTasks
        exact List.length_append ▸ Nat.le_add_right ..
      omega

/-- A pass that may need only some ids comes to rest after so many rounds. -/
theorem run_rests (hw : w.Answers) (hg : project.Closed w limit D)
    (hb : P.Binds (project.rules w limit)) (hids : ∀ id, P.Needed id → id ∈ ids)
    {p : Pass} {i : Inquiries} (hp : p.Advanced P (project.rules w limit).output [])
    (hc : p.Counted []) (hgood : ∀ id ∈ p.outstanding, D id.dir)
    (hi : i.Steady limit D ⟨w.files, project.resolver.extensions⟩) :
    ∃ N, ∀ fuel ≥ N, ∃ res, p.run project w fuel i = some res := by
  refine ⟨_, fun fuel hf => runTasks_rests hw hg hb hids fuel hp hc
    (matches_nextTasks hp.toTidy .nil fun _ h => nomatch h) hgood
    (nextTasks_keep (Project.discipline hw hg) hgood fun _ h => nomatch h) hi hf⟩

end

end Pass

end Bundler
