import Bundler.Proofs.Build.Accounts
import Bundler.Proofs.Build.Seeding

/-!
# What ids are for a pass

An id is unknown to a pass, or stands for a module outside, for a placeholder, or for a module that
is loaded. Following a dependency changes that for its target only, and in a way that depends on
nothing but what the target is and what is asked of it.
-/

namespace Bundler

namespace Pass

/-! ## Roles -/

/-- What an id is for a pass. -/
inductive Role
  | absent
  | outside
  /-- A placeholder stands for it. -/
  | deferred
  /-- A task was started for it, or its module was there before. -/
  | loaded
deriving DecidableEq

/-- What a dependency asks of its target. -/
inductive Ask
  | outside
  | later
  | now
deriving DecidableEq

/-- How an id heeds what is asked of it. One that is outside is not loaded any more. -/
def Role.heed : Role → Ask → Role
  | .absent, .outside => .outside
  | .absent, .later => .deferred
  | .absent, .now => .loaded
  | .deferred, .now => .loaded
  | r, _ => r

namespace Role

def ofNode : Option Module → Role
  | none => .absent
  | some m => if m.isLazy then .deferred else if m.external then .outside else .loaded

theorem heed_of_ne_absent {r : Role} (hr : r ≠ .absent) {a : Ask} (ha : a ≠ .now) :
    r.heed a = r := by
  cases r <;> cases a <;> simp_all [heed]

theorem heed_now_now (r : Role) : (r.heed .now).heed .now = r.heed .now := by
  cases r <;> rfl

theorem foldl_outside (l : List Ask) : l.foldl heed .outside = .outside := by
  induction l with
  | nil => rfl
  | cons a l ih => cases a <;> exact ih

theorem foldl_loaded (l : List Ask) : l.foldl heed .loaded = .loaded := by
  induction l with
  | nil => rfl
  | cons a l ih => cases a <;> exact ih

theorem foldl_deferred {l : List Ask} (h : .now ∈ l) : l.foldl heed .deferred = .loaded := by
  induction l with
  | nil => cases h
  | cons a l ih =>
    cases a with
    | now => exact foldl_loaded l
    | outside => exact ih ((List.mem_cons.mp h).resolve_left fun e => nomatch e)
    | later => exact ih ((List.mem_cons.mp h).resolve_left fun e => nomatch e)

/-- An id that is asked for is loaded, unless the first who asks says that it is outside. -/
theorem foldl_absent {l : List Ask} (h : .now ∈ l) : l.foldl heed .absent =
    if l.head? = some .outside then .outside else .loaded := by
  cases l with
  | nil => cases h
  | cons a l =>
    cases a with
    | outside => exact foldl_outside l
    | now => exact foldl_loaded l
    | later => exact foldl_deferred ((List.mem_cons.mp h).resolve_left fun e => nomatch e)

end Role

/-- The role of an id in a pass. -/
def role (p : Pass) (id : ModuleId) : Role :=
  if id ∈ p.visited then .loaded else .ofNode (p.graph.get? id)

section
variable (r : Rules) (eager : List ModuleId) (id : ModuleId)

def Rules.ask (d : Dependency) : Ask :=
  if d.external then .outside
  else if r.lazyCompilation && !d.kind.isStatic && !eager.contains id then .later
  else .now

/-- What some dependencies ask of an id, one after the other. -/
def Rules.asks (ds : List Dependency) : List Ask :=
  (ds.filter (·.target = some id)).map (r.ask eager id)

theorem asks_append (ds ds' : List Dependency) :
    r.asks eager id (ds ++ ds') = r.asks eager id ds ++ r.asks eager id ds' := by
  unfold Rules.asks
  rw [List.filter_append, List.map_append]

end

/-! ## One step -/

section
variable {p : Pass} {x : ModuleId}

theorem visited_spawn (p : Pass) (c : Bool) (id : ModuleId) :
    (p.spawn c id).visited = id :: p.visited := by
  cases c <;> rfl

theorem role_spawn (p : Pass) (c : Bool) (id x : ModuleId) :
    (p.spawn c id).role x = if x = id then .loaded else p.role x := by
  unfold role
  rw [visited_spawn]
  by_cases hx : x = id
  · simp [hx]
  · simp [hx, get?_spawn_of_ne p c hx]

theorem role_record (p : Pass) (m : Module) (x : ModuleId) : (p.record m).role x =
    if x = m.id ∧ m.id ∉ p.visited then .ofNode (some m) else p.role x := by
  unfold role
  rw [get?_record]
  change (if x ∈ p.visited then _ else _) = _
  by_cases hv : x ∈ p.visited
  · have hno : ¬ (x = m.id ∧ m.id ∉ p.visited) := fun h => h.2 (h.1 ▸ hv)
    rw [if_pos hv, if_neg hno, if_pos hv]
  · by_cases hx : x = m.id
    · rw [if_neg hv, if_pos hx, if_pos ⟨hx, hx ▸ hv⟩]
    · rw [if_neg hv, if_neg hx, if_neg fun h => hx h.1, if_neg hv]

theorem role_ne_absent (h : p.graph.contains x = true ∨ x ∈ p.visited) : p.role x ≠ .absent := by
  unfold role
  by_cases hv : x ∈ p.visited
  · rw [if_pos hv]
    decide
  · obtain ⟨m, hm⟩ := ModuleGraph.contains_iff.mp (h.resolve_right hv)
    rw [if_neg hv, hm]
    unfold Role.ofNode
    dsimp only
    split
    · decide
    · split <;> decide

theorem role_enqueue (p : Pass) (c : Bool) (id x : ModuleId) : (p.enqueue c id).role x =
    if x = id then (p.role x).heed .now else p.role x := by
  have hspawn : p.role id = .absent ∨ p.role id = .deferred → (p.spawn c id).role x =
      if x = id then (p.role x).heed .now else p.role x := by
    intro hr
    rw [role_spawn]
    by_cases hx : x = id
    · rw [if_pos hx, if_pos hx, hx]
      rcases hr with hr | hr <;> rw [hr] <;> rfl
    · rw [if_neg hx, if_neg hx]
  have hstay : p.role id = .loaded ∨ p.role id = .outside → p.role x =
      if x = id then (p.role x).heed .now else p.role x := by
    intro hr
    by_cases hx : x = id
    · rw [if_pos hx, hx]
      rcases hr with hr | hr <;> rw [hr] <;> rfl
    · rw [if_neg hx]
  unfold enqueue
  by_cases hv : id ∈ p.visited
  · rw [if_pos (List.contains_iff_mem.mpr hv)]
    exact hstay (.inl (if_pos hv))
  rw [if_neg fun h => hv (List.contains_iff_mem.mp h)]
  have hrole : p.role id = .ofNode (p.graph.get? id) := if_neg hv
  cases hm : p.graph.get? id with
  | none => exact hspawn (.inl (by rw [hrole, hm]; rfl))
  | some m =>
    rw [hm] at hrole
    unfold Role.ofNode at hrole
    dsimp only at hrole ⊢
    by_cases hl : m.isLazy = true
    · rw [if_pos hl] at hrole ⊢
      exact hspawn (.inr hrole)
    · rw [if_neg hl] at hrole ⊢
      apply hstay
      rw [hrole]
      cases m.external <;> simp

theorem role_seed (p : Pass) (root : Path) (c : Bool) (name specifier : String) (r : Resolution)
    (x : ModuleId) : (p.seed root c name specifier r).role x =
      if r.entryId? = some x then (p.role x).heed .now else p.role x := by
  unfold seed Resolution.entryId?
  cases r.outcome with
  | error e => rfl
  | ok t =>
    cases hx : t.external with
    | true =>
      simp only [hx, if_true, reduceCtorEq, if_false]
      rfl
    | false =>
      simp only [hx, Bool.false_eq_true, if_false, role_enqueue, Option.some.injEq, eq_comm]
      rfl

theorem role_reprocess (p : Pass) (c : Bool) (id x : ModuleId) :
    (p.reprocess c id).role x = if x = id then .loaded else p.role x := by
  unfold reprocess
  split
  next hv =>
    by_cases hx : x = id
    · rw [if_pos hx]
      exact if_pos (hx ▸ List.contains_iff_mem.mp hv)
    · rw [if_neg hx]
  next => exact role_spawn p c id x

/-- A module that was not loaded makes something of an id only if nothing is known of it. -/
theorem role_record_unless {b : Bool} {m : Module} {a : Ask} (hn : a ≠ .now)
    (ha : Role.ofNode (some m) = Role.heed .absent a)
    (hb : b = true → p.graph.contains m.id = true ∨ m.id ∈ p.visited)
    (hc : b = false → p.graph.contains m.id = false) :
    (if b then p else p.record m).role x = if x = m.id then (p.role x).heed a else p.role x := by
  by_cases hx : x = m.id
  · subst hx
    rw [if_pos rfl]
    cases b with
    | true => exact (Role.heed_of_ne_absent (role_ne_absent (hb rfl)) hn).symm
    | false =>
      rw [if_neg (by decide), role_record]
      by_cases hv : m.id ∈ p.visited
      · have hrole : p.role m.id = .loaded := if_pos hv
        rw [if_neg fun h => h.2 hv, Role.heed_of_ne_absent (role_ne_absent (.inr hv)) hn]
      · have hrole : p.role m.id = .absent := by
          unfold role
          rw [if_neg hv, ModuleGraph.contains_eq_false.mp (hc rfl)]
          rfl
        rw [if_pos ⟨rfl, hv⟩, ha, hrole]
  · rw [if_neg hx]
    cases b with
    | true => rfl
    | false => rw [if_neg (by decide), role_record, if_neg fun h => hx h.1]

theorem role_follow_target (r : Rules) (p : Pass) (c : Bool) {d : Dependency} {t : ModuleId}
    (ht : d.target = some t) (x : ModuleId) : (p.follow r.lazyCompilation c d).role x =
      if x = t then (p.role x).heed (r.ask p.eager t d) else p.role x := by
  unfold follow Rules.ask
  rw [ht]
  dsimp only
  by_cases hx : d.external = true
  · rw [if_pos hx, if_pos hx]
    exact role_record_unless (m := .outside t) (by decide) rfl .inl fun h => h
  rw [if_neg hx, if_neg hx]
  by_cases hl : (r.lazyCompilation && !d.kind.isStatic && !p.eager.contains t) = true
  · rw [if_pos hl, if_pos hl]
    apply role_record_unless (m := .placeholder t) (by decide) rfl
    · intro h
      rwa [Bool.or_eq_true, List.contains_iff_mem] at h
    · intro h
      exact (Bool.or_eq_false_iff.mp h).1
  · rw [if_neg hl, if_neg hl]
    exact role_enqueue p c t x

theorem role_follow (r : Rules) (p : Pass) (c : Bool) (d : Dependency) (x : ModuleId) :
    (p.follow r.lazyCompilation c d).role x = (r.asks p.eager x [d]).foldl Role.heed (p.role x) := by
  unfold Rules.asks
  by_cases ht : d.target = some x
  · rw [List.filter_cons_of_pos (by simpa using ht), role_follow_target r p c ht, if_pos rfl]
    rfl
  · rw [List.filter_cons_of_neg (by simpa using ht)]
    cases hd : d.target with
    | none =>
      unfold follow
      rw [hd]
      rfl
    | some t =>
      rw [role_follow_target r p c hd, if_neg]
      · rfl
      · rintro rfl
        exact ht hd

/-! ## Steps in a row -/

theorem eager_spawn (p : Pass) (c : Bool) (id : ModuleId) : (p.spawn c id).eager = p.eager := by
  cases c <;> rfl

theorem eager_follow (p : Pass) (lazyCompilation c : Bool) (d : Dependency) :
    (p.follow lazyCompilation c d).eager = p.eager :=
  follow_keeps (I := fun q => q.eager = p.eager) rfl lazyCompilation c d (fun _ _ => rfl)
    (fun _ _ _ => rfl) fun t _ _ => eager_spawn p c t

theorem Follows.role {r : Rules} {ds : List Dependency} {q : Pass} (h : Follows r p ds q)
    (x : ModuleId) : q.role x = (r.asks p.eager x ds).foldl Role.heed (p.role x) := by
  induction h with
  | nil p => rfl
  | @cons p q d ds c _ _ ih =>
    rw [ih, eager_follow, role_follow, ← List.foldl_append, ← asks_append]
    rfl

end

end Pass

end Bundler
