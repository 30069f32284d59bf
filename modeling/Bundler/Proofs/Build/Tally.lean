import Bundler.Proofs.Build.Run

/-!
# What a pass tells of its progress

Each task that ends is told of with a count: how many ended, and how many were started so far. Both
are kept right by every step of a pass, and so is the count of tasks in flight, which tells when a
pass is at rest.
-/

namespace Bundler

namespace Pass

/-! ## Counts -/

/-- The events of tasks that ended one after the other. -/
def countedOff (totals : List Nat) : List ProgressEvent :=
  totals.mapIdx fun i total => .moduleDone (i + 1) total

/-- Totals of which none is below one before it, or below the number of tasks that ended, or above
the number of those that were started by now. -/
structure Truthful (started : Nat) (totals : List Nat) : Prop where
  rising : totals.Pairwise (· ≤ ·)
  ahead : ∀ i total, totals[i]? = some total → i + 1 ≤ total
  behind : ∀ total ∈ totals, total ≤ started

namespace Truthful

variable {started : Nat} {totals : List Nat}

theorem mono (h : Truthful started totals) {later : Nat} (hl : started ≤ later) :
    Truthful later totals :=
  ⟨h.rising, h.ahead, fun total ht => Nat.le_trans (h.behind total ht) hl⟩

/-- One more task ended. -/
theorem concat (h : Truthful started totals) (hn : totals.length < started) :
    Truthful started (totals ++ [started]) where
  rising := List.pairwise_append.mpr ⟨h.rising, List.pairwise_singleton _ _, fun a ha b hb => by
    rw [List.mem_singleton.mp hb]
    exact h.behind a ha⟩
  ahead i total ht := by
    rcases Nat.lt_trichotomy i totals.length with hi | rfl | hi
    · rw [List.getElem?_append_left hi] at ht
      exact h.ahead i total ht
    · rw [List.getElem?_concat_length] at ht
      cases ht
      exact hn
    · rw [List.getElem?_eq_none (by rw [List.length_append]; exact hi)] at ht
      cases ht
  behind total ht := by
    rcases List.mem_append.mp ht with ht | ht
    · exact h.behind total ht
    · exact Nat.le_of_eq (List.mem_singleton.mp ht)

/-- When all that were started have ended, the last total is their number. -/
theorem eq_of_getLast? (h : Truthful totals.length totals) {total : Nat}
    (ht : totals.getLast? = some total) : total = totals.length := by
  have hpos : totals.length ≠ 0 := fun h0 => by
    rw [List.length_eq_zero_iff.mp h0] at ht
    cases ht
  refine Nat.le_antisymm (h.behind total (List.mem_of_getLast? ht)) ?_
  rw [List.getLast?_eq_getElem?] at ht
  have := h.ahead _ _ ht
  omega

end Truthful

/-- What a pass has told so far, where the tasks of the ids in `ended` are over and their modules on
their way in. -/
structure Tallied (ended : List ModuleId) (p : Pass) : Prop extends p.Tidy where
  told : ∃ totals, p.events = countedOff totals ∧ totals.length = p.finished ∧
    Truthful p.spawned totals
  finished : p.finished = (p.delta.processed ++ ended).length
  spawned : p.spawned = p.finished + p.outstanding.length
  apart : (p.delta.processed ++ ended ++ p.outstanding).Nodup
  ran : ∀ id ∈ p.delta.processed ++ ended, id ∈ p.visited

namespace Tallied

variable {ended : List ModuleId} {p : Pass}

theorem new (g : ModuleGraph) (eager : List ModuleId) : Tallied [] { graph := g, eager } where
  toTidy := .new g eager
  told := ⟨[], rfl, rfl, .nil, nofun, nofun⟩
  finished := rfl
  spawned := rfl
  apart := .nil
  ran := nofun

theorem setGraph (h : p.Tallied ended) (g : ModuleGraph) :
    Tallied ended { p with graph := g } :=
  ⟨h.toTidy.of_eq rfl rfl rfl, h.told, h.finished, h.spawned, h.apart, h.ran⟩

theorem record (h : p.Tallied ended) (m : Module) : (p.record m).Tallied ended where
  toTidy := h.toTidy.of_eq rfl rfl rfl
  told := h.told
  finished := by rw [processed_record]; exact h.finished
  spawned := h.spawned
  apart := by rw [processed_record]; exact h.apart
  ran := by rw [processed_record]; exact h.ran

theorem spawn (h : p.Tallied ended) (c : Bool) {id : ModuleId} (hid : id ∉ p.visited) :
    (p.spawn c id).Tallied ended := by
  have hran : ∀ x ∈ p.delta.processed ++ ended, x ∈ id :: p.visited := fun x hx =>
    List.mem_cons_of_mem _ (h.ran x hx)
  refine ⟨h.toTidy.spawn c hid, ?_, ?_, ?_, ?_, ?_⟩
  all_goals cases c
  · obtain ⟨totals, he, hl, ht⟩ := h.told
    exact ⟨totals, he, hl, ht.mono (Nat.le_succ _)⟩
  · exact h.told
  · exact h.finished
  · rw [processed_spawn]
    exact h.finished
  · rw [spawn_false]
    dsimp only
    rw [List.length_append, h.spawned]
    rfl
  · exact h.spawned
  · rw [spawn_false]
    dsimp only
    rw [← List.append_assoc]
    refine List.nodup_append.mpr ⟨h.apart, by simp, fun a ha b hb => ?_⟩
    rw [List.mem_singleton.mp hb]
    rintro rfl
    rcases List.mem_append.mp ha with ha | ha
    · exact hid (h.ran a ha)
    · exact hid (h.started a ha)
  · rw [processed_spawn]
    exact h.apart
  · exact hran
  · rw [processed_spawn]
    exact hran

theorem enqueue (h : p.Tallied ended) (c : Bool) (id : ModuleId) : (p.enqueue c id).Tallied ended :=
  enqueue_keeps h c id fun hv _ => h.spawn c hv

theorem reprocess (h : p.Tallied ended) (c : Bool) (id : ModuleId) :
    (p.reprocess c id).Tallied ended :=
  reprocess_keeps h c id fun hv => h.spawn c hv

theorem seed (h : p.Tallied ended) (root : Path) (c : Bool) (name specifier : String)
    (r : Resolution) : (p.seed root c name specifier r).Tallied ended :=
  seed_keeps root c name specifier r (fun _ => h.setGraph _) fun id => (h.setGraph _).enqueue c id

theorem follow (h : p.Tallied ended) (lazyCompilation c : Bool) (d : Dependency) :
    (p.follow lazyCompilation c d).Tallied ended :=
  follow_keeps h lazyCompilation c d (fun _ _ => h.record _) (fun _ _ _ => h.record _)
    fun _ hv _ => h.spawn c hv

/-- A task ends, and that is told. -/
theorem takeIn (h : p.Tallied []) {id : ModuleId} (hid : id ∈ p.outstanding) :
    (p.takeIn id).Tallied [id] := by
  have happart := h.apart
  have hfinished := h.finished
  rw [List.append_nil] at happart hfinished
  have hpos := List.length_pos_of_mem hid
  have hlen : (p.outstanding.erase id).length = p.outstanding.length - 1 :=
    List.length_erase_of_mem hid
  have hspawned := h.spawned
  refine ⟨h.toTidy.takeIn hid, ?_, ?_, ?_, ?_, ?_⟩
  · obtain ⟨totals, he, hl, ht⟩ := h.told
    refine ⟨totals ++ [p.spawned], ?_, ?_, ht.concat (by omega)⟩
    · unfold countedOff at he ⊢
      rw [List.mapIdx_concat, ← he, hl]
      rfl
    · rw [List.length_append, hl]
      rfl
  · rw [List.length_append]
    exact congrArg (· + 1) hfinished
  · show p.spawned = p.finished + 1 + (p.outstanding.erase id).length
    omega
  · refine List.Perm.nodup ?_ happart
    rw [List.append_assoc]
    exact (List.perm_cons_erase hid).append_left _
  · intro x hx
    rcases List.mem_append.mp hx with hx | hx
    · exact h.ran x (List.mem_append_left _ hx)
    · exact List.mem_singleton.mp hx ▸ h.started id hid

theorem accept {m : Module} (h : p.Tallied [m.id]) : (p.accept m).Tallied [] where
  toTidy := h.toTidy.of_eq rfl rfl rfl
  told := h.told
  finished := by rw [processed_accept, List.append_nil]; exact h.finished
  spawned := h.spawned
  apart := by rw [processed_accept, List.append_nil]; exact h.apart
  ran := by rw [processed_accept, List.append_nil]; exact h.ran

section
variable {r : Rules} {root : Path} {q : Pass}

theorem seeds {entries : List ((String × String) × Resolution)} (h : p.Tallied ended)
    (he : Each r.seen (fun c p e => p.seed root c e.1.1 e.1.2 e.2) p entries q) :
    q.Tallied ended := he.keeps (fun c _ _ _ _ hs => hs.seed root c _ _ _) h

theorem reprocesses {ids : List ModuleId} (h : p.Tallied ended)
    (hr : Each r.seen (fun c p id => p.reprocess c id) p ids q) : q.Tallied ended :=
  hr.keeps (fun c _ id _ _ hs => hs.reprocess c id) h

theorem follows {ds : List Dependency} (h : p.Tallied ended) (hf : Follows r p ds q) :
    q.Tallied ended := Each.keeps hf (fun c _ d _ _ hs => hs.follow r.lazyCompilation c d) h

theorem begins {seeds : Seeds} (h : p.Tallied []) (hb : Begins r root seeds p q) :
    q.Tallied [] := by
  obtain ⟨he, hr⟩ := hb
  exact (h.seeds he).reprocesses hr

variable (hout : ∀ id m, r.output id m → m.id = id)
include hout

theorem delivers (h : p.Tallied []) (hd : Delivers r p q) : q.Tallied [] := by
  cases hd with
  | intro hid hm hf =>
    obtain rfl := hout _ _ hm
    exact ((h.takeIn hid).follows hf).accept

theorem runs (h : p.Tallied []) (hr : Runs r p q) : q.Tallied [] := by
  induction hr with
  | refl => exact h
  | tail _ hd ih => exact ih.delivers hout hd

end

/-- When a pass is at rest, all that it started was processed, each once. -/
theorem atRest (h : p.Tallied []) (ho : p.outstanding = []) :
    p.delta.processed.Nodup ∧ ∃ totals, p.events = countedOff totals ∧
      totals.length = p.delta.processed.length ∧ Truthful totals.length totals := by
  have happart := h.apart
  have hfinished := h.finished
  have hspawned := h.spawned
  rw [ho, List.append_nil, List.append_nil] at happart
  rw [List.append_nil] at hfinished
  rw [ho, List.length_nil, Nat.add_zero] at hspawned
  obtain ⟨totals, he, hl, ht⟩ := h.told
  refine ⟨happart, totals, he, hl.trans hfinished, ?_⟩
  rw [hl, ← hspawned]
  exact ht

end Tallied

/-! ## The states of a pass -/

/-- The states that a pass goes through: while it takes in its entries and the ids that it processes
again, between deliveries, and while it follows the dependencies of a module that was delivered. -/
inductive Occurs (r : Rules) (root : Path) (g : ModuleGraph) (eager : List ModuleId)
    (seeds : Seeds) : Pass → Prop
  | seeding {entries rest : List ((String × String) × Resolution)} {p : Pass}
      (hs : seeds.entries = entries ++ rest)
      (he : Each r.seen (fun c p e => p.seed root c e.1.1 e.1.2 e.2) { graph := g, eager } entries p) :
      Occurs r root g eager seeds p
  | reprocessing {ids rest : List ModuleId} {p q : Pass}
      (he : Each r.seen (fun c p e => p.seed root c e.1.1 e.1.2 e.2) { graph := g, eager }
        seeds.entries p)
      (hs : seeds.reprocessed = ids ++ rest)
      (hr : Each r.seen (fun c p id => p.reprocess c id) p ids q) : Occurs r root g eager seeds q
  | delivered {p q : Pass} (hb : Begins r root seeds { graph := g, eager } p) (hr : Runs r p q) :
      Occurs r root g eager seeds q
  | following {p q s : Pass} {id : ModuleId} {m : Module} {ds rest : List Dependency}
      (hb : Begins r root seeds { graph := g, eager } p) (hr : Runs r p q) (hid : id ∈ q.outstanding)
      (hm : r.output id m) (hd : m.dependencies = ds ++ rest) (hf : Follows r (q.takeIn id) ds s) :
      Occurs r root g eager seeds s

section
variable {r : Rules} {root : Path} {g : ModuleGraph} {eager : List ModuleId} {seeds : Seeds}
  {p : Pass} (hout : ∀ id m, r.output id m → m.id = id)
include hout

theorem Occurs.tallied (h : Occurs r root g eager seeds p) : ∃ ended, p.Tallied ended := by
  have h0 := Tallied.new g eager
  cases h with
  | seeding _ he => exact ⟨[], h0.seeds he⟩
  | reprocessing he _ hr => exact ⟨[], (h0.seeds he).reprocesses hr⟩
  | delivered hb hr => exact ⟨[], (h0.begins hb).runs hout hr⟩
  | following hb hr hid _ _ hf => exact ⟨_, (((h0.begins hb).runs hout hr).takeIn hid).follows hf⟩

/-- The count of tasks in flight is never below zero, and it is zero when none is outstanding. -/
theorem Occurs.inFlight (h : Occurs r root g eager seeds p) :
    0 ≤ p.inFlight ∧ (p.inFlight = 0 ↔ p.outstanding = []) := by
  obtain ⟨ended, ht⟩ := h.tallied hout
  rw [ht.toTidy.inFlight, ← List.length_eq_zero_iff]
  omega

theorem Completes.tallied (h : Completes r root g eager seeds p) :
    p.Tallied [] ∧ p.outstanding = [] := by
  obtain ⟨q, hb, hr, ho⟩ := h
  exact ⟨((Tallied.new g eager).begins hb).runs hout hr, ho⟩

end

end Pass

end Bundler
