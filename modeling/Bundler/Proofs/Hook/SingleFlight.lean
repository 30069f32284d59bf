import Mathlib.Data.Finset.Card
import Bundler.Proofs.Hook.Steady

/-!
# Single flight

Callers, the host, the time limit and the cancellation take their turns in any order. A question is
on its way to the host at most once at a time; a caller gets the outcome of one trip for its own
key, which it started or which held the slot of the key when it asked; and a slot is free once
nobody waits for its trip. The invariant ties the slots to the trips and to the callers that wait,
and it is kept by each step, so that the order of the steps plays no part.
-/

namespace Bundler

namespace Flights

set_option linter.unusedSectionVars false

/-! ## Steps -/

/-- What happens to flights, with the trip that it is about. -/
inductive Move (κ α : Type)
  | join (caller : Nat) (key : κ) (trip : Nat)
  | finish (trip : Nat) (o : Outcome α)
  | settle (caller trip : Nat) (o : Outcome α)

def Move.caller? {κ α : Type} : Move κ α → Option Nat
  | .join caller _ _ => some caller
  | .finish _ _ => none
  | .settle caller _ _ => some caller

def Move.joined? {κ α : Type} : Move κ α → Option Nat
  | .join _ _ trip => some trip
  | _ => none

section
variable {κ α : Type} [DecidableEq κ] {f g : Flights κ α} {m : Move κ α} {ms : List (Move κ α)}
  {caller n : Nat} {key : κ} {o : Outcome α}

/-- A caller asks while it does not wait; a trip under way ends, but not in a breakdown; a caller
takes the outcome of the trip that it waits for. -/
inductive Step (f : Flights κ α) : Move κ α → Flights κ α → Prop
  | join {caller n : Nat} {key : κ} (hfree : f.tripOf? caller = none)
      (hn : (f.join caller key).tripOf? caller = some n) :
      Step f (.join caller key n) (f.join caller key)
  | finish {n : Nat} {key : κ} {o : Outcome α} (hn : f.trips[n]? = some ⟨key, none⟩)
      (ho : ∀ reason, o ≠ .panicked reason) : Step f (.finish n o) (f.finish n o)
  | settle {caller n : Nat} {o : Outcome α} (hn : f.tripOf? caller = some n)
      (ho : (f.settle caller).2 = some o) : Step f (.settle caller n o) (f.settle caller).1

/-- What comes of flights in which nothing was asked, with the moves, the last one first. -/
inductive Run : List (Move κ α) → Flights κ α → Prop
  | start : Run [] {}
  | step {ms : List (Move κ α)} {f g : Flights κ α} {m : Move κ α} (h : Run ms f)
      (hs : f.Step m g) : Run (m :: ms) g

/-! ## Slots and waiting callers -/

theorem find_fst {β γ : Type} [DecidableEq β] {l : List (β × γ)} (h : (l.map (·.1)).Nodup)
    {b : β} {c : γ} : ((l.find? fun x => x.1 = b).map (·.2) = some c) ↔ (b, c) ∈ l := by
  induction l with
  | nil => simp
  | cons x l ih =>
    obtain ⟨b', c'⟩ := x
    simp only [List.map_cons, List.nodup_cons] at h
    by_cases hb : b' = b
    · subst hb
      have hnot : (b', c) ∉ l := fun hm => h.1 (List.mem_map_of_mem (f := (·.1)) hm)
      simp [hnot, eq_comm]
    · simp only [List.find?_cons, hb, decide_false, List.mem_cons, Prod.mk.injEq, Ne.symm hb,
        false_and, false_or]
      exact ih h.2

theorem getElem?_concat_eq_some {β : Type} {l : List β} {a b : β} {i : Nat} :
    (l ++ [a])[i]? = some b ↔ l[i]? = some b ∨ i = l.length ∧ b = a := by
  grind

/-- A slot is held by a trip of its key for which somebody waits, and a trip that is under way
holds the slot of its key. -/
structure Sound (f : Flights κ α) : Prop where
  keys : (f.slots.map (·.1)).Nodup
  callers : (f.waiting.map (·.1)).Nodup
  held : ∀ key n, (key, n) ∈ f.slots → ∃ o, f.trips[n]? = some ⟨key, o⟩
  awaited : ∀ key n, (key, n) ∈ f.slots → ∃ caller, (caller, n) ∈ f.waiting
  underWay : ∀ key n, f.trips[n]? = some ⟨key, none⟩ → (key, n) ∈ f.slots
  waits : ∀ caller n, (caller, n) ∈ f.waiting → n < f.trips.length
  unbroken : ∀ (n : Nat) (t : Trip κ α) (reason : String), f.trips[n]? = some t →
    t.outcome ≠ some (.panicked reason)

theorem Sound.empty : Sound ({} : Flights κ α) :=
  ⟨.nil, .nil, fun _ _ h => (nomatch h), fun _ _ h => (nomatch h), fun _ _ h => (nomatch h),
    fun _ _ h => (nomatch h), fun _ _ _ h => (nomatch h)⟩

theorem Sound.slot?_eq_some (h : f.Sound) : f.slot? key = some n ↔ (key, n) ∈ f.slots :=
  find_fst h.keys

theorem Sound.tripOf?_eq_some (h : f.Sound) :
    f.tripOf? caller = some n ↔ (caller, n) ∈ f.waiting := find_fst h.callers

theorem not_mem_callers (h : (f.waiting.map (·.1)).Nodup) (hfree : f.tripOf? caller = none) :
    caller ∉ f.waiting.map (·.1) := by
  intro hm
  obtain ⟨⟨c, n⟩, hmem, rfl⟩ := List.mem_map.mp hm
  rw [tripOf?, (find_fst h).mpr hmem] at hfree
  cases hfree

/-! ## One step at a time -/

theorem join_of_slot (hslot : f.slot? key = some n) (caller : Nat) :
    f.join caller key = { f with waiting := f.waiting ++ [(caller, n)] } := by
  simp only [join, hslot]

theorem join_of_free (hslot : f.slot? key = none) (caller : Nat) :
    f.join caller key =
      { trips := f.trips ++ [⟨key, none⟩]
        slots := (key, f.trips.length) :: f.slots
        waiting := f.waiting ++ [(caller, f.trips.length)] } := by
  simp only [join, hslot]

theorem nodup_concat (h : (f.waiting.map (·.1)).Nodup) (hfree : f.tripOf? caller = none) (n : Nat) :
    ((f.waiting ++ [(caller, n)]).map (·.1)).Nodup := by
  rw [List.map_append, List.nodup_append]
  refine ⟨h, by simp, ?_⟩
  intro a ha b hb hab
  simp only [List.map_cons, List.map_nil, List.mem_singleton] at hb
  rw [hab, hb] at ha
  exact not_mem_callers h hfree ha

theorem join_cases (h : (f.waiting.map (·.1)).Nodup) (hfree : f.tripOf? caller = none)
    (hn : (f.join caller key).tripOf? caller = some n) :
    f.slot? key = some n ∧
      f.join caller key = { f with waiting := f.waiting ++ [(caller, n)] } ∨
    f.slot? key = none ∧ n = f.trips.length ∧
      f.join caller key =
        { trips := f.trips ++ [⟨key, none⟩]
          slots := (key, n) :: f.slots
          waiting := f.waiting ++ [(caller, n)] } := by
  have hlast : ∀ i, (caller, n) ∈ f.waiting ++ [(caller, i)] → n = i := by
    intro i hm
    rcases List.mem_append.mp hm with hm | hm
    · exact absurd (List.mem_map_of_mem (f := (·.1)) hm) (not_mem_callers h hfree)
    · cases List.mem_singleton.mp hm
      rfl
  cases hslot : f.slot? key with
  | some i =>
    rw [join_of_slot hslot] at hn ⊢
    obtain rfl := hlast i ((find_fst (nodup_concat h hfree i)).mp hn)
    exact .inl ⟨rfl, rfl⟩
  | none =>
    rw [join_of_free hslot] at hn ⊢
    obtain rfl := hlast _ ((find_fst (nodup_concat h hfree f.trips.length)).mp hn)
    exact .inr ⟨rfl, rfl, rfl⟩

theorem Sound.share (h : f.Sound) (hfree : f.tripOf? caller = none)
    (hslot : f.slot? key = some n) :
    ({ f with waiting := f.waiting ++ [(caller, n)] } : Flights κ α).Sound where
  keys := h.keys
  callers := nodup_concat h.callers hfree n
  held := h.held
  awaited k i hk := by
    obtain ⟨c, hc⟩ := h.awaited k i hk
    exact ⟨c, List.mem_append_left _ hc⟩
  underWay := h.underWay
  waits c i hc := by
    rcases List.mem_append.mp hc with hc | hc
    · exact h.waits c i hc
    · cases List.mem_singleton.mp hc
      obtain ⟨o, ho⟩ := h.held key n (h.slot?_eq_some.mp hslot)
      exact (List.getElem?_eq_some_iff.mp ho).1
  unbroken := h.unbroken

theorem Sound.start (h : f.Sound) (hfree : f.tripOf? caller = none) (hslot : f.slot? key = none) :
    ({ trips := f.trips ++ [⟨key, none⟩]
       slots := (key, f.trips.length) :: f.slots
       waiting := f.waiting ++ [(caller, f.trips.length)] } : Flights κ α).Sound where
  keys := by
    rw [List.map_cons, List.nodup_cons]
    refine ⟨fun hk => ?_, h.keys⟩
    obtain ⟨⟨k, i⟩, hm, rfl⟩ := List.mem_map.mp hk
    rw [h.slot?_eq_some.mpr hm] at hslot
    cases hslot
  callers := nodup_concat h.callers hfree _
  held k i hk := by
    rcases List.mem_cons.mp hk with hk | hk
    · cases hk
      exact ⟨none, getElem?_concat_eq_some.mpr (.inr ⟨rfl, rfl⟩)⟩
    · obtain ⟨o, ho⟩ := h.held k i hk
      exact ⟨o, getElem?_concat_eq_some.mpr (.inl ho)⟩
  awaited k i hk := by
    rcases List.mem_cons.mp hk with hk | hk
    · cases hk
      exact ⟨caller, List.mem_append_right _ (List.mem_singleton.mpr rfl)⟩
    · obtain ⟨c, hc⟩ := h.awaited k i hk
      exact ⟨c, List.mem_append_left _ hc⟩
  underWay k i hi := by
    rcases getElem?_concat_eq_some.mp hi with hi | ⟨rfl, he⟩
    · exact List.mem_cons_of_mem _ (h.underWay k i hi)
    · cases he
      exact List.mem_cons_self
  waits c i hc := by
    rw [List.length_append, List.length_singleton]
    rcases List.mem_append.mp hc with hc | hc
    · exact Nat.lt_succ_of_lt (h.waits c i hc)
    · cases List.mem_singleton.mp hc
      exact Nat.lt_succ_self _
  unbroken i t reason hi := by
    rcases getElem?_concat_eq_some.mp hi with hi | ⟨-, rfl⟩
    · exact h.unbroken i t reason hi
    · simp

theorem Sound.join (h : f.Sound) (hfree : f.tripOf? caller = none) (key : κ) :
    (f.join caller key).Sound := by
  cases hslot : f.slot? key with
  | some n =>
    rw [join_of_slot hslot]
    exact h.share hfree hslot
  | none =>
    rw [join_of_free hslot]
    exact h.start hfree hslot

theorem trips_finish (f : Flights κ α) (n : Nat) (o : Outcome α) (i : Nat) :
    (f.finish n o).trips[i]? = (f.trips[i]?).map fun t =>
      if i = n ∧ t.outcome = none then { t with outcome := some o } else t := by
  simp only [finish, List.getElem?_modify]
  by_cases hi : n = i
  · subst hi
    cases ht : f.trips[n]? with
    | none => simp
    | some t => obtain ⟨k, _ | o'⟩ := t <;> simp
  · simp [hi, Ne.symm hi]

theorem length_finish (f : Flights κ α) (n : Nat) (o : Outcome α) :
    (f.finish n o).trips.length = f.trips.length := by simp [finish]

theorem Sound.finish (h : f.Sound) (n : Nat) (ho : ∀ reason, o ≠ .panicked reason) :
    (f.finish n o).Sound where
  keys := h.keys
  callers := h.callers
  held k i hk := by
    obtain ⟨o', ho'⟩ := h.held k i hk
    rw [trips_finish, ho', Option.map_some]
    split
    · exact ⟨some o, rfl⟩
    · exact ⟨o', rfl⟩
  awaited := h.awaited
  underWay k i hi := by
    rw [trips_finish] at hi
    obtain ⟨t, ht, he⟩ := Option.map_eq_some_iff.mp hi
    split at he
    · cases he
    · rw [he] at ht
      exact h.underWay k i ht
  waits c i hc := by
    rw [length_finish]
    exact h.waits c i hc
  unbroken i t reason hi := by
    rw [trips_finish] at hi
    obtain ⟨t', ht, rfl⟩ := Option.map_eq_some_iff.mp hi
    split
    · intro he
      exact ho reason (Option.some.inj he)
    · exact h.unbroken i t' reason ht

theorem Sound.settle_eq (h : f.Sound) (hn : f.tripOf? caller = some n)
    (ho : (f.settle caller).2 = some o) : ∃ key, f.trips[n]? = some ⟨key, some o⟩ ∧
      (f.settle caller).1 =
        { f with
          slots := f.slots.filter fun s => !(s.1 = key && s.2 = n)
          waiting := f.waiting.filter fun w => w.1 ≠ caller } := by
  cases ht : f.trips[n]? with
  | none => simp [settle, hn, ht] at ho
  | some t =>
    obtain ⟨key, _ | o'⟩ := t
    · simp [settle, hn, ht] at ho
    · have hp : ∀ reason, o' ≠ .panicked reason := by
        rintro reason rfl
        exact h.unbroken n _ reason ht rfl
      rw [Flights.settle_eq hn ht hp] at ho ⊢
      cases ho
      exact ⟨key, rfl, rfl⟩

theorem Sound.mem_filter_slots (h : f.Sound) {k : κ} {i : Nat}
    (ht : f.trips[n]? = some ⟨key, some o⟩) :
    (k, i) ∈ f.slots.filter (fun s => !(s.1 = key && s.2 = n)) ↔ (k, i) ∈ f.slots ∧ i ≠ n := by
  rw [List.mem_filter]
  refine and_congr_right fun hk => ⟨?_, fun hi => by simp [hi]⟩
  rintro hne rfl
  obtain ⟨o', ho'⟩ := h.held k i hk
  rw [ht] at ho'
  cases ho'
  simp at hne

theorem Sound.settle (h : f.Sound) (hn : f.tripOf? caller = some n)
    (ho : (f.settle caller).2 = some o) : (f.settle caller).1.Sound := by
  obtain ⟨key, ht, he⟩ := h.settle_eq hn ho
  rw [he]
  exact {
    keys := h.keys.sublist (List.filter_sublist.map _)
    callers := h.callers.sublist (List.filter_sublist.map _)
    held := fun k i hk => h.held k i ((h.mem_filter_slots ht).mp hk).1
    awaited := by
      intro k i hk
      obtain ⟨hslot, hne⟩ := (h.mem_filter_slots ht).mp hk
      obtain ⟨c, hc⟩ := h.awaited k i hslot
      -- A caller that waits for another trip is another caller.
      have hcc : c ≠ caller := by
        rintro rfl
        exact hne (Option.some.inj ((h.tripOf?_eq_some.mpr hc).symm.trans hn))
      exact ⟨c, List.mem_filter.mpr ⟨hc, by simpa using hcc⟩⟩
    underWay := by
      intro k i hi
      refine (h.mem_filter_slots ht).mpr ⟨h.underWay k i hi, ?_⟩
      rintro rfl
      rw [ht] at hi
      cases hi
    waits := fun c i hc => h.waits c i (List.mem_filter.mp hc).1
    unbroken := h.unbroken }

theorem Step.sound (hs : f.Step m g) (h : f.Sound) : g.Sound := by
  cases hs with
  | join hfree hn => exact h.join hfree _
  | finish hn ho => exact h.finish _ ho
  | settle hn ho => exact h.settle hn ho

theorem Run.sound (h : Run ms f) : f.Sound := by
  induction h with
  | start => exact .empty
  | step _ hs ih => exact hs.sound ih

/-! ## What the moves tell -/

/-- A caller asked for a key after some moves, got a trip, and has made no move since. -/
def Asked (ms : List (Move κ α)) (caller : Nat) (key : κ) (n : Nat)
    (earlier : List (Move κ α)) : Prop :=
  ∃ between, ms = between ++ .join caller key n :: earlier ∧
    ∀ m ∈ between, m.caller? ≠ some caller

/-- The trip that a caller gets for its key: it starts one that nobody had before, or takes the
one that holds the slot, under way or ended, of which nobody took the outcome. -/
inductive Got (earlier : List (Move κ α)) (key : κ) (n : Nat) : Prop
  | started {f : Flights κ α} (hr : Run earlier f) (hslot : f.slot? key = none)
      (hnew : n ∉ earlier.filterMap Move.joined?)
  | shared {f : Flights κ α} (hr : Run earlier f) (hslot : f.slot? key = some n)
      (hopen : ∀ caller o, .settle caller n o ∉ earlier)

/-- A caller that takes an outcome asked for the key of the trip, has waited since, and the trip
ended in this outcome and no other. -/
structure Served (before : List (Move κ α)) (caller n : Nat) (o : Outcome α) : Prop where
  asked : ∃ key earlier, Asked before caller key n earlier ∧ Got earlier key n
  ended : .finish n o ∈ before
  once : ∀ o', .finish n o' ∈ before → o' = o

/-- The trips, slots and waiting callers are what the moves made of them. -/
structure Told (ms : List (Move κ α)) (f : Flights κ α) : Prop where
  joined : ∀ n, n ∈ ms.filterMap Move.joined? ↔ n < f.trips.length
  keyed : ∀ caller key n, .join caller key n ∈ ms → ∃ o, f.trips[n]? = some ⟨key, o⟩
  ended : ∀ n o, .finish n o ∈ ms ↔ ∃ key, f.trips[n]? = some ⟨key, some o⟩
  settled : ∀ caller n o, .settle caller n o ∈ ms → n < f.trips.length
  unsettled : ∀ key n caller o, (key, n) ∈ f.slots → .settle caller n o ∉ ms
  waits : ∀ caller n, (caller, n) ∈ f.waiting →
    ∃ key earlier, Asked ms caller key n earlier ∧ Got earlier key n
  stays : ∀ caller key n earlier, Asked ms caller key n earlier → (caller, n) ∈ f.waiting
  served : ∀ later caller n o before, ms = later ++ .settle caller n o :: before →
    Served before caller n o

theorem joined_join : (.join caller key n :: ms : List (Move κ α)).filterMap Move.joined? =
    n :: ms.filterMap Move.joined? := rfl

theorem Told.empty : Told [] ({} : Flights κ α) where
  joined _ := by simp
  keyed _ _ _ h := nomatch h
  ended _ _ := by simp
  settled _ _ _ h := nomatch h
  unsettled _ _ _ _ h := nomatch h
  waits _ _ h := nomatch h
  stays _ _ _ _ h := by simp [Asked] at h
  served later _ _ _ _ h := by simp at h

theorem Asked.cons {earlier : List (Move κ α)} (h : Asked ms caller key n earlier)
    (hm : m.caller? ≠ some caller) : Asked (m :: ms) caller key n earlier := by
  obtain ⟨between, rfl, hb⟩ := h
  refine ⟨m :: between, rfl, ?_⟩
  intro m' hm'
  rcases List.mem_cons.mp hm' with rfl | hm'
  · exact hm
  · exact hb m' hm'

theorem Asked.of_cons {earlier : List (Move κ α)} (h : Asked (m :: ms) caller key n earlier) :
    m = .join caller key n ∨ m.caller? ≠ some caller ∧ Asked ms caller key n earlier := by
  obtain ⟨between, he, hb⟩ := h
  cases between with
  | nil => exact .inl (List.cons.inj he).1
  | cons m' between =>
    obtain ⟨rfl, rfl⟩ := List.cons.inj he
    exact .inr ⟨hb m List.mem_cons_self, between, rfl, fun i hi => hb i (.tail _ hi)⟩

theorem Told.served_cons (h : Told ms f)
    (hm : ∀ caller n o, m = .settle caller n o → Served ms caller n o) :
    ∀ later caller n o before, m :: ms = later ++ .settle caller n o :: before →
      Served before caller n o := by
  intro later caller n o before he
  cases later with
  | nil =>
    cases he
    exact hm caller n o rfl
  | cons m' later => exact h.served later caller n o before (List.cons.inj he).2

theorem Told.waits_concat (h : Told ms f) (hs : f.Sound) (hfree : f.tripOf? caller = none)
    (hgot : Got ms key n) : ∀ c i, (c, i) ∈ f.waiting ++ [(caller, n)] →
      ∃ k earlier, Asked (.join caller key n :: ms) c k i earlier ∧ Got earlier k i := by
  intro c i hc
  rcases List.mem_append.mp hc with hc | hc
  · obtain ⟨k, earlier, ha, hg⟩ := h.waits c i hc
    refine ⟨k, earlier, ha.cons ?_, hg⟩
    intro he
    cases he
    exact not_mem_callers hs.callers hfree (List.mem_map_of_mem (f := (·.1)) hc)
  · cases List.mem_singleton.mp hc
    exact ⟨key, ms, ⟨[], rfl, fun _ h => nomatch h⟩, hgot⟩

theorem Told.stays_concat (h : Told ms f) : ∀ c k i earlier,
    Asked (.join caller key n :: ms) c k i earlier → (c, i) ∈ f.waiting ++ [(caller, n)] := by
  intro c k i earlier ha
  rcases ha.of_cons with he | ⟨-, ha⟩
  · cases he
    exact List.mem_append_right _ (List.mem_singleton.mpr rfl)
  · exact List.mem_append_left _ (h.stays c k i earlier ha)

theorem Told.share (h : Told ms f) (hs : f.Sound) (hr : Run ms f)
    (hfree : f.tripOf? caller = none) (hslot : f.slot? key = some n) :
    Told (.join caller key n :: ms) { f with waiting := f.waiting ++ [(caller, n)] } where
  joined i := by
    rw [joined_join, List.mem_cons, h.joined i]
    refine or_iff_right_of_imp ?_
    rintro rfl
    obtain ⟨o, ho⟩ := hs.held key i (hs.slot?_eq_some.mp hslot)
    exact (List.getElem?_eq_some_iff.mp ho).1
  keyed c k i hm := by
    rcases List.mem_cons.mp hm with hm | hm
    · cases hm
      exact hs.held key n (hs.slot?_eq_some.mp hslot)
    · exact h.keyed c k i hm
  ended i o := by
    rw [List.mem_cons, or_iff_right nofun]
    exact h.ended i o
  settled c i o hm := h.settled c i o (List.mem_of_ne_of_mem (by nofun) hm)
  unsettled k i c o hk hm := h.unsettled k i c o hk (List.mem_of_ne_of_mem (by nofun) hm)
  waits := h.waits_concat hs hfree
    (.shared hr hslot fun c o => h.unsettled key n c o (hs.slot?_eq_some.mp hslot))
  stays := h.stays_concat
  served := h.served_cons nofun

theorem Told.start (h : Told ms f) (hs : f.Sound) (hr : Run ms f)
    (hfree : f.tripOf? caller = none) (hslot : f.slot? key = none) :
    Told (.join caller key f.trips.length :: ms)
      { trips := f.trips ++ [⟨key, none⟩]
        slots := (key, f.trips.length) :: f.slots
        waiting := f.waiting ++ [(caller, f.trips.length)] } where
  joined i := by
    rw [joined_join, List.mem_cons, h.joined i, List.length_append, List.length_singleton]
    omega
  keyed c k i hm := by
    rcases List.mem_cons.mp hm with hm | hm
    · cases hm
      exact ⟨none, getElem?_concat_eq_some.mpr (.inr ⟨rfl, rfl⟩)⟩
    · obtain ⟨o, ho⟩ := h.keyed c k i hm
      exact ⟨o, getElem?_concat_eq_some.mpr (.inl ho)⟩
  ended i o := by
    rw [List.mem_cons, or_iff_right nofun, h.ended i o]
    refine exists_congr fun k => ?_
    rw [getElem?_concat_eq_some, or_iff_left (fun he => nomatch he.2)]
  settled c i o hm := by
    rw [List.length_append, List.length_singleton]
    exact Nat.lt_succ_of_lt (h.settled c i o (List.mem_of_ne_of_mem (by nofun) hm))
  unsettled k i c o hk hm := by
    have hm := List.mem_of_ne_of_mem (by nofun) hm
    rcases List.mem_cons.mp hk with hk | hk
    · cases hk
      exact Nat.lt_irrefl _ (h.settled c _ o hm)
    · exact h.unsettled k i c o hk hm
  waits := h.waits_concat hs hfree
    (.started hr hslot fun hm => Nat.lt_irrefl _ ((h.joined _).mp hm))
  stays := h.stays_concat
  served := h.served_cons nofun

theorem Told.join (h : Told ms f) (hs : f.Sound) (hr : Run ms f) (hfree : f.tripOf? caller = none)
    (hn : (f.join caller key).tripOf? caller = some n) :
    Told (.join caller key n :: ms) (f.join caller key) := by
  rcases join_cases hs.callers hfree hn with ⟨hslot, he⟩ | ⟨hslot, rfl, he⟩
  · rw [he]
    exact h.share hs hr hfree hslot
  · rw [he]
    exact h.start hs hr hfree hslot

theorem Told.finish (h : Told ms f) (hn : f.trips[n]? = some ⟨key, none⟩) (o : Outcome α) :
    Told (.finish n o :: ms) (f.finish n o) where
  joined i := by
    rw [length_finish, List.filterMap_cons_none rfl]
    exact h.joined i
  keyed c k i hm := by
    obtain ⟨o', ho'⟩ := h.keyed c k i (List.mem_of_ne_of_mem (by nofun) hm)
    rw [trips_finish, ho', Option.map_some]
    split
    · exact ⟨some o, rfl⟩
    · exact ⟨o', rfl⟩
  ended i o' := by
    rw [List.mem_cons, Move.finish.injEq, h.ended i o', trips_finish]
    by_cases hi : i = n
    · subst hi
      simp [hn, eq_comm]
    · simp [hi]
  settled c i o' hm := by
    rw [length_finish]
    exact h.settled c i o' (List.mem_of_ne_of_mem (by nofun) hm)
  unsettled k i c o' hk hm := h.unsettled k i c o' hk (List.mem_of_ne_of_mem (by nofun) hm)
  waits c i hc := by
    obtain ⟨k, earlier, ha, hg⟩ := h.waits c i hc
    exact ⟨k, earlier, ha.cons nofun, hg⟩
  stays c k i earlier ha := by
    rcases ha.of_cons with he | ⟨-, ha⟩
    · cases he
    · exact h.stays c k i earlier ha
  served := h.served_cons nofun

theorem Told.settle (h : Told ms f) (hs : f.Sound) (hn : f.tripOf? caller = some n)
    (ho : (f.settle caller).2 = some o) :
    Told (.settle caller n o :: ms) (f.settle caller).1 := by
  obtain ⟨key, ht, he⟩ := hs.settle_eq hn ho
  have hserved : Served ms caller n o := by
    refine ⟨h.waits caller n (hs.tripOf?_eq_some.mp hn), (h.ended n o).mpr ⟨key, ht⟩, ?_⟩
    intro o' ho'
    obtain ⟨k, hk⟩ := (h.ended n o').mp ho'
    rw [ht] at hk
    cases hk
    rfl
  rw [he]
  exact {
    joined := by
      intro i
      rw [List.filterMap_cons_none rfl]
      exact h.joined i
    keyed := fun c k i hm => h.keyed c k i (List.mem_of_ne_of_mem (by nofun) hm)
    ended := by
      intro i o'
      rw [List.mem_cons, or_iff_right nofun]
      exact h.ended i o'
    settled := by
      intro c i o' hm
      rcases List.mem_cons.mp hm with hm | hm
      · cases hm
        exact (List.getElem?_eq_some_iff.mp ht).1
      · exact h.settled c i o' hm
    unsettled := by
      intro k i c o' hk hm
      obtain ⟨hslot, hne⟩ := (hs.mem_filter_slots ht).mp hk
      rcases List.mem_cons.mp hm with hm | hm
      · cases hm
        exact hne rfl
      · exact h.unsettled k i c o' hslot hm
    waits := by
      intro c i hc
      obtain ⟨hc, hcc⟩ := List.mem_filter.mp hc
      obtain ⟨k, earlier, ha, hg⟩ := h.waits c i hc
      refine ⟨k, earlier, ha.cons ?_, hg⟩
      intro he
      cases he
      simp at hcc
    stays := by
      intro c k i earlier ha
      rcases ha.of_cons with he | ⟨hc, ha⟩
      · cases he
      · refine List.mem_filter.mpr ⟨h.stays c k i earlier ha, decide_eq_true ?_⟩
        rintro rfl
        exact hc rfl
    served := by
      refine h.served_cons ?_
      intro c i o' he
      cases he
      exact hserved }

theorem Step.told (hs : f.Step m g) (hr : Run ms f) (h : Told ms f) : Told (m :: ms) g := by
  cases hs with
  | join hfree hn => exact h.join hr.sound hr hfree hn
  | finish hn ho => exact h.finish hn _
  | settle hn ho => exact h.settle hr.sound hn ho

theorem Run.told (h : Run ms f) : Told ms f := by
  induction h with
  | start => exact .empty
  | step hr hs ih => exact hs.told hr ih

/-! ## Single flight -/

/-- What holds of flights whatever the order of the moves that led to them. -/
structure SingleFlight (ms : List (Move κ α)) (f : Flights κ α) : Prop where
  /-- No two trips for one key are under way. -/
  alone : ∀ (key : κ) (n i : Nat), f.trips[n]? = some ⟨key, none⟩ →
    f.trips[i]? = some ⟨key, none⟩ → n = i
  /-- A trip is for the key of each caller that got it. -/
  keyed : ∀ caller key n, .join caller key n ∈ ms → ∃ o, f.trips[n]? = some ⟨key, o⟩
  /-- A caller that took an outcome took that of the one trip it got for its key. -/
  served : ∀ later caller n o before, ms = later ++ .settle caller n o :: before →
    Served before caller n o
  /-- A caller that took no outcome since it asked waits for its trip. -/
  waits : ∀ caller n, f.tripOf? caller = some n ↔ ∃ key earlier, Asked ms caller key n earlier
  /-- It can take the outcome once the trip has ended. -/
  ready : ∀ (caller : Nat) (key : κ) (n : Nat) (o : Outcome α), f.tripOf? caller = some n →
    f.trips[n]? = some ⟨key, some o⟩ → f.Step (.settle caller n o) (f.settle caller).1
  /-- The trips are those that some caller got. -/
  issued : f.issued = (ms.filterMap Move.joined?).toFinset.card
  /-- Who takes the outcome of a trip leaves the slots of the other trips alone. -/
  kept : ∀ caller n o g, f.Step (.settle caller n o) g →
    ∀ key i, i ≠ n → f.slot? key = some i → g.slot? key = some i
  /-- No slot is held when nobody waits. -/
  free : (∀ caller, f.tripOf? caller = none) → f.inFlight = 0

theorem Sound.alone (h : f.Sound) {i : Nat} (hn : f.trips[n]? = some ⟨key, none⟩)
    (hi : f.trips[i]? = some ⟨key, none⟩) : n = i := by
  have hslot := h.slot?_eq_some.mpr (h.underWay key n hn)
  rw [h.slot?_eq_some.mpr (h.underWay key i hi)] at hslot
  exact (Option.some.inj hslot).symm

theorem Sound.ready (h : f.Sound) (hn : f.tripOf? caller = some n)
    (ht : f.trips[n]? = some ⟨key, some o⟩) :
    f.Step (.settle caller n o) (f.settle caller).1 := by
  refine .settle hn ?_
  rw [Flights.settle_eq hn ht fun reason he => h.unbroken n _ reason ht (congrArg some he)]

theorem Sound.kept (h : f.Sound) (hs : f.Step (.settle caller n o) g) {i : Nat} (hne : i ≠ n)
    (hslot : f.slot? key = some i) : g.slot? key = some i := by
  have hg := hs.sound h
  cases hs with
  | settle hn ho =>
    obtain ⟨k, ht, he⟩ := h.settle_eq hn ho
    rw [hg.slot?_eq_some, he]
    exact (h.mem_filter_slots ht).mpr ⟨h.slot?_eq_some.mp hslot, hne⟩

theorem Sound.free (h : f.Sound) (hw : ∀ caller, f.tripOf? caller = none) : f.inFlight = 0 := by
  unfold inFlight
  rw [List.length_eq_zero_iff, List.eq_nil_iff_forall_not_mem]
  rintro ⟨key, n⟩ hm
  obtain ⟨caller, hc⟩ := h.awaited key n hm
  have hn := h.tripOf?_eq_some.mpr hc
  rw [hw caller] at hn
  cases hn

theorem Told.issued (h : Told ms f) : f.issued = (ms.filterMap Move.joined?).toFinset.card := by
  have hrange : (ms.filterMap Move.joined?).toFinset = Finset.range f.issued := by
    ext n
    rw [List.mem_toFinset, Finset.mem_range]
    exact h.joined n
  rw [hrange, Finset.card_range]

theorem Run.flown (h : Run ms f) : SingleFlight ms f where
  alone _ _ _ := h.sound.alone
  keyed := h.told.keyed
  served := h.told.served
  waits caller n := by
    rw [h.sound.tripOf?_eq_some]
    refine ⟨fun hm => ?_, fun ⟨key, earlier, ha⟩ => h.told.stays caller key n earlier ha⟩
    obtain ⟨key, earlier, ha, -⟩ := h.told.waits caller n hm
    exact ⟨key, earlier, ha⟩
  ready _ _ _ _ := h.sound.ready
  issued := h.told.issued
  kept _ _ _ _ hs _ _ := h.sound.kept hs
  free := h.sound.free

end

end Flights

/-! ## The two sides of a bridge -/

namespace Bridge

inductive Move
  | resolve (m : Flights.Move ResolveRequest ResolveAnswer)
  | load (m : Flights.Move String LoadAnswer)
  | cancel

def Move.resolve? : Move → Option (Flights.Move ResolveRequest ResolveAnswer)
  | .resolve m => some m
  | _ => none

def Move.load? : Move → Option (Flights.Move String LoadAnswer)
  | .load m => some m
  | _ => none

/-- How a trip may end: the host answers or rejects, the time limit passes, or the session is
cancelled. -/
def MayEnd {α : Type} (b : Bridge) : Outcome α → Prop
  | .answered _ | .failed (.rejected _) => True
  | .failed .cancelled => b.cancelled = true
  | .failed (.timedOut ms) => b.limit = some ms
  | .panicked _ => False

inductive Step (b : Bridge) : Move → Bridge → Prop
  | resolve {m : Flights.Move ResolveRequest ResolveAnswer}
      {f : Flights ResolveRequest ResolveAnswer} (hs : b.resolving.Step m f)
      (hend : ∀ n o, m = .finish n o → b.MayEnd o) : Step b (.resolve m) { b with resolving := f }
  | load {m : Flights.Move String LoadAnswer} {f : Flights String LoadAnswer}
      (hs : b.loading.Step m f) (hend : ∀ n o, m = .finish n o → b.MayEnd o) :
      Step b (.load m) { b with loading := f }
  | cancel : Step b .cancel b.cancel

/-- What comes of a bridge in which nothing was asked, with the moves, the last one first. -/
inductive Run (limit : Option Nat) : List Move → Bridge → Prop
  | start : Run limit [] { limit }
  | step {ms : List Move} {b c : Bridge} {m : Move} (h : Run limit ms b) (hs : b.Step m c) :
      Run limit (m :: ms) c

section
variable {limit : Option Nat} {ms : List Move} {b : Bridge}

theorem Run.resolving (h : Run limit ms b) :
    Flights.Run (ms.filterMap Move.resolve?) b.resolving := by
  induction h with
  | start => exact .start
  | step _ hs ih =>
    cases hs with
    | resolve hs hend => exact ih.step hs
    | load hs hend => exact ih
    | cancel => exact ih

theorem Run.loading (h : Run limit ms b) : Flights.Run (ms.filterMap Move.load?) b.loading := by
  induction h with
  | start => exact .start
  | step _ hs ih =>
    cases hs with
    | resolve hs hend => exact ih
    | load hs hend => exact ih.step hs
    | cancel => exact ih

/-- Whatever the order in which callers ask, the host answers or rejects, time limits pass, the
session is cancelled and callers take their outcomes: both sides of the bridge are in single
flight, what was issued are the trips of both, and nothing is in flight when nobody waits. -/
theorem Run.single_flight (h : Run limit ms b) :
    Flights.SingleFlight (ms.filterMap Move.resolve?) b.resolving ∧
    Flights.SingleFlight (ms.filterMap Move.load?) b.loading ∧
    b.issued = ((ms.filterMap Move.resolve?).filterMap Flights.Move.joined?).toFinset.card +
      ((ms.filterMap Move.load?).filterMap Flights.Move.joined?).toFinset.card ∧
    ((∀ caller, b.resolving.tripOf? caller = none ∧ b.loading.tripOf? caller = none) →
      b.inFlight = 0) := by
  have hr := h.resolving.flown
  have hl := h.loading.flown
  refine ⟨hr, hl, ?_, ?_⟩
  · rw [issued, hr.issued, hl.issued]
  · intro hw
    rw [inFlight, hr.free fun caller => (hw caller).1, hl.free fun caller => (hw caller).2]

end

/-- Two callers share a trip. The first takes its outcome, a third starts another trip for the same
module, and then the second takes the outcome of the old one. -/
def lateSettle : List Move :=
  [.load (.settle 2 0 (.answered none)), .load (.join 3 "./a.js" 1),
    .load (.settle 1 0 (.answered none)), .cancel, .load (.finish 0 (.answered none)),
    .load (.join 2 "./a.js" 0), .load (.join 1 "./a.js" 0)]

def lateBridge : Bridge :=
  { cancelled := true
    limit := some 50
    loading :=
      { trips := [⟨"./a.js", some (.answered none)⟩, ⟨"./a.js", none⟩]
        slots := [("./a.js", 1)]
        waiting := [(3, 1)] } }

theorem run_lateSettle : Run (some 50) lateSettle lateBridge := by
  have hshared : Run (some 50) (lateSettle.drop 5) _ :=
    .step (.step .start (.load (.join rfl rfl) nofun)) (.load (.join rfl rfl) nofun)
  have hanswered := hshared.step (m := .load (.finish 0 (.answered none)))
    (.load (.finish rfl nofun) fun n o he => by cases he; trivial)
  exact (((hanswered.step .cancel).step (.load (.settle rfl rfl) nofun)).step
    (.load (.join rfl rfl) nofun)).step (.load (.settle rfl rfl) nofun)

theorem single_flight_of_late_settle : Run (some 50) lateSettle lateBridge ∧
    Flights.SingleFlight (lateSettle.filterMap Move.resolve?) lateBridge.resolving ∧
    Flights.SingleFlight (lateSettle.filterMap Move.load?) lateBridge.loading ∧
    lateBridge.issued = 2 ∧ lateBridge.loading.slot? "./a.js" = some 1 :=
  have h := run_lateSettle.single_flight
  ⟨run_lateSettle, h.1, h.2.1, h.2.2.1.trans (by decide), rfl⟩

end Bridge

end Bundler
