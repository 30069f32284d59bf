import Bundler.Build.Process
import Bundler.Proofs.Hook.SingleFlight

/-!
# Breakdowns of the host

A caller whose trip breaks down breaks down with it, and so it never comes to giving the slot up.
The steps are those of single flight, with breakdowns among the endings of a trip. The invariant is
weaker: what holds a slot is awaited, or it is a trip of which the next caller learns that it broke
down. So a key is free once nobody waits for its trips, unless one of them broke down; then nothing
frees it again.
-/

namespace Bundler

namespace Flights

section
variable {κ α : Type} [DecidableEq κ] {f g : Flights κ α} {m : Move κ α} {ms : List (Move κ α)}
  {caller n : Nat} {key : κ} {o : Outcome α}

/-! ## Steps -/

/-- A caller asks while it does not wait; a trip under way ends, in whichever way; a caller takes
the outcome of the trip that it waits for. -/
inductive Turn (f : Flights κ α) : Move κ α → Flights κ α → Prop
  | join {caller n : Nat} {key : κ} (hfree : f.tripOf? caller = none)
      (hn : (f.join caller key).tripOf? caller = some n) :
      Turn f (.join caller key n) (f.join caller key)
  | finish {n : Nat} {key : κ} (hn : f.trips[n]? = some ⟨key, none⟩) (o : Outcome α) :
      Turn f (.finish n o) (f.finish n o)
  | settle {caller n : Nat} {o : Outcome α} (hn : f.tripOf? caller = some n)
      (ho : (f.settle caller).2 = some o) : Turn f (.settle caller n o) (f.settle caller).1

/-- What comes of flights in which nothing was asked, with the moves, the last one first. -/
inductive Course : List (Move κ α) → Flights κ α → Prop
  | start : Course [] {}
  | turn {ms : List (Move κ α)} {f g : Flights κ α} {m : Move κ α} (h : Course ms f)
      (ht : f.Turn m g) : Course (m :: ms) g

/-- A trip for the key broke down. -/
def Broke (ms : List (Move κ α)) (key : κ) : Prop :=
  ∃ caller n reason, .join caller key n ∈ ms ∧ .finish n (.panicked reason) ∈ ms

/-- Nobody waits for a trip of the key. -/
def Idle (f : Flights κ α) (key : κ) : Prop :=
  ∀ caller n o, f.tripOf? caller = some n → f.trips[n]? ≠ some ⟨key, o⟩

/-- Behind a caller that took a breakdown: the trip holds its slot, and tells the next caller that it
broke down. -/
def leaveBroken (f : Flights κ α) (caller n : Nat) (key : κ) : Flights κ α :=
  { f with
    trips := f.trips.set n ⟨key, some (.panicked brokenReason)⟩
    waiting := f.waiting.filter fun w => w.1 ≠ caller }

/-- Behind a caller that took any other outcome: the slot is free. -/
def leaveFree (f : Flights κ α) (caller n : Nat) (key : κ) : Flights κ α :=
  { f with
    slots := f.slots.filter fun s => !(s.1 = key && s.2 = n)
    waiting := f.waiting.filter fun w => w.1 ≠ caller }

theorem settle_cases (hn : f.tripOf? caller = some n) (ho : (f.settle caller).2 = some o) :
    ∃ key, f.trips[n]? = some ⟨key, some o⟩ ∧
      ((∃ reason, o = .panicked reason) ∧ (f.settle caller).1 = f.leaveBroken caller n key ∨
        (∀ reason, o ≠ .panicked reason) ∧ (f.settle caller).1 = f.leaveFree caller n key) := by
  cases ht : f.trips[n]? with
  | none => simp [settle, hn, ht] at ho
  | some t =>
    obtain ⟨key, _ | o'⟩ := t
    · simp [settle, hn, ht] at ho
    · by_cases hp : ∃ reason, o' = .panicked reason
      · obtain ⟨reason, rfl⟩ := hp
        have he : f.settle caller = (f.leaveBroken caller n key, some (.panicked reason)) := by
          simp [settle, leaveBroken, hn, ht]
        rw [he] at ho ⊢
        cases ho
        exact ⟨key, rfl, .inl ⟨⟨reason, rfl⟩, rfl⟩⟩
      · have hp : ∀ reason, o' ≠ .panicked reason := fun reason he => hp ⟨reason, he⟩
        rw [settle_eq hn ht hp] at ho ⊢
        cases ho
        exact ⟨key, rfl, .inr ⟨hp, rfl⟩⟩

omit [DecidableEq κ] in
theorem trips_leaveBroken (hn : n < f.trips.length) {i : Nat} {t : Trip κ α} :
    (f.leaveBroken caller n key).trips[i]? = some t ↔
      i = n ∧ t = ⟨key, some (.panicked brokenReason)⟩ ∨ i ≠ n ∧ f.trips[i]? = some t := by
  by_cases hi : i = n
  · subst hi
    simp [leaveBroken, hn, eq_comm]
  · simp [leaveBroken, List.getElem?_set_ne (Ne.symm hi), hi]

/-! ## What holds a slot -/

/-- With such an outcome a trip holds its slot: it is under way or broke down. -/
def Holds : Option (Outcome α) → Prop
  | none | some (.panicked _) => True
  | some _ => False

theorem holds_some_iff : Holds (some o) ↔ ∃ reason, o = .panicked reason := by
  cases o <;> simp [Holds]

structure Kept (f : Flights κ α) : Prop where
  keys : (f.slots.map (·.1)).Nodup
  callers : (f.waiting.map (·.1)).Nodup
  held : ∀ key n, (key, n) ∈ f.slots → ∃ o, f.trips[n]? = some ⟨key, o⟩ ∧
    ((∃ caller, (caller, n) ∈ f.waiting) ∨ o = some (.panicked brokenReason))
  holds : ∀ key n o, f.trips[n]? = some ⟨key, o⟩ → Holds o → (key, n) ∈ f.slots
  waits : ∀ caller n, (caller, n) ∈ f.waiting → n < f.trips.length

omit [DecidableEq κ] in
theorem Kept.empty : Kept ({} : Flights κ α) :=
  ⟨.nil, .nil, nofun, nofun, nofun⟩

theorem Kept.share (h : f.Kept) (hfree : f.tripOf? caller = none) (hslot : f.slot? key = some n) :
    ({ f with waiting := f.waiting ++ [(caller, n)] } : Flights κ α).Kept where
  keys := h.keys
  callers := nodup_concat h.callers hfree n
  held k i hk := by
    obtain ⟨o, ho, hw⟩ := h.held k i hk
    exact ⟨o, ho, hw.imp_left (Exists.imp fun _ => List.mem_append_left _)⟩
  holds := h.holds
  waits c i hc := by
    rcases List.mem_append.mp hc with hc | hc
    · exact h.waits c i hc
    · cases List.mem_singleton.mp hc
      obtain ⟨o, ho, -⟩ := h.held key n ((find_fst h.keys).mp hslot)
      exact (List.getElem?_eq_some_iff.mp ho).1

theorem Kept.start (h : f.Kept) (hfree : f.tripOf? caller = none) (hslot : f.slot? key = none) :
    ({ trips := f.trips ++ [⟨key, none⟩]
       slots := (key, f.trips.length) :: f.slots
       waiting := f.waiting ++ [(caller, f.trips.length)] } : Flights κ α).Kept where
  keys := by
    rw [List.map_cons, List.nodup_cons]
    refine ⟨fun hk => ?_, h.keys⟩
    obtain ⟨⟨k, i⟩, hm, rfl⟩ := List.mem_map.mp hk
    rw [slot?, (find_fst h.keys).mpr hm] at hslot
    cases hslot
  callers := nodup_concat h.callers hfree _
  held k i hk := by
    rcases List.mem_cons.mp hk with hk | hk
    · cases hk
      have hcaller : (caller, f.trips.length) ∈ f.waiting ++ [(caller, f.trips.length)] :=
        List.mem_append_right _ (List.mem_singleton.mpr rfl)
      exact ⟨none, getElem?_concat_eq_some.mpr (.inr ⟨rfl, rfl⟩), .inl ⟨caller, hcaller⟩⟩
    · obtain ⟨o, ho, hw⟩ := h.held k i hk
      exact ⟨o, getElem?_concat_eq_some.mpr (.inl ho),
        hw.imp_left (Exists.imp fun _ => List.mem_append_left _)⟩
  holds k i o hi ho := by
    rcases getElem?_concat_eq_some.mp hi with hi | ⟨rfl, he⟩
    · exact List.mem_cons_of_mem _ (h.holds k i o hi ho)
    · cases he
      exact List.mem_cons_self
  waits c i hc := by
    rw [List.length_append, List.length_singleton]
    rcases List.mem_append.mp hc with hc | hc
    · exact Nat.lt_succ_of_lt (h.waits c i hc)
    · cases List.mem_singleton.mp hc
      exact Nat.lt_succ_self _

theorem Kept.join (h : f.Kept) (hfree : f.tripOf? caller = none) (key : κ) :
    (f.join caller key).Kept := by
  cases hslot : f.slot? key with
  | some n =>
    rw [join_of_slot hslot]
    exact h.share hfree hslot
  | none =>
    rw [join_of_free hslot]
    exact h.start hfree hslot

theorem Kept.finish (h : f.Kept) (hn : f.trips[n]? = some ⟨key, none⟩) (o : Outcome α) :
    (f.finish n o).Kept where
  keys := h.keys
  callers := h.callers
  held k i hk := by
    obtain ⟨o', ho', hw⟩ := h.held k i hk
    rw [trips_finish, ho', Option.map_some]
    split
    case isTrue hi =>
      -- A trip that is under way is awaited.
      obtain rfl : o' = none := hi.2
      exact ⟨some o, rfl, .inl (hw.resolve_right nofun)⟩
    case isFalse => exact ⟨o', rfl, hw⟩
  holds k i o' hi ho' := by
    rw [trips_finish] at hi
    obtain ⟨t, ht, he⟩ := Option.map_eq_some_iff.mp hi
    split at he
    case isTrue hin =>
      obtain ⟨rfl, -⟩ := hin
      rw [hn] at ht
      cases ht
      cases he
      exact h.holds key i none hn trivial
    case isFalse =>
      subst he
      exact h.holds k i o' ht ho'
  waits c i hc := by
    rw [length_finish]
    exact h.waits c i hc

omit [DecidableEq κ] in
/-- Who waits for another trip than a caller goes on waiting behind it. -/
theorem Kept.others (h : f.Kept) (hn : f.tripOf? caller = some n) {i : Nat} (hi : i ≠ n)
    (hw : ∃ c, (c, i) ∈ f.waiting) : ∃ c, (c, i) ∈ f.waiting.filter fun w => w.1 ≠ caller := by
  obtain ⟨c, hc⟩ := hw
  refine ⟨c, List.mem_filter.mpr ⟨hc, decide_eq_true ?_⟩⟩
  rintro rfl
  exact hi (Option.some.inj (((find_fst h.callers).mpr hc).symm.trans hn))

omit [DecidableEq κ] in
theorem Kept.callers_filter (h : f.Kept) (caller : Nat) :
    ((f.waiting.filter fun w => w.1 ≠ caller).map (·.1)).Nodup :=
  h.callers.sublist (List.filter_sublist.map _)

omit [DecidableEq κ] in
theorem Kept.leaveBroken (h : f.Kept) (hn : f.tripOf? caller = some n) {reason : String}
    (ht : f.trips[n]? = some ⟨key, some (.panicked reason)⟩) :
    (f.leaveBroken caller n key).Kept := by
  have hlt : n < f.trips.length := (List.getElem?_eq_some_iff.mp ht).1
  exact {
    keys := h.keys
    callers := h.callers_filter caller
    held := by
      intro k i hk
      obtain ⟨o, ho, hw⟩ := h.held k i hk
      by_cases hi : i = n
      · subst hi
        rw [ht] at ho
        cases ho
        exact ⟨_, (trips_leaveBroken hlt).mpr (.inl ⟨rfl, rfl⟩), .inr rfl⟩
      · exact ⟨o, (trips_leaveBroken hlt).mpr (.inr ⟨hi, ho⟩), hw.imp_left (h.others hn hi)⟩
    holds := by
      intro k i o hi ho
      rcases (trips_leaveBroken hlt).mp hi with ⟨rfl, he⟩ | ⟨-, hi⟩
      · cases he
        exact h.holds key i _ ht trivial
      · exact h.holds k i o hi ho
    waits := by
      intro c i hc
      exact (h.waits c i (List.mem_filter.mp hc).1).trans_eq List.length_set.symm }

theorem Kept.leaveFree (h : f.Kept) (hn : f.tripOf? caller = some n)
    (ht : f.trips[n]? = some ⟨key, some o⟩) (hp : ∀ reason, o ≠ .panicked reason) :
    (f.leaveFree caller n key).Kept where
  keys := h.keys.sublist (List.filter_sublist.map _)
  callers := h.callers_filter caller
  held k i hk := by
    obtain ⟨hslot, hne⟩ := List.mem_filter.mp hk
    obtain ⟨o', ho', hw⟩ := h.held k i hslot
    have hi : i ≠ n := by
      rintro rfl
      rw [ht] at ho'
      cases ho'
      simp at hne
    exact ⟨o', ho', hw.imp_left (h.others hn hi)⟩
  holds k i o' hi ho' := by
    refine List.mem_filter.mpr ⟨h.holds k i o' hi ho', ?_⟩
    have hin : i ≠ n := by
      rintro rfl
      cases ht.symm.trans hi
      obtain ⟨reason, rfl⟩ := holds_some_iff.mp ho'
      exact hp reason rfl
    simp [hin]
  waits c i hc := h.waits c i (List.mem_filter.mp hc).1

theorem Kept.settle (h : f.Kept) (hn : f.tripOf? caller = some n)
    (ho : (f.settle caller).2 = some o) : (f.settle caller).1.Kept := by
  obtain ⟨key, ht, ⟨⟨reason, rfl⟩, he⟩ | ⟨hp, he⟩⟩ := settle_cases hn ho
  · rw [he]
    exact h.leaveBroken hn ht
  · rw [he]
    exact h.leaveFree hn ht hp

theorem Turn.kept (ht : f.Turn m g) (h : f.Kept) : g.Kept := by
  cases ht with
  | join hfree hn => exact h.join hfree _
  | finish hn o => exact h.finish hn o
  | settle hn ho => exact h.settle hn ho

theorem Course.kept (h : Course ms f) : f.Kept := by
  induction h with
  | start => exact .empty
  | turn _ ht ih => exact ht.kept ih

/-! ## What the moves tell -/

/-- The trips are those that some caller got, and those that broke down have broken down. -/
structure Recorded (ms : List (Move κ α)) (f : Flights κ α) : Prop where
  keyed : ∀ caller key n, .join caller key n ∈ ms → ∃ o, f.trips[n]? = some ⟨key, o⟩
  joined : ∀ key n o, f.trips[n]? = some ⟨key, o⟩ → ∃ caller, .join caller key n ∈ ms
  broken : ∀ n, (∃ reason, .finish n (.panicked reason) ∈ ms) ↔
    ∃ key reason, f.trips[n]? = some ⟨key, some (.panicked reason)⟩

omit [DecidableEq κ] in
theorem Recorded.empty : Recorded [] ({} : Flights κ α) :=
  ⟨nofun, fun _ _ _ h => by simp at h, fun _ => by simp⟩

theorem Recorded.share (h : Recorded ms f) (hk : f.Kept) (hslot : f.slot? key = some n) :
    Recorded (.join caller key n :: ms) { f with waiting := f.waiting ++ [(caller, n)] } where
  keyed c k i hm := by
    rcases List.mem_cons.mp hm with hm | hm
    · cases hm
      obtain ⟨o, ho, -⟩ := hk.held key n ((find_fst hk.keys).mp hslot)
      exact ⟨o, ho⟩
    · exact h.keyed c k i hm
  joined k i o hi := by
    obtain ⟨c, hc⟩ := h.joined k i o hi
    exact ⟨c, .tail _ hc⟩
  broken i := by
    simp only [List.mem_cons, reduceCtorEq, false_or]
    exact h.broken i

omit [DecidableEq κ] in
theorem Recorded.start (h : Recorded ms f) :
    Recorded (.join caller key f.trips.length :: ms)
      { trips := f.trips ++ [⟨key, none⟩]
        slots := (key, f.trips.length) :: f.slots
        waiting := f.waiting ++ [(caller, f.trips.length)] } where
  keyed c k i hm := by
    rcases List.mem_cons.mp hm with hm | hm
    · cases hm
      exact ⟨none, getElem?_concat_eq_some.mpr (.inr ⟨rfl, rfl⟩)⟩
    · obtain ⟨o, ho⟩ := h.keyed c k i hm
      exact ⟨o, getElem?_concat_eq_some.mpr (.inl ho)⟩
  joined k i o hi := by
    rcases getElem?_concat_eq_some.mp hi with hi | ⟨rfl, he⟩
    · obtain ⟨c, hc⟩ := h.joined k i o hi
      exact ⟨c, .tail _ hc⟩
    · cases he
      exact ⟨caller, .head _⟩
  broken i := by
    simp only [List.mem_cons, reduceCtorEq, false_or, h.broken i, getElem?_concat_eq_some,
      Trip.mk.injEq, and_false, or_false]

theorem Recorded.join (h : Recorded ms f) (hk : f.Kept) (hfree : f.tripOf? caller = none)
    (hn : (f.join caller key).tripOf? caller = some n) :
    Recorded (.join caller key n :: ms) (f.join caller key) := by
  rcases join_cases hk.callers hfree hn with ⟨hslot, he⟩ | ⟨-, rfl, he⟩
  · rw [he]
    exact h.share hk hslot
  · rw [he]
    exact h.start

theorem Recorded.finish (h : Recorded ms f) (hn : f.trips[n]? = some ⟨key, none⟩)
    (o : Outcome α) : Recorded (.finish n o :: ms) (f.finish n o) where
  keyed c k i hm := by
    obtain ⟨o', ho'⟩ := h.keyed c k i (List.mem_of_ne_of_mem (by nofun) hm)
    rw [trips_finish, ho', Option.map_some]
    split
    · exact ⟨some o, rfl⟩
    · exact ⟨o', rfl⟩
  joined k i o' hi := by
    rw [trips_finish] at hi
    obtain ⟨t, ht, he⟩ := Option.map_eq_some_iff.mp hi
    have hkey : t.key = k := by
      split at he
      · exact congrArg Trip.key he
      · exact congrArg Trip.key he
    obtain ⟨c, hc⟩ := h.joined t.key i t.outcome ht
    exact ⟨c, .tail _ (hkey ▸ hc)⟩
  broken i := by
    by_cases hi : i = n
    · subst hi
      have hno : ¬ ∃ reason, .finish i (.panicked reason) ∈ ms := by
        rw [h.broken i, hn]
        simp
      rw [trips_finish, hn]
      simp only [not_exists] at hno
      simp [hno, eq_comm]
    · simp only [List.mem_cons, Move.finish.injEq, hi, false_and, false_or, h.broken i,
        trips_finish, if_false, Option.map_id']

omit [DecidableEq κ] in
theorem Recorded.leaveBroken (h : Recorded ms f) {reason : String}
    (ht : f.trips[n]? = some ⟨key, some (.panicked reason)⟩) (o : Outcome α) :
    Recorded (.settle caller n o :: ms) (f.leaveBroken caller n key) := by
  have hlt : n < f.trips.length := (List.getElem?_eq_some_iff.mp ht).1
  exact {
    keyed := by
      intro c k i hm
      obtain ⟨o', ho'⟩ := h.keyed c k i (List.mem_of_ne_of_mem (by nofun) hm)
      by_cases hi : i = n
      · subst hi
        rw [ht] at ho'
        cases ho'
        exact ⟨_, (trips_leaveBroken hlt).mpr (.inl ⟨rfl, rfl⟩)⟩
      · exact ⟨o', (trips_leaveBroken hlt).mpr (.inr ⟨hi, ho'⟩)⟩
    joined := by
      intro k i o' hi
      rcases (trips_leaveBroken hlt).mp hi with ⟨rfl, he⟩ | ⟨-, hi⟩
      · cases he
        obtain ⟨c, hc⟩ := h.joined key i _ ht
        exact ⟨c, .tail _ hc⟩
      · obtain ⟨c, hc⟩ := h.joined k i o' hi
        exact ⟨c, .tail _ hc⟩
    broken := by
      intro i
      simp only [List.mem_cons, reduceCtorEq, false_or, h.broken i, trips_leaveBroken hlt]
      by_cases hi : i = n
      · subst hi
        simp [ht]
      · simp [hi] }

theorem Recorded.leaveFree (h : Recorded ms f) (o : Outcome α) :
    Recorded (.settle caller n o :: ms) (f.leaveFree caller n key) where
  keyed c k i hm := h.keyed c k i (List.mem_of_ne_of_mem (by nofun) hm)
  joined k i o' hi := by
    obtain ⟨c, hc⟩ := h.joined k i o' hi
    exact ⟨c, .tail _ hc⟩
  broken i := by
    simp only [List.mem_cons, reduceCtorEq, false_or]
    exact h.broken i

theorem Recorded.settle (h : Recorded ms f) (hn : f.tripOf? caller = some n)
    (ho : (f.settle caller).2 = some o) :
    Recorded (.settle caller n o :: ms) (f.settle caller).1 := by
  obtain ⟨key, ht, ⟨⟨reason, rfl⟩, he⟩ | ⟨-, he⟩⟩ := settle_cases hn ho
  · rw [he]
    exact h.leaveBroken ht _
  · rw [he]
    exact h.leaveFree o

theorem Course.recorded (h : Course ms f) : Recorded ms f := by
  induction h with
  | start => exact .empty
  | turn hc ht ih =>
    cases ht with
    | join hfree hn => exact ih.join hc.kept hfree hn
    | finish hn o => exact ih.finish hn o
    | settle hn ho => exact ih.settle hn ho

omit [DecidableEq κ] in
theorem Recorded.broke_iff (h : Recorded ms f) :
    Broke ms key ↔
      ∃ (n : Nat) (reason : String), f.trips[n]? = some ⟨key, some (.panicked reason)⟩ := by
  constructor
  · rintro ⟨caller, n, reason, hjoin, hfinish⟩
    obtain ⟨k, r, ht⟩ := (h.broken n).mp ⟨reason, hfinish⟩
    obtain ⟨o, ho⟩ := h.keyed caller key n hjoin
    rw [ht] at ho
    cases ho
    exact ⟨n, r, ht⟩
  · rintro ⟨n, reason, ht⟩
    obtain ⟨caller, hjoin⟩ := h.joined key n _ ht
    obtain ⟨r, hfinish⟩ := (h.broken n).mpr ⟨key, reason, ht⟩
    exact ⟨caller, n, r, hjoin, hfinish⟩

/-! ## The next caller -/

/-- A key of which a trip broke down is held by it. -/
theorem Course.slot_of_broke (h : Course ms f) (hidle : f.Idle key) (hbroke : Broke ms key) :
    ∃ n, f.slot? key = some n ∧
      f.trips[n]? = some ⟨key, some (.panicked brokenReason)⟩ := by
  obtain ⟨n, reason, ht⟩ := h.recorded.broke_iff.mp hbroke
  have hslot := h.kept.holds key n _ ht trivial
  obtain ⟨o, ho, ⟨caller, hc⟩ | rfl⟩ := h.kept.held key n hslot
  · exact absurd ho (hidle caller n o ((find_fst h.kept.callers).mpr hc))
  · exact ⟨n, (find_fst h.kept.keys).mpr hslot, ho⟩

/-- Any other key is free once nobody waits for its trips. -/
theorem Course.slot_of_not_broke (h : Course ms f) (hidle : f.Idle key) (hbroke : ¬ Broke ms key) :
    f.slot? key = none := by
  rw [Option.eq_none_iff_forall_ne_some]
  intro n hslot
  obtain ⟨o, ho, ⟨caller, hc⟩ | rfl⟩ := h.kept.held key n ((find_fst h.kept.keys).mp hslot)
  · exact hidle caller n o ((find_fst h.kept.callers).mpr hc) ho
  · exact hbroke (h.recorded.broke_iff.mpr ⟨n, _, ho⟩)

theorem tripOf?_join (h : (f.waiting.map (·.1)).Nodup) (hfree : f.tripOf? caller = none)
    (hw : (f.join caller key).waiting = f.waiting ++ [(caller, n)]) :
    (f.join caller key).tripOf? caller = some n := by
  have hcallers := nodup_concat h hfree n
  rw [← hw] at hcallers
  rw [tripOf?, find_fst hcallers, hw]
  exact List.mem_append_right _ (List.mem_singleton.mpr rfl)

theorem settle_outcome (hn : f.tripOf? caller = some n) (ht : f.trips[n]? = some ⟨key, some o⟩) :
    (f.settle caller).2 = some o := by
  unfold settle
  rw [hn]
  dsimp only
  rw [ht]
  cases o <;> rfl

/-- Who asks for the key of a broken trip breaks down with it. -/
theorem Kept.share_broken (h : f.Kept) (hfree : f.tripOf? caller = none)
    (hslot : f.slot? key = some n)
    (ht : f.trips[n]? = some ⟨key, some (.panicked brokenReason)⟩) :
    (f.join caller key).issued = f.issued ∧
      ((f.join caller key).settle caller).2 = some (.panicked brokenReason) ∧
      ((f.join caller key).settle caller).1.issued = f.issued ∧
      ((f.join caller key).settle caller).1.slot? key = some n := by
  have hjoin := join_of_slot hslot caller
  have htrip : (f.join caller key).tripOf? caller = some n :=
    tripOf?_join h.callers hfree (by rw [hjoin])
  have hget : (f.join caller key).trips[n]? = some ⟨key, some (.panicked brokenReason)⟩ := by
    rw [hjoin]
    exact ht
  have hout := settle_outcome htrip hget
  obtain ⟨k, -, ⟨-, he⟩ | ⟨hp, -⟩⟩ := settle_cases htrip hout
  · refine ⟨?_, hout, ?_, ?_⟩
    · rw [hjoin]
      rfl
    · rw [he, hjoin]
      exact List.length_set
    · rw [he, hjoin]
      exact hslot
  · exact absurd rfl (hp brokenReason)

/-- Who asks for a free key starts a trip and gets its outcome. -/
theorem Kept.lead (h : f.Kept) (hfree : f.tripOf? caller = none) (hslot : f.slot? key = none)
    (o : Outcome α) :
    let done := ((f.join caller key).finish f.issued o).settle caller
    (f.join caller key).issued = f.issued + 1 ∧
      (f.join caller key).tripOf? caller = some f.issued ∧ done.2 = some o ∧
      done.1.issued = f.issued + 1 ∧
      ((∀ reason, o ≠ .panicked reason) → done.1.slot? key = none) := by
  have hjoin := join_of_free hslot caller
  have hissued : (f.join caller key).issued = f.issued + 1 := by
    rw [hjoin]
    exact List.length_append
  have htrip : (f.join caller key).tripOf? caller = some f.issued :=
    tripOf?_join h.callers hfree (by rw [hjoin]; rfl)
  have hopen : (f.join caller key).trips[f.issued]? = some ⟨key, none⟩ := by
    rw [hjoin]
    exact getElem?_concat_eq_some.mpr (.inr ⟨rfl, rfl⟩)
  have hkept : ((f.join caller key).finish f.issued o).Kept := (h.join hfree key).finish hopen o
  have hended : ((f.join caller key).finish f.issued o).trips[f.issued]? =
      some ⟨key, some o⟩ := by
    rw [trips_finish, hopen]
    simp
  have hlength : ((f.join caller key).finish f.issued o).trips.length = f.issued + 1 :=
    (length_finish _ _ _).trans hissued
  have htrip' : ((f.join caller key).finish f.issued o).tripOf? caller = some f.issued := htrip
  have hout := settle_outcome htrip' hended
  refine ⟨hissued, htrip, hout, ?_, ?_⟩
  · obtain ⟨k, -, ⟨-, he⟩ | ⟨-, he⟩⟩ := settle_cases htrip' hout
    · rw [he]
      exact List.length_set.trans hlength
    · rw [he]
      exact hlength
  · intro hp
    have hsettled := hkept.settle htrip' hout
    rw [Option.eq_none_iff_forall_ne_some]
    intro i hi
    have hmem := (find_fst hsettled.keys).mp hi
    rw [settle_eq htrip' hended hp] at hmem
    obtain ⟨hmem, hne⟩ := List.mem_filter.mp hmem
    change (key, i) ∈ (f.join caller key).slots at hmem
    rw [hjoin] at hmem
    rcases List.mem_cons.mp hmem with hi | hold
    · cases hi
      simp [issued] at hne
    · have hheld := (find_fst h.keys).mpr hold
      rw [slot?, hheld] at hslot
      cases hslot

end

end Flights

/-! ## The two sides of a bridge -/

namespace Bridge

/-- A step of the bridge, where the host may also break down. -/
inductive Turn (b : Bridge) : Move → Bridge → Prop
  | resolve {m : Flights.Move ResolveRequest ResolveAnswer}
      {f : Flights ResolveRequest ResolveAnswer} (ht : b.resolving.Turn m f)
      (hend : ∀ n o, m = .finish n o → b.MayEnd o ∨ ∃ reason, o = .panicked reason) :
      Turn b (.resolve m) { b with resolving := f }
  | load {m : Flights.Move String LoadAnswer} {f : Flights String LoadAnswer}
      (ht : b.loading.Turn m f)
      (hend : ∀ n o, m = .finish n o → b.MayEnd o ∨ ∃ reason, o = .panicked reason) :
      Turn b (.load m) { b with loading := f }
  | cancel : Turn b .cancel b.cancel

/-- What comes of a bridge in which nothing was asked, with the moves, the last one first. -/
inductive Course (limit : Option Nat) : List Move → Bridge → Prop
  | start : Course limit [] { limit }
  | turn {ms : List Move} {b c : Bridge} {m : Move} (h : Course limit ms b) (ht : b.Turn m c) :
      Course limit (m :: ms) c

section
variable {limit : Option Nat} {ms : List Move} {b : Bridge}

theorem Course.loading (h : Course limit ms b) :
    Flights.Course (ms.filterMap Move.load?) b.loading := by
  induction h with
  | start => exact .start
  | turn _ ht ih =>
    cases ht with
    | resolve => exact ih
    | load ht => exact ih.turn ht
    | cancel => exact ih

theorem outcome_snd_with {α : Type} (b : Bridge) (f : Flights String LoadAnswer) (r : Reply α) :
    (outcome { b with loading := f } r).2 = (b.outcome r).2 ∧
      (outcome { b with loading := f } r).1.loading = f ∧
      (outcome { b with loading := f } r).1.resolving = b.resolving := by
  unfold outcome
  repeat' split
  all_goals simp_all [cancel]

/-- The next load of a module for which nobody waits: if no trip for it broke down, it starts a
trip and comes to what the host does, and the module is free again unless the host breaks down. If
one did, the slot is held by it for good: nothing is asked, and the module of the next task is
broken, whatever the host would answer by now. -/
theorem Course.next_load (h : Course limit ms b) (id : ModuleId)
    (hidle : b.loading.Idle id.text) (hfree : b.loading.tripOf? 0 = none) (host : Host) :
    let next := b.load (some host) id.text
    (¬ Flights.Broke (ms.filterMap Move.load?) id.text →
      b.loading.slot? id.text = none ∧ next.1.issued = b.issued + 1 ∧
      next.2 = (b.outcome (host.load id.text)).2 ∧
      ((∀ reason, next.2 ≠ .panicked reason) → next.1.loading.slot? id.text = none)) ∧
    (Flights.Broke (ms.filterMap Move.load?) id.text →
      (b.loading.slot? id.text).isSome ∧ next.1.issued = b.issued ∧
      next.2 = .panicked Flights.brokenReason ∧
      next.1.loading.slot? id.text = b.loading.slot? id.text ∧
      ∀ (p : Project) (w : World) (late : Bool) (s : Inquiries), w.host = some host →
        s.bridge = b →
        (Task.step p w late s (.loading id)).2 =
          .done (Project.broken id Flights.brokenReason)) := by
  have hkept := h.loading.kept
  constructor
  · intro hbroke
    have hslot := h.loading.slot_of_not_broke hidle hbroke
    obtain ⟨hsnd, hloading, hresolving⟩ := outcome_snd_with b
      (b.loading.join 0 id.text) (host.load id.text)
    obtain ⟨hissued, htrip, hout, hdone, hslot'⟩ := hkept.lead hfree hslot
      (b.outcome (host.load id.text)).2
    have hload : b.load (some host) id.text =
        ({ (outcome { b with loading := b.loading.join 0 id.text } (host.load id.text)).1 with
            loading := (((b.loading.join 0 id.text).finish b.loading.issued
              (b.outcome (host.load id.text)).2).settle 0).1 },
          (b.outcome (host.load id.text)).2) := by
      have hled : b.loading.issued < (b.loading.join 0 id.text).issued := by omega
      unfold Bridge.load ask
      simp only [join, serve, settle, decide_eq_true hled, if_true, htrip, hsnd, hloading, hout,
        Option.map_some]
    rw [hload]
    refine ⟨hslot, ?_, rfl, hslot'⟩
    simp only [issued, hresolving]
    simp only [Flights.issued] at hdone ⊢
    omega
  · intro hbroke
    obtain ⟨n, hslot, ht⟩ := h.loading.slot_of_broke hidle hbroke
    obtain ⟨hissued, hout, hdone, hslot'⟩ := hkept.share_broken hfree hslot ht
    have hload : b.load (some host) id.text =
        ({ b with loading := ((b.loading.join 0 id.text).settle 0).1 },
          .panicked Flights.brokenReason) := by
      unfold Bridge.load ask
      simp only [join, settle, hissued, Nat.lt_irrefl, decide_false, Bool.false_eq_true, if_false,
        hout, Option.map_some]
    rw [hload]
    refine ⟨by simp [hslot], ?_, rfl, hslot'.trans hslot.symm, ?_⟩
    · simp only [issued, hdone]
    · rintro p w late s hhost rfl
      simp only [Task.step, Loading.load, hhost, hload]

end

/-- The host broke down over a module once, and its one caller with it. -/
def breakdown : List Move :=
  [.load (.settle 1 0 (.panicked "boom")), .load (.finish 0 (.panicked "boom")),
    .load (.join 1 "./a.js" 0)]

def brokenBridge : Bridge :=
  { loading :=
      { trips := [⟨"./a.js", some (.panicked Flights.brokenReason)⟩]
        slots := [("./a.js", 0)] } }

/-- A host that answers every load with an empty module. -/
def recoveredHost : Host where
  resolve _ := .answer none
  load _ := .answer (some ⟨some "", none⟩)

theorem course_breakdown : Course none breakdown brokenBridge := by
  have hjoined : Course none (breakdown.drop 2) _ := .turn .start (.load (.join rfl rfl) nofun)
  have hbroken := hjoined.turn (m := .load (.finish 0 (.panicked "boom")))
    (.load (.finish rfl _) fun n o he => .inr (by cases he; exact ⟨_, rfl⟩))
  exact hbroken.turn (.load (.settle rfl rfl) nofun)

/-- The module stays broken for a host that has recovered, and another one is loaded. -/
theorem next_load_of_breakdown : Course none breakdown brokenBridge ∧
    (brokenBridge.load (some recoveredHost) "./a.js").1.issued = 1 ∧
    (brokenBridge.load (some recoveredHost) "./a.js").2 = .panicked Flights.brokenReason ∧
    (brokenBridge.load (some recoveredHost) "./b.js").1.issued = 2 ∧
    (brokenBridge.load (some recoveredHost) "./b.js").2 = .answered (some ⟨some "", none⟩) := by
  have hidle (key : String) : brokenBridge.loading.Idle key := fun _ _ _ h => nomatch h
  obtain ⟨-, hbroken⟩ :=
    course_breakdown.next_load ⟨"./a.js"⟩ (hidle _) rfl recoveredHost
  obtain ⟨-, hsame, hpanic, -⟩ :=
    hbroken ⟨1, 0, "boom", by simp [breakdown, Move.load?], by simp [breakdown, Move.load?]⟩
  obtain ⟨hother, -⟩ :=
    course_breakdown.next_load ⟨"./b.js"⟩ (hidle _) rfl recoveredHost
  obtain ⟨-, hnew, hanswer, -⟩ := hother (by simp [Flights.Broke, breakdown, Move.load?])
  exact ⟨course_breakdown, hsame, hpanic, hnew, hanswer⟩

end Bridge

end Bundler
