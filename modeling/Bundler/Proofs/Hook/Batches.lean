import Bundler.Proofs.Hook.Trips

/-!
# Batches of questions

The turns that callers and host take in a batch are steps of the bridge, so that what holds whatever
the order of the steps holds of every batch. A batch leaves nobody waiting: each of its questions
ends, those that share a trip included.
-/

namespace Bundler

/-- A host that does not break down, and that stays silent only where a time limit ends a
silence. -/
def Reply.Ends {α : Type} (limit : Option Nat) : Reply α → Prop
  | .silence => limit ≠ none
  | .panic _ => False
  | _ => True

structure Host.Ends (h : Host) (limit : Option Nat) : Prop where
  resolve : ∀ q, (h.resolve q).Ends limit
  load : ∀ id, (h.load id).Ends limit

theorem foldl_zipIdx_rec {β γ : Type} {motive : List β → γ → Prop} {step : γ → β × Nat → γ}
    {c : γ} (l : List β) (start : motive [] c)
    (next : ∀ seen b rest c, l = seen ++ b :: rest → motive seen c →
      motive (seen ++ [b]) (step c (b, seen.length))) : motive l (l.zipIdx.foldl step c) := by
  suffices key : ∀ rest seen c, l = seen ++ rest → motive seen c →
      motive l ((rest.zipIdx seen.length).foldl step c) from key l [] c rfl start
  intro rest
  induction rest with
  | nil =>
    intro seen c hl hm
    rwa [hl, List.append_nil]
  | cons b rest ih =>
    intro seen c hl hm
    have hrest := ih (seen ++ [b]) (step c (b, seen.length)) (by simp [hl])
      (next seen b rest c hl hm)
    rwa [List.length_append, List.length_singleton] at hrest

namespace Flights

section
variable {κ α : Type} {f : Flights κ α} {caller : Nat}

def callers (f : Flights κ α) : List Nat := f.waiting.map (·.1)

theorem mem_callers : caller ∈ f.callers ↔ ∃ n, f.tripOf? caller = some n := by
  simp only [callers, tripOf?, List.mem_map, Option.map_eq_some_iff]
  refine ⟨?_, ?_⟩
  · rintro ⟨w, hw, rfl⟩
    obtain ⟨w', hw'⟩ := Option.isSome_iff_exists.mp
      (List.find?_isSome (p := fun x => decide (x.1 = w.1)).mpr ⟨w, hw, decide_eq_true rfl⟩)
    exact ⟨w'.2, w', hw', rfl⟩
  · rintro ⟨n, w, hw, rfl⟩
    have hcaller := List.find?_some hw
    exact ⟨w, List.mem_of_find?_eq_some hw, of_decide_eq_true hcaller⟩

theorem tripOf?_eq_none : f.tripOf? caller = none ↔ caller ∉ f.callers := by
  rw [mem_callers]
  cases f.tripOf? caller <;> simp

end

section
variable {κ α : Type} [DecidableEq κ] {f : Flights κ α} {caller n : Nat} {o : Outcome α}

theorem callers_join (f : Flights κ α) (caller : Nat) (key : κ) :
    (f.join caller key).callers = f.callers ++ [caller] := by
  cases hslot : f.slot? key with
  | some n => simp [join_of_slot hslot, callers]
  | none => simp [join_of_free hslot, callers]

/-- What comes of flights by a step at most, where a trip ends in some ways only. -/
def Steps (f : Flights κ α) (ends : Outcome α → Prop) (g : Flights κ α) : Prop :=
  g = f ∨ ∃ m, f.Step m g ∧ ∀ n o, m = .finish n o → ends o

theorem steps_finish {ends : Outcome α → Prop} (f : Flights κ α) (n : Nat)
    (ho : ∀ reason, o ≠ .panicked reason) (hend : ends o) : f.Steps ends (f.finish n o) := by
  by_cases ht : ∃ key, f.trips[n]? = some ⟨key, none⟩
  · obtain ⟨key, ht⟩ := ht
    exact .inr ⟨_, .finish ht ho, fun _ _ he => by cases he; exact hend⟩
  · -- A trip that has ended keeps its outcome.
    have htrips : (f.finish n o).trips = f.trips := by
      refine List.ext_getElem? fun i => ?_
      rw [trips_finish]
      cases hi : f.trips[i]? with
      | none => rfl
      | some t =>
        rw [Option.map_some, if_neg]
        rintro ⟨rfl, hout⟩
        exact ht ⟨t.key, by rw [hi, ← hout]⟩
    exact .inl (congrArg (fun trips => ({ f with trips } : Flights κ α)) htrips)

theorem steps_settle (f : Flights κ α) (ends : Outcome α → Prop) (caller : Nat) :
    f.Steps ends (f.settle caller).1 := by
  cases hn : f.tripOf? caller with
  | none => exact .inl (by simp only [settle, hn])
  | some n =>
    cases ho : (f.settle caller).2 with
    | some o => exact .inr ⟨_, .settle hn ho, fun _ _ he => by cases he⟩
    | none =>
      refine .inl ?_
      unfold settle at ho ⊢
      rw [hn] at ho ⊢
      dsimp only at ho ⊢
      split at ho
      · split at ho <;> cases ho
      · rfl

/-- A caller whose trip ends takes an outcome and waits no longer. -/
theorem Sound.settle_finish (h : f.Sound) (hn : f.tripOf? caller = some n)
    (ho : ∀ reason, o ≠ .panicked reason) : ((f.finish n o).settle caller).2 ≠ none ∧
      ((f.finish n o).settle caller).1.callers = f.callers.filter (· ≠ caller) := by
  have hlt := h.waits caller n (h.tripOf?_eq_some.mp hn)
  have ht : ∃ key o', (f.finish n o).trips[n]? = some ⟨key, some o'⟩ := by
    rw [trips_finish, List.getElem?_eq_getElem hlt, Option.map_some]
    obtain ⟨key, _ | o'⟩ := f.trips[n]
    · exact ⟨key, o, by simp⟩
    · exact ⟨key, o', by simp⟩
  obtain ⟨key, o', ht⟩ := ht
  have hn' : (f.finish n o).tripOf? caller = some n := hn
  rw [Flights.settle_eq hn' ht fun reason he =>
    (h.finish n ho).unbroken n _ reason ht (congrArg some he)]
  refine ⟨Option.some_ne_none o', ?_⟩
  rw [Flights.callers, Flights.callers, List.filter_map]
  rfl

end

end Flights

def HostCall.kind : HostCall → HookKind
  | .resolve _ => .resolve
  | .load _ => .load

namespace Bridge

def callers (b : Bridge) : HookKind → List Nat
  | .resolve => b.resolving.callers
  | .load => b.loading.callers

def Idle (b : Bridge) : Prop := ∀ kind, b.callers kind = []

/-- A bridge that comes of a run that began with some moves. -/
def Reached (limit : Option Nat) (ms : List Move) (b : Bridge) : Prop :=
  ∃ later, Run limit (later ++ ms) b

section
variable {limit : Option Nat} {ms : List Move} {b c : Bridge} {m : Move} {host : Host}

theorem Run.reached (h : Run limit ms b) : Reached limit ms b := ⟨[], h⟩

theorem Run.limit_eq (h : Run limit ms b) : b.limit = limit := by
  induction h with
  | start => rfl
  | step _ hs ih => cases hs <;> exact ih

namespace Reached

theorem step (h : Reached limit ms b) (hs : b.Step m c) : Reached limit ms c := by
  obtain ⟨later, hr⟩ := h
  exact ⟨m :: later, hr.step hs⟩

theorem limit_eq (h : Reached limit ms b) : b.limit = limit := by
  obtain ⟨later, hr⟩ := h
  exact hr.limit_eq

theorem resolving (h : Reached limit ms b) : b.resolving.Sound := by
  obtain ⟨later, hr⟩ := h
  exact hr.resolving.sound

theorem loading (h : Reached limit ms b) : b.loading.Sound := by
  obtain ⟨later, hr⟩ := h
  exact hr.loading.sound

end Reached

/-! ## The turns of a batch -/

/-- The host's treatment of a question may cancel the session, and then ends the question in a way
that is allowed. -/
theorem outcome_mayEnd {α : Type} {r : Reply α} (hr : r.Ends b.limit) :
    ((b.outcome r).1 = b ∨ (b.outcome r).1 = b.cancel) ∧
      (b.outcome r).1.MayEnd (b.outcome r).2 := by
  unfold outcome
  split
  case isTrue hc => exact ⟨.inl rfl, hc⟩
  case isFalse =>
    cases r with
    | answer a => exact ⟨.inl rfl, trivial⟩
    | reject message => exact ⟨.inl rfl, trivial⟩
    | silence =>
      cases hl : b.limit with
      | none => exact absurd hl hr
      | some n => exact ⟨.inl rfl, hl⟩
    | cancel => exact ⟨.inr rfl, rfl⟩
    | panic reason => exact hr.elim

theorem MayEnd.ne_panicked {α : Type} {o : Outcome α} (h : b.MayEnd o) (reason : String) :
    o ≠ .panicked reason := by
  rintro rfl
  exact h

theorem mem_callers_join (b : Bridge) (caller : Nat) (call : HostCall) (i : Nat) (kind : HookKind) :
    i ∈ (b.join caller call).1.callers kind ↔
      i ∈ b.callers kind ∨ i = caller ∧ kind = call.kind := by
  cases call <;> cases kind <;> simp [callers, join, HostCall.kind, Flights.callers_join]

theorem Reached.join (h : Reached limit ms b) {caller : Nat} {call : HostCall}
    (hfree : caller ∉ b.callers call.kind) : Reached limit ms (b.join caller call).1 := by
  have hgets := (mem_callers_join b caller call caller call.kind).mpr (.inr ⟨rfl, rfl⟩)
  cases call with
  | resolve q =>
    obtain ⟨n, hn⟩ := Flights.mem_callers.mp hgets
    exact h.step (.resolve (.join (Flights.tripOf?_eq_none.mpr hfree) hn) fun _ _ he => nomatch he)
  | load id =>
    obtain ⟨n, hn⟩ := Flights.mem_callers.mp hgets
    exact h.step (.load (.join (Flights.tripOf?_eq_none.mpr hfree) hn) fun _ _ he => nomatch he)

theorem Reached.outcome {α : Type} (h : Reached limit ms b) {r : Reply α} (hr : r.Ends limit) :
    Reached limit ms (b.outcome r).1 ∧ (b.outcome r).1.MayEnd (b.outcome r).2 := by
  obtain ⟨hb, hend⟩ := outcome_mayEnd (h.limit_eq.symm ▸ hr)
  refine ⟨?_, hend⟩
  rcases hb with hb | hb
  · rwa [hb]
  · rw [hb]
    exact h.step .cancel

theorem Reached.resolving_steps (h : Reached limit ms b)
    {f : Flights ResolveRequest ResolveAnswer} (hs : b.resolving.Steps b.MayEnd f) :
    Reached limit ms { b with resolving := f } := by
  rcases hs with rfl | ⟨m, hs, hend⟩
  · exact h
  · exact h.step (.resolve hs hend)

theorem Reached.loading_steps (h : Reached limit ms b) {f : Flights String LoadAnswer}
    (hs : b.loading.Steps b.MayEnd f) : Reached limit ms { b with loading := f } := by
  rcases hs with rfl | ⟨m, hs, hend⟩
  · exact h
  · exact h.step (.load hs hend)

theorem Reached.serve (h : Reached limit ms b) (hh : host.Ends limit) (caller : Nat)
    (call : HostCall) : Reached limit ms (b.serve host caller call) := by
  cases call with
  | resolve q =>
    obtain ⟨hr, hend⟩ := h.outcome (hh.resolve q)
    cases hn : b.resolving.tripOf? caller with
    | none => simpa only [Bridge.serve, hn] using h
    | some n =>
      simp only [Bridge.serve, hn]
      exact hr.resolving_steps (Flights.steps_finish _ n hend.ne_panicked hend)
  | load id =>
    obtain ⟨hr, hend⟩ := h.outcome (hh.load id)
    cases hn : b.loading.tripOf? caller with
    | none => simpa only [Bridge.serve, hn] using h
    | some n =>
      simp only [Bridge.serve, hn]
      exact hr.loading_steps (Flights.steps_finish _ n hend.ne_panicked hend)

theorem Reached.settle (h : Reached limit ms b) (caller : Nat) (call : HostCall) :
    Reached limit ms (b.settle caller call).1 := by
  cases call with
  | resolve q => exact h.resolving_steps (Flights.steps_settle _ _ caller)
  | load id => exact h.loading_steps (Flights.steps_settle _ _ caller)

theorem Reached.close (h : Reached limit ms b) (hh : host.Ends limit) (caller : Nat)
    (call : HostCall) : Reached limit ms (b.close host caller call).1 :=
  (h.serve hh caller call).settle caller call

theorem Reached.close_waiting (h : Reached limit ms b) (hh : host.Ends limit) {caller : Nat}
    {call : HostCall} (hwait : caller ∈ b.callers call.kind) :
    (b.close host caller call).2 ≠ none ∧ ∀ i kind, i ∈ (b.close host caller call).1.callers kind ↔
      i ∈ b.callers kind ∧ ¬ (i = caller ∧ kind = call.kind) := by
  cases call with
  | resolve q =>
    obtain ⟨n, hn⟩ := Flights.mem_callers.mp hwait
    obtain ⟨-, hend⟩ := h.outcome (hh.resolve q)
    obtain ⟨hr, hl⟩ := outcome_sides b (host.resolve q)
    obtain ⟨hout, hcallers⟩ := h.resolving.settle_finish hn hend.ne_panicked
    simp only [Bridge.close, Bridge.serve, hn, Bridge.settle, hr]
    refine ⟨by simpa using hout, fun i kind => ?_⟩
    cases kind <;> simp [callers, hcallers, hl, HostCall.kind]
  | load id =>
    obtain ⟨n, hn⟩ := Flights.mem_callers.mp hwait
    obtain ⟨-, hend⟩ := h.outcome (hh.load id)
    obtain ⟨hr, hl⟩ := outcome_sides b (host.load id)
    obtain ⟨hout, hcallers⟩ := h.loading.settle_finish hn hend.ne_panicked
    simp only [Bridge.close, Bridge.serve, hn, Bridge.settle, hl]
    refine ⟨by simpa using hout, fun i kind => ?_⟩
    cases kind <;> simp [callers, hcallers, hr, HostCall.kind]

/-! ## The callers of a batch -/

/-- Those who wait are the callers of a batch whose questions have no outcome, each on the side of
its question. -/
structure Attended (limit : Option Nat) (ms : List Move) (b : Bridge) (asked : List Asked) :
    Prop where
  reached : Reached limit ms b
  waits : ∀ (i : Nat) (a : Asked), asked[i]? = some a → a.outcome = none →
    i ∈ b.callers a.call.kind
  only : ∀ (i : Nat) (kind : HookKind), i ∈ b.callers kind →
    ∃ a : Asked, asked[i]? = some a ∧ a.outcome = none ∧ a.call.kind = kind

variable {asked : List Asked}

theorem Attended.empty (h : Reached limit ms b) (hidle : b.Idle) : Attended limit ms b [] where
  reached := h
  waits _ _ hi := by simp at hi
  only i kind hi := by
    rw [hidle kind] at hi
    cases hi

theorem Attended.idle (h : Attended limit ms b asked) (hall : ∀ a ∈ asked, a.outcome ≠ none) :
    b.Idle := by
  intro kind
  rw [List.eq_nil_iff_forall_not_mem]
  intro i hi
  obtain ⟨a, ha, hnone, -⟩ := h.only i kind hi
  exact hall a (List.mem_of_getElem? ha) hnone

theorem Attended.join (h : Attended limit ms b asked) (call : HostCall) (led : Bool) :
    Attended limit ms (b.join asked.length call).1 (asked ++ [⟨call, led, none⟩]) where
  reached := by
    refine h.reached.join fun hm => ?_
    obtain ⟨a, ha, -⟩ := h.only _ _ hm
    simp at ha
  waits i a hi hnone := by
    rw [mem_callers_join]
    rcases Flights.getElem?_concat_eq_some.mp hi with hi | ⟨rfl, rfl⟩
    · exact .inl (h.waits i a hi hnone)
    · exact .inr ⟨rfl, rfl⟩
  only i kind hi := by
    rcases (mem_callers_join ..).mp hi with hi | ⟨rfl, rfl⟩
    · obtain ⟨a, ha, hnone, hkind⟩ := h.only i kind hi
      exact ⟨a, Flights.getElem?_concat_eq_some.mpr (.inl ha), hnone, hkind⟩
    · exact ⟨_, Flights.getElem?_concat_eq_some.mpr (.inr ⟨rfl, rfl⟩), rfl, rfl⟩

/-- Closing the question of a caller leaves the others as they are. -/
theorem Attended.close {done rest : List Asked} {a : Asked} (hh : host.Ends limit)
    (h : Attended limit ms b (done ++ a :: rest)) (hnone : a.outcome = none) :
    (b.close host done.length a.call).2 ≠ none ∧
      Attended limit ms (b.close host done.length a.call).1
        (done ++ { a with outcome := (b.close host done.length a.call).2 } :: rest) := by
  have hwait := h.waits done.length a (by simp) hnone
  obtain ⟨hout, hcallers⟩ := h.reached.close_waiting hh hwait
  have hother : ∀ {a' : Asked} {i : Nat}, i ≠ done.length →
      (done ++ a' :: rest)[i]? = (done ++ a :: rest)[i]? := by
    intro a' i hi
    grind
  refine ⟨hout, h.reached.close hh _ _, ?_, ?_⟩
  · intro i a' ha' hnone'
    by_cases hi : i = done.length
    · subst hi
      rw [List.getElem?_append_right (Nat.le_refl _), Nat.sub_self] at ha'
      cases ha'
      exact absurd hnone' hout
    · rw [hother hi] at ha'
      exact (hcallers i _).mpr ⟨h.waits i a' ha' hnone', fun he => hi he.1⟩
  · intro i kind hi
    obtain ⟨hi, hne⟩ := (hcallers i kind).mp hi
    obtain ⟨a', ha', hnone', hkind⟩ := h.only i kind hi
    have hi' : i ≠ done.length := by
      rintro rfl
      rw [List.getElem?_append_right (Nat.le_refl _), Nat.sub_self] at ha'
      cases ha'
      exact hne ⟨rfl, hkind.symm⟩
    exact ⟨a', (hother hi').trans ha', hnone', hkind⟩

theorem Attended.enter (h : Attended limit ms b asked) (hh : host.Ends limit) (call : HostCall) :
    Attended limit ms (enter host (b, asked) call).1 (enter host (b, asked) call).2 := by
  have hj := h.join call (b.join asked.length call).2
  unfold Bridge.enter
  dsimp only
  split
  · exact (hj.close hh rfl).2
  · exact hj

theorem Attended.foldl_enter (h : Attended limit ms b asked) (hh : host.Ends limit)
    (calls : List HostCall) : Attended limit ms (calls.foldl (Bridge.enter host) (b, asked)).1
      (calls.foldl (Bridge.enter host) (b, asked)).2 := by
  induction calls generalizing b asked with
  | nil => exact h
  | cons call calls ih => exact ih (h.enter hh call)

/-- How far the callers of a batch have left: those without an outcome are as they were. -/
structure Leaving (limit : Option Nat) (ms : List Move) (host : Host) (prompt : Bool)
    (asked seen : List Asked) (r : Bridge × List Asked) : Prop where
  length : r.2.length = seen.length
  attended : ∀ rest, asked = seen ++ rest → Attended limit ms r.1 (r.2 ++ rest)
  stay : ∀ a ∈ r.2, a.outcome = none → a ∈ asked ∧ isPrompt host a.call ≠ prompt

theorem Leaving.concat {prompt : Bool} {seen rest : List Asked} {a a' : Asked}
    {r : Bridge × List Asked} {c : Bridge} (h : Leaving limit ms host prompt asked seen r)
    (hl : asked = seen ++ a :: rest) (hc : Attended limit ms c (r.2 ++ a' :: rest))
    (ha : a'.outcome = none → a' ∈ asked ∧ isPrompt host a'.call ≠ prompt) :
    Leaving limit ms host prompt asked (seen ++ [a]) (c, r.2 ++ [a']) where
  length := by simp [h.length]
  attended rest' hl' := by
    have hrest : rest' = rest := by simpa [hl] using hl'.symm
    rw [hrest]
    simpa using hc
  stay a'' hmem hnone := by
    rcases List.mem_append.mp hmem with hmem | hmem
    · exact h.stay a'' hmem hnone
    · cases List.mem_singleton.mp hmem
      exact ha hnone

theorem Attended.leave (h : Attended limit ms b asked) (hh : host.Ends limit) (prompt : Bool) :
    Leaving limit ms host prompt asked asked (leave host prompt (b, asked)) := by
  unfold Bridge.leave
  refine foldl_zipIdx_rec (motive := Leaving limit ms host prompt asked) asked
    ⟨rfl, fun rest hl => ?_, fun _ hm => nomatch hm⟩ ?_
  · rw [← hl]
    exact h
  · intro seen a rest r hl hr
    have hatt := hr.attended (a :: rest) hl
    have hmem : a ∈ asked := by simp [hl]
    rw [← hr.length]
    dsimp only
    split
    case h_1 o ho => exact hr.concat hl hatt fun hnone => by simp [ho] at hnone
    case h_2 hnone =>
      split
      case isTrue =>
        obtain ⟨hout, hc⟩ := hatt.close hh hnone
        exact hr.concat hl hc fun hnone' => absurd hnone' hout
      case isFalse hne => exact hr.concat hl hatt fun _ => ⟨hmem, hne⟩

/-! ## Whole batches -/

/-- What a batch leaves: a bridge that steps lead to, in which nobody waits, and an outcome for each
question. -/
structure Completed (limit : Option Nat) (ms : List Move) (r : Bridge × List Asked) : Prop where
  reached : Reached limit ms r.1
  idle : r.1.Idle
  told : ∀ a ∈ r.2, a.outcome ≠ none

theorem Attended.completed (h : Attended limit ms b asked)
    (hall : ∀ a ∈ asked, a.outcome ≠ none) : Completed limit ms (b, asked) :=
  ⟨h.reached, h.idle hall, hall⟩

theorem Reached.slots (h : Reached limit ms b) (hidle : b.Idle) :
    b.resolving.slots = [] ∧ b.loading.slots = [] := by
  have hfree : ∀ kind caller, caller ∉ b.callers kind := by
    intro kind caller
    rw [hidle kind]
    exact List.not_mem_nil
  exact ⟨List.length_eq_zero_iff.mp (h.resolving.free fun caller =>
      Flights.tripOf?_eq_none.mpr (hfree .resolve caller)),
    List.length_eq_zero_iff.mp (h.loading.free fun caller =>
      Flights.tripOf?_eq_none.mpr (hfree .load caller))⟩

theorem Reached.inFlight (h : Reached limit ms b) (hidle : b.Idle) : b.inFlight = 0 := by
  obtain ⟨hr, hl⟩ := h.slots hidle
  simp [Bridge.inFlight, Flights.inFlight, hr, hl]

theorem Reached.led (h : Reached limit ms b) (hidle : b.Idle) (caller : Nat) (call : HostCall) :
    (b.join caller call).2 = true := by
  obtain ⟨hr, hl⟩ := h.slots hidle
  cases call <;> simp [Bridge.join, Flights.join, Flights.slot?, Flights.issued, hr, hl]

theorem Reached.ask (h : Reached limit ms b) (hidle : b.Idle) (hh : host.Ends limit)
    (call : HostCall) : Completed limit ms
      ((b.ask host call).1, [⟨call, (b.ask host call).2.1, (b.ask host call).2.2⟩]) := by
  have hled := h.led hidle 0 call
  have hj : Attended limit ms (b.join 0 call).1 ([] ++ [⟨call, true, none⟩]) :=
    (Attended.empty h hidle).join call true
  obtain ⟨hout, hc⟩ := hj.close hh rfl
  have heq : b.ask host call = ((b.join 0 call).1.close host 0 call |>.1, true,
      (b.join 0 call).1.close host 0 call |>.2) := by
    simp only [Bridge.ask, hled, if_true, Bridge.close]
  rw [heq]
  refine hc.completed fun a ha => ?_
  cases List.mem_singleton.mp ha
  exact hout

theorem Reached.askInTurn (h : Reached limit ms b) (hidle : b.Idle) (hh : host.Ends limit)
    (calls : List HostCall) : Completed limit ms (b.askInTurn host calls) := by
  induction calls generalizing b with
  | nil => exact ⟨h, hidle, fun _ hm => nomatch hm⟩
  | cons call calls ih =>
    have hcall := h.ask hidle hh call
    have hrest := ih hcall.reached hcall.idle
    refine ⟨hrest.reached, hrest.idle, fun a ha => ?_⟩
    rcases List.mem_cons.mp ha with rfl | ha
    · exact hcall.told _ List.mem_cons_self
    · exact hrest.told a ha

theorem Reached.askTogether (h : Reached limit ms b) (hidle : b.Idle) (hh : host.Ends limit)
    (calls : List HostCall) : Completed limit ms (b.askTogether host calls) := by
  have hentered := (Attended.empty h hidle).foldl_enter hh calls
  have hprompt := hentered.leave hh true
  have hatt := hprompt.attended [] (by simp)
  rw [List.append_nil] at hatt
  have hlate := hatt.leave hh false
  have hleft := hlate.attended [] (by simp)
  rw [List.append_nil] at hleft
  refine hleft.completed fun a ha hnone => ?_
  -- Whoever is left would have stayed both times, whichever way its question ends.
  obtain ⟨hmem, hlast⟩ := hlate.stay a ha hnone
  obtain ⟨-, hfirst⟩ := hprompt.stay a hmem hnone
  cases hp : isPrompt host a.call with
  | true => exact hfirst hp
  | false => exact hlast hp

theorem calls_foldl_enter (host : Host) (calls : List HostCall) (acc : Bridge × List Asked) :
    (calls.foldl (enter host) acc).2.map Asked.call = acc.2.map Asked.call ++ calls := by
  induction calls generalizing acc with
  | nil => simp
  | cons call calls ih =>
    rw [List.foldl_cons, ih]
    simp [enter]

theorem calls_leave (host : Host) (prompt : Bool) (acc : Bridge × List Asked) :
    (leave host prompt acc).2.map Asked.call = acc.2.map Asked.call := by
  unfold leave
  refine foldl_zipIdx_rec
    (motive := fun seen (r : Bridge × List Asked) => r.2.map Asked.call = seen.map Asked.call)
    acc.2 rfl fun seen a rest r _ hr => ?_
  dsimp only
  split
  · simp [hr]
  · split <;> simp [hr]

theorem calls_askInTurn (b : Bridge) (host : Host) (calls : List HostCall) :
    (b.askInTurn host calls).2.map Asked.call = calls := by
  induction calls generalizing b with
  | nil => rfl
  | cons call calls ih => exact congrArg (call :: ·) (ih (b.ask host call).1)

theorem calls_askAll (b : Bridge) (host : Host) (calls : List HostCall) :
    (b.askAll host calls).2.map Asked.call = calls := by
  unfold askAll
  split
  · exact calls_askInTurn b host calls
  · rw [askTogether, calls_leave, calls_leave, calls_foldl_enter, List.map_nil, List.nil_append]

/-- A batch that is asked while nobody waits is a run of steps, each of its questions ends, and
nothing is in flight when it is over. -/
theorem Run.askAll (h : Run limit ms b) (hidle : b.Idle) (hh : host.Ends limit)
    (calls : List HostCall) : ∃ later, Run limit (later ++ ms) (b.askAll host calls).1 ∧
      (b.askAll host calls).1.Idle ∧ (b.askAll host calls).1.inFlight = 0 ∧
      (b.askAll host calls).2.map Asked.call = calls ∧
      ∀ a ∈ (b.askAll host calls).2, a.outcome ≠ none := by
  have hc : Completed limit ms (b.askAll host calls) := by
    unfold Bridge.askAll
    split
    · exact h.reached.askInTurn hidle hh calls
    · exact h.reached.askTogether hidle hh calls
  obtain ⟨later, hr⟩ := hc.reached
  exact ⟨later, hr, hc.idle, hc.reached.inFlight hc.idle, calls_askAll b host calls, hc.told⟩

end

end Bridge

end Bundler
