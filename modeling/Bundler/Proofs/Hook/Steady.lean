import Mathlib.Tactic.Common
import Bundler.Load

/-!
# Hosts that answer

A host that neither breaks down nor cancels the session leaves no trace in the bridge: each of its
answers depends on the question alone.
-/

namespace Bundler

/-- An answer, a rejection or a silence. -/
def Reply.Answers {α : Type} : Reply α → Prop
  | .cancel | .panic _ => False
  | _ => True

structure Host.Answers (h : Host) : Prop where
  resolve : ∀ q, (h.resolve q).Answers
  load : ∀ id, (h.load id).Answers

namespace Flights

variable {κ α : Type} [DecidableEq κ]

/-- No question is open. -/
structure Quiet (f : Flights κ α) : Prop where
  slots : f.slots = []
  waiting : f.waiting = []

theorem settle_eq {f : Flights κ α} {caller n : Nat} {key : κ} {o : Outcome α}
    (ht : f.tripOf? caller = some n) (hn : f.trips[n]? = some ⟨key, some o⟩)
    (ho : ∀ reason, o ≠ .panicked reason) :
    f.settle caller =
      ({ f with
          slots := f.slots.filter fun s => !(s.1 = key && s.2 = n)
          waiting := f.waiting.filter fun w => w.1 ≠ caller }, some o) := by
  unfold settle
  rw [ht]
  dsimp only
  rw [hn]
  cases o with
  | panicked reason => exact absurd rfl (ho reason)
  | answered a => rfl
  | failed e => rfl

/-- A question to quiet flights starts a trip, and the trip's outcome is its outcome. -/
theorem Quiet.settle_finish_join {f : Flights κ α} (h : f.Quiet) (caller : Nat) (key : κ)
    {o : Outcome α} (ho : ∀ reason, o ≠ .panicked reason) :
    f.issued < (f.join caller key).issued ∧
    (f.join caller key).tripOf? caller = some f.trips.length ∧
    (((f.join caller key).finish f.trips.length o).settle caller).1.Quiet ∧
    (((f.join caller key).finish f.trips.length o).settle caller).2 = some o := by
  obtain ⟨trips, slots, waiting⟩ := f
  obtain ⟨rfl, rfl⟩ : slots = [] ∧ waiting = [] := ⟨h.slots, h.waiting⟩
  have hjoin : join (⟨trips, [], []⟩ : Flights κ α) caller key =
      ⟨trips ++ [⟨key, none⟩], [(key, trips.length)], [(caller, trips.length)]⟩ := rfl
  have htrip : tripOf? (finish (join (⟨trips, [], []⟩ : Flights κ α) caller key)
      trips.length o) caller = some trips.length := by
    simp [hjoin, tripOf?, finish]
  have hget : (finish (join (⟨trips, [], []⟩ : Flights κ α) caller key)
      trips.length o).trips[trips.length]? = some ⟨key, some o⟩ := by
    simp [hjoin, finish]
  refine ⟨by simp [hjoin, issued], htrip, ?_⟩
  rw [settle_eq htrip hget ho]
  exact ⟨⟨by simp [hjoin, finish], by simp [hjoin, finish]⟩, rfl⟩

end Flights

namespace Bridge

/-- No question is open, and the session is not cancelled. -/
structure Quiet (b : Bridge) : Prop where
  cancelled : b.cancelled = false
  resolving : b.resolving.Quiet
  loading : b.loading.Quiet

/-- Without open questions, it is the host that decides whether a question is left open. -/
theorem Quiet.isStalled {b : Bridge} (h : b.Quiet) (host : Option Host) (call : HostCall) :
    b.isStalled host call = Bridge.isStalled {} host call := by
  unfold Bridge.isStalled
  rw [h.cancelled]
  cases call with
  | resolve q => simp only [isFree, Flights.slot?, h.resolving.slots]
  | load id => simp only [isFree, Flights.slot?, h.loading.slots]

/-- How a question ends, by the time limit. -/
def ending {α : Type} (limit : Option Nat) (r : Reply α) : Outcome α :=
  (outcome ({ limit } : Bridge) r).2

theorem ending_ne_panicked {α : Type} (limit : Option Nat) {r : Reply α} (hr : r.Answers)
    (reason : String) : ending limit r ≠ .panicked reason := by
  unfold ending outcome
  rw [if_neg fun h => nomatch h]
  cases r with
  | answer a => exact fun h => nomatch h
  | reject message => exact fun h => nomatch h
  | silence => cases limit <;> exact fun h => nomatch h
  | cancel => exact hr.elim
  | panic reason => exact hr.elim

theorem Quiet.outcome_with {α : Type} {b b' : Bridge} (h : b.Quiet) (hc : b'.cancelled = b.cancelled)
    (hl : b'.limit = b.limit) {r : Reply α} (hr : r.Answers) :
    b'.outcome r = (b', ending b.limit r) := by
  unfold ending outcome
  rw [hc, h.cancelled, hl, if_neg (by decide), if_neg fun h => nomatch h]
  cases r with
  | answer a => rfl
  | reject message => rfl
  | silence => cases b.limit <;> rfl
  | cancel => exact hr.elim
  | panic reason => exact hr.elim

/-- A host's answer to where a request leads depends on the request alone. -/
theorem Quiet.resolve {b : Bridge} (h : b.Quiet) {host : Option Host}
    (hh : ∀ h, host = some h → h.Answers) (q : ResolveRequest) :
    (b.resolve host q).1.Quiet ∧ (b.resolve host q).1.limit = b.limit ∧
      (b.resolve host q).2 = ((host.map fun h => ending b.limit (h.resolve q)).getD
        (.answered none)) := by
  cases host with
  | none => exact ⟨h, rfl, rfl⟩
  | some host =>
    have ha := (hh host rfl).resolve q
    obtain ⟨h1, h2, h3, h4⟩ := h.resolving.settle_finish_join 0 q
      (ending_ne_panicked b.limit ha)
    unfold Bridge.resolve ask
    simp only [join, serve, settle, decide_eq_true h1, if_true, h2,
      @Quiet.outcome_with _ b { b with resolving := b.resolving.join 0 q } h rfl rfl _ ha, h4,
      Option.map_some]
    exact ⟨⟨h.cancelled, h3, h.loading⟩, trivial, rfl⟩

theorem resolve_ne_panicked {host : Option Host} (hh : ∀ h, host = some h → h.Answers)
    (limit : Option Nat) (q : ResolveRequest) (reason : String) :
    ((host.map fun h => ending limit (h.resolve q)).getD (.answered none)) ≠ .panicked reason := by
  cases host with
  | none => exact fun h => nomatch h
  | some host => exact ending_ne_panicked limit ((hh host rfl).resolve q) reason

/-- A host's answer to what a module contains depends on the id alone. -/
theorem Quiet.load {b : Bridge} (h : b.Quiet) {host : Option Host}
    (hh : ∀ h, host = some h → h.Answers) (id : String) :
    (b.load host id).1.Quiet ∧ (b.load host id).1.limit = b.limit ∧
      (b.load host id).2 = ((host.map fun h => ending b.limit (h.load id)).getD
        (.answered none)) := by
  cases host with
  | none => exact ⟨h, rfl, rfl⟩
  | some host =>
    have ha := (hh host rfl).load id
    obtain ⟨h1, h2, h3, h4⟩ := h.loading.settle_finish_join 0 id
      (ending_ne_panicked b.limit ha)
    unfold Bridge.load ask
    simp only [join, serve, settle, decide_eq_true h1, if_true, h2,
      @Quiet.outcome_with _ b { b with loading := b.loading.join 0 id } h rfl rfl _ ha, h4,
      Option.map_some]
    exact ⟨⟨h.cancelled, h.resolving, h3⟩, trivial, rfl⟩

end Bridge

end Bundler
