import Bundler.Hook.Basic

/-!
# Questions in flight

Callers that ask the same question while it is being answered share one trip to the host. A trip
holds the slot of its key from its start until one of its callers takes its outcome; a trip that
ended in a breakdown never gives its slot up, since its callers break down with it. A trip whose
callers went away keeps its slot for the next one that asks.
-/

namespace Bundler

/-- A trip to the host for a key, and its outcome once it has ended. -/
structure Trip (κ α : Type) where
  key : κ
  outcome : Option (Outcome α)

/-- The trips started so far, the first one first; the trip that holds the slot of each key; and
the callers that wait, with their trips. -/
structure Flights (κ α : Type) where
  trips : List (Trip κ α) := []
  slots : List (κ × Nat) := []
  waiting : List (Nat × Nat) := []

namespace Flights

/-- What the callers of a broken trip learn after the first of them. -/
def brokenReason : String := "inner future panicked during poll"

section
variable {κ α : Type} [DecidableEq κ]

/-- How many trips were started. -/
def issued (f : Flights κ α) : Nat := f.trips.length

/-- How many keys have a trip. -/
def inFlight (f : Flights κ α) : Nat := f.slots.length

def slot? (f : Flights κ α) (key : κ) : Option Nat :=
  (f.slots.find? fun s => s.1 = key).map (·.2)

/-- A caller asks for a key: it waits for the trip that holds the slot, or starts one. -/
def join (f : Flights κ α) (caller : Nat) (key : κ) : Flights κ α :=
  match f.slot? key with
  | some n => { f with waiting := f.waiting ++ [(caller, n)] }
  | none =>
    { trips := f.trips ++ [⟨key, none⟩]
      slots := (key, f.trips.length) :: f.slots
      waiting := f.waiting ++ [(caller, f.trips.length)] }

/-- A trip that is under way ends. -/
def finish (f : Flights κ α) (n : Nat) (o : Outcome α) : Flights κ α :=
  { f with trips := f.trips.modify n fun t =>
      match t.outcome with
      | none => { t with outcome := some o }
      | some _ => t }

/-- The trip that a caller waits for. -/
def tripOf? (f : Flights κ α) (caller : Nat) : Option Nat :=
  (f.waiting.find? fun w => w.1 = caller).map (·.2)

/-- A caller takes the outcome of its trip, if that has ended. The slot becomes free, unless a
newer trip holds it by now or the trip broke down. -/
def settle (f : Flights κ α) (caller : Nat) : Flights κ α × Option (Outcome α) :=
  match f.tripOf? caller with
  | none => (f, none)
  | some n =>
    match f.trips[n]? with
    | some ⟨key, some o⟩ =>
      let rest := f.waiting.filter fun w => w.1 ≠ caller
      match o with
      | .panicked _ =>
        ({ f with
            trips := f.trips.set n ⟨key, some (.panicked brokenReason)⟩
            waiting := rest }, some o)
      | _ =>
        ({ f with slots := f.slots.filter fun s => !(s.1 = key && s.2 = n), waiting := rest },
          some o)
    | _ => (f, none)

/-- A caller goes away without the outcome of its trip. -/
def withdraw (f : Flights κ α) (caller : Nat) : Flights κ α :=
  { f with waiting := f.waiting.filter fun w => w.1 ≠ caller }

end

end Flights

end Bundler
