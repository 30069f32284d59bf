import Bundler.Hook.Flight

/-!
# The bridge to the host

The bridge asks the host on behalf of the bundler. A question ends with the host's answer or
rejection, when the session is cancelled, or after the time limit.
-/

namespace Bundler

structure Bridge where
  cancelled : Bool := false
  /-- How long a host may take, in milliseconds. -/
  limit : Option Nat := none
  resolving : Flights ResolveRequest ResolveAnswer := {}
  loading : Flights String LoadAnswer := {}

/-- A question to the host. -/
inductive HostCall
  | resolve (request : ResolveRequest)
  | load (id : String)
deriving DecidableEq

/-- The outcome of a question. -/
inductive CallOutcome
  | resolve (o : Outcome ResolveAnswer)
  | load (o : Outcome LoadAnswer)
deriving DecidableEq

namespace Bridge

/-- How many trips to the host were started. -/
def issued (b : Bridge) : Nat := b.resolving.issued + b.loading.issued

def inFlight (b : Bridge) : Nat := b.resolving.inFlight + b.loading.inFlight

def cancel (b : Bridge) : Bridge := { b with cancelled := true }

/-- How a question ends that the host treats in a certain way. Without a time limit, nothing but a
cancellation ends a silence. -/
def outcome {α : Type} (b : Bridge) (r : Reply α) : Bridge × Outcome α :=
  if b.cancelled then (b, .failed .cancelled)
  else
    match r with
    | .answer a => (b, .answered a)
    | .reject message => (b, .failed (.rejected message))
    | .silence =>
      match b.limit with
      | some ms => (b, .failed (.timedOut ms))
      | none => (b, .failed .cancelled)
    | .cancel => (b.cancel, .failed .cancelled)
    | .panic reason => (b, .panicked reason)

/-- A caller asks. Tells whether a trip was started for it. -/
def join (b : Bridge) (caller : Nat) : HostCall → Bridge × Bool
  | .resolve request =>
    let f := b.resolving.join caller request
    ({ b with resolving := f }, b.resolving.issued < f.issued)
  | .load id =>
    let f := b.loading.join caller id
    ({ b with loading := f }, b.loading.issued < f.issued)

/-- The host treats the question of a caller whose trip is under way. -/
def serve (b : Bridge) (host : Host) (caller : Nat) : HostCall → Bridge
  | .resolve request =>
    match b.resolving.tripOf? caller with
    | none => b
    | some n =>
      let (b, o) := b.outcome (host.resolve request)
      { b with resolving := b.resolving.finish n o }
  | .load id =>
    match b.loading.tripOf? caller with
    | none => b
    | some n =>
      let (b, o) := b.outcome (host.load id)
      { b with loading := b.loading.finish n o }

/-- A caller takes the outcome of its question. -/
def settle (b : Bridge) (caller : Nat) : HostCall → Bridge × Option CallOutcome
  | .resolve _ =>
    let (f, o) := b.resolving.settle caller
    ({ b with resolving := f }, o.map .resolve)
  | .load _ =>
    let (f, o) := b.loading.settle caller
    ({ b with loading := f }, o.map .load)

/-- Asks one question from its start to its end. -/
def ask (b : Bridge) (host : Host) (call : HostCall) : Bridge × Bool × Option CallOutcome :=
  let (b, led) := b.join 0 call
  let b := if led then b.serve host 0 call else b
  let (b, o) := b.settle 0 call
  (b, led, o)

/-- A question of a batch, whether a trip was started for it, and its outcome. -/
structure Asked where
  call : HostCall
  led : Bool
  outcome : Option CallOutcome

/-- Asks one question after the other. -/
def askInTurn (b : Bridge) (host : Host) : List HostCall → Bridge × List Asked
  | [] => (b, [])
  | call :: rest =>
    let (b, led, o) := b.ask host call
    let (b, later) := askInTurn b host rest
    (b, ⟨call, led, o⟩ :: later)

/-- Whether the host's treatment of a question ends it. -/
def isPrompt (host : Host) : HostCall → Bool
  | .resolve request => (host.resolve request).isPrompt
  | .load id => (host.load id).isPrompt

/-- The host treats the question of a caller, which takes the outcome. -/
def close (b : Bridge) (host : Host) (caller : Nat) (call : HostCall) :
    Bridge × Option CallOutcome :=
  (b.serve host caller call).settle caller call

/-- The next caller of a batch asks. If its question is open already and the host answers on
demand, the question ends. -/
def enter (host : Host) (acc : Bridge × List Asked) (call : HostCall) : Bridge × List Asked :=
  let caller := acc.2.length
  let (b, led) := acc.1.join caller call
  let (b, o) := if !led && host.pace = .onDemand && isPrompt host call then b.close host caller call
    else (b, none)
  (b, acc.2 ++ [⟨call, led, o⟩])

/-- The callers of a batch whose questions have a certain treatment take their outcomes. -/
def leave (host : Host) (prompt : Bool) (acc : Bridge × List Asked) : Bridge × List Asked :=
  acc.2.zipIdx.foldl (fun (done : Bridge × List Asked) (a, caller) =>
    match a.outcome with
    | some _ => (done.1, done.2 ++ [a])
    | none =>
      if isPrompt host a.call = prompt then
        let (b, o) := done.1.close host caller a.call
        (b, done.2 ++ [{ a with outcome := o }])
      else (done.1, done.2 ++ [a])) (acc.1, [])

/-- Asks some questions at once. The host answers before a time limit passes. -/
def askTogether (b : Bridge) (host : Host) (calls : List HostCall) : Bridge × List Asked :=
  leave host false (leave host true (calls.foldl (enter host) (b, [])))

/-- Asks a batch of questions. Those that end at once share no trips. -/
def askAll (b : Bridge) (host : Host) (calls : List HostCall) : Bridge × List Asked :=
  if host.pace = .atOnce || b.cancelled then b.askInTurn host calls else b.askTogether host calls

/-- Whether no trip holds the slot of a question. -/
def isFree (b : Bridge) : HostCall → Bool
  | .resolve request => (b.resolving.slot? request).isNone
  | .load id => (b.loading.slot? id).isNone

/-- Whether a question is left open until a time limit passes or the session is cancelled. One that
finds the trip of an earlier caller is not. -/
def isStalled (b : Bridge) (host : Option Host) (call : HostCall) : Bool :=
  !b.cancelled && b.isFree call && host.any fun h =>
    match call with
    | .resolve request => (h.resolve request).isSilence
    | .load id => (h.load id).isSilence

/-- The build error of a failed question. -/
def failure (kind : HookKind) (key : String) (f : HookFailure) : BuildError :=
  .hook kind key f.message

/-- Asks where a request leads to. Without a host, there is no answer. -/
def resolve (b : Bridge) (host : Option Host) (request : ResolveRequest) :
    Bridge × Outcome ResolveAnswer :=
  match host with
  | none => (b, .answered none)
  | some host =>
    match b.ask host (.resolve request) with
    | (b, _, some (.resolve o)) => (b, o)
    | (b, _, _) => (b, .failed .cancelled)

/-- Asks where a request leads to, with a caller that goes away before the question ends. -/
def abandon (b : Bridge) (host : Option Host) (request : ResolveRequest) : Bridge :=
  match host with
  | none => b
  | some host =>
    let (b, led) := b.join 0 (.resolve request)
    let b := if led then b.serve host 0 (.resolve request) else b
    { b with resolving := b.resolving.withdraw 0 }

/-- Asks what a module contains. Without a host, there is no answer. -/
def load (b : Bridge) (host : Option Host) (id : String) : Bridge × Outcome LoadAnswer :=
  match host with
  | none => (b, .answered none)
  | some host =>
    match b.ask host (.load id) with
    | (b, _, some (.load o)) => (b, o)
    | (b, _, _) => (b, .failed .cancelled)

end Bridge

end Bundler
