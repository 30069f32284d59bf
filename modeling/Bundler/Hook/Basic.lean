import Bundler.Error

/-!
# Hosts

A host may answer where a request leads to and what a module contains. It can also reject a
question, stay silent, cancel the session, or break down.
-/

namespace Bundler

structure ResolveRequest where
  importer : Option String
  importee : String
deriving DecidableEq

structure ResolveAnswer where
  uri : String
  external : Bool
deriving DecidableEq

structure LoadAnswer where
  content : Option String
  loader : Option String
deriving DecidableEq

/-- What a host does with a question. -/
inductive Reply (α : Type)
  /-- An answer; `none` leaves the question to the bundler. -/
  | answer (a : Option α)
  | reject (message : String)
  | silence
  /-- The host cancels the session and stays silent. -/
  | cancel
  | panic (reason : String)

def Reply.isSilence {α : Type} : Reply α → Bool
  | .silence => true
  | _ => false

/-- Whether a question ends without a time limit and without a cancellation. -/
def Reply.isPrompt {α : Type} : Reply α → Bool
  | .silence | .cancel => false
  | _ => true

/-- When a host answers a question of several that are asked at once. -/
inductive Pace
  /-- Before it hears the next question. -/
  | atOnce
  /-- When somebody asks the same question while it is open, or else when all have asked. -/
  | onDemand
  /-- When all have asked. -/
  | later
deriving DecidableEq

structure Host where
  resolve : ResolveRequest → Reply ResolveAnswer
  load : String → Reply LoadAnswer
  pace : Pace := .onDemand

/-- Why a question to a host got no answer. -/
inductive HookFailure
  | rejected (message : String)
  | cancelled
  | timedOut (milliseconds : Nat)
deriving DecidableEq

def HookFailure.message : HookFailure → String
  | .rejected message => message
  | .cancelled => "cancelled"
  | .timedOut ms => "timed out after " ++ toString ms ++ "ms"

/-- How a question to a host ended. -/
inductive Outcome (α : Type)
  | answered (a : Option α)
  | failed (f : HookFailure)
  | panicked (reason : String)
deriving DecidableEq

end Bundler
