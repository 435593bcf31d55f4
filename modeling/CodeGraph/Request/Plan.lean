import CodeGraph.Cache.Store

/-!
# Requests as plans

A `Plan` is a request as the steps that it takes one after the other: its accesses to the store, and
the computations between them. `Plan.step` carries out one step, and `Plan.run` all of them. An access
can fail, and there may be no store at all; what follows then is up to the plan.
-/

namespace CodeGraph

/-- A request, up to its answer. -/
inductive Plan (α : Type) where
  /-- The request is answered. -/
  | done (answer : Except Fault α)
  /-- Ask for the payload of a key. -/
  | get (key : StoreKey) (next : Except Fault (Option String) → Plan α)
  /-- Ask for the earliest result of a kind for a digest. -/
  | find (digest : String) (kind : ResultKind)
      (next : Except Fault (Option (Language × String)) → Plan α)
  /-- Compute what follows; the store is left alone. -/
  | compute (next : Unit → Plan α)
  /-- Put a payload under a key; whether that works makes no difference to the request. -/
  | put (key : StoreKey) (payload : String) (next : Plan α)

/-- How the store takes an access. -/
inductive Service where
  /-- The access is served at a time. -/
  | served (now : Int)
  | refused (cause : StorageFault)
deriving DecidableEq, Repr

namespace Plan

variable {α β : Type}

/-- Turn the answer of a request into another. -/
def mapAnswer (f : Except Fault α → Except Fault β) : Plan α → Plan β
  | done answer => done (f answer)
  | get key next => get key fun found => mapAnswer f (next found)
  | find digest kind next => find digest kind fun found => mapAnswer f (next found)
  | compute next => compute fun _ => mapAnswer f (next ())
  | put key payload next => put key payload (mapAnswer f next)

/-- Carry out the next step of a plan; `service` is how the store takes it where it is an access. -/
def step (service : Service) (store : ResultStore) : Plan α → Plan α × ResultStore
  | done answer => (done answer, store)
  | get key next =>
    match service with
    | .served _ => (next (.ok (store.get? key)), store)
    | .refused cause => (next (.error (.storage cause)), store)
  | find digest kind next =>
    match service with
    | .served _ => (next (store.find digest kind), store)
    | .refused cause => (next (.error (.storage cause)), store)
  | compute next => (next (), store)
  | put key payload next =>
    match service with
    | .served now => (next, (store.put key payload now).1)
    | .refused _ => (next, store)

/-- Carry out a whole plan on a store; `service n` is how the store takes the step number `n`. -/
def run (service : Nat → Service) (store : ResultStore) :
    Plan α → Except Fault α × ResultStore
  | done answer => (answer, store)
  | get key next =>
    match service 0 with
    | .served _ => run (fun n => service (n + 1)) store (next (.ok (store.get? key)))
    | .refused cause => run (fun n => service (n + 1)) store (next (.error (.storage cause)))
  | find digest kind next =>
    match service 0 with
    | .served _ => run (fun n => service (n + 1)) store (next (store.find digest kind))
    | .refused cause => run (fun n => service (n + 1)) store (next (.error (.storage cause)))
  | compute next => run (fun n => service (n + 1)) store (next ())
  | put key payload next =>
    match service 0 with
    | .served now => run (fun n => service (n + 1)) (store.put key payload now).1 next
    | .refused _ => run (fun n => service (n + 1)) store next

/-- The answer of a plan where there is no store. -/
def answerAlone : Plan α → Except Fault α
  | done answer => answer
  | get _ next => answerAlone (next (.error .noStore))
  | find _ _ next => answerAlone (next (.error .noStore))
  | compute next => answerAlone (next ())
  | put _ _ next => answerAlone next

/-- Carry out a plan on a store that serves every access at one time, or without a store. -/
def runAt (now : Int) (plan : Plan α) : Option ResultStore → Except Fault α × Option ResultStore
  | none => (plan.answerAlone, none)
  | some store =>
    let (answer, store) := plan.run (fun _ => .served now) store
    (answer, some store)

end Plan

end CodeGraph
