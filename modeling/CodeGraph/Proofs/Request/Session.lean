import CodeGraph.Proofs.Request.Form

/-!
# Requests that share a store

In a `Session` any number of requests are under way. One event is one step of one request, an access to
the store that is served or refused or a computation, or it is the removal of all results. Events come
in any order.
-/

namespace CodeGraph

/-- A request to one of some analyzers. -/
structure Call where
  analyzer : Analyzer
  request : Request

namespace Call

/-- A call as a plan. -/
def plan (c : Call) : Plan String := c.request.plan c.analyzer

/-- The answer to a call where there is no store. -/
def answerAlone (c : Call) : Except Fault String := c.plan.answerAlone

end Call

/-- No two of some sources have one digest. -/
def DigestsDiffer (sources : List String) : Prop :=
  ∀ s ∈ sources, ∀ t ∈ sources, Blake3.textDigest s = Blake3.textDigest t → s = t

theorem DigestsDiffer.mono {sources sources' : List String} (h : DigestsDiffer sources')
    (hsub : sources ⊆ sources') : DigestsDiffer sources :=
  fun s hs t ht => h s (hsub hs) t (hsub ht)

theorem digestsDiffer_of_forall_eq {sources : List String} {code : String}
    (h : ∀ s ∈ sources, s = code) : DigestsDiffer sources :=
  fun s hs t ht _ => (h s hs).trans (h t ht).symm

/-- What can happen while requests are under way. -/
inductive Event where
  /-- The next step of the call number `i`. -/
  | turn (i : Nat) (service : Service)
  /-- All results are removed. -/
  | clear

/-- Whether an event is a step of a call. -/
def Event.isTurnOf (i : Nat) : Event → Bool
  | turn j _ => j == i
  | clear => false

/-- Requests under way, and the store that they share. -/
structure Session where
  plans : List (Plan String)
  store : ResultStore

namespace Session

/-- The session of some calls before the first event. -/
def start (calls : List Call) : Session := ⟨calls.map Call.plan, ∅⟩

/-- The session after an event. -/
def step (s : Session) : Event → Session
  | .turn i service =>
    match s.plans[i]? with
    | none => s
    | some plan =>
      let (plan, store) := plan.step service s.store
      ⟨s.plans.set i plan, store⟩
  | .clear => ⟨s.plans, s.store.clear.1⟩

/-- The session after some events. -/
def run (s : Session) (events : List Event) : Session := events.foldl step s

/-- The answer to a call, where it is answered. -/
def answer? (s : Session) (i : Nat) : Option (Except Fault String) :=
  match s.plans[i]? with
  | some (.done answer) => some answer
  | _ => none

@[simp] theorem run_nil (s : Session) : s.run [] = s := rfl

@[simp] theorem run_cons (s : Session) (e : Event) (es : List Event) :
    s.run (e :: es) = (s.step e).run es := rfl

variable {s : Session}

theorem step_turn_of_some {i : Nat} {plan : Plan String} (h : s.plans[i]? = some plan)
    (service : Service) :
    s.step (.turn i service) =
      ⟨s.plans.set i (plan.step service s.store).1, (plan.step service s.store).2⟩ := by
  rw [step, h]

theorem step_turn_of_none {i : Nat} (h : s.plans[i]? = none) (service : Service) :
    s.step (.turn i service) = s := by
  rw [step, h]

/-! ### What every event keeps -/

/-- The store holds only what is allowed, and every plan keeps its promise. -/
structure Sound (stored : StoreKey → String → Prop) (answers : Nat → Except Fault String → Prop)
    (s : Session) : Prop where
  store : s.store.Holds stored
  plans : ∀ (i : Nat) (plan : Plan String), s.plans[i]? = some plan →
    plan.Keeps stored (answers i)

variable {stored : StoreKey → String → Prop} {answers : Nat → Except Fault String → Prop}

theorem Sound.step (h : s.Sound stored answers) (e : Event) : (s.step e).Sound stored answers := by
  cases e with
  | clear => exact ⟨ResultStore.holds_empty stored, h.plans⟩
  | turn i service =>
    cases hplan : s.plans[i]? with
    | none =>
      rw [step_turn_of_none hplan]
      exact h
    | some plan =>
      obtain ⟨hkeeps, hstore⟩ := (h.plans i plan hplan).step h.store service
      rw [step_turn_of_some hplan]
      refine ⟨hstore, fun j other hother => ?_⟩
      rw [List.getElem?_set] at hother
      split at hother
      · next hij =>
        subst hij
        split at hother
        · rw [← Option.some.inj hother]
          exact hkeeps
        · exact absurd hother (by simp)
      · exact h.plans j other hother

theorem Sound.run (h : s.Sound stored answers) (events : List Event) :
    (s.run events).Sound stored answers := by
  induction events generalizing s with
  | nil => exact h
  | cons e es ih => exact ih (h.step e)

theorem Sound.answer (h : s.Sound stored answers) {i : Nat} {answer : Except Fault String}
    (hanswer : s.answer? i = some answer) : answers i answer := by
  unfold answer? at hanswer
  split at hanswer
  · next other hplan =>
    rw [← Option.some.inj hanswer]
    exact h.plans i _ hplan
  · exact absurd hanswer (by simp)

/-- Calls that all keep the promise are sound from the start. -/
theorem sound_start {calls : List Call}
    (h : ∀ (i : Nat) (call : Call), calls[i]? = some call → call.plan.Keeps stored (answers i)) :
    (start calls).Sound stored answers := by
  refine ⟨ResultStore.holds_empty stored, fun i plan hplan => ?_⟩
  rw [start, List.getElem?_map] at hplan
  obtain ⟨call, hcall, rfl⟩ := Option.map_eq_some_iff.mp hplan
  exact h i call hcall

/-! ### Every call is answered -/

/-- A call with few steps left is answered when it has taken so many. -/
theorem answered_run {i n : Nat} {plan : Plan String} {events : List Event}
    (hplan : s.plans[i]? = some plan) (hwithin : plan.AnswersWithin n)
    (hcount : n ≤ events.countP (Event.isTurnOf i)) : ((s.run events).answer? i).isSome := by
  induction events generalizing s n plan with
  | nil =>
    obtain rfl : n = 0 := Nat.le_zero.mp hcount
    cases plan with
    | done answer => simp [answer?, hplan]
    | get key next => exact hwithin.elim
    | find digest kind next => exact hwithin.elim
    | compute next => exact hwithin.elim
    | put key payload next => exact hwithin.elim
  | cons e es ih =>
    rw [run_cons]
    cases e with
    | clear => exact ih hplan hwithin (by simpa [Event.isTurnOf] using hcount)
    | turn j service =>
      by_cases hji : j = i
      · subst hji
        have hplan' : (s.step (.turn j service)).plans[j]? =
            some (plan.step service s.store).1 := by
          obtain ⟨hlt, -⟩ := List.getElem?_eq_some_iff.mp hplan
          rw [step_turn_of_some hplan]
          exact List.getElem?_set_self hlt
        refine ih hplan' (hwithin.step service s.store) ?_
        rw [List.countP_cons_of_pos (by simp [Event.isTurnOf])] at hcount
        omega
      · -- a step of another call leaves this one as it is
        have hplan' : (s.step (.turn j service)).plans[i]? = some plan := by
          cases hother : s.plans[j]? with
          | none => rwa [step_turn_of_none hother]
          | some other =>
            rw [step_turn_of_some hother]
            exact (List.getElem?_set_ne hji).trans hplan
        refine ih hplan' hwithin ?_
        rwa [List.countP_cons_of_neg (by simpa [Event.isTurnOf] using hji)] at hcount

end Session

end CodeGraph
