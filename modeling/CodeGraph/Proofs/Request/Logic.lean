import CodeGraph.Proofs.Cache.Rows
import CodeGraph.Request.Analyzer

/-!
# A logic of plans

`Keeps stored answers plan` says what a plan does on a store in which every payload is one that
`stored` allows for its key: it puts only such payloads there, and its answer is one of `answers`.
Other plans that keep the same promise may come in between any two steps.
-/

namespace CodeGraph

/-! ### Computations that can fail -/

theorem exists_of_bind_eq_ok {ε α β : Type} {x : Except ε α} {f : α → Except ε β} {y : β}
    (h : x >>= f = .ok y) : ∃ z, x = .ok z ∧ f z = .ok y := by
  cases x with
  | error e => cases h
  | ok z => exact ⟨z, rfl, h⟩

theorem exists_of_map_eq_ok {ε α β : Type} {x : Except ε α} {f : α → β} {y : β}
    (h : x.map f = .ok y) : ∃ z, x = .ok z ∧ f z = y := by
  cases x with
  | error e => cases h
  | ok z => exact ⟨z, rfl, Except.ok.inj h⟩

/-! ### What stores hold -/

namespace ResultStore

/-- Every payload of a store is one that is allowed for its key. -/
def Holds (s : ResultStore) (stored : StoreKey → String → Prop) : Prop :=
  ∀ key payload, s.get? key = some payload → stored key payload

theorem holds_empty (stored : StoreKey → String → Prop) : (∅ : ResultStore).Holds stored :=
  fun _ _ h => nomatch h

theorem Holds.put {s : ResultStore} {stored : StoreKey → String → Prop} (h : s.Holds stored)
    {key : StoreKey} {payload : String} (hnew : stored key payload) (now : Int) :
    (s.put key payload now).1.Holds stored := by
  intro key' payload' hget
  rw [get?_put] at hget
  split at hget
  · next hkey =>
    rw [← hkey.1, ← Option.some.inj hget]
    exact hnew
  · exact h key' payload' hget

end ResultStore

namespace Plan

variable {α β : Type}

/-- What a plan does on a store that holds only what is allowed. -/
def Keeps (stored : StoreKey → String → Prop) (answers : Except Fault α → Prop) : Plan α → Prop
  | done answer => answers answer
  | get key next =>
    ∀ found, (∀ payload, found = .ok (some payload) → stored key payload) →
      Keeps stored answers (next found)
  | find _ _ next => ∀ found, Keeps stored answers (next found)
  | compute next => Keeps stored answers (next ())
  | put key payload next => stored key payload ∧ Keeps stored answers next

variable {stored : StoreKey → String → Prop}

theorem Keeps.mono {answers answers' : Except Fault α → Prop}
    (hanswers : ∀ answer, answers answer → answers' answer) :
    ∀ {plan : Plan α}, Keeps stored answers plan → Keeps stored answers' plan
  | done answer, h => hanswers answer h
  | get _ _, h => fun found hfound => (h found hfound).mono hanswers
  | find _ _ _, h => fun found => (h found).mono hanswers
  | compute next, h => (show Keeps stored answers (next ()) from h).mono hanswers
  | put _ _ _, h => ⟨h.1, h.2.mono hanswers⟩

theorem Keeps.mapAnswer {f : Except Fault α → Except Fault β} {answers : Except Fault β → Prop} :
    ∀ {plan : Plan α}, Keeps stored (fun answer => answers (f answer)) plan →
      Keeps stored answers (plan.mapAnswer f)
  | done _, h => h
  | get _ _, h => fun found hfound => (h found hfound).mapAnswer
  | find _ _ _, h => fun found => (h found).mapAnswer
  | compute next, h =>
    (show Keeps stored (fun answer => answers (f answer)) (next ()) from h).mapAnswer
  | put _ _ _, h => ⟨h.1, h.2.mapAnswer⟩

/-- One step keeps what a plan promises, and what the store holds. -/
theorem Keeps.step {answers : Except Fault α → Prop} {plan : Plan α}
    (h : Keeps stored answers plan) {store : ResultStore} (hstore : store.Holds stored)
    (service : Service) :
    Keeps stored answers (plan.step service store).1 ∧
      (plan.step service store).2.Holds stored := by
  cases plan with
  | done answer => exact ⟨h, hstore⟩
  | get key next =>
    cases service with
    | served now => exact ⟨h _ fun payload hget => hstore key payload (Except.ok.inj hget), hstore⟩
    | refused cause => exact ⟨h _ fun payload hget => absurd hget (by simp), hstore⟩
  | find digest kind next =>
    cases service with
    | served now => exact ⟨h _, hstore⟩
    | refused cause => exact ⟨h _, hstore⟩
  | compute next => exact ⟨h, hstore⟩
  | put key payload next =>
    cases service with
    | served now => exact ⟨h.2, hstore.put h.1 now⟩
    | refused cause => exact ⟨h.2, hstore⟩

/-- A plan keeps its promise where nothing comes in between. -/
theorem Keeps.run {answers : Except Fault α → Prop} :
    ∀ {plan : Plan α}, Keeps stored answers plan → ∀ {store : ResultStore}, store.Holds stored →
      ∀ service : Nat → Service,
        answers (plan.run service store).1 ∧ (plan.run service store).2.Holds stored
  | done _, h, _, hstore, _ => ⟨h, hstore⟩
  | get key next, h, store, hstore, service => by
    unfold Plan.run
    split
    · exact (h _ fun payload hget => hstore key payload (Except.ok.inj hget)).run hstore _
    · exact (h _ fun payload hget => absurd hget (by simp)).run hstore _
  | find digest kind next, h, store, hstore, service => by
    unfold Plan.run
    split
    · exact (h _).run hstore _
    · exact (h _).run hstore _
  | compute next, h, store, hstore, service =>
    (show Keeps stored answers (next ()) from h).run hstore _
  | put key payload next, h, store, hstore, service => by
    unfold Plan.run
    split
    · next now _ => exact h.2.run (hstore.put h.1 now) _
    · exact h.2.run hstore _

/-! ### The number of steps -/

/-- A plan is answered after at most so many steps, whatever they give. -/
def AnswersWithin : Nat → Plan α → Prop
  | _, done _ => True
  | 0, _ => False
  | n + 1, get _ next => ∀ found, AnswersWithin n (next found)
  | n + 1, find _ _ next => ∀ found, AnswersWithin n (next found)
  | n + 1, compute next => AnswersWithin n (next ())
  | n + 1, put _ _ next => AnswersWithin n next

theorem AnswersWithin.done (n : Nat) (answer : Except Fault α) :
    AnswersWithin n (done answer) := by
  cases n <;> trivial

theorem AnswersWithin.step {n : Nat} {plan : Plan α} (h : AnswersWithin n plan)
    (service : Service) (store : ResultStore) :
    AnswersWithin (n - 1) (plan.step service store).1 := by
  cases plan with
  | done answer => exact .done (n - 1) answer
  | get key next =>
    cases n with
    | zero => exact h.elim
    | succ n => cases service <;> exact h _
  | find digest kind next =>
    cases n with
    | zero => exact h.elim
    | succ n => cases service <;> exact h _
  | compute next =>
    cases n with
    | zero => exact h.elim
    | succ n => exact h
  | put key payload next =>
    cases n with
    | zero => exact h.elim
    | succ n => cases service <;> exact h

theorem AnswersWithin.mapAnswer (f : Except Fault α → Except Fault β) :
    ∀ {n : Nat} {plan : Plan α}, AnswersWithin n plan → AnswersWithin n (plan.mapAnswer f)
  | n, .done answer, _ => .done n (f answer)
  | _ + 1, .get _ _, h => fun found => (h found).mapAnswer f
  | _ + 1, .find _ _ _, h => fun found => (h found).mapAnswer f
  | n + 1, .compute next, h => (show AnswersWithin n (next ()) from h).mapAnswer f
  | n + 1, .put _ _ next, h => (show AnswersWithin n next from h).mapAnswer f

theorem mapAnswer_mapAnswer {γ : Type} (f : Except Fault α → Except Fault β)
    (g : Except Fault β → Except Fault γ) :
    ∀ plan : Plan α, (plan.mapAnswer f).mapAnswer g = plan.mapAnswer fun answer => g (f answer)
  | .done _ => rfl
  | .get key next => congrArg (get key) (funext fun found => mapAnswer_mapAnswer f g (next found))
  | .find digest kind next =>
    congrArg (find digest kind) (funext fun found => mapAnswer_mapAnswer f g (next found))
  | .compute next => congrArg compute (funext fun _ => mapAnswer_mapAnswer f g (next ()))
  | .put key payload next => congrArg (put key payload) (mapAnswer_mapAnswer f g next)

theorem answerAlone_mapAnswer (f : Except Fault α → Except Fault β) :
    ∀ plan : Plan α, (plan.mapAnswer f).answerAlone = f plan.answerAlone
  | .done _ => rfl
  | .get _ next => answerAlone_mapAnswer f (next _)
  | .find _ _ next => answerAlone_mapAnswer f (next _)
  | .compute next => answerAlone_mapAnswer f (next ())
  | .put _ _ next => answerAlone_mapAnswer f next

theorem run_mapAnswer (f : Except Fault α → Except Fault β) :
    ∀ (plan : Plan α) (service : Nat → Service) (store : ResultStore),
      (plan.mapAnswer f).run service store =
        (f (plan.run service store).1, (plan.run service store).2)
  | .done _, _, _ => rfl
  | .get key next, service, store => by
    cases hs : service 0 with
    | served now =>
      simp only [Plan.mapAnswer, Plan.run, hs]
      exact run_mapAnswer f _ _ _
    | refused cause =>
      simp only [Plan.mapAnswer, Plan.run, hs]
      exact run_mapAnswer f _ _ _
  | .find digest kind next, service, store => by
    cases hs : service 0 with
    | served now =>
      simp only [Plan.mapAnswer, Plan.run, hs]
      exact run_mapAnswer f _ _ _
    | refused cause =>
      simp only [Plan.mapAnswer, Plan.run, hs]
      exact run_mapAnswer f _ _ _
  | .compute next, service, store => run_mapAnswer f (next ()) _ store
  | .put key payload next, service, store => by
    cases hs : service 0 with
    | served now =>
      simp only [Plan.mapAnswer, Plan.run, hs]
      exact run_mapAnswer f next _ _
    | refused cause =>
      simp only [Plan.mapAnswer, Plan.run, hs]
      exact run_mapAnswer f next _ _

end Plan

namespace Analyzer

variable {α : Type} {kind : ResultKind} {codec : Codec α} {code : String}
  {compute : Language → Except Fault α} {prepared : Except Fault Language}

/-- An acceptable source has its language from the request, and a grammar. -/
theorem resolved_of_prepare {a : Analyzer} {hint : SourceHint} {language : Language}
    (h : a.prepare code hint = .ok language) :
    a.resolveLanguage code hint = .ok language ∧ language.hasGrammar = true := by
  obtain ⟨-, -, h⟩ := exists_of_bind_eq_ok h
  obtain ⟨l, hresolve, h⟩ := exists_of_bind_eq_ok h
  split at h
  · next hgrammar =>
    obtain rfl := Except.ok.inj h
    exact ⟨hresolve, hgrammar⟩
  · cases h

/-- What a request does with a result that was computed anew. -/
def keep (key : StoreKey) (codec : Codec α) : Except Fault α → Plan α
  | .error e => .done (.error e)
  | .ok x => .put key (codec.write x) (.done (.ok x))

theorem remember_ok (language : Language) :
    remember kind codec code compute (.ok language) =
      .get (.ofSource code language kind) fun found =>
        match found.toOption.join.bind codec.read? with
        | some x => .done (.ok x)
        | none => .compute fun _ => keep (.ofSource code language kind) codec (compute language) := rfl

theorem answerAlone_keep (key : StoreKey) (result : Except Fault α) :
    (keep key codec result).answerAlone = result := by
  cases result <;> rfl

/-- The store after a result was computed anew, where `service` is how the store takes the write. -/
def storeKept (key : StoreKey) (codec : Codec α) (result : Except Fault α) (service : Service)
    (store : ResultStore) : ResultStore :=
  match result, service with
  | .ok x, .served now => (store.put key (codec.write x) now).1
  | _, _ => store

theorem run_keep (key : StoreKey) (result : Except Fault α) (service : Nat → Service)
    (store : ResultStore) :
    (keep key codec result).run service store =
      (result, storeKept key codec result (service 0) store) := by
  cases result with
  | error e => rfl
  | ok x => cases hservice : service 0 <;> simp only [keep, Plan.run, storeKept, hservice]

/-- Where the store is asked, the answer is the stored result, or a new one where there is none. -/
theorem run_remember {service : Nat → Service} {now : Int} (hserved : service 0 = .served now)
    (language : Language) (store : ResultStore) :
    (remember kind codec code compute (.ok language)).run service store =
      match (store.get? (.ofSource code language kind)).bind codec.read? with
      | some x => (.ok x, store)
      | none => (compute language, storeKept (.ofSource code language kind) codec (compute language)
          (service 2) store) := by
  rw [remember_ok, Plan.run, hserved]
  have hfound : (Except.ok (store.get? (.ofSource code language kind)) :
      Except Fault (Option String)).toOption.join = store.get? (.ofSource code language kind) := rfl
  simp only [hfound]
  cases (store.get? (.ofSource code language kind)).bind codec.read? with
  | some x => rfl
  | none => exact run_keep _ _ _ _

theorem run_remember_of_refused {service : Nat → Service} {cause : StorageFault}
    (hrefused : service 0 = .refused cause) (language : Language) (store : ResultStore) :
    (remember kind codec code compute (.ok language)).run service store =
      (compute language, storeKept (.ofSource code language kind) codec (compute language)
        (service 2) store) := by
  rw [remember_ok, Plan.run, hrefused]
  exact run_keep _ _ _ _

theorem answerAlone_remember :
    (remember kind codec code compute prepared).answerAlone = prepared >>= compute := by
  cases prepared with
  | error e => rfl
  | ok language =>
    rw [remember_ok]
    exact answerAlone_keep _ _

theorem answersWithin_keep (key : StoreKey) (result : Except Fault α) :
    (keep key codec result).AnswersWithin 1 := by
  cases result with
  | error e => exact .done 1 (.error e)
  | ok x => exact .done 0 (.ok x)

theorem answersWithin_remember :
    (remember kind codec code compute prepared).AnswersWithin 3 := by
  cases prepared with
  | error e => exact .done 3 _
  | ok language =>
    rw [remember_ok]
    intro found
    dsimp only
    split
    · exact .done 2 _
    · exact answersWithin_keep _ _

/-- The answer of a stored result is a fault of the source, a readable payload or a new result, and
only a new result is put into the store. -/
theorem keeps_remember {stored : StoreKey → String → Prop} {answers : Except Fault α → Prop}
    (hfault : ∀ e, prepared = .error e → answers (.error e))
    (hfound : ∀ language payload x, prepared = .ok language →
      stored (.ofSource code language kind) payload → codec.read? payload = some x → answers (.ok x))
    (hfresh : ∀ language, prepared = .ok language → answers (compute language))
    (hput : ∀ language x, prepared = .ok language → compute language = .ok x →
      stored (.ofSource code language kind) (codec.write x)) :
    (remember kind codec code compute prepared).Keeps stored answers := by
  cases hprepared : prepared with
  | error e => exact hfault e hprepared
  | ok language =>
    rw [remember_ok]
    intro found hstored
    dsimp only
    split
    · next x hx =>
      obtain ⟨payload, hpayload, hread⟩ := Option.bind_eq_some_iff.mp hx
      have hserved : found = .ok (some payload) := by
        cases found with
        | error e => exact absurd hpayload (by simp [Except.toOption])
        | ok result => rw [← hpayload]; rfl
      exact hfound language payload x hprepared (hstored payload hserved) hread
    · have hanswers := hfresh language hprepared
      cases hresult : compute language with
      | error e => rwa [hresult] at hanswers
      | ok x =>
        rw [hresult] at hanswers
        exact ⟨hput language x hprepared hresult, hanswers⟩

end Analyzer

end CodeGraph
