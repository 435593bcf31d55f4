import CodeGraph.Proofs.Request.Session

/-!
# What requests leave in the store

No step of a plan changes or removes a row, so a store only grows until it is cleared, whatever requests run on it
and in whatever order their steps come. `Request.Goes` lists how a request with a stored result can go, and from this
list it is read off when it adds a row and which. Main statement: `AnyRequest.footprint_run`.
-/

namespace CodeGraph

/-! ### Stores grow -/

namespace Plan

variable {α : Type}

/-- No step changes or removes a row. -/
theorem suffix_rows_step (plan : Plan α) (service : Service) (store : ResultStore) :
    store.rows <:+ (plan.step service store).2.rows := by
  cases plan with
  | done answer => exact List.suffix_refl _
  | get key next => cases service <;> exact List.suffix_refl _
  | find digest kind next => cases service <;> exact List.suffix_refl _
  | compute next => exact List.suffix_refl _
  | put key payload next =>
    cases service with
    | served now => exact store.suffix_rows_put key payload now
    | refused cause => exact List.suffix_refl _

/-- No plan changes or removes a row. -/
theorem suffix_rows_run : ∀ (plan : Plan α) (service : Nat → Service) (store : ResultStore),
    store.rows <:+ (plan.run service store).2.rows
  | done answer, _, store => List.suffix_refl _
  | get key next, service, store => by
    unfold Plan.run
    split
    · exact suffix_rows_run _ _ _
    · exact suffix_rows_run _ _ _
  | find digest kind next, service, store => by
    unfold Plan.run
    split
    · exact suffix_rows_run _ _ _
    · exact suffix_rows_run _ _ _
  | compute next, service, store => suffix_rows_run (next ()) _ store
  | put key payload next, service, store => by
    unfold Plan.run
    split
    · exact (store.suffix_rows_put key payload _).trans (suffix_rows_run next _ _)
    · exact suffix_rows_run next _ _

end Plan

/-- Until it is cleared, a store that requests share keeps every row as it is. -/
theorem Session.suffix_rows_run {events : List Event} (hclear : Event.clear ∉ events) (s : Session) :
    s.store.rows <:+ (s.run events).store.rows := by
  induction events generalizing s with
  | nil => exact List.suffix_refl _
  | cons e events ih =>
    rw [List.mem_cons, not_or] at hclear
    refine List.IsSuffix.trans ?_ (ih hclear.2 (s.step e))
    cases e with
    | clear => exact absurd rfl hclear.1
    | turn i service =>
      cases hplan : s.plans[i]? with
      | none => simp only [step_turn_of_none hplan, List.suffix_refl]
      | some plan =>
        rw [step_turn_of_some hplan]
        exact plan.suffix_rows_step service s.store

/-! ### Requests with a stored result -/

namespace Request

/-- The ways in which a request can go, with its answer and the store after it. It asks the store in its first step
and writes in its third. -/
inductive Goes (a : Analyzer) (r : Request) (service : Nat → Service) (store : ResultStore) :
    Except Fault String → ResultStore → Prop where
  /-- Its source is not acceptable. -/
  | unacceptable {e : Fault} (hprepare : a.prepare r.code r.hint = .error e) :
      Goes a r service store (.error e) store
  /-- It is answered from a row that can be read. -/
  | found {language : Language} {now : Int} {payload : String}
      (hprepare : a.prepare r.code r.hint = .ok language) (hasked : service 0 = .served now)
      (hget : store.get? (.ofSource r.code language r.kind) = some payload)
      (hread : r.kind.isReadable payload = true) (text : String) : Goes a r service store (.ok text) store
  /-- No new result can be computed. -/
  | failed {language : Language} {e : Fault} (hprepare : a.prepare r.code r.hint = .ok language)
      (hfresh : a.freshText r.code language r.kind = .error e) : Goes a r service store (.error e) store
  /-- A new result is computed, and the write is refused. -/
  | unwritten {language : Language} {payload : String} {cause : StorageFault}
      (hprepare : a.prepare r.code r.hint = .ok language)
      (hfresh : a.freshText r.code language r.kind = .ok payload)
      (hrefused : service 2 = .refused cause) (text : String) : Goes a r service store (.ok text) store
  /-- A new result is computed and put into the store. -/
  | written {language : Language} {payload : String} {now : Int}
      (hprepare : a.prepare r.code r.hint = .ok language)
      (hfresh : a.freshText r.code language r.kind = .ok payload) (hserved : service 2 = .served now)
      (text : String) : Goes a r service store (.ok text)
        (store.put (.ofSource r.code language r.kind) payload now).1

variable {a : Analyzer} {r : Request} {service : Nat → Service} {store : ResultStore}

/-- Where a stored result does not answer, the new one goes in one of the last three ways. -/
theorem Goes.fresh {language : Language} (hprepare : a.prepare r.code r.hint = .ok language) :
    Goes a r service store (((r.form a).compute language).map (r.form a).answer)
      (Analyzer.storeKept (.ofSource r.code language r.kind) (r.form a).codec
        ((r.form a).compute language) (service 2) store) := by
  have hfresh := (r.form a).fresh language
  cases hcompute : (r.form a).compute language with
  | error e =>
    rw [hcompute] at hfresh
    exact .failed hprepare hfresh
  | ok x =>
    rw [hcompute] at hfresh
    cases hservice : service 2 with
    | served now => exact .written hprepare hfresh hservice _
    | refused cause => exact .unwritten hprepare hfresh hservice _

/-- A request goes in one of these ways. -/
theorem goes_run (a : Analyzer) (r : Request) (service : Nat → Service) (store : ResultStore) :
    Goes a r service store ((r.plan a).run service store).1 ((r.plan a).run service store).2 := by
  rw [(r.form a).plan_eq, Plan.run_mapAnswer]
  cases hprepare : a.prepare r.code r.hint with
  | error e => exact .unacceptable hprepare
  | ok language =>
    cases hservice : service 0 with
    | refused cause =>
      rw [Analyzer.run_remember_of_refused hservice]
      exact .fresh hprepare
    | served now =>
      rw [Analyzer.run_remember hservice]
      cases hfound : (store.get? (.ofSource r.code language r.kind)).bind (r.form a).codec.read? with
      | none => exact .fresh hprepare
      | some x =>
        obtain ⟨payload, hget, hread⟩ := Option.bind_eq_some_iff.mp hfound
        refine .found hprepare hservice hget ?_ _
        rw [(r.form a).readable, hread]
        rfl

/-- When a request adds a row: it is answered, its write is accepted, and its key has no row yet. -/
structure Adds (a : Analyzer) (r : Request) (service : Nat → Service) (store : ResultStore)
    (answer : Except Fault String) (language : Language) (now : Int) : Prop where
  answered : ∃ text, answer = .ok text
  resolved : a.resolveLanguage r.code r.hint = .ok language
  accepted : service 2 = .served now
  free : store.row? (.ofSource r.code language r.kind) = none

variable {answer : Except Fault String} {after : ResultStore}

theorem Goes.rows_of_adds (h : Goes a r service store answer after) {language : Language} {now : Int}
    (hadds : r.Adds a service store answer language now) :
    ∃ payload, a.freshText r.code language r.kind = .ok payload ∧
      after.rows = ⟨.ofSource r.code language r.kind, payload, now⟩ :: store.rows := by
  obtain ⟨⟨answered, hanswered⟩, hresolved, haccepted, hfree⟩ := hadds
  -- the language that the request takes is the one that the row would be under
  have hlanguage : ∀ {l : Language}, a.prepare r.code r.hint = .ok l → l = language := fun hl =>
    Except.ok.inj ((Analyzer.resolved_of_prepare hl).1.symm.trans hresolved)
  cases h with
  | unacceptable _ => cases hanswered
  | found hprepare _ hget _ text =>
    obtain rfl := hlanguage hprepare
    rw [ResultStore.get?, hfree] at hget
    cases hget
  | failed _ _ => cases hanswered
  | unwritten _ _ hrefused text => cases hrefused.symm.trans haccepted
  | written hprepare hfresh hserved text =>
    obtain rfl := hlanguage hprepare
    obtain rfl := Service.served.inj (hserved.symm.trans haccepted)
    exact ⟨_, hfresh, ResultStore.rows_put_of_free hfree _ _⟩

theorem Goes.eq_of_not_adds (h : Goes a r service store answer after)
    (hadds : ∀ language now, ¬ r.Adds a service store answer language now) : after = store := by
  cases h with
  | unacceptable _ => rfl
  | found _ _ _ _ text => rfl
  | failed _ _ => rfl
  | unwritten _ _ _ text => rfl
  | written hprepare _ hserved text =>
    -- the write was accepted, so it can only have been dropped
    refine ResultStore.put_of_row (fun hfree => ?_) _ _
    exact hadds _ _ ⟨⟨text, rfl⟩, (Analyzer.resolved_of_prepare hprepare).1, hserved, hfree⟩

end Request

/-! ### All requests -/

/-- A request to an analyzer. -/
inductive AnyRequest where
  | kept (r : Request)
  | parseIncremental (code : String) (oldCode : Option String) (hint : SourceHint)
  | diff (oldCode newCode : String) (hint : SourceHint)
  | diffResults (old new : TreeResult)
  | storedResult (digest : String) (kind : ResultKind)
  | storedNode (digest : String) (id : NodeId)

namespace AnyRequest

/-- A request as a plan, whose answer is the text of the result. -/
def plan (a : Analyzer) : AnyRequest → Plan String
  | kept r => r.plan a
  | parseIncremental code oldCode hint =>
    .done ((a.parseIncremental code oldCode hint).map TreeResult.codec.write)
  | diff oldCode newCode hint => .done ((a.diff oldCode newCode hint).map TreeDiff.codec.write)
  | diffResults old new =>
    .done ((CodeGraph.diffResults a.parser old new).map TreeDiff.codec.write)
  | storedResult digest kind => (CodeGraph.storedResult digest kind).mapAnswer (·.map Json.compact)
  | storedNode digest id =>
    (CodeGraph.storedNode digest id).mapAnswer (·.map NodeLookup.codec.write)

/-- What a request leaves of a store: every row as it was, and no other where it fails or keeps no results. Else it
adds a row with the text of a new result where `Request.Adds` says so, and no row elsewhere. -/
structure Footprint (a : Analyzer) (r : AnyRequest) (service : Nat → Service) (store : ResultStore)
    (answer : Except Fault String) (after : ResultStore) : Prop where
  keeps : store.rows <:+ after.rows
  failed : ∀ e, answer = .error e → after = store
  reading : (∀ q, r ≠ kept q) → after = store
  adds : ∀ q, r = kept q → ∀ language now, q.Adds a service store answer language now →
    ∃ payload, a.freshText q.code language q.kind = .ok payload ∧
      after.rows = ⟨.ofSource q.code language q.kind, payload, now⟩ :: store.rows
  leaves : ∀ q, r = kept q → (∀ language now, ¬ q.Adds a service store answer language now) →
    after = store

theorem run_lookUp {α : Type} (digest : String) (kind : ResultKind) (answer : String → Except Fault α)
    (service : Nat → Service) (store : ResultStore) :
    ((lookUp digest kind answer).run service store).2 = store := by
  rw [lookUp, Plan.run]
  split <;> rfl

/-- Requests that keep no results leave the store alone. -/
theorem run_plan_of_not_kept {r : AnyRequest} (hkept : ∀ q, r ≠ kept q) (a : Analyzer)
    (service : Nat → Service) (store : ResultStore) : ((r.plan a).run service store).2 = store := by
  cases r with
  | kept q => exact absurd rfl (hkept q)
  | parseIncremental code oldCode hint => rfl
  | diff oldCode newCode hint => rfl
  | diffResults old new => rfl
  | storedResult digest kind =>
    rw [plan, Plan.run_mapAnswer]
    exact run_lookUp digest kind _ service store
  | storedNode digest id =>
    rw [plan, Plan.run_mapAnswer]
    exact run_lookUp digest .tree _ service store

/-- **Requests touch the store only as they should.** Whatever is in the store and whichever accesses are refused, a
request leaves no other footprint than `Footprint` allows it. -/
theorem footprint_run (a : Analyzer) (r : AnyRequest) (service : Nat → Service)
    (store : ResultStore) :
    r.Footprint a service store ((r.plan a).run service store).1 ((r.plan a).run service store).2 := by
  have hkeeps := (r.plan a).suffix_rows_run service store
  by_cases hkept : ∃ q, r = kept q
  · obtain ⟨q, rfl⟩ := hkept
    have hgoes : q.Goes a service store _ _ := q.goes_run a service store
    exact
      { keeps := hkeeps
        failed := fun e he => hgoes.eq_of_not_adds fun _ _ hadds => by
          obtain ⟨text, htext⟩ := hadds.answered
          cases he.symm.trans htext
        reading := fun hother => absurd rfl (hother q)
        adds := fun p hp language now hadds => by
          obtain rfl := kept.inj hp
          exact hgoes.rows_of_adds hadds
        leaves := fun p hp hnone => by
          obtain rfl := kept.inj hp
          exact hgoes.eq_of_not_adds hnone }
  · have hother : ∀ q, r ≠ kept q := fun q hq => hkept ⟨q, hq⟩
    have hstore := run_plan_of_not_kept hother a service store
    exact
      { keeps := hkeeps
        failed := fun _ _ => hstore
        reading := fun _ => hstore
        adds := fun q hq => absurd hq (hother q)
        leaves := fun q hq => absurd hq (hother q) }

end AnyRequest

end CodeGraph
