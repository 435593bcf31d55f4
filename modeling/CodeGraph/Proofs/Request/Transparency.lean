import CodeGraph.Proofs.Request.Session

/-!
# The store makes no difference

A payload is genuine where it is the text of what its source gives when it is computed anew. Calls of
analyzers that agree put nothing else into the store, and read back from it what they would have
computed, so whatever happens to the store their answers are those without one.
-/

namespace CodeGraph

namespace Analyzer

/-- Two analyzers differ at most in the language that they take where nothing tells it. -/
def Agrees (a b : Analyzer) : Prop :=
  a.parser = b.parser ∧ a.rules = b.rules ∧ a.limits = b.limits

/-- A payload is the text that each of some sources with its key gives. -/
def Genuine (a : Analyzer) (sources : List String) (key : StoreKey) (payload : String) : Prop :=
  ∀ code ∈ sources, ∀ language kind, key = .ofSource code language kind →
    a.freshText code language kind = .ok payload

theorem Agrees.freshText {a b : Analyzer} (h : a.Agrees b) (code : String) (language : Language) :
    a.freshText code language = b.freshText code language := by
  obtain ⟨parser, rules, limits, defaultLanguage⟩ := a
  obtain ⟨parser', rules', limits', defaultLanguage'⟩ := b
  obtain ⟨rfl, rfl, rfl⟩ := h
  rfl

end Analyzer

/-- A call to an analyzer that agrees with another keeps the store genuine for that one, and is answered
as it is without a store. -/
theorem Call.keeps_plan {a : Analyzer} {sources : List String} (hdigest : DigestsDiffer sources)
    (call : Call) (hagree : call.analyzer.Agrees a) (hcode : call.request.code ∈ sources) :
    call.plan.Keeps (a.Genuine sources) fun answer => answer = call.answerAlone := by
  obtain ⟨b, r⟩ := call
  have hfresh := (r.form b).fresh
  rw [answerAlone, plan, Request.answerAlone_plan, (r.form b).plan_eq]
  refine Plan.Keeps.mapAnswer (Analyzer.keeps_remember ?_ ?_ ?_ ?_)
  · intro e he
    rw [he]
    rfl
  · intro language payload x hlanguage hgenuine hx
    -- what is stored is the text of what is computed, so the computation does not fail
    have htext := hgenuine r.code hcode language r.kind rfl
    rw [← hagree.freshText, hfresh] at htext
    rw [hlanguage]
    show _ = ((r.form b).compute language).map (r.form b).answer
    cases hcompute : (r.form b).compute language with
    | error e => exact absurd htext (by simp [hcompute, Except.map])
    | ok y =>
      rw [hcompute] at htext
      rw [← Except.ok.inj htext] at hx
      exact congrArg Except.ok ((r.form b).read y x hx)
  · intro language hlanguage
    rw [hlanguage]
    rfl
  · intro language x _ hx other hother language' kind' hkey
    -- the key tells the source, as digests differ
    obtain ⟨hdig, rfl, rfl⟩ := StoreKey.ofSource_inj hkey
    obtain rfl := hdigest r.code hcode other hother hdig
    rw [← hagree.freshText, hfresh, hx]
    rfl

namespace Session

/-- **Whatever the order of the steps, whichever accesses are refused and whenever the store is cleared, a
call is answered as it is without a store, and it is answered after three steps.** -/
theorem answer_run_eq_answerAlone {calls : List Call}
    (hagree : ∀ c ∈ calls, ∀ d ∈ calls, c.analyzer.Agrees d.analyzer)
    (hdigest : DigestsDiffer (calls.map (·.request.code))) (events : List Event) {i : Nat}
    {call : Call} (hcall : calls[i]? = some call) :
    (∀ answer, ((start calls).run events).answer? i = some answer → answer = call.answerAlone) ∧
      (3 ≤ events.countP (Event.isTurnOf i) →
        ((start calls).run events).answer? i = some call.answerAlone) := by
  have hsound : (start calls).Sound (call.analyzer.Genuine (calls.map (·.request.code)))
      fun j answer => ∀ other, calls[j]? = some other → answer = other.answerAlone := by
    refine sound_start fun j other hother => ?_
    have hmem := List.mem_of_getElem? hother
    have hkeeps := other.keeps_plan hdigest (hagree other hmem call (List.mem_of_getElem? hcall))
      (List.mem_map_of_mem (f := (·.request.code)) hmem)
    refine hkeeps.mono fun answer hanswer another hanother => ?_
    rw [hanswer, Option.some.inj (hother.symm.trans hanother)]
  have hanswer : ∀ answer, ((start calls).run events).answer? i = some answer →
      answer = call.answerAlone := fun _ h => (hsound.run events).answer h call hcall
  refine ⟨hanswer, fun hcount => ?_⟩
  have hplan : (start calls).plans[i]? = some call.plan := by
    rw [start, List.getElem?_map, hcall, Option.map_some]
  obtain ⟨answer, h⟩ := Option.isSome_iff_exists.mp
    (answered_run hplan (Request.answersWithin_plan _ _) hcount)
  rw [h, hanswer answer h]

/-- A parser that takes every source as one node. -/
def wholeParser : Parser where
  tree _ code _ := some (⟨"module", Span.of code.toUTF8 0 code.utf8ByteSize, []⟩, false)
  changes _ _ := []

/-- Two calls about one source. -/
def racingCalls : List Call :=
  [⟨⟨wholeParser, .standard, {}, none⟩, .parse "x" ⟨some "py", none⟩⟩,
    ⟨⟨wholeParser, .standard, {}, some .python⟩, .locate "x" ⟨0, 1⟩ ⟨none, none⟩⟩]

/-- Both calls find nothing; the second writes its result, which is removed again, and the first is
refused. -/
def racingEvents : List Event :=
  [.turn 0 (.served 1), .turn 1 (.served 1), .turn 1 (.served 2), .turn 1 (.served 2), .clear,
    .turn 0 (.served 3), .turn 0 (.refused .readOnly)]

theorem answer_run_racingCalls :
    ((start racingCalls).run racingEvents).answer? 0 = (racingCalls[0]?).map Call.answerAlone ∧
      ((start racingCalls).run racingEvents).answer? 1 = (racingCalls[1]?).map Call.answerAlone := by
  have hagree : ∀ c ∈ racingCalls, ∀ d ∈ racingCalls, c.analyzer.Agrees d.analyzer := by
    intro c hc d hd
    simp only [racingCalls, List.mem_cons, List.not_mem_nil, or_false] at hc hd
    rcases hc with rfl | rfl <;> rcases hd with rfl | rfl <;> exact ⟨rfl, rfl, rfl⟩
  have hdigest : DigestsDiffer (racingCalls.map (·.request.code)) := by
    intro s hs t ht _
    simp only [racingCalls, Request.code, List.map_cons, List.map_nil, List.mem_cons,
      List.not_mem_nil, or_false, or_self] at hs ht
    rw [hs, ht]
  exact ⟨(answer_run_eq_answerAlone hagree hdigest racingEvents rfl).2 (by decide),
    (answer_run_eq_answerAlone hagree hdigest racingEvents rfl).2 (by decide)⟩

end Session

end CodeGraph
