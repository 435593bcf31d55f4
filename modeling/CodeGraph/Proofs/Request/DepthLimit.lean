import CodeGraph.Proofs.Request.Session
import CodeGraph.Proofs.Tree.Depth

/-!
# The depth limit and the store

A key says nothing of limits. A tree that is too deep for an analyzer is refused where the analyzer
parses it anew, and let through where another analyzer with a larger limit has left its result in the
store.
-/

namespace CodeGraph

/-! ### New results -/

theorem exists_ok_map {α β : Type} {x : Except Fault α} (f : α → β) :
    (∃ y, x.map f = .ok y) ↔ ∃ y, x = .ok y := by
  cases x with
  | error e => simp [Except.map]
  | ok y => exact ⟨fun _ => ⟨y, rfl⟩, fun _ => ⟨f y, rfl⟩⟩

namespace Analyzer

variable {a : Analyzer} {code : String} {language : Language}

theorem graphFresh_eq_map :
    a.graphFresh code language = (a.parseFresh code language).map fun r =>
      .build r.tree language (a.rules.rulesFor language) := by
  rw [graphFresh]
  cases a.parseFresh code language <;> rfl

theorem outlineFresh_eq_map :
    a.outlineFresh code language = (a.parseFresh code language).map fun r =>
      outline r.tree language (a.rules.rulesFor language) code.length := by
  rw [outlineFresh]
  cases a.parseFresh code language <;> rfl

theorem exists_freshText_iff_parseFresh (kind : ResultKind) :
    (∃ text, a.freshText code language kind = .ok text) ↔
      ∃ r, a.parseFresh code language = .ok r := by
  cases kind with
  | tree => rw [freshText, exists_ok_map]
  | graph => rw [freshText, exists_ok_map, graphFresh_eq_map, exists_ok_map]
  | outline => rw [freshText, exists_ok_map, outlineFresh_eq_map, exists_ok_map]

/-- A source gives a result of each kind exactly where it has a tree that can be normalized. -/
theorem exists_freshText (hgrammar : language.hasGrammar = true) (kind : ResultKind) :
    (∃ text, a.freshText code language kind = .ok text) ↔
      ∃ root recovered, a.parser.tree language code none = some (root, recovered) ∧
        ∃ tree, root.normalize code.toUTF8 a.limits.maxTreeDepth = .ok tree := by
  rw [exists_freshText_iff_parseFresh, parseFresh, Parser.parse_none hgrammar]
  cases htree : a.parser.tree language code none with
  | none =>
    constructor
    · rintro ⟨r, hr⟩
      exact absurd hr (by simp [bind, Except.bind])
    · rintro ⟨root, recovered, h, -⟩
      exact absurd h (by simp)
  | some found =>
    obtain ⟨root, recovered⟩ := found
    have hnormal : (∃ r, TreeResult.ofParse ⟨language, root, recovered, code, 0⟩
        a.limits.maxTreeDepth = .ok r) ↔
          ∃ tree, root.normalize code.toUTF8 a.limits.maxTreeDepth = .ok tree := by
      rw [TreeResult.ofParse, exists_ok_map]
      rfl
    refine hnormal.trans ⟨fun h => ⟨root, recovered, rfl, h⟩, ?_⟩
    rintro ⟨root', recovered', hsame, h⟩
    obtain ⟨rfl, rfl⟩ := Prod.mk.inj (Option.some.inj hsame)
    exact h

end Analyzer

/-! ### Stored results -/

namespace Call

/-- The language of a call's source, where the source is acceptable. -/
def language (c : Call) : Except Fault Language := c.analyzer.prepare c.request.code c.request.hint

/-- The number of levels of the tree of a call's source. -/
def height? (c : Call) : Option Nat :=
  c.language.toOption.bind fun language =>
    (c.analyzer.parser.tree language c.request.code none).map (·.1.height)

/-- The number of levels that the analyzer of a call lets through. -/
def limit (c : Call) : Nat := max 1 c.analyzer.limits.maxTreeDepth

/-- The tree of a call's source has more levels than its analyzer lets through. -/
def TooDeep (c : Call) : Prop := ∃ height, c.height? = some height ∧ c.limit < height

/-- The store has a result for a call that can be read. -/
def Finds (c : Call) (store : ResultStore) : Prop :=
  ∃ language payload, c.language = .ok language ∧
    store.get? (.ofSource c.request.code language c.request.kind) = some payload ∧
    c.request.kind.isReadable payload = true

end Call

/-- A call whose source is not acceptable fails, whatever is in the store. -/
theorem Call.run_of_error {c : Call} {e : Fault} (he : c.language = .error e)
    (service : Nat → Service) (store : ResultStore) : (c.plan.run service store).1 = .error e := by
  obtain ⟨a, r⟩ := c
  have hprepare : a.prepare r.code r.hint = .error e := he
  rw [plan, (r.form a).plan_eq, hprepare, Plan.run_mapAnswer]
  rfl

namespace Call

variable {c : Call} {language : Language}

/-- A call succeeds exactly where the store is asked and has a result for it, or where a new result can
be computed. -/
theorem exists_ok_run (hlanguage : c.language = .ok language) (service : Nat → Service)
    (store : ResultStore) :
    (∃ text, (c.plan.run service store).1 = .ok text) ↔
      ((∃ now, service 0 = .served now) ∧ c.Finds store) ∨
        ∃ text, c.analyzer.freshText c.request.code language c.request.kind = .ok text := by
  obtain ⟨a, r⟩ := c
  have hprepare : a.prepare r.code r.hint = .ok language := hlanguage
  have hfinds : Finds ⟨a, r⟩ store ↔
      ∃ x, (store.get? (.ofSource r.code language r.kind)).bind (r.form a).codec.read? = some x := by
    constructor
    · rintro ⟨l, payload, hl, hget, hread⟩
      obtain rfl := Except.ok.inj (hlanguage.symm.trans hl)
      rw [(r.form a).readable] at hread
      rw [hget]
      exact Option.isSome_iff_exists.mp hread
    · rintro ⟨x, hx⟩
      obtain ⟨payload, hget, hread⟩ := Option.bind_eq_some_iff.mp hx
      refine ⟨language, payload, hlanguage, hget, ?_⟩
      rw [(r.form a).readable, hread]
      rfl
  rw [plan, (r.form a).plan_eq, hprepare, Plan.run_mapAnswer, exists_ok_map, (r.form a).fresh,
    exists_ok_map]
  cases hservice : service 0 with
  | refused cause => simp [Analyzer.run_remember_of_refused hservice]
  | served now =>
    rw [Analyzer.run_remember hservice, hfinds]
    cases (store.get? (.ofSource r.code language r.kind)).bind (r.form a).codec.read? with
    | some x => simp
    | none => simp

theorem exists_ok_answerAlone (hlanguage : c.language = .ok language) :
    (∃ text, c.answerAlone = .ok text) ↔
      ∃ text, c.analyzer.freshText c.request.code language c.request.kind = .ok text := by
  obtain ⟨a, r⟩ := c
  have hprepare : a.prepare r.code r.hint = .ok language := hlanguage
  rw [answerAlone, plan, Request.answerAlone_plan, hprepare, exists_ok_map, (r.form a).fresh,
    exists_ok_map]
  rfl

theorem hasGrammar_of_language (hlanguage : c.language = .ok language) :
    language.hasGrammar = true :=
  (Analyzer.resolved_of_prepare hlanguage).2

theorem tooDeep_iff (hlanguage : c.language = .ok language) {root : RawNode} {recovered : Bool}
    (htree : c.analyzer.parser.tree language c.request.code none = some (root, recovered)) :
    c.height? = some root.height ∧ (c.TooDeep ↔ c.limit < root.height) := by
  have hheight : c.height? = some root.height := by
    rw [height?, hlanguage]
    exact congrArg (Option.map (·.1.height)) htree
  refine ⟨hheight, ?_, fun hdeep => ⟨root.height, hheight, hdeep⟩⟩
  rintro ⟨height, hsame, hdeep⟩
  rwa [Option.some.inj (hheight.symm.trans hsame)]

theorem not_tooDeep_of_fresh (hlanguage : c.language = .ok language)
    (hfresh : ∃ text, c.analyzer.freshText c.request.code language c.request.kind = .ok text) :
    ¬ c.TooDeep := by
  obtain ⟨root, recovered, htree, tree, hnormal⟩ :=
    (Analyzer.exists_freshText (hasGrammar_of_language hlanguage) _).mp hfresh
  rw [(tooDeep_iff hlanguage htree).2, Nat.not_lt]
  exact RawNode.height_le_of_normalize hnormal

end Call

/-! ### Where stored results come from -/

/-- A payload was computed by one of some analyzers, where it is one of a source. -/
def ComputedBy (analyzers : List Analyzer) (code : String) (key : StoreKey) (payload : String) :
    Prop :=
  ∀ language kind, key = .ofSource code language kind →
    ∃ a ∈ analyzers, a.freshText code language kind = .ok payload

theorem Call.keeps_computedBy {calls : List Call} {code : String} {c : Call} (hc : c ∈ calls)
    (hdigest : Blake3.textDigest c.request.code = Blake3.textDigest code → c.request.code = code) :
    c.plan.Keeps (ComputedBy (calls.map Call.analyzer) code) fun _ => True := by
  obtain ⟨a, r⟩ := c
  rw [plan, (r.form a).plan_eq]
  refine Plan.Keeps.mapAnswer (Analyzer.keeps_remember ?_ ?_ ?_ ?_)
  · exact fun _ _ => trivial
  · exact fun _ _ _ _ _ _ => trivial
  · exact fun _ _ => trivial
  · intro language x _ hx language' kind hkey
    obtain ⟨hdig, rfl, rfl⟩ := StoreKey.ofSource_inj hkey
    have hcode : r.code = code := hdigest hdig
    refine ⟨a, List.mem_map_of_mem (f := Call.analyzer) hc, ?_⟩
    rw [← hcode, (r.form a).fresh, hx]
    rfl

namespace Session

variable {calls : List Call} {call : Call} {service : Nat → Service}

/-- A source whose call succeeds on the store that some calls leave behind has a tree that the limit
of one of them, or its own, lets through. -/
theorem exists_normalize_of_ok (events : List Event)
    (hparser : ∀ c ∈ calls, c.analyzer.parser = call.analyzer.parser)
    (hdigest : DigestsDiffer (call.request.code :: calls.map (·.request.code)))
    (hok : ∃ text, (call.plan.run service ((start calls).run events).store).1 = .ok text) :
    ∃ language root recovered, call.language = .ok language ∧
      call.analyzer.parser.tree language call.request.code none = some (root, recovered) ∧
      ∃ c ∈ call :: calls, ∃ tree, root.normalize call.request.code.toUTF8
        c.analyzer.limits.maxTreeDepth = .ok tree := by
  have hsound : (start calls).Sound (ComputedBy (calls.map Call.analyzer) call.request.code)
      fun _ _ => True := by
    refine sound_start fun i c hc => ?_
    have hmem := List.mem_of_getElem? hc
    exact Call.keeps_computedBy hmem fun h => hdigest _ (List.mem_cons_of_mem _
      (List.mem_map_of_mem (f := (·.request.code)) hmem)) _ List.mem_cons_self h
  have hstore := (hsound.run events).store
  cases hlanguage : call.language with
  | error e =>
    obtain ⟨text, htext⟩ := hok
    rw [Call.run_of_error hlanguage] at htext
    exact absurd htext (by simp)
  | ok language =>
    have hgrammar := Call.hasGrammar_of_language hlanguage
    have hcomputed : ∃ c ∈ call :: calls, ∃ text, c.analyzer.freshText call.request.code language
        call.request.kind = .ok text := by
      rcases (Call.exists_ok_run hlanguage service _).mp hok with ⟨-, l, payload, hl, hget, -⟩ | hnew
      · obtain rfl := Except.ok.inj (hlanguage.symm.trans hl)
        obtain ⟨a, ha, htext⟩ := hstore _ payload hget language call.request.kind rfl
        obtain ⟨c, hc, rfl⟩ := List.mem_map.mp ha
        exact ⟨c, List.mem_cons_of_mem _ hc, payload, htext⟩
      · exact ⟨call, List.mem_cons_self, hnew⟩
    -- whoever computed the result has let the tree through
    obtain ⟨c, hc, htext⟩ := hcomputed
    obtain ⟨root, recovered, htree, hnormal⟩ := (Analyzer.exists_freshText hgrammar _).mp htext
    have hsame : c.analyzer.parser = call.analyzer.parser := by
      rcases List.mem_cons.mp hc with rfl | hc
      · rfl
      · exact hparser c hc
    rw [hsame] at htree
    exact ⟨language, root, recovered, rfl, htree, c, hc, hnormal⟩

/-- **On the store that some calls leave behind, in whatever order they come, a call succeeds only where
its tree is within the limit of one of them or within its own. It would succeed without the store exactly
where the tree is within its own, and it succeeds beyond that exactly where it is served a stored
result.** -/
theorem depth_of_ok_answer (events : List Event)
    (hparser : ∀ c ∈ calls, c.analyzer.parser = call.analyzer.parser)
    (hdigest : DigestsDiffer (call.request.code :: calls.map (·.request.code)))
    (service : Nat → Service) :
    let store := ((start calls).run events).store
    let succeeds := ∃ text, (call.plan.run service store).1 = .ok text
    (succeeds → ∃ height, call.height? = some height ∧ ∃ c ∈ call :: calls, height ≤ c.limit) ∧
      (succeeds → ((∃ text, call.answerAlone = .ok text) ↔ ¬ call.TooDeep)) ∧
      (succeeds ∧ call.TooDeep ↔
        (∃ now, service 0 = .served now) ∧ call.Finds store ∧ call.TooDeep) := by
  intro store succeeds
  refine ⟨fun hok => ?_, fun hok => ?_, ?_, ?_⟩
  · obtain ⟨language, root, recovered, hlanguage, htree, c, hc, tree, hnormal⟩ :=
      exists_normalize_of_ok events hparser hdigest hok
    exact ⟨root.height, (Call.tooDeep_iff hlanguage htree).1, c, hc,
      RawNode.height_le_of_normalize hnormal⟩
  · obtain ⟨language, root, recovered, hlanguage, htree, c, hc, tree, hnormal⟩ :=
      exists_normalize_of_ok events hparser hdigest hok
    rw [Call.exists_ok_answerAlone hlanguage]
    refine ⟨Call.not_tooDeep_of_fresh hlanguage, fun hshallow => ?_⟩
    rw [(Call.tooDeep_iff hlanguage htree).2, Nat.not_lt] at hshallow
    exact (Analyzer.exists_freshText (Call.hasGrammar_of_language hlanguage) _).mpr
      ⟨root, recovered, htree, tree, RawNode.normalize_of_height_le hnormal hshallow⟩
  · rintro ⟨hok, hdeep⟩
    obtain ⟨language, -, -, hlanguage, -⟩ := exists_normalize_of_ok events hparser hdigest hok
    rcases (Call.exists_ok_run hlanguage service store).mp hok with ⟨hserved, hfinds⟩ | hnew
    · exact ⟨hserved, hfinds, hdeep⟩
    · exact absurd hdeep (Call.not_tooDeep_of_fresh hlanguage hnew)
  · rintro ⟨hserved, hfinds, hdeep⟩
    have ⟨language, _, hlanguage, _⟩ := hfinds
    exact ⟨(Call.exists_ok_run hlanguage service store).mpr (Or.inl ⟨hserved, hfinds⟩), hdeep⟩

/-! ### Two analyzers with different limits -/

/-- Three levels, each of one node that covers the whole source. -/
def chainRoot : RawNode :=
  let span : Span := ⟨0, 1, ⟨0, 0⟩, ⟨0, 1⟩⟩
  ⟨"module", span, [⟨"statement", span, [⟨"name", span, []⟩]⟩]⟩

/-- A call to an analyzer with a limit, about a source with the tree `chainRoot`. -/
def chainCall (limit : Nat) : Call :=
  ⟨⟨⟨fun _ _ _ => some (chainRoot, false), fun _ _ => []⟩, .standard, { maxTreeDepth := limit },
    some .python⟩, .parse "x" ⟨none, none⟩⟩

/-- The store that a call to an analyzer with the limit three leaves behind. -/
def chainStore : ResultStore :=
  ((start [chainCall 3]).run [.turn 0 (.served 1), .turn 0 (.served 1), .turn 0 (.served 1)]).store

/-- What the call has stored. -/
def chainResult : TreeResult :=
  let span : Span := ⟨0, 1, ⟨0, 0⟩, ⟨0, 1⟩⟩
  ⟨.python, ⟨"module", span, "x", [⟨"statement", span, "x", [⟨"name", span, "x", []⟩]⟩]⟩,
    some ⟨.python, chainRoot, false, "x", 0⟩, none⟩

theorem finds_chainStore : (chainCall 2).Finds chainStore := by
  have hstore : chainStore = ((∅ : ResultStore).put (.ofSource "x" .python .tree)
      (TreeResult.codec.write chainResult) 1).1 := rfl
  refine ⟨.python, TreeResult.codec.write chainResult, rfl, ?_, ?_⟩
  · have hempty : (∅ : ResultStore).get? (.ofSource "x" .python .tree) = none := rfl
    show chainStore.get? (.ofSource "x" .python .tree) = _
    rw [hstore, ResultStore.get?_put, if_pos ⟨rfl, hempty⟩]
  · have hread := Codec.read?_write chainResult.reads_codec (by simp [TreeResult.codec])
    rw [if_pos (by decide)] at hread
    show ResultKind.tree.isReadable (TreeResult.codec.write chainResult) = true
    rw [ResultKind.isReadable, hread, Option.isSome_some]

theorem tooDeep_chainCall : (chainCall 2).TooDeep := ⟨3, rfl, by decide⟩

theorem ok_chainCall :
    ∃ text, ((chainCall 2).plan.run (fun _ => .served 2) chainStore).1 = .ok text :=
  (Call.exists_ok_run rfl _ _).mpr (Or.inl ⟨⟨2, rfl⟩, finds_chainStore⟩)

/-- A tree of three levels goes through an analyzer with the limit two, which refuses it where there is
no store. -/
theorem depth_limit_not_enforced :
    (∃ text, ((chainCall 2).plan.run (fun _ => .served 2) chainStore).1 = .ok text) ∧
      (chainCall 2).height? = some 3 ∧ (chainCall 2).limit = 2 ∧
      (chainCall 2).answerAlone = .error (.treeTooDeep 2) :=
  ⟨ok_chainCall, rfl, rfl, rfl⟩

theorem depth_of_ok_answer_chainStore :
    (∃ height, (chainCall 2).height? = some height ∧
        ∃ c ∈ [chainCall 2, chainCall 3], height ≤ c.limit) ∧
      ¬ ∃ text, (chainCall 2).answerAlone = .ok text := by
  have hdigest : DigestsDiffer ((chainCall 2).request.code :: [chainCall 3].map (·.request.code)) := by
    have hsame : ∀ s ∈ ["x", "x"], s = "x" := by simp
    exact fun s hs t ht _ => (hsame s hs).trans (hsame t ht).symm
  have hparser : ∀ c ∈ [chainCall 3], c.analyzer.parser = (chainCall 2).analyzer.parser := by
    intro c hc
    rw [List.mem_singleton.mp hc]
    rfl
  obtain ⟨hwithin, halone, -⟩ := depth_of_ok_answer
    [.turn 0 (.served 1), .turn 0 (.served 1), .turn 0 (.served 1)] hparser hdigest fun _ => .served 2
  exact ⟨hwithin ok_chainCall, fun h => (halone ok_chainCall).mp h tooDeep_chainCall⟩

end Session

end CodeGraph
