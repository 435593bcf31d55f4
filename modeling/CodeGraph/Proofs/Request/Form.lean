import CodeGraph.Proofs.Format.Answer
import CodeGraph.Proofs.Format.Graph
import CodeGraph.Proofs.Request.Logic

/-!
# Requests with a stored result

The requests to parse, to build a graph, to sum up and to locate are all of one form: they ask the
store for a result of their kind, compute it anew where there is none that can be read, and make their
answer of it. `Request.form` is that form of each of them.
-/

namespace CodeGraph

/-- A request whose result is kept in the store. -/
inductive Request where
  | parse (code : String) (hint : SourceHint)
  | graph (code : String) (hint : SourceHint)
  | outline (code : String) (hint : SourceHint)
  | locate (code : String) (point : Point) (hint : SourceHint)

namespace Request

/-- The source that a request is about. -/
def code : Request → String
  | parse code _ | graph code _ | outline code _ | locate code _ _ => code

/-- What a request says of the language of its source. -/
def hint : Request → SourceHint
  | parse _ hint | graph _ hint | outline _ hint | locate _ _ hint => hint

/-- Which result a request keeps in the store. -/
def kind : Request → ResultKind
  | parse .. | locate .. => .tree
  | graph .. => .graph
  | outline .. => .outline

/-- A request as a plan. Its answer is the text of the result, which has no parse. -/
def plan (a : Analyzer) : Request → Plan String
  | parse code hint => (a.parse code hint).mapAnswer (·.map TreeResult.codec.write)
  | graph code hint => (a.graph code hint).mapAnswer (·.map SemanticGraph.codec.write)
  | outline code hint => (a.outlineOf code hint).mapAnswer (·.map Outline.codec.write)
  | locate code point hint => (a.locate code point hint).mapAnswer (·.map LocateResult.codec.write)

end Request

/-! ### Results read back -/

theorem TreeResult.eq_detached_of_read? {r x : TreeResult}
    (h : codec.read? (codec.write r) = some x) : x = r.detached :=
  Codec.eq_of_read?_write r.reads_codec (by simp [codec]) h

theorem SemanticGraph.eq_of_read? {g x : SemanticGraph}
    (h : codec.read? (codec.write g) = some x) : x = g :=
  Codec.eq_of_read?_write g.reads_codec (by simp [codec]) h

theorem Outline.eq_of_read? {o x : Outline} (h : codec.read? (codec.write o) = some x) : x = o :=
  Codec.eq_of_read?_write o.reads_codec (by simp [codec]) h

/-- Whether a payload is one of a kind. -/
def ResultKind.isReadable (payload : String) : ResultKind → Bool
  | .tree => (TreeResult.codec.read? payload).isSome
  | .graph => (SemanticGraph.codec.read? payload).isSome
  | .outline => (Outline.codec.read? payload).isSome

/-- The text of the result of a kind, computed anew. -/
def Analyzer.freshText (a : Analyzer) (code : String) (language : Language) :
    ResultKind → Except Fault String
  | .tree => (a.parseFresh code language).map TreeResult.codec.write
  | .graph => (a.graphFresh code language).map SemanticGraph.codec.write
  | .outline => (a.outlineFresh code language).map Outline.codec.write

namespace Request

/-- What is stored for a request, and what its answer is made of. -/
structure Form (a : Analyzer) (r : Request) where
  Result : Type
  codec : Codec Result
  compute : Language → Except Fault Result
  answer : Result → String
  plan_eq : r.plan a =
    (Analyzer.remember r.kind codec r.code compute (a.prepare r.code r.hint)).mapAnswer
      (·.map answer)
  fresh : ∀ language, a.freshText r.code language r.kind = (compute language).map codec.write
  readable : ∀ payload, r.kind.isReadable payload = (codec.read? payload).isSome
  /-- What is read back for a result makes the same answer. -/
  read : ∀ x y, codec.read? (codec.write x) = some y → answer y = answer x

/-- The form of each request. -/
def form (a : Analyzer) : (r : Request) → r.Form a
  | parse code hint => {
      Result := TreeResult
      codec := TreeResult.codec
      compute := a.parseFresh code
      answer := TreeResult.codec.write
      plan_eq := rfl
      fresh := fun _ => rfl
      readable := fun _ => rfl
      read := fun _ _ h => TreeResult.eq_detached_of_read? h ▸ rfl }
  | graph code hint => {
      Result := SemanticGraph
      codec := SemanticGraph.codec
      compute := a.graphFresh code
      answer := SemanticGraph.codec.write
      plan_eq := rfl
      fresh := fun _ => rfl
      readable := fun _ => rfl
      read := fun _ _ h => SemanticGraph.eq_of_read? h ▸ rfl }
  | outline code hint => {
      Result := Outline
      codec := Outline.codec
      compute := a.outlineFresh code
      answer := Outline.codec.write
      plan_eq := rfl
      fresh := fun _ => rfl
      readable := fun _ => rfl
      read := fun _ _ h => Outline.eq_of_read? h ▸ rfl }
  | locate code point hint => {
      Result := TreeResult
      codec := TreeResult.codec
      compute := a.parseFresh code
      answer := fun r => LocateResult.codec.write (.of r.tree r.language point)
      plan_eq := by
        rw [plan, Analyzer.locate, Plan.mapAnswer_mapAnswer]
        congr 1
        funext result
        cases result <;> rfl
      fresh := fun _ => rfl
      readable := fun _ => rfl
      read := fun _ _ h => TreeResult.eq_detached_of_read? h ▸ rfl }

theorem answerAlone_plan (a : Analyzer) (r : Request) :
    (r.plan a).answerAlone =
      (a.prepare r.code r.hint >>= (r.form a).compute).map (r.form a).answer := by
  rw [(r.form a).plan_eq, Plan.answerAlone_mapAnswer, Analyzer.answerAlone_remember]

theorem answersWithin_plan (a : Analyzer) (r : Request) : (r.plan a).AnswersWithin 3 := by
  rw [(r.form a).plan_eq]
  exact Analyzer.answersWithin_remember.mapAnswer _

end Request

end CodeGraph
