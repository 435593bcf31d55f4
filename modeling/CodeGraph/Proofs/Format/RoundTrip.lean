import CodeGraph.Proofs.Format.Answer
import CodeGraph.Proofs.Format.Graph

/-!
# Texts read back

Every kind of answer is read back from its JSON text as it was written, as long as all counts in it
fit into sixty-four bits.
-/

namespace CodeGraph

/-- A value is read back from its text, on one line or over many, with white space around it. Where
anything else follows the text, it is refused. -/
def Codec.RoundTrips {α : Type} (c : Codec α) (x : α) : Prop :=
  ∀ text ∈ [(c.encode x).compact, (c.encode x).pretty], ∀ lead tail : String,
    lead.toList.all Json.isSpace = true →
      c.read? (lead ++ text ++ tail) = if tail.toList.all Json.isSpace then some x else none

theorem Codec.roundTrips_of_reads {α : Type} {c : Codec α} {x : α} {counts : List Nat}
    (h : Reads c.decode (c.encode x) counts x) (hnumber : ∀ n, c.encode x ≠ .number n)
    (hfits : Fits counts) : c.RoundTrips x := by
  intro text htext lead tail hlead
  obtain ⟨l, rfl⟩ : ∃ l, text = String.ofList ((c.encode x).write l []) := by
    rcases List.mem_cons.mp htext with rfl | htext
    · exact ⟨.compact, rfl⟩
    · exact ⟨.indented 0, List.mem_singleton.mp htext⟩
  have hread := Codec.read?_text h hnumber l lead.toList tail.toList (List.all_eq_true.mp hlead)
  rw [if_pos hfits, String.ofList_append, String.ofList_append, String.ofList_toList,
    String.ofList_toList] at hread
  exact hread

/-- **Results of parsing without their parse, graphs, outlines, differences and the answers to
look-ups are read back from their texts, whatever their strings, as long as their counts fit.** -/
theorem answers_roundTrip :
    (∀ r : TreeResult, r.parse = none → Fits r.counts → TreeResult.codec.RoundTrips r) ∧
    (∀ g : SemanticGraph, Fits g.counts → SemanticGraph.codec.RoundTrips g) ∧
    (∀ o : Outline, Fits o.counts → Outline.codec.RoundTrips o) ∧
    (∀ d : TreeDiff, Fits d.counts → TreeDiff.codec.RoundTrips d) ∧
    (∀ r : LocateResult, Fits r.counts → LocateResult.codec.RoundTrips r) ∧
    (∀ r : NodeLookup, Fits r.counts → NodeLookup.codec.RoundTrips r) := by
  refine ⟨fun r hparse hfits => ?_, fun g => ?_, fun o => ?_, fun d => ?_, fun r => ?_, fun r => ?_⟩
  · -- only the parse is not written
    have hkept : r.detached = r := by
      rw [TreeResult.detached, ← hparse]
    have hreads := r.reads_codec
    rw [hkept] at hreads
    exact Codec.roundTrips_of_reads hreads (by simp [TreeResult.codec]) hfits
  · exact Codec.roundTrips_of_reads g.reads_codec (by simp [SemanticGraph.codec])
  · exact Codec.roundTrips_of_reads o.reads_codec (by simp [Outline.codec])
  · exact Codec.roundTrips_of_reads d.reads_codec (by simp [TreeDiff.codec])
  · exact Codec.roundTrips_of_reads r.reads_codec (by cases r <;> simp [LocateResult.codec, foundJson])
  · exact Codec.roundTrips_of_reads r.reads_codec (by cases r <;> simp [NodeLookup.codec, foundJson])

/-- A tree of two levels, the outer text with a quote, a backslash, a control character and a
character that is no letter of ASCII. -/
def quotedTree : Node :=
  ⟨"module", ⟨0, 7, ⟨0, 0⟩, ⟨1, 3⟩⟩, "\"\\\u0001\né",
    [⟨"string", ⟨0, 3, ⟨0, 0⟩, ⟨0, 3⟩⟩, "\"\\\u0001", []⟩]⟩

/-- The graph of the outer node alone. -/
def quotedGraph : SemanticGraph :=
  ⟨.go, [.of quotedTree], [⟨⟨"a"⟩, ⟨"b"⟩, .references⟩], quotedTree.id,
    ⟨[(quotedTree.id, 0)], List.pairwise_singleton _ _⟩⟩

theorem answers_roundTrip_quoted :
    TreeResult.codec.RoundTrips ⟨.python, quotedTree, none, some []⟩ ∧
      SemanticGraph.codec.RoundTrips quotedGraph ∧
      Outline.codec.RoundTrips ⟨.tsx, 7, [⟨"f", ⟨1, 2⟩, ["x"]⟩], [], [⟨"m", 1⟩], 0, 2⟩ ∧
      TreeDiff.codec.RoundTrips ⟨.rust, [quotedTree.span], [quotedTree], quotedTree, quotedTree⟩ ∧
      LocateResult.codec.RoundTrips (.found quotedTree .python) ∧
      NodeLookup.codec.RoundTrips (.notFound quotedTree.id "No node") :=
  ⟨answers_roundTrip.1 _ rfl (by decide), answers_roundTrip.2.1 _ (by decide),
    answers_roundTrip.2.2.1 _ (by decide), answers_roundTrip.2.2.2.1 _ (by decide),
    answers_roundTrip.2.2.2.2.1 _ (by decide), answers_roundTrip.2.2.2.2.2 _ (by decide)⟩

end CodeGraph
