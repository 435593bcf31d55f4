import CodeGraph.Format.Tree
import CodeGraph.Proofs.Json.Records

/-!
# Trees read back

The counts of a span are its offsets, lines and columns, and those of a node are the counts of all
spans below and at it. Each codec of a tree's parts gives a value back where its counts fit.
-/

namespace CodeGraph

open Document

namespace Language

theorem reads_codec (l : Language) : Reads codec.decode (.string l.name) [] l :=
  reads_name (ofName?_name l)

end Language

namespace NodeId

theorem reads_codec (id : NodeId) : Reads codec.decode (.string id.text) [] id :=
  (reads_text id.text).map NodeId.mk

end NodeId

namespace Span

/-- The counts of a span. -/
def counts (s : Span) : List Nat :=
  [s.startByte, s.endByte, s.start.line, s.start.column, s.stop.line, s.stop.column]

theorem ofSlots?_given (s : Span) :
    ofSlots? (.given (ofJson (.nat s.startByte))) (.given (ofJson (.nat s.endByte)))
        (.given (ofJson (.nat s.start.line))) (.given (ofJson (.nat s.start.column)))
        (.given (ofJson (.nat s.stop.line))) (.given (ofJson (.nat s.stop.column))) =
      if Fits s.counts then some s else none := by
  simp only [ofSlots?, Slot.required, (reads_count _).value, bind_ite_some, pure, ite_fits]
  rfl

theorem reads_codec (s : Span) : Reads codec.decode (codec.encode s) s.counts s where
  numbers := rfl
  value := by
    simp only [codec, pointMembers]
    rw [slots?_ofJson []]
    · exact s.ofSlots?_given
    · rfl
    · decide

end Span

namespace Node

mutual

/-- The counts of a tree. -/
def counts : Node → List Nat
  | ⟨_, span, _, children⟩ => span.counts ++ countsAll children

/-- The counts of a forest. -/
def countsAll : List Node → List Nat
  | [] => []
  | n :: ns => n.counts ++ countsAll ns

end

theorem countsAll_eq_flatMap (ns : List Node) : countsAll ns = ns.flatMap counts := by
  induction ns with
  | nil => rfl
  | cons n ns ih => rw [countsAll, ih, List.flatMap_cons]

theorem counts_eq (n : Node) : n.counts = n.span.counts ++ n.children.flatMap counts := by
  cases n
  rw [counts, countsAll_eq_flatMap]

theorem toJsonAll_eq_map (ns : List Node) : toJsonAll ns = ns.map toJson := by
  induction ns with
  | nil => rfl
  | cons n ns ih => rw [toJsonAll, ih, List.map_cons]

theorem toJson_leaf (kind : String) (span : Span) (text : String) :
    toJson ⟨kind, span, text, []⟩ =
      .object (("kind", .string kind) :: span.nodeMembers ++ [("text", .string text)]) := rfl

theorem toJson_branch (kind : String) (span : Span) (text : String) (n : Node) (ns : List Node) :
    toJson ⟨kind, span, text, n :: ns⟩ =
      .object (("kind", .string kind) :: span.nodeMembers ++
        [("text", .string text), ("children", .array ((n :: ns).map toJson))]) := by
  rw [toJson, toJsonAll_eq_map]
  rfl

theorem levels_child (kind : String) (span : Span) (text : String) {n c : Node} {ns : List Node}
    (hc : c ∈ n :: ns) :
    (ofJson c.toJson).levels + 1 < (ofJson (toJson ⟨kind, span, text, n :: ns⟩)).levels := by
  have hinner : (ofJson c.toJson).levels < (ofJson (.array ((n :: ns).map toJson))).levels := by
    rw [ofJson_array]
    exact levels_lt_of_mem_array (List.mem_map_of_mem (List.mem_map_of_mem hc))
  have houter : (ofJson (.array ((n :: ns).map toJson))).levels <
      (ofJson (toJson ⟨kind, span, text, n :: ns⟩)).levels := by
    rw [toJson_branch, ofJson_object]
    have hmem : ("children", .array ((n :: ns).map toJson)) ∈
        ("kind", .string kind) :: span.nodeMembers ++
          [("text", .string text), ("children", .array ((n :: ns).map toJson))] := by
      simp
    exact levels_lt_of_mem_object (List.mem_map_of_mem hmem)
  omega

mutual

/-- A tree is read back within the levels of its document. -/
theorem reads_ofDocumentWithin :
    ∀ (n : Node) (fuel : Nat), (ofJson n.toJson).levels ≤ fuel →
      Reads (ofDocumentWithin? fuel) n.toJson n.counts n
  | ⟨kind, span, text, []⟩, fuel, hfuel => by
    obtain ⟨fuel, rfl⟩ : ∃ k, fuel = k + 1 := by
      rw [toJson_leaf, ofJson_object, levels] at hfuel
      exact ⟨fuel - 1, by omega⟩
    refine ⟨rfl, ?_⟩
    rw [toJson_leaf, ofDocumentWithin?, Span.nodeMembers, Span.pointMembers,
      slots?_ofJson ["children"]]
    · simp only [List.map_cons, List.map_nil, List.cons_append, List.nil_append, Slot.required,
        Slot.withDefault, (reads_text _).value, span.ofSlots?_given, bind_ite_some, pure, ite_fits]
      rw [counts_eq]
      rfl
    · rfl
    · decide
  | ⟨kind, span, text, n :: ns⟩, fuel, hfuel => by
    obtain ⟨fuel, rfl⟩ : ∃ k, fuel = k + 1 := by
      rw [toJson_branch, ofJson_object, levels] at hfuel
      exact ⟨fuel - 1, by omega⟩
    have hchildren := reads_list (n :: ns) (reads_all (n :: ns) fuel fun c hc => by
      have := levels_child kind span text hc
      omega)
    rw [toJson_branch]
    generalize (n :: ns).map toJson = items at hchildren
    refine ⟨?_, ?_⟩
    · rw [Json.numbers_object, counts_eq, List.map_append, ← hchildren.numbers]
      simp [Span.nodeMembers, Span.pointMembers, Span.counts]
    · rw [ofDocumentWithin?, Span.nodeMembers, Span.pointMembers, slots?_ofJson []]
      · simp only [List.map_cons, List.map_nil, List.cons_append, List.nil_append, Slot.required,
          Slot.withDefault, (reads_text _).value, span.ofSlots?_given, hchildren.value, bind_ite_some,
          pure, ite_fits, List.nil_append]
        rw [counts_eq]
      · rfl
      · decide

theorem reads_all :
    ∀ (ns : List Node) (fuel : Nat), (∀ n ∈ ns, (ofJson n.toJson).levels ≤ fuel) →
      ∀ n ∈ ns, Reads (ofDocumentWithin? fuel) n.toJson n.counts n
  | [], _, _ => fun _ hn => nomatch hn
  | n :: ns, fuel, hfuel => by
    obtain ⟨hn, hns⟩ := List.forall_mem_cons.mp hfuel
    exact List.forall_mem_cons.mpr ⟨reads_ofDocumentWithin n fuel hn, reads_all ns fuel hns⟩

end

theorem reads_ofDocument (n : Node) : Reads ofDocument? n.toJson n.counts n := by
  have h := reads_ofDocumentWithin n _ (Nat.le_refl _)
  exact ⟨h.numbers, h.value⟩

end Node

end CodeGraph
