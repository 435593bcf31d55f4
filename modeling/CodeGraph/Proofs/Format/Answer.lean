import CodeGraph.Format.Answer
import CodeGraph.Proofs.Format.Tree

/-!
# Answers read back

Of a result of parsing all but its parse is read back. The other answers are read back as they are.
-/

namespace CodeGraph

open Document

namespace TreeResult

/-- The counts of a result of parsing. -/
def counts (r : TreeResult) : List Nat :=
  r.tree.counts ++ (r.changedRanges.getD []).flatMap Span.counts

theorem reads_codec (r : TreeResult) :
    Reads codec.decode (codec.encode r) r.counts r.detached := by
  obtain ⟨language, tree, parse, changes⟩ := r
  have htree := tree.reads_ofDocument
  cases changes with
  | none =>
    refine ⟨?_, ?_⟩
    · simp only [codec, rangeMembers, Json.numbers_object, List.flatMap_cons, List.flatMap_nil,
        htree.numbers, counts]
      simp
    · simp only [codec, rangeMembers]
      rw [slots?_ofJson ["changed_ranges"]]
      · simp only [List.map_cons, List.map_nil, List.cons_append, List.nil_append, Slot.required,
          Slot.withDefault, (Language.reads_codec _).value, htree.value, bind_ite_some, pure, ite_fits]
        rw [counts, Option.getD_none, List.flatMap_nil, List.append_nil]
        rfl
      · rfl
      · decide
  | some ranges =>
    have hranges := reads_nullable (reads_list ranges fun s _ => Span.reads_codec s)
    refine ⟨?_, ?_⟩
    · simp only [codec, rangeMembers, Json.numbers_object, List.flatMap_cons, List.flatMap_nil,
        htree.numbers, hranges.numbers, counts]
      simp
    · simp only [codec, rangeMembers]
      rw [slots?_ofJson []]
      · simp only [List.map_cons, List.map_nil, List.cons_append, List.nil_append, Slot.required,
          Slot.withDefault, (Language.reads_codec _).value, htree.value, hranges.value, bind_ite_some,
          pure, ite_fits]
        rfl
      · rfl
      · decide

end TreeResult

namespace TreeDiff

/-- The counts of a difference. -/
def counts (d : TreeDiff) : List Nat :=
  d.changedRanges.flatMap Span.counts ++
    (d.changedNodes.flatMap Node.counts ++ (d.oldTree.counts ++ d.newTree.counts))

theorem reads_codec (d : TreeDiff) : Reads codec.decode (codec.encode d) d.counts d := by
  have hranges := reads_list d.changedRanges fun s _ => Span.reads_codec s
  have hnodes := reads_list d.changedNodes fun n _ => Node.reads_ofDocument n
  have hold := d.oldTree.reads_ofDocument
  have hnew := d.newTree.reads_ofDocument
  refine ⟨?_, ?_⟩
  · simp only [codec, Json.numbers_object, List.flatMap_cons, List.flatMap_nil, hranges.numbers,
      hnodes.numbers, hold.numbers, hnew.numbers]
    simp [counts]
  · simp only [codec]
    rw [slots?_ofJson []]
    · simp only [List.map_cons, List.map_nil, List.append_nil, List.nil_append, Slot.required,
        (Language.reads_codec _).value, hranges.value, hnodes.value, hold.value, hnew.value,
        bind_ite_some, pure, ite_fits]
      rfl
    · rfl
    · decide

end TreeDiff

namespace LineRange

theorem reads_codec (r : LineRange) :
    Reads codec.decode (codec.encode r) [r.first, r.last] r where
  numbers := rfl
  value := by
    simp only [codec]
    rw [slots?_ofJson []]
    · simp only [List.map_cons, List.map_nil, List.append_nil, Slot.required,
        (reads_count _).value, bind_ite_some, pure, ite_fits]
      rfl
    · rfl
    · decide

end LineRange

namespace FunctionEntry

theorem reads_codec (f : FunctionEntry) :
    Reads codec.decode (codec.encode f) [f.lines.first, f.lines.last] f := by
  have hparameters := reads_list f.parameters fun s _ => reads_text s
  have hlines := f.lines.reads_codec
  rw [List.flatMap_eq_nil_iff.mpr fun _ _ => rfl] at hparameters
  refine ⟨?_, ?_⟩
  · simp only [codec, Json.numbers_object, List.flatMap_cons, List.flatMap_nil, hlines.numbers,
      hparameters.numbers]
    simp
  · simp only [codec]
    rw [slots?_ofJson []]
    · simp only [List.map_cons, List.map_nil, List.append_nil, List.nil_append, Slot.required,
        (reads_text _).value, hlines.value, hparameters.value, bind_ite_some, pure, ite_fits]
    · rfl
    · decide

end FunctionEntry

namespace ClassEntry

theorem reads_codec (c : ClassEntry) :
    Reads codec.decode (codec.encode c) [c.lines.first, c.lines.last] c := by
  have hlines := c.lines.reads_codec
  refine ⟨rfl, ?_⟩
  simp only [codec]
  rw [slots?_ofJson []]
  · simp only [List.map_cons, List.map_nil, List.append_nil, List.nil_append, Slot.required,
      (reads_text _).value, hlines.value, bind_ite_some, pure, ite_fits]
  · rfl
  · decide

end ClassEntry

namespace ImportEntry

theorem reads_codec (i : ImportEntry) : Reads codec.decode (codec.encode i) [i.line] i where
  numbers := rfl
  value := by
    simp only [codec]
    rw [slots?_ofJson []]
    · simp only [List.map_cons, List.map_nil, List.append_nil, List.nil_append, Slot.required,
        (reads_text _).value, (reads_count _).value, bind_ite_some, pure, ite_fits]
    · rfl
    · decide

end ImportEntry

namespace Outline

/-- The counts of an outline. -/
def counts (o : Outline) : List Nat :=
  o.codeLength :: (o.functions.flatMap fun f => [f.lines.first, f.lines.last]) ++
    ((o.classes.flatMap fun c => [c.lines.first, c.lines.last]) ++
      ((o.imports.flatMap fun i => [i.line]) ++ [o.maxNesting, o.totalNodes]))

theorem reads_metrics (nesting total : Nat) :
    Reads metrics? (.object [("max_nesting_level", .nat nesting), ("total_nodes", .nat total)])
      [nesting, total] (nesting, total) where
  numbers := rfl
  value := by
    unfold metrics?
    rw [slots?_ofJson []]
    · simp only [List.map_cons, List.map_nil, List.append_nil, Slot.required, (reads_count _).value,
        bind_ite_some, pure, ite_fits]
      rfl
    · rfl
    · decide

theorem reads_codec (o : Outline) : Reads codec.decode (codec.encode o) o.counts o := by
  have hfunctions := reads_list o.functions fun f _ => FunctionEntry.reads_codec f
  have hclasses := reads_list o.classes fun c _ => ClassEntry.reads_codec c
  have himports := reads_list o.imports fun i _ => ImportEntry.reads_codec i
  have hmetrics := reads_metrics o.maxNesting o.totalNodes
  refine ⟨?_, ?_⟩
  · simp only [codec, Json.numbers_object, List.flatMap_cons, List.flatMap_nil,
      hfunctions.numbers, hclasses.numbers, himports.numbers]
    simp [counts]
  · simp only [codec]
    rw [slots?_ofJson []]
    · simp only [List.map_cons, List.map_nil, List.append_nil, List.nil_append, Slot.required,
        (Language.reads_codec _).value, (reads_count _).value, hfunctions.value, hclasses.value,
        himports.value, hmetrics.value, bind_ite_some, pure, ite_fits]
      rfl
    · rfl
    · decide

end Outline

/-! ### Answers to look-ups -/

theorem reads_found (node : Node) (language : Language) :
    Reads found? (.object [("node", node.toJson), ("language", .string language.name)]) node.counts
      (node, language) := by
  have hnode := node.reads_ofDocument
  have hlanguage := reads_looseName (Language.ofName?_name language)
  refine ⟨?_, ?_⟩
  · simp only [Json.numbers_object, List.flatMap_cons, List.flatMap_nil, hnode.numbers]
    simp
  · unfold found?
    rw [slots?_ofJson []]
    · simp only [List.map_cons, List.map_nil, List.append_nil, Slot.required, hnode.value,
        hlanguage.value, bind_ite_some, pure, ite_fits]
    · rfl
    · decide

namespace LocateResult

/-- The counts of an answer. -/
def counts : LocateResult → List Nat
  | found node _ => node.counts
  | notFound line column _ => [line, column]

theorem reads_codec (r : LocateResult) : Reads codec.decode (codec.encode r) r.counts r := by
  cases r with
  | found node language =>
    have h := reads_found node language
    refine reads_tagged _ (by simp) ⟨h.numbers, ?_⟩
    simp only [if_true]
    exact (h.map fun p => found p.1 p.2).value
  | notFound line column message =>
    refine reads_tagged _ (by simp) ⟨rfl, ?_⟩
    simp only [String.reduceEq, if_true, if_false]
    rw [slots?_ofJson []]
    · simp only [List.map_cons, List.map_nil, List.append_nil, Slot.required, (reads_text _).value,
        (reads_count _).value, bind_ite_some, pure, ite_fits]
      rfl
    · rfl
    · decide

end LocateResult

namespace NodeLookup

/-- The counts of an answer. -/
def counts : NodeLookup → List Nat
  | found node _ => node.counts
  | notFound _ _ => []

theorem reads_codec (r : NodeLookup) : Reads codec.decode (codec.encode r) r.counts r := by
  cases r with
  | found node language =>
    have h := reads_found node language
    refine reads_tagged _ (by simp) ⟨h.numbers, ?_⟩
    simp only [if_true]
    exact (h.map fun p => found p.1 p.2).value
  | notFound id message =>
    refine reads_tagged _ (by simp) ⟨rfl, ?_⟩
    simp only [String.reduceEq, if_true, if_false]
    rw [slots?_ofJson []]
    · simp only [List.map_cons, List.map_nil, List.append_nil, Slot.required, (reads_text _).value,
        (NodeId.reads_codec _).value, bind_ite_some, pure, ite_fits]
      rfl
    · rfl
    · decide

end NodeLookup

end CodeGraph
