import CodeGraph.Format.Graph
import CodeGraph.Proofs.Format.Tree
import CodeGraph.Proofs.KeyOrder

/-!
# Graphs read back

The counts of a graph are those of the spans of its nodes and the positions in its index. The members
of an index are in the order of their keys, so putting them into order again changes nothing.
-/

namespace CodeGraph

open Document

namespace EdgeKind

theorem reads_codec (k : EdgeKind) : Reads codec.decode (.string k.name) [] k :=
  reads_name (ofName?_name k)

end EdgeKind

namespace Edge

theorem reads_codec (e : Edge) : Reads codec.decode (codec.encode e) [] e where
  numbers := rfl
  value := by
    simp only [codec]
    rw [slots?_ofJson []]
    · simp only [List.map_cons, List.map_nil, List.append_nil, Slot.required,
        (NodeId.reads_codec _).value, (EdgeKind.reads_codec _).value, bind_ite_some, pure, ite_fits]
    · rfl
    · decide

end Edge

namespace GraphNode

theorem reads_codec (n : GraphNode) : Reads codec.decode (codec.encode n) n.span.counts n where
  numbers := rfl
  value := by
    simp only [codec, Span.nodeMembers, Span.pointMembers]
    rw [slots?_ofJson []]
    · simp only [List.map_cons, List.map_nil, List.append_nil, List.nil_append, Slot.required,
        (NodeId.reads_codec _).value, (reads_text _).value, n.span.ofSlots?_given, bind_ite_some,
        pure, ite_fits]
    · rfl
    · decide

end GraphNode

namespace NodeIndex

/-- The positions in an index. -/
def counts (index : NodeIndex) : List Nat := index.entries.map (·.2)

theorem entriesOf?_cons (key : String) (d : Document) (ms : List (Option String × Document)) :
    entriesOf? ((some key, d) :: ms) =
      (d.count? >>= fun n => entriesOf? ms >>= fun rest => some ((⟨key⟩, n) :: rest)) := by
  cases hd : d.count? with
  | none => simp only [entriesOf?, hd]; rfl
  | some n => cases hms : entriesOf? ms <;> simp only [entriesOf?, hd, hms] <;> rfl

theorem entriesOf?_ofJson (entries : List (NodeId × Nat)) :
    entriesOf? (entries.map fun e => (some e.1.text, ofJson (.nat e.2))) =
      if Fits (entries.map (·.2)) then some entries else none := by
  induction entries with
  | nil => rw [List.map_nil, List.map_nil, if_pos fits_nil, entriesOf?]
  | cons e es ih =>
    rw [List.map_cons, entriesOf?_cons, (reads_count e.2).value, ih, bind_ite_some, bind_ite_some,
      ite_fits]
    rfl

theorem reads_codec (index : NodeIndex) :
    Reads codec.decode (codec.encode index) index.counts index where
  numbers := by
    rw [codec, counts, Json.numbers_object, List.flatMap_map, List.map_map]
    exact (List.map_eq_flatMap).symm
  value := by
    -- the reader puts the members into order, which they are in already
    have hentries : Keyed.byKey (·.1.text) index.entries.reverse = index.entries :=
      Keyed.byKey_of_perm _ index.increasing index.entries.reverse_perm
    have hwrites : ofWrites index.entries = index := NodeIndex.ext hentries
    rw [codec, ofJson_object]
    simp only [List.map_map, Function.comp_def]
    rw [entriesOf?_ofJson]
    by_cases hfits : Fits index.counts
    · rw [if_pos hfits, ← counts, if_pos hfits, Option.map_some, hwrites]
    · rw [if_neg hfits, ← counts, if_neg hfits, Option.map_none]

end NodeIndex

namespace SemanticGraph

/-- The counts of a graph. -/
def counts (g : SemanticGraph) : List Nat :=
  g.nodes.flatMap (·.span.counts) ++ g.index.counts

theorem reads_codec (g : SemanticGraph) : Reads codec.decode (codec.encode g) g.counts g := by
  have hnodes := reads_list g.nodes fun n _ => GraphNode.reads_codec n
  have hedges := reads_list g.edges fun e _ => Edge.reads_codec e
  have hindex := NodeIndex.reads_codec g.index
  rw [List.flatMap_eq_nil_iff.mpr fun _ _ => rfl] at hedges
  refine ⟨?_, ?_⟩
  · simp only [codec, Json.numbers_object, List.flatMap_cons, List.flatMap_nil, hnodes.numbers,
      hedges.numbers, hindex.numbers]
    rw [counts, List.map_append]
    simp
  · simp only [codec]
    rw [slots?_ofJson []]
    · simp only [List.map_cons, List.map_nil, List.append_nil, List.nil_append, Slot.required,
        (NodeId.reads_codec _).value, (Language.reads_codec _).value, hnodes.value, hedges.value,
        hindex.value, bind_ite_some, pure, ite_fits]
      rfl
    · rfl
    · decide

end SemanticGraph

end CodeGraph
