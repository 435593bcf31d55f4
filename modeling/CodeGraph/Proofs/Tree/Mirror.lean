import CodeGraph.Proofs.Tree.Places
import CodeGraph.Proofs.Tree.Traversal

/-!
# Trees that mirror the parser's

A tree mirrors what the parser gave where it is the same tree, node for node, and the text of every node is spelled by
the bytes of its span. There is at most one such tree, and there is one where the spans of all nodes hold text.
-/

namespace CodeGraph

namespace Text

/-- Whether the bytes `[start, stop)` lie in a source and are well-formed UTF-8. -/
structure Readable (source : ByteArray) (start stop : Nat) : Prop where
  forward : start ≤ stop
  within : stop ≤ source.size
  wellFormed : (source.extract start stop).IsValidUTF8

/-- Whether the bytes `[start, stop)` lie in a source and spell a text. -/
structure Spells (source : ByteArray) (start stop : Nat) (text : String) : Prop where
  forward : start ≤ stop
  within : stop ≤ source.size
  bytes_eq : text.toUTF8 = source.extract start stop

variable {source : ByteArray} {start stop : Nat} {text : String}

theorem Spells.readable (h : Spells source start stop text) : Readable source start stop :=
  ⟨h.forward, h.within, h.bytes_eq ▸ text.isValidUTF8⟩

theorem slice?_eq_some_iff : slice? source start stop = some text ↔ Spells source start stop text := by
  unfold slice? String.fromUTF8?
  constructor
  · intro h
    split at h
    · next hrange =>
      split at h
      · next hvalid =>
        obtain rfl := Option.some.inj h
        exact ⟨hrange.1, hrange.2, rfl⟩
      · cases h
    · cases h
  · intro h
    rw [if_pos ⟨h.forward, h.within⟩, dif_pos h.readable.wellFormed]
    exact congrArg some (String.toByteArray_inj.mp h.bytes_eq.symm)

theorem isSome_slice?_iff : (slice? source start stop).isSome ↔ Readable source start stop := by
  rw [Option.isSome_iff_exists]
  constructor
  · rintro ⟨text, h⟩
    exact (slice?_eq_some_iff.mp h).readable
  · intro h
    exact ⟨String.fromUTF8 _ h.wellFormed, slice?_eq_some_iff.mpr ⟨h.forward, h.within, rfl⟩⟩

end Text

namespace RawNode

mutual

/-- The nodes of a tree in pre-order. -/
def walk : RawNode → List RawNode
  | ⟨kind, span, children⟩ => ⟨kind, span, children⟩ :: walkAll children

/-- The nodes of a forest in pre-order. -/
def walkAll : List RawNode → List RawNode
  | [] => []
  | n :: ns => n.walk ++ walkAll ns

end

theorem walk_eq (n : RawNode) : n.walk = n :: walkAll n.children := by
  cases n; rfl

/-- Whether the span of every node of some holds text. -/
def AllReadable (source : ByteArray) (ns : List RawNode) : Prop :=
  ∀ n ∈ ns, Text.Readable source n.span.startByte n.span.endByte

end RawNode

namespace Node

mutual

/-- A tree without its texts. -/
def withoutText : Node → RawNode
  | ⟨kind, span, _, children⟩ => ⟨kind, span, withoutTextAll children⟩

/-- The trees of a forest without their texts. -/
def withoutTextAll : List Node → List RawNode
  | [] => []
  | n :: ns => n.withoutText :: withoutTextAll ns

end

end Node

/-- A tree that is the parser's, with the text that the source has at each node. -/
structure Mirrors (source : ByteArray) (root : RawNode) (tree : Node) : Prop where
  shape : tree.withoutText = root
  texts : ∀ n ∈ tree.walk, Text.Spells source n.span.startByte n.span.endByte n.text

namespace RawNode

open Node (withoutText withoutTextAll)

variable {source : ByteArray}

mutual

theorem withoutText_withText : ∀ n : RawNode, (n.withText source).withoutText = n
  | ⟨kind, span, children⟩ => by
    rw [withText, withoutText, withoutTextAll_withTextAll]

theorem withoutTextAll_withTextAll : ∀ ns : List RawNode, withoutTextAll (withTextAll source ns) = ns
  | [] => rfl
  | n :: ns => by
    rw [withTextAll, withoutTextAll, withoutText_withText, withoutTextAll_withTextAll]

end

mutual

theorem walk_withText : ∀ n : RawNode, (n.withText source).walk = n.walk.map (withText source)
  | ⟨kind, span, children⟩ => by
    rw [withText, Node.walk, walkAll_withTextAll, walk, List.map_cons, withText]

theorem walkAll_withTextAll :
    ∀ ns : List RawNode, Node.walkAll (withTextAll source ns) = (walkAll ns).map (withText source)
  | [] => rfl
  | n :: ns => by
    rw [withTextAll, Node.walkAll, walk_withText, walkAll_withTextAll, walkAll, List.map_append]

end

mutual

theorem walk_withoutText : ∀ n : Node, n.withoutText.walk = n.walk.map withoutText
  | ⟨kind, span, text, children⟩ => by
    rw [withoutText, walk, walkAll_withoutTextAll, Node.walk, List.map_cons, withoutText]

theorem walkAll_withoutTextAll :
    ∀ ns : List Node, walkAll (withoutTextAll ns) = (Node.walkAll ns).map withoutText
  | [] => rfl
  | n :: ns => by
    rw [withoutTextAll, walkAll, walk_withoutText, walkAll_withoutTextAll, Node.walkAll,
      List.map_append]

end

mutual

theorem withText_withoutText :
    ∀ n : Node, (∀ m ∈ n.walk, Text.Spells source m.span.startByte m.span.endByte m.text) →
      n.withoutText.withText source = n
  | ⟨kind, span, text, children⟩, h => by
    have htext := Text.slice?_eq_some_iff.mpr (h _ (Node.mem_walk_self _))
    rw [withoutText, withText, htext, withTextAll_withoutTextAll children fun m hm =>
      h m (List.mem_cons_of_mem _ hm), Option.getD_some]

theorem withTextAll_withoutTextAll :
    ∀ ns : List Node,
      (∀ m ∈ Node.walkAll ns, Text.Spells source m.span.startByte m.span.endByte m.text) →
      withTextAll source (withoutTextAll ns) = ns
  | [], _ => rfl
  | n :: ns, h => by
    rw [Node.walkAll] at h
    rw [withoutTextAll, withTextAll,
      withText_withoutText n fun m hm => h m (List.mem_append_left _ hm),
      withTextAll_withoutTextAll ns fun m hm => h m (List.mem_append_right _ hm)]

end

/-- A tree that mirrors another is the one with the text of every node. -/
theorem mirrors_iff {root : RawNode} {tree : Node} :
    Mirrors source root tree ↔ AllReadable source root.walk ∧ tree = root.withText source := by
  constructor
  · rintro ⟨rfl, htexts⟩
    refine ⟨fun m hm => ?_, (withText_withoutText tree htexts).symm⟩
    rw [walk_withoutText] at hm
    obtain ⟨n, hn, rfl⟩ := List.mem_map.mp hm
    cases n
    exact (htexts _ hn).readable
  · rintro ⟨hreadable, rfl⟩
    refine ⟨withoutText_withText root, fun n hn => ?_⟩
    rw [walk_withText] at hn
    obtain ⟨m, hm, rfl⟩ := List.mem_map.mp hn
    obtain ⟨text, htext⟩ := Option.isSome_iff_exists.mp (Text.isSome_slice?_iff.mpr (hreadable m hm))
    cases m
    rw [withText, htext]
    exact Text.slice?_eq_some_iff.mp htext

end RawNode

end CodeGraph
