import CodeGraph.Text.Blank
import CodeGraph.Tree.Node
import Mathlib.Data.List.Basic
import Mathlib.Logic.Function.Basic

/-!
# Names read back

A kind may hold underscores and digits of its own, and still a name tells the kind and the range it was made of: the
two numbers stand behind the last two underscores. So nodes share a name where they share kind and range, and nowhere
else (`id_unambiguous`). `NodeId.shift` moves the range of a name, and moves no two names to one.
-/

namespace CodeGraph

namespace Text

/-- The part before the last separator. -/
def beforeLast (sep : Char) (cs : List Char) : List Char :=
  ((cs.reverse.dropWhile (· != sep)).drop 1).reverse

variable {sep : Char} {ds : List Char}

theorem afterLast_append (h : sep ∉ ds) (cs : List Char) : afterLast sep (cs ++ sep :: ds) = ds := by
  have hds : ∀ c ∈ ds.reverse, (c != sep) = true := fun c hc =>
    bne_iff_ne.mpr fun heq => h (heq ▸ List.mem_reverse.mp hc)
  rw [afterLast, List.reverse_append, List.reverse_cons, List.append_assoc,
    List.takeWhile_append_of_pos hds]
  simp

theorem beforeLast_append (h : sep ∉ ds) (cs : List Char) :
    beforeLast sep (cs ++ sep :: ds) = cs := by
  have hds : ∀ c ∈ ds.reverse, (c != sep) = true := fun c hc =>
    bne_iff_ne.mpr fun heq => h (heq ▸ List.mem_reverse.mp hc)
  rw [beforeLast, List.reverse_append, List.reverse_cons, List.append_assoc,
    List.dropWhile_append_of_pos hds]
  simp

end Text

namespace NodeId

/-- The kind and the range that a name was made of, where it was made of some. -/
def parts? (id : NodeId) : Option (String × Nat × Nat) :=
  let front := Text.beforeLast '_' id.text.toList
  let kind := String.ofList (Text.beforeLast '_' front)
  let start := Nat.ofDigitChars 10 (Text.afterLast '_' front) 0
  let stop := Nat.ofDigitChars 10 (Text.afterLast '_' id.text.toList) 0
  if of kind start stop = id then some (kind, start, stop) else none

theorem underscore_not_mem_toDigits (n : Nat) : '_' ∉ Nat.toDigits 10 n := fun h =>
  absurd (Nat.isDigit_of_mem_toDigits (by decide) (by decide) h) (by decide)

theorem toList_text_of (kind : String) (start stop : Nat) :
    (of kind start stop).text.toList =
      (kind.toList ++ '_' :: Nat.toDigits 10 start) ++ '_' :: Nat.toDigits 10 stop := by
  simp [of, String.toList_append, Nat.toList_repr]

theorem parts?_of (kind : String) (start stop : Nat) :
    (of kind start stop).parts? = some (kind, start, stop) := by
  have hstart := underscore_not_mem_toDigits start
  have hstop := underscore_not_mem_toDigits stop
  simp only [parts?, toList_text_of, Text.beforeLast_append hstop, Text.afterLast_append hstop,
    Text.beforeLast_append hstart, Text.afterLast_append hstart, Nat.ofDigitChars_ten_toDigits,
    String.ofList_toList, if_true]

theorem eq_of_parts? {id : NodeId} {kind : String} {start stop : Nat}
    (h : id.parts? = some (kind, start, stop)) : id = of kind start stop := by
  simp only [parts?] at h
  split at h
  · next heq =>
    obtain ⟨hkind, hrange⟩ := Prod.mk.inj (Option.some.inj h)
    obtain ⟨hstart, hstop⟩ := Prod.mk.inj hrange
    rw [hkind, hstart, hstop] at heq
    exact heq.symm
  · cases h

/-- A name tells its kind and its range. -/
theorem of_inj {kind kind' : String} {start start' stop stop' : Nat} :
    of kind start stop = of kind' start' stop' ↔ kind = kind' ∧ start = start' ∧ stop = stop' := by
  constructor
  · intro h
    have hparts := congrArg parts? h
    rw [parts?_of, parts?_of] at hparts
    simpa using hparts
  · rintro ⟨rfl, rfl, rfl⟩
    rfl

/-- The name of a node of the same kind some bytes further on. -/
def shift (k : Nat) (id : NodeId) : NodeId :=
  match id.parts? with
  | none => id
  | some (kind, start, stop) => of kind (start + k) (stop + k)

@[simp] theorem shift_of (k : Nat) (kind : String) (start stop : Nat) :
    (of kind start stop).shift k = of kind (start + k) (stop + k) := by
  rw [shift, parts?_of]

theorem shift_of_parts?_eq_none {id : NodeId} (h : id.parts? = none) (k : Nat) : id.shift k = id := by
  rw [shift, h]

theorem shift_injective (k : Nat) : Function.Injective (shift k) := by
  -- names of nodes go to names of nodes, and what is none stays as it is
  have hmade : ∀ {id : NodeId} {kind : String} {start stop : Nat}, id.parts? = none →
      id ≠ of kind start stop := by
    rintro id kind start stop hnone rfl
    rw [parts?_of] at hnone
    cases hnone
  intro a b h
  rcases ha : a.parts? with _ | ⟨kind, start, stop⟩ <;>
    rcases hb : b.parts? with _ | ⟨kind', start', stop'⟩
  · rw [shift_of_parts?_eq_none ha, shift_of_parts?_eq_none hb] at h
    exact h
  · rw [shift_of_parts?_eq_none ha, eq_of_parts? hb, shift_of] at h
    exact absurd h (hmade ha)
  · rw [shift_of_parts?_eq_none hb, eq_of_parts? ha, shift_of] at h
    exact absurd h.symm (hmade hb)
  · rw [eq_of_parts? ha, eq_of_parts? hb] at h ⊢
    rw [shift_of, shift_of, of_inj, Nat.add_right_cancel_iff, Nat.add_right_cancel_iff] at h
    exact of_inj.mpr h

end NodeId

namespace Node

theorem id_eq_iff {m n : Node} :
    m.id = n.id ↔
      m.kind = n.kind ∧ m.span.startByte = n.span.startByte ∧ m.span.endByte = n.span.endByte :=
  NodeId.of_inj

/-- **Names are unambiguous.** Whatever characters the kinds hold, two names are equal where kinds and ranges are. So
two nodes share a name exactly if they are of one kind and range, and a node never has the name of a parent of another
kind. -/
theorem id_unambiguous (root : Node) :
    (∀ kind kind' start start' stop stop',
      NodeId.of kind start stop = NodeId.of kind' start' stop' ↔
        kind = kind' ∧ start = start' ∧ stop = stop') ∧
      (∀ m ∈ root.walk, ∀ n ∈ root.walk, m.id = n.id ↔
        m.kind = n.kind ∧ m.span.startByte = n.span.startByte ∧ m.span.endByte = n.span.endByte) ∧
      ∀ parent ∈ root.walk, ∀ child ∈ parent.children, child.kind ≠ parent.kind →
        child.id ≠ parent.id := by
  refine ⟨fun _ _ _ _ _ _ => NodeId.of_inj, fun m _ n _ => id_eq_iff, ?_⟩
  intro parent _ child _ hkind hid
  obtain ⟨hsame, -⟩ := id_eq_iff.mp hid
  exact hkind hsame

/-- A kind that ends like a range, around another kind and the same bytes. -/
def numberedKind : Node :=
  ⟨"x_2", ⟨2, 3, ⟨0, 2⟩, ⟨0, 3⟩⟩, "", [⟨"x", ⟨2, 3, ⟨0, 2⟩, ⟨0, 3⟩⟩, "", []⟩]⟩

theorem id_unambiguous_numberedKind :
    ∃ child ∈ numberedKind.children, child.kind ≠ numberedKind.kind ∧ child.id ≠ numberedKind.id ∧
      numberedKind.id.text = "x_2_2_3" ∧ child.id.text = "x_2_3" := by
  obtain ⟨-, -, hparent⟩ := id_unambiguous numberedKind
  refine ⟨_, List.mem_cons_self, by decide, ?_, by decide, by decide⟩
  exact hparent numberedKind (numberedKind.walk_eq ▸ List.mem_cons_self) _ List.mem_cons_self (by decide)

end Node

end CodeGraph
