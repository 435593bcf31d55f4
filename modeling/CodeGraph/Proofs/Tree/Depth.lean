import CodeGraph.Proofs.Tree.Mirror

/-!
# The depth limit

`RawNode.height` counts the levels of a tree as the parser gives it. A tree is normalized under a limit exactly if it
has at most so many levels, one level apart, which is always let in, and the span of every node holds text. It is then
the tree that mirrors the parser's, whatever the limit; else the fault is that of the first visit that fails. Main
statement: `normalize_exact`.
-/

namespace CodeGraph.RawNode

mutual

/-- The number of levels of a tree; a leaf has one. -/
def height : RawNode → Nat
  | ⟨_, _, children⟩ => heightAll children + 1

/-- The number of levels of the deepest tree of a forest. -/
def heightAll : List RawNode → Nat
  | [] => 0
  | n :: ns => max n.height (heightAll ns)

end

theorem height_eq (n : RawNode) : n.height = heightAll n.children + 1 := by
  cases n; rfl

mutual

theorem height_withoutText : ∀ n : Node, n.withoutText.height = n.depth
  | ⟨kind, span, text, children⟩ => by
    rw [Node.withoutText, height, heightAll_withoutTextAll, Node.depth]

theorem heightAll_withoutTextAll :
    ∀ ns : List Node, heightAll (Node.withoutTextAll ns) = Node.depthAll ns
  | [] => rfl
  | n :: ns => by
    rw [Node.withoutTextAll, heightAll, height_withoutText, heightAll_withoutTextAll, Node.depthAll]

end

variable {source : ByteArray} {limit limit' : Nat}

/-! ### When no visit fails -/

theorem fault?_enter_eq_none {level : Nat} :
    Visit.fault? source limit (.enter (level + 1)) = none ↔ level + 1 < limit := by
  simp [Visit.fault?]

theorem fault?_read_eq_none {start stop : Nat} :
    Visit.fault? source limit (.read start stop) = none ↔ Text.Readable source start stop := by
  rw [← Text.isSome_slice?_iff, Visit.fault?]
  cases Text.slice? source start stop <;> simp

theorem firstFault?_append_eq_none {us vs : List Visit} :
    firstFault? source limit (us ++ vs) = none ↔
      firstFault? source limit us = none ∧ firstFault? source limit vs = none := by
  simp only [firstFault?, List.findSome?_append, Option.or_eq_none_iff]

theorem firstFault?_cons_eq_none {v : Visit} {vs : List Visit} :
    firstFault? source limit (v :: vs) = none ↔
      Visit.fault? source limit v = none ∧ firstFault? source limit vs = none := by
  simp only [firstFault?, List.findSome?_eq_none_iff, List.forall_mem_cons]

theorem allReadable_cons {n : RawNode} {ns : List RawNode} :
    AllReadable source (n :: ns) ↔
      Text.Readable source n.span.startByte n.span.endByte ∧ AllReadable source ns :=
  List.forall_mem_cons

theorem allReadable_append {ms ns : List RawNode} :
    AllReadable source (ms ++ ns) ↔ AllReadable source ms ∧ AllReadable source ns :=
  List.forall_mem_append

/-- The visits of a node once it is entered, as its children go. -/
theorem firstFault?_inside_eq_none {level : Nat} {n : RawNode}
    (hchildren : firstFault? source limit (visitsAll (level + 1) n.children) = none ↔
      heightAll n.children + level < max (level + 1) limit ∧
        AllReadable source (walkAll n.children)) :
    firstFault? source limit
        (visitsAll (level + 1) n.children ++ [.read n.span.startByte n.span.endByte]) = none ↔
      n.height + level ≤ max (level + 1) limit ∧ AllReadable source n.walk := by
  rw [firstFault?_append_eq_none, hchildren, firstFault?_cons_eq_none, fault?_read_eq_none, walk_eq,
    allReadable_cons, height_eq]
  constructor
  · rintro ⟨⟨hlevels, hbelow⟩, hread, -⟩
    exact ⟨by omega, hread, hbelow⟩
  · rintro ⟨hlevels, hread, hbelow⟩
    exact ⟨⟨by omega, hbelow⟩, hread, rfl⟩

mutual

theorem firstFault?_visits_eq_none (level : Nat) :
    ∀ n : RawNode, firstFault? source limit (visits (level + 1) n) = none ↔
      n.height + level < limit ∧ AllReadable source n.walk
  | ⟨kind, span, children⟩ => by
    rw [visits_eq, firstFault?_cons_eq_none, fault?_enter_eq_none,
      firstFault?_inside_eq_none (firstFault?_visitsAll_eq_none (level + 1) children), height]
    constructor
    · rintro ⟨henter, hlevels, hreadable⟩
      exact ⟨by omega, hreadable⟩
    · rintro ⟨hlevels, hreadable⟩
      exact ⟨by omega, by omega, hreadable⟩

theorem firstFault?_visitsAll_eq_none (level : Nat) :
    ∀ ns : List RawNode, firstFault? source limit (visitsAll (level + 1) ns) = none ↔
      heightAll ns + level < max (level + 1) limit ∧ AllReadable source (walkAll ns)
  | [] => by
    rw [heightAll]
    exact ⟨fun _ => ⟨by omega, fun _ hn => absurd hn List.not_mem_nil⟩, fun _ => rfl⟩
  | n :: ns => by
    rw [visitsAll, firstFault?_append_eq_none, firstFault?_visits_eq_none level n,
      firstFault?_visitsAll_eq_none level ns, walkAll, allReadable_append, heightAll]
    -- a tree has a level, so where one is let in the limit is above `level + 1`
    have hpos := height_eq n
    constructor
    · rintro ⟨⟨hn, hreadable⟩, hns, hrest⟩
      exact ⟨by omega, hreadable, hrest⟩
    · rintro ⟨hlevels, hreadable, hrest⟩
      exact ⟨⟨by omega, hreadable⟩, by omega, hrest⟩

end

/-- The root is let in whatever the limit is, and so no tree of one level is too deep. -/
theorem firstFault?_visits_root (root : RawNode) :
    firstFault? source limit (root.visits 0) = none ↔
      root.height ≤ max 1 limit ∧ AllReadable source root.walk := by
  have hroot : Visit.fault? source limit (.enter 0) = none := rfl
  rw [visits_eq, firstFault?_cons_eq_none,
    firstFault?_inside_eq_none (firstFault?_visitsAll_eq_none 0 root.children)]
  exact ⟨And.right, fun h => ⟨hroot, h⟩⟩

/-! ### What normalizing gives -/

variable {root : RawNode} {tree : Node}

theorem normalize_eq_error_iff {fault : Fault} :
    root.normalize source limit = .error fault ↔
      firstFault? source limit (root.visits 0) = some fault := by
  rw [normalize_eq_outcome, outcome]
  cases firstFault? source limit (root.visits 0) <;> simp

theorem normalize_eq_ok_iff :
    root.normalize source limit = .ok tree ↔
      root.height ≤ max 1 limit ∧ Mirrors source root tree := by
  rw [mirrors_iff, ← and_assoc, ← firstFault?_visits_root, normalize_eq_outcome, outcome]
  cases firstFault? source limit (root.visits 0) <;> simp [eq_comm]

theorem depth_of_mirrors (h : Mirrors source root tree) : tree.depth = root.height := by
  rw [← h.shape, height_withoutText]

theorem height_le_of_normalize (h : root.normalize source limit = .ok tree) :
    root.height ≤ max 1 limit := (normalize_eq_ok_iff.mp h).1

theorem normalize_of_height_le (h : root.normalize source limit = .ok tree)
    (hheight : root.height ≤ max 1 limit') : root.normalize source limit' = .ok tree :=
  normalize_eq_ok_iff.mpr ⟨hheight, (normalize_eq_ok_iff.mp h).2⟩

/-- A visit fails for the depth or for a text alone. -/
theorem firstFault?_ne_noTree {vs : List Visit} {cause : MissingTree} :
    firstFault? source limit vs ≠ some (.noTree cause) := by
  intro h
  obtain ⟨v, -, hv⟩ := List.exists_of_findSome?_eq_some h
  cases v <;> simp [Visit.fault?] at hv

/-- **Normalizing is exact, and so is its limit.** Whatever the spans: there is a tree exactly if the parser's has no
more levels than the limit, or only one, and the span of every node holds text. It mirrors the parser's and has as
many levels. Else the fault is that of the first visit that fails; the walk never ends without a node. -/
theorem normalize_exact (root : RawNode) (source : ByteArray) (limit : Nat) :
    ((∃ tree, root.normalize source limit = .ok tree) ↔
      root.height ≤ max 1 limit ∧ AllReadable source root.walk) ∧
    (∀ tree, root.normalize source limit = .ok tree →
      Mirrors source root tree ∧ tree.depth = root.height) ∧
    (∀ fault, root.normalize source limit = .error fault ↔
      firstFault? source limit (root.visits 0) = some fault) ∧
    root.normalize source limit ≠ .error (.noTree .empty) := by
  refine ⟨?_, ?_, fun fault => normalize_eq_error_iff, ?_⟩
  · simp only [normalize_eq_ok_iff, mirrors_iff, exists_and_left, exists_eq, and_true]
  · intro tree h
    have hmirrors := (normalize_eq_ok_iff.mp h).2
    exact ⟨hmirrors, depth_of_mirrors hmirrors⟩
  · rw [Ne, normalize_eq_error_iff]
    exact firstFault?_ne_noTree

/-- An element over a byte range of a source of one line. -/
def element (start stop : Nat) (children : List RawNode) : RawNode :=
  ⟨"element", ⟨start, stop, ⟨0, start⟩, ⟨0, stop⟩⟩, children⟩

/-- Two levels, under a limit of none or one. -/
def twoLevels : RawNode := element 0 2 [element 0 1 []]

/-- A node that reaches out of the source `ab` before one that is too deep for a limit of two. -/
def outOfSourceFirst : RawNode := element 0 2 [element 1 9 [], element 0 1 [element 0 1 []]]

/-- The same nodes the other way round. -/
def tooDeepFirst : RawNode := element 0 2 [element 0 1 [element 0 1 []], element 1 9 []]

theorem normalize_exact_racingFaults :
    (∃ tree, (element 0 2 []).normalize "ab".toUTF8 0 = .ok tree ∧
      Mirrors "ab".toUTF8 (element 0 2 []) tree ∧ tree.depth = 1) ∧
    twoLevels.normalize "ab".toUTF8 1 = .error (.treeTooDeep 1) ∧
    outOfSourceFirst.normalize "ab".toUTF8 2 = .error (.badText 1 9) ∧
    tooDeepFirst.normalize "ab".toUTF8 2 = .error (.treeTooDeep 2) := by
  have hreadable : AllReadable "ab".toUTF8 (element 0 2 []).walk := by
    intro n hn
    obtain rfl := List.mem_singleton.mp hn
    exact Text.isSome_slice?_iff.mp (by decide)
  obtain ⟨hok, hmirrors, -, -⟩ := normalize_exact (element 0 2 []) "ab".toUTF8 0
  obtain ⟨tree, htree⟩ := hok.mpr ⟨by decide, hreadable⟩
  obtain ⟨-, -, htwo, -⟩ := normalize_exact twoLevels "ab".toUTF8 1
  obtain ⟨-, -, hout, -⟩ := normalize_exact outOfSourceFirst "ab".toUTF8 2
  obtain ⟨-, -, hdeep, -⟩ := normalize_exact tooDeepFirst "ab".toUTF8 2
  exact ⟨⟨tree, htree, hmirrors tree htree⟩, (htwo _).mpr (by decide), (hout _).mpr (by decide),
    (hdeep _).mpr (by decide)⟩

end CodeGraph.RawNode
