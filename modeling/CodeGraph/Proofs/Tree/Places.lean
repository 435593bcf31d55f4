import CodeGraph.Tree.Node

/-!
# Places in a tree

A `Place` is one occurrence of a node: the node with the nodes above it. Two nodes that are equal, or that
merely share a name, still have places of their own. `Node.places` lists the places of a tree in
pre-order, as `Node.walk` lists its nodes.
-/

namespace CodeGraph

/-- One occurrence of a node in a tree. -/
structure Place where
  node : Node
  /-- The nodes above it, innermost first. -/
  above : List Node

namespace Place

/-- The node and all nodes above it, innermost first. -/
def path (p : Place) : List Node := p.node :: p.above

/-- The node right above. -/
def parent? (p : Place) : Option Node := p.above.head?

end Place

namespace Node

mutual

/-- The places of a tree that hangs below some nodes, in pre-order. -/
def placesUnder (above : List Node) : Node → List Place
  | ⟨kind, span, text, children⟩ =>
    ⟨⟨kind, span, text, children⟩, above⟩ ::
      placesUnderAll (⟨kind, span, text, children⟩ :: above) children

/-- The places of a forest that hangs below some nodes, in pre-order. -/
def placesUnderAll (above : List Node) : List Node → List Place
  | [] => []
  | n :: ns => placesUnder above n ++ placesUnderAll above ns

end

/-- The places of a tree, in pre-order. -/
def places (root : Node) : List Place := root.placesUnder []

theorem placesUnder_eq (above : List Node) (n : Node) :
    n.placesUnder above = ⟨n, above⟩ :: placesUnderAll (n :: above) n.children := by
  cases n; rfl

theorem mem_places_self (root : Node) : ⟨root, []⟩ ∈ root.places := by
  rw [places, placesUnder_eq]
  exact List.mem_cons_self

theorem placesUnderAll_eq_flatMap (above : List Node) (ns : List Node) :
    placesUnderAll above ns = ns.flatMap (placesUnder above) := by
  induction ns with
  | nil => rfl
  | cons n ns ih => simp [placesUnderAll, ih]

mutual

theorem map_node_placesUnder (above : List Node) :
    ∀ n : Node, (n.placesUnder above).map Place.node = n.walk
  | ⟨kind, span, text, children⟩ => by
    rw [placesUnder, List.map_cons, map_node_placesUnderAll, walk]

theorem map_node_placesUnderAll (above : List Node) :
    ∀ ns : List Node, (placesUnderAll above ns).map Place.node = walkAll ns
  | [] => rfl
  | n :: ns => by
    rw [placesUnderAll, List.map_append, map_node_placesUnder, map_node_placesUnderAll, walkAll]

end

/-- Taken without what is above them, the places are the nodes of the walk. -/
theorem map_node_places (root : Node) : root.places.map Place.node = root.walk :=
  map_node_placesUnder [] root

/-! ### The way to a place -/

mutual

/-- What is above a place of a tree is itself a place of the tree, or above the whole tree. -/
theorem mem_placesUnder_of_suffix {above : List Node} {p : Place} {m : Node} {rest : List Node} :
    ∀ n : Node, p ∈ n.placesUnder above → (m :: rest) <:+ p.path →
      ⟨m, rest⟩ ∈ n.placesUnder above ∨ (m :: rest) <:+ above
  | ⟨kind, span, text, children⟩, hp, hs => by
    rw [placesUnder] at hp ⊢
    rcases List.mem_cons.mp hp with rfl | hp
    · rcases List.suffix_cons_iff.mp hs with heq | hs
      · obtain ⟨rfl, rfl⟩ := List.cons_eq_cons.mp heq
        exact Or.inl List.mem_cons_self
      · exact Or.inr hs
    · rcases mem_placesUnderAll_of_suffix children hp hs with hm | hs
      · exact Or.inl (List.mem_cons_of_mem _ hm)
      · rcases List.suffix_cons_iff.mp hs with heq | hs
        · obtain ⟨rfl, rfl⟩ := List.cons_eq_cons.mp heq
          exact Or.inl List.mem_cons_self
        · exact Or.inr hs

theorem mem_placesUnderAll_of_suffix {above : List Node} {p : Place} {m : Node} {rest : List Node} :
    ∀ ns : List Node, p ∈ placesUnderAll above ns → (m :: rest) <:+ p.path →
      ⟨m, rest⟩ ∈ placesUnderAll above ns ∨ (m :: rest) <:+ above
  | [], hp, _ => absurd hp List.not_mem_nil
  | n :: ns, hp, hs => by
    rw [placesUnderAll, List.mem_append] at hp ⊢
    rcases hp with hp | hp
    · rcases mem_placesUnder_of_suffix n hp hs with hm | hs
      · exact Or.inl (Or.inl hm)
      · exact Or.inr hs
    · rcases mem_placesUnderAll_of_suffix ns hp hs with hm | hs
      · exact Or.inl (Or.inr hm)
      · exact Or.inr hs

end

theorem mem_places_of_suffix {root : Node} {p : Place} (hp : p ∈ root.places) {m : Node}
    {rest : List Node} (hs : (m :: rest) <:+ p.path) : ⟨m, rest⟩ ∈ root.places := by
  rcases mem_placesUnder_of_suffix root hp hs with hm | hs
  · exact hm
  · exact absurd (List.suffix_nil.mp hs) (List.cons_ne_nil m rest)

mutual

/-- What a tree hangs below is above all its places. -/
theorem above_suffix_of_mem_placesUnder {above : List Node} {p : Place} :
    ∀ n : Node, p ∈ n.placesUnder above → above <:+ p.above
  | ⟨kind, span, text, children⟩, hp => by
    rw [placesUnder] at hp
    rcases List.mem_cons.mp hp with rfl | hp
    · exact List.suffix_rfl
    · exact (List.suffix_cons _ _).trans (above_suffix_of_mem_placesUnderAll children hp)

theorem above_suffix_of_mem_placesUnderAll {above : List Node} {p : Place} :
    ∀ ns : List Node, p ∈ placesUnderAll above ns → above <:+ p.above
  | [], hp => absurd hp List.not_mem_nil
  | n :: ns, hp => by
    rw [placesUnderAll, List.mem_append] at hp
    rcases hp with hp | hp
    · exact above_suffix_of_mem_placesUnder n hp
    · exact above_suffix_of_mem_placesUnderAll ns hp

end

theorem mem_placesUnderAll_of_mem (above : List Node) {c : Node} {ns : List Node} (hc : c ∈ ns) :
    ⟨c, above⟩ ∈ placesUnderAll above ns := by
  induction ns with
  | nil => exact absurd hc List.not_mem_nil
  | cons n ns ih =>
    rw [placesUnderAll, List.mem_append]
    rcases List.mem_cons.mp hc with rfl | hc
    · left
      cases c
      rw [placesUnder]
      exact List.mem_cons_self
    · exact Or.inr (ih hc)

mutual

theorem mem_placesUnder_child {above rest : List Node} {n c : Node} (hc : c ∈ n.children) :
    ∀ m : Node, ⟨n, rest⟩ ∈ m.placesUnder above → ⟨c, n :: rest⟩ ∈ m.placesUnder above
  | ⟨kind, span, text, children⟩, hn => by
    rw [placesUnder] at hn ⊢
    rcases List.mem_cons.mp hn with heq | hn
    · obtain ⟨rfl, rfl⟩ := Place.mk.inj heq
      exact List.mem_cons_of_mem _ (mem_placesUnderAll_of_mem _ hc)
    · exact List.mem_cons_of_mem _ (mem_placesUnderAll_child hc children hn)

theorem mem_placesUnderAll_child {above rest : List Node} {n c : Node} (hc : c ∈ n.children) :
    ∀ ms : List Node, ⟨n, rest⟩ ∈ placesUnderAll above ms → ⟨c, n :: rest⟩ ∈ placesUnderAll above ms
  | [], hn => absurd hn List.not_mem_nil
  | m :: ms, hn => by
    rw [placesUnderAll, List.mem_append] at hn ⊢
    rcases hn with hn | hn
    · exact Or.inl (mem_placesUnder_child hc m hn)
    · exact Or.inr (mem_placesUnderAll_child hc ms hn)

end

/-- The children of a node have their places right below it. -/
theorem mem_places_child {root n c : Node} {above : List Node} (hn : ⟨n, above⟩ ∈ root.places)
    (hc : c ∈ n.children) : ⟨c, n :: above⟩ ∈ root.places :=
  mem_placesUnder_child hc root hn

mutual

theorem mem_children_of_mem_placesUnder {above rest : List Node} {n m : Node} :
    ∀ c : Node, ⟨n, m :: rest⟩ ∈ c.placesUnder above → n ∈ m.children ∨ n = c ∧ m :: rest = above
  | ⟨kind, span, text, children⟩, hn => by
    rw [placesUnder] at hn
    rcases List.mem_cons.mp hn with heq | hn
    · exact Or.inr (Place.mk.inj heq)
    · rcases mem_children_of_mem_placesUnderAll children hn with hmem | ⟨hmem, heq⟩
      · exact Or.inl hmem
      · obtain ⟨rfl, -⟩ := List.cons_eq_cons.mp heq
        exact Or.inl hmem

theorem mem_children_of_mem_placesUnderAll {above rest : List Node} {n m : Node} :
    ∀ cs : List Node, ⟨n, m :: rest⟩ ∈ placesUnderAll above cs →
      n ∈ m.children ∨ n ∈ cs ∧ m :: rest = above
  | [], hn => absurd hn List.not_mem_nil
  | c :: cs, hn => by
    rw [placesUnderAll, List.mem_append] at hn
    rcases hn with hn | hn
    · rcases mem_children_of_mem_placesUnder c hn with hmem | ⟨rfl, heq⟩
      · exact Or.inl hmem
      · exact Or.inr ⟨List.mem_cons_self, heq⟩
    · rcases mem_children_of_mem_placesUnderAll cs hn with hmem | ⟨hmem, heq⟩
      · exact Or.inl hmem
      · exact Or.inr ⟨List.mem_cons_of_mem c hmem, heq⟩

end

/-- The node right above a place holds the node of the place among its children. -/
theorem mem_children_of_mem_places {root n m : Node} {rest : List Node}
    (hn : ⟨n, m :: rest⟩ ∈ root.places) : n ∈ m.children := by
  rcases mem_children_of_mem_placesUnder root hn with hmem | ⟨-, heq⟩
  · exact hmem
  · exact absurd heq (List.cons_ne_nil m rest)

mutual

/-- The way down to a place takes its nodes from the walk, in order. -/
theorem path_sublist_walk {above : List Node} {p : Place} :
    ∀ n : Node, p ∈ n.placesUnder above → ∃ way, p.path = way ++ above ∧ way.reverse.Sublist n.walk
  | ⟨kind, span, text, children⟩, hp => by
    rw [placesUnder] at hp
    rw [walk]
    rcases List.mem_cons.mp hp with rfl | hp
    · exact ⟨[⟨kind, span, text, children⟩], rfl, by simp⟩
    · obtain ⟨way, hway, hsub⟩ := path_sublist_walkAll children hp
      refine ⟨way ++ [⟨kind, span, text, children⟩], by rw [hway]; simp, ?_⟩
      rw [List.reverse_append]
      exact hsub.cons_cons _

theorem path_sublist_walkAll {above : List Node} {p : Place} :
    ∀ ns : List Node, p ∈ placesUnderAll above ns →
      ∃ way, p.path = way ++ above ∧ way.reverse.Sublist (walkAll ns)
  | [], hp => absurd hp List.not_mem_nil
  | n :: ns, hp => by
    rw [placesUnderAll, List.mem_append] at hp
    rw [walkAll]
    rcases hp with hp | hp
    · obtain ⟨way, hway, hsub⟩ := path_sublist_walk n hp
      exact ⟨way, hway, hsub.trans (List.sublist_append_left _ _)⟩
    · obtain ⟨way, hway, hsub⟩ := path_sublist_walkAll ns hp
      exact ⟨way, hway, hsub.trans (List.sublist_append_right _ _)⟩

end

theorem path_reverse_sublist_walk {root : Node} {p : Place} (hp : p ∈ root.places) :
    p.path.reverse.Sublist root.walk := by
  obtain ⟨way, hway, hsub⟩ := path_sublist_walk root hp
  rw [hway, List.append_nil]
  exact hsub

/-! ### The nodes of the walk -/

theorem mem_walk_self (n : Node) : n ∈ n.walk := by
  rw [walk_eq]
  exact List.mem_cons_self

mutual

theorem length_walk : ∀ n : Node, n.walk.length = n.count
  | ⟨kind, span, text, children⟩ => by
    rw [walk, List.length_cons, length_walkAll, count]

theorem length_walkAll : ∀ ns : List Node, (walkAll ns).length = countAll ns
  | [] => rfl
  | n :: ns => by
    rw [walkAll, List.length_append, length_walk, length_walkAll, countAll]

end

theorem mem_walk_of_mem_children {root c n : Node} (hc : c ∈ root.children) (hn : n ∈ c.walk) :
    n ∈ root.walk := by
  rw [walk_eq, walkAll_eq_flatMap]
  exact List.mem_cons_of_mem _ (List.mem_flatMap.mpr ⟨c, hc, hn⟩)

theorem mem_walk_of_mem_placesUnder {above : List Node} {n : Node} {p : Place} (hp : p ∈ n.placesUnder above) :
    p.node ∈ n.walk := by
  rw [← map_node_placesUnder above n]
  exact List.mem_map_of_mem hp

theorem mem_walk_iff {root n : Node} : n ∈ root.walk ↔ ∃ above, ⟨n, above⟩ ∈ root.places := by
  rw [← map_node_places, List.mem_map]
  constructor
  · rintro ⟨p, hp, rfl⟩
    exact ⟨p.above, hp⟩
  · rintro ⟨above, hp⟩
    exact ⟨_, hp, rfl⟩

/-- The children of a node of a tree are nodes of the tree. -/
theorem mem_walk_child {root n c : Node} (hn : n ∈ root.walk) (hc : c ∈ n.children) :
    c ∈ root.walk := by
  obtain ⟨above, hp⟩ := mem_walk_iff.mp hn
  exact mem_walk_iff.mpr ⟨n :: above, mem_places_child hp hc⟩

/-! ### Trees of sources of one line -/

/-- A token of a source of one line. -/
def token (kind : String) (start : Nat) (text : String) : Node :=
  ⟨kind, ⟨start, start + text.length, ⟨0, start⟩, ⟨0, start + text.length⟩⟩, text, []⟩

/-- A node around others in a source of one line; its own text is left out. -/
def around (kind : String) (start stop : Nat) (children : List Node) : Node :=
  ⟨kind, ⟨start, stop, ⟨0, start⟩, ⟨0, stop⟩⟩, "", children⟩

end Node

end CodeGraph
