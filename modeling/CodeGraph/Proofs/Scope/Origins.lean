import CodeGraph.Proofs.Scope.Parameters
import CodeGraph.Text.Blank
import Mathlib.Data.List.Flatten
import Mathlib.Data.List.TakeWhile

/-!
# Where the bindings of a definition come from

What a definition binds is taken from below the defining node, in the order of the source and each node once at most,
and its name from the children of the node. A binding is named by the text of its node; only a Go import without an
alias is named by the last part of its path. A pattern of leaves binds exactly the leaves that are reached through
patterns alone. Main statement: `definition_drawnFrom`.
-/

namespace CodeGraph

/-- The bindings of a definition, its name apart. -/
def Definition.bindings : Definition → List Binding
  | .function _ params => params
  | .classLike _ => []
  | .binds bindings => bindings
  | .imports bindings => bindings

/-- The name of a function or a class. -/
def Definition.name? : Definition → Option Binding
  | .function name _ => name
  | .classLike name => some name
  | .binds _ => none
  | .imports _ => none

/-- Whether a binding is named by the text of its node. -/
def Binding.NamedByText (b : Binding) : Prop := b.name = b.node.text

/-- Bindings that are named by the texts of their nodes, which are taken from a forest in pre-order, no occurrence of a
node twice. -/
structure TakenFrom (bs : List Binding) (ns : List Node) : Prop where
  nodes : (bs.map Binding.node).Sublist (Node.walkAll ns)
  named : ∀ b ∈ bs, b.NamedByText

namespace TakenFrom

variable {bs bs' : List Binding} {ms ns : List Node} {m n : Node}

theorem nil (ns : List Node) : TakenFrom [] ns := ⟨List.nil_sublist _, fun _ hb => absurd hb List.not_mem_nil⟩

theorem append (h : TakenFrom bs [n]) (h' : TakenFrom bs' ns) : TakenFrom (bs ++ bs') (n :: ns) where
  nodes := by
    have hn : Node.walkAll [n] = n.walk := by rw [Node.walkAll, Node.walkAll, List.append_nil]
    rw [List.map_append, Node.walkAll]
    exact (hn ▸ h.nodes).append h'.nodes
  named b hb := (List.mem_append.mp hb).elim (h.named b) (h'.named b)

theorem mono (h : TakenFrom bs ms) (hsub : ms.Sublist ns) : TakenFrom bs ns where
  nodes := by
    have hwalk := hsub.flatMap Node.walk
    rw [← Node.walkAll_eq_flatMap, ← Node.walkAll_eq_flatMap] at hwalk
    exact h.nodes.trans hwalk
  named := h.named

/-- What is taken from below a node of a forest is taken from the forest. -/
theorem below (h : TakenFrom bs n.children) (hn : n ∈ ns) : TakenFrom bs ns := by
  refine mono ⟨?_, h.named⟩ (List.singleton_sublist.mpr hn)
  rw [Node.walkAll, Node.walk_eq, List.cons_append]
  exact (h.nodes.trans (List.sublist_append_left _ _)).cons _

theorem below_self (h : TakenFrom bs n.children) : TakenFrom bs [n] := h.below (List.mem_singleton_self n)

theorem of_mem (hm : m ∈ ns) : TakenFrom [Binding.of m] ns where
  nodes := by
    rw [Node.walkAll_eq_flatMap]
    exact List.singleton_sublist.mpr (List.mem_flatMap.mpr ⟨m, hm, m.mem_walk_self⟩)
  named b hb := by
    rw [List.mem_singleton.mp hb]
    rfl

theorem self (n : Node) : TakenFrom [Binding.of n] [n] := of_mem (List.mem_singleton_self n)

theorem of_option {found : Option Node} (hfound : ∀ m ∈ found, m ∈ ns) :
    TakenFrom (found.map Binding.of).toList ns := by
  cases found with
  | none => exact nil ns
  | some m => exact of_mem (hfound m rfl)

/-- What is taken from each tree of a forest by itself. -/
theorem flatMap {f : Node → List Binding} (h : ∀ n ∈ ns, TakenFrom (f n) [n]) : TakenFrom (ns.flatMap f) ns := by
  induction ns with
  | nil => exact nil []
  | cons n ns ih =>
    rw [List.flatMap_cons]
    exact (h n List.mem_cons_self).append (ih fun m hm => h m (List.mem_cons_of_mem _ hm))

theorem filterMap {f : Node → Option Binding} (h : ∀ n ∈ ns, TakenFrom (f n).toList [n]) :
    TakenFrom (ns.filterMap f) ns := by
  rw [List.filterMap_eq_flatMap_toList]
  exact flatMap h

theorem map_of (hsub : ms.Sublist ns) : TakenFrom (ms.map Binding.of) ns := by
  rw [List.map_eq_flatMap]
  exact (flatMap fun m _ => self m).mono hsub

end TakenFrom

variable {n c : Node} {b : Binding} {d : Definition}

/-- The last identifier among the children of a node. -/
theorem takenFrom_lastIdentifier (n : Node) :
    TakenFrom ((n.children.reverse.find? (·.kind == "identifier")).map Binding.of).toList [n] := by
  have hlast : TakenFrom ((n.children.reverse.find? (·.kind == "identifier")).map Binding.of).toList n.children :=
    .of_option fun m hm => List.mem_reverse.mp (List.mem_of_find?_eq_some hm)
  exact hlast.below_self

theorem toList_sublist {found : Option Node} {ns : List Node} (hfound : ∀ m ∈ found, m ∈ ns) :
    found.toList.Sublist ns := by
  cases found with
  | none => exact List.nil_sublist ns
  | some m => exact List.singleton_sublist.mpr (hfound m rfl)

/-- What stands between a first and a second token keeps its order. -/
theorem window_sublist (p q : Node → Bool) (ns : List Node) :
    (((ns.dropWhile p).drop 1).takeWhile q).Sublist ns :=
  (List.takeWhile_sublist q).trans ((List.drop_sublist 1 _).trans (List.dropWhile_sublist p))

theorem mem_children_of_childOfKind? {kind : String} : ∀ m ∈ n.childOfKind? kind, m ∈ n.children :=
  fun _ hm => List.mem_of_find?_eq_some hm

/-- A definition is drawn from a node: the nodes of its bindings are taken from below the node in pre-order, no
occurrence twice, and its name is a child. All of them are named in some way. -/
structure Definition.DrawnFrom (d : Definition) (n : Node) (named : Binding → Prop) : Prop where
  nodes : (d.bindings.map Binding.node).Sublist (Node.walkAll n.children)
  name : ∀ b ∈ d.name?, b.node ∈ n.children
  named : ∀ b ∈ d.name?.toList ++ d.bindings, named b

namespace Definition.DrawnFrom

variable {bs : List Binding}

theorem function {name : Option Node} (hname : ∀ m ∈ name, m ∈ n.children) (hbs : TakenFrom bs n.children) :
    (Definition.function (name.map Binding.of) bs).DrawnFrom n Binding.NamedByText where
  nodes := hbs.nodes
  name b hb := by
    obtain ⟨m, hm, rfl⟩ := Option.map_eq_some_iff.mp hb
    exact hname m hm
  named b hb := by
    rcases List.mem_append.mp hb with hb | hb
    · obtain ⟨m, -, rfl⟩ := Option.map_eq_some_iff.mp (Option.mem_toList.mp hb)
      rfl
    · exact hbs.named b hb

theorem classLike (hc : c ∈ n.children) :
    (Definition.classLike (Binding.of c)).DrawnFrom n Binding.NamedByText where
  nodes := List.nil_sublist _
  name b hb := by
    obtain rfl := Option.some.inj hb
    exact hc
  named b hb := by
    obtain rfl := List.mem_singleton.mp hb
    rfl

theorem binds (hbs : TakenFrom bs n.children) : (Definition.binds bs).DrawnFrom n Binding.NamedByText where
  nodes := hbs.nodes
  name _ hb := absurd hb (Option.not_mem_none _)
  named := hbs.named

theorem imports (hbs : TakenFrom bs n.children) : (Definition.imports bs).DrawnFrom n Binding.NamedByText where
  nodes := hbs.nodes
  name _ hb := absurd hb (Option.not_mem_none _)
  named := hbs.named

end Definition.DrawnFrom

/-! ### Patterns of leaves -/

section Leaves

variable {leafKinds patternKinds : List String}

mutual

theorem takenFrom_patternLeaves :
    ∀ n : Node, TakenFrom (patternLeaves leafKinds patternKinds n) [n]
  | ⟨kind, span, text, children⟩ => by
    rw [patternLeaves]
    split
    · exact .self _
    split
    · exact TakenFrom.below_self (n := ⟨kind, span, text, children⟩) (takenFrom_patternLeavesAll children)
    · exact .nil _

theorem takenFrom_patternLeavesAll :
    ∀ ns : List Node, TakenFrom (patternLeavesAll leafKinds patternKinds ns) ns
  | [] => .nil []
  | n :: ns => (takenFrom_patternLeaves n).append (takenFrom_patternLeavesAll ns)

end

/-- Whether a node of the leaf kinds is reached through nodes of the pattern kinds alone. -/
def isReached (leafKinds patternKinds : List String) (p : Place) : Bool :=
  leafKinds.contains p.node.kind && p.above.all fun m => patternKinds.contains m.kind

/-- Nothing is reached below a node that is no pattern. -/
theorem filter_isReached_eq_nil {m : Node} {above : List Node} (hm : m ∈ above)
    (hkind : patternKinds.contains m.kind = false) (ns : List Node) :
    (Node.placesUnderAll above ns).filter (isReached leafKinds patternKinds) = [] := by
  refine List.filter_eq_nil_iff.mpr fun p hp hreached => ?_
  have hmem : m ∈ p.above := (Node.above_suffix_of_mem_placesUnderAll ns hp).subset hm
  have hall := (Bool.and_eq_true _ _ ▸ hreached).2
  rw [List.all_eq_true.mp hall m hmem] at hkind
  cases hkind

mutual

/-- Going down, the nodes above are patterns as long as anything is bound. -/
theorem patternLeaves_eq_filter (hdisjoint : leafKinds.Disjoint patternKinds) {above : List Node}
    (habove : above.all (fun m => patternKinds.contains m.kind) = true) :
    ∀ n : Node, patternLeaves leafKinds patternKinds n =
      ((n.placesUnder above).filter (isReached leafKinds patternKinds)).map fun p => Binding.of p.node
  | ⟨kind, span, text, children⟩ => by
    have hself : isReached leafKinds patternKinds ⟨⟨kind, span, text, children⟩, above⟩ =
        leafKinds.contains kind := by
      rw [isReached, habove, Bool.and_true]
    rw [patternLeaves, Node.placesUnder]
    by_cases hleaf : leafKinds.contains kind = true
    · have hpattern : patternKinds.contains kind = false := by
        rw [← Bool.not_eq_true]
        exact fun h => hdisjoint (List.contains_iff_mem.mp hleaf) (List.contains_iff_mem.mp h)
      rw [if_pos hleaf, List.filter_cons_of_pos (hself.trans hleaf),
        filter_isReached_eq_nil List.mem_cons_self hpattern]
      rfl
    · rw [if_neg hleaf, List.filter_cons_of_neg (hself ▸ hleaf)]
      by_cases hpattern : patternKinds.contains kind = true
      · rw [if_pos hpattern]
        refine patternLeavesAll_eq_filter hdisjoint ?_ children
        rw [List.all_cons, hpattern, habove]
        rfl
      · rw [if_neg hpattern,
          filter_isReached_eq_nil List.mem_cons_self ((Bool.not_eq_true _).mp hpattern)]
        rfl

theorem patternLeavesAll_eq_filter (hdisjoint : leafKinds.Disjoint patternKinds) {above : List Node}
    (habove : above.all (fun m => patternKinds.contains m.kind) = true) :
    ∀ ns : List Node, patternLeavesAll leafKinds patternKinds ns =
      ((Node.placesUnderAll above ns).filter (isReached leafKinds patternKinds)).map fun p => Binding.of p.node
  | [] => rfl
  | n :: ns => by
    rw [patternLeavesAll, Node.placesUnderAll, List.filter_append, List.map_append,
      patternLeaves_eq_filter hdisjoint habove n, patternLeavesAll_eq_filter hdisjoint habove ns]

end

end Leaves

/-! ### Python -/

namespace Python

theorem takenFrom_parameter? (c : Node) : TakenFrom (parameter? c).toList [c] := by
  unfold parameter?
  split
  · exact .self c
  split
  · split
    · next name hname =>
      have hbelow : TakenFrom [Binding.of name] c.children := .of_mem (mem_children_of_childOfKind? name hname)
      exact hbelow.below_self
    · -- the name of a typed splat stands one level further down
      cases hsplat : c.childOfKinds? ["list_splat_pattern", "dictionary_splat_pattern"] with
      | none => exact .nil _
      | some splat =>
        have hname : TakenFrom ((splat.childOfKind? "identifier").map Binding.of).toList splat.children :=
          .of_option mem_children_of_childOfKind?
        have hbelow := hname.below (List.mem_of_find?_eq_some hsplat)
        exact hbelow.below_self
  · exact .nil _

theorem takenFrom_parameters (n : Node) : TakenFrom (parameters n) n.children := by
  unfold parameters
  split
  · exact .nil _
  · next list hlist =>
    have hlist := mem_children_of_childOfKind? list hlist
    exact (TakenFrom.filterMap fun c _ => takenFrom_parameter? c).below hlist

theorem takenFrom_importName? (c : Node) : TakenFrom (importName? c).toList [c] := by
  unfold importName?
  split
  · exact .self c
  split
  · exact takenFrom_lastIdentifier c
  · exact .nil _

theorem drawnFrom_definition (h : definition n = some d) : d.DrawnFrom n Binding.NamedByText := by
  unfold definition at h
  split at h
  · obtain rfl := Option.some.inj h
    exact .function mem_children_of_childOfKind? (takenFrom_parameters n)
  split at h
  · obtain ⟨name, hname, rfl⟩ := Option.map_eq_some_iff.mp h
    exact .classLike (mem_children_of_childOfKind? name hname)
  split at h
  · obtain rfl := Option.some.inj h
    exact .binds ((takenFrom_patternLeavesAll _).mono (List.takeWhile_sublist _))
  split at h
  · obtain rfl := Option.some.inj h
    exact .binds ((takenFrom_patternLeavesAll _).mono (window_sublist _ _ _))
  split at h
  · obtain rfl := Option.some.inj h
    exact .imports (.filterMap fun c _ => takenFrom_importName? c)
  · cases h

end Python

/-! ### The ECMAScript family -/

namespace EcmaScript

theorem taken_sublist (p : Node) : (taken p).Sublist p.children := by
  unfold taken
  split
  · exact List.Sublist.refl _
  split
  · exact toList_sublist fun m hm => List.mem_of_getLast? hm
  split
  · exact toList_sublist fun m hm => List.mem_of_head? hm
  split
  · exact toList_sublist fun m hm => List.mem_of_find?_eq_some hm
  · exact List.nil_sublist _

mutual

theorem takenFrom_patternNames : ∀ n : Node, TakenFrom (patternNames n) [n]
  | ⟨kind, span, text, children⟩ => by
    rw [patternNames_eq]
    split
    · exact .self _
    · have hsub := taken_sublist ⟨kind, span, text, children⟩
      have htaken : TakenFrom ((taken ⟨kind, span, text, children⟩).flatMap patternNames) children :=
        (TakenFrom.flatMap fun c hc => takenFrom_patternNames_of_mem children c (hsub.mem hc)).mono hsub
      exact TakenFrom.below_self (n := ⟨kind, span, text, children⟩) htaken

theorem takenFrom_patternNames_of_mem : ∀ ns : List Node, ∀ c ∈ ns, TakenFrom (patternNames c) [c]
  | [], _, hc => absurd hc List.not_mem_nil
  | n :: ns, c, hc => by
    rcases List.mem_cons.mp hc with heq | hc
    · exact heq ▸ takenFrom_patternNames n
    · exact takenFrom_patternNames_of_mem ns c hc

end

theorem takenFrom_patternNamesAll (ns : List Node) : TakenFrom (patternNamesAll ns) ns := by
  rw [patternNamesAll_eq_flatMap]
  exact .flatMap fun c _ => takenFrom_patternNames c

theorem takenFrom_parameters (n : Node) : TakenFrom (parameters n) n.children := by
  unfold parameters
  split
  · next list hlist => exact (takenFrom_patternNamesAll _).below (mem_children_of_childOfKind? list hlist)
  split
  · split
    · next first rest hchildren =>
      split
      · exact .of_mem (hchildren ▸ List.mem_cons_self)
      · exact .nil _
    · exact .nil _
  · exact .nil _

theorem takenFrom_clauseNames (part : Node) : TakenFrom (clauseNames part) [part] := by
  unfold clauseNames
  split
  · exact .self part
  split
  · have hname : TakenFrom ((part.childOfKind? "identifier").map Binding.of).toList part.children :=
      .of_option mem_children_of_childOfKind?
    exact hname.below_self
  split
  · have hnamed := (TakenFrom.filterMap fun spec _ => takenFrom_lastIdentifier spec).mono
      (List.filter_sublist (p := (·.kind == "import_specifier")) (l := part.children))
    exact hnamed.below_self
  · exact .nil _

theorem takenFrom_importNames (n : Node) : TakenFrom (importNames n) n.children := by
  unfold importNames
  split
  · exact .nil _
  · next clause hclause =>
    have hclause := mem_children_of_childOfKind? clause hclause
    exact (TakenFrom.flatMap fun part _ => takenFrom_clauseNames part).below hclause

theorem drawnFrom_definition (h : definition n = some d) : d.DrawnFrom n Binding.NamedByText := by
  unfold definition at h
  split at h
  · obtain rfl := Option.some.inj h
    refine .function (fun m hm => ?_) (takenFrom_parameters n)
    exact (List.takeWhile_sublist _).mem (List.mem_of_find?_eq_some hm)
  split at h
  · obtain ⟨name, hname, rfl⟩ := Option.map_eq_some_iff.mp h
    exact .classLike (List.mem_of_find?_eq_some hname)
  split at h
  · obtain rfl := Option.some.inj h
    have hfirst : n.children.head?.toList.Sublist n.children :=
      toList_sublist fun m hm => List.mem_of_head? hm
    rw [declaratorNames, firstPatternNames_eq_flatMap]
    exact .binds ((TakenFrom.flatMap fun c _ => takenFrom_patternNames c).mono hfirst)
  split at h
  · obtain rfl := Option.some.inj h
    exact .binds ((takenFrom_patternNamesAll _).mono (window_sublist _ _ _))
  split at h
  · obtain rfl := Option.some.inj h
    exact .imports (takenFrom_importNames n)
  · cases h

end EcmaScript

/-! ### Parts of a text -/

namespace Text

/-- A text inside characters of a class, stripped of all of them. -/
structure IsStripped (p : Char → Bool) (cs inner : List Char) : Prop where
  outside : ∃ front back, cs = front ++ inner ++ back ∧ ∀ c ∈ front ++ back, p c = true
  first : ∀ c ∈ inner.head?, p c = false
  last : ∀ c ∈ inner.getLast?, p c = false

/-- The part of a text behind the last separator; a text without separators is its own last part. -/
structure IsLastPart (sep : Char) (cs part : List Char) : Prop where
  not_mem : sep ∉ part
  behind : cs = part ∨ ∃ lead, cs = lead ++ sep :: part

theorem eq_false_of_head?_dropWhile (p : Char → Bool) (cs : List Char) :
    ∀ c ∈ (cs.dropWhile p).head?, p c = false := by
  intro c hc
  have hhead := List.head?_dropWhile_not p cs
  rw [Option.mem_def.mp hc] at hhead
  exact hhead

theorem isStripped_stripChars (p : Char → Bool) (cs : List Char) : IsStripped p cs (stripChars p cs) := by
  have hback : stripChars p cs ++ ((cs.dropWhile p).reverse.takeWhile p).reverse = cs.dropWhile p := by
    rw [stripChars, ← List.reverse_append, List.takeWhile_append_dropWhile, List.reverse_reverse]
  have hall : cs =
      cs.takeWhile p ++ stripChars p cs ++ ((cs.dropWhile p).reverse.takeWhile p).reverse := by
    rw [List.append_assoc, hback, List.takeWhile_append_dropWhile]
  refine ⟨⟨_, _, hall, fun c hc => ?_⟩, fun c hc => ?_, fun c hc => ?_⟩
  · rcases List.mem_append.mp hc with hc | hc
    · exact List.mem_takeWhile_imp hc
    · exact List.mem_takeWhile_imp (List.mem_reverse.mp hc)
  · -- what is left of the front begins where the back is not yet stripped
    refine eq_false_of_head?_dropWhile p cs c ?_
    rw [← hback, List.head?_append, Option.mem_def.mp hc]
    rfl
  · rw [stripChars, List.getLast?_reverse] at hc
    exact eq_false_of_head?_dropWhile p _ c hc

theorem isLastPart_afterLast (sep : Char) (cs : List Char) : IsLastPart sep cs (afterLast sep cs) := by
  have hcs : cs = (cs.reverse.dropWhile (· != sep)).reverse ++ afterLast sep cs := by
    rw [afterLast, ← List.reverse_append, List.takeWhile_append_dropWhile, List.reverse_reverse]
  constructor
  · intro hmem
    have hne := List.mem_takeWhile_imp (List.mem_reverse.mp hmem)
    exact absurd rfl (bne_iff_ne.mp hne)
  · cases hrest : cs.reverse.dropWhile (· != sep) with
    | nil =>
      rw [hrest] at hcs
      exact .inl hcs
    | cons c rest =>
      have hsep := eq_false_of_head?_dropWhile (· != sep) cs.reverse c (by rw [hrest]; rfl)
      obtain rfl : c = sep := by simpa using hsep
      rw [hrest, List.reverse_cons, List.append_assoc] at hcs
      exact .inr ⟨rest.reverse, hcs⟩

end Text

/-! ### Go -/

namespace Go

theorem takenFrom_identifiers (n : Node) : TakenFrom ((identifiers n).map Binding.of) n.children :=
  .map_of List.filter_sublist

theorem takenFrom_parameters (n : Node) : TakenFrom (parameters n) n.children := by
  have hdeclaration : ∀ declaration : Node,
      TakenFrom ((identifiers declaration).map Binding.of) [declaration] :=
    fun declaration => (takenFrom_identifiers declaration).below_self
  have hlist : ∀ list : Node, TakenFrom
      ((list.children.filter declaresParameters).flatMap fun c => (identifiers c).map Binding.of) [list] :=
    fun list => ((TakenFrom.flatMap fun c _ => hdeclaration c).mono List.filter_sublist).below_self
  simp only [parameters, List.flatMap_assoc, List.map_flatMap]
  exact (TakenFrom.flatMap fun list _ => hlist list).mono List.filter_sublist

theorem takenFrom_shortTargets (n : Node) : TakenFrom (shortTargets n) n.children := by
  unfold shortTargets
  split
  · exact .nil _
  split
  · exact .nil _
  · next list hlist => exact (takenFrom_identifiers list).below (mem_children_of_childOfKind? list hlist)

/-- Whether a node imports a package to which it gives no alias. -/
def Unaliased (n : Node) : Prop := n.kind = "import_spec" ∧ ∀ c ∈ n.children, c.kind ≠ "package_identifier"

/-- Whether a binding is named by the last part of the path that its node quotes. -/
def NamedByPath (b : Binding) : Prop :=
  ∃ path, Text.IsStripped (fun c => c == '"' || c == '`') b.node.text.toList path ∧
    Text.IsLastPart '/' path b.name.toList

theorem takenFrom_importName? (hkind : n.kind = "import_spec") (hn : ¬ Unaliased n) :
    TakenFrom (importName? n).toList n.children := by
  unfold importName?
  split
  · next given hgiven => exact .of_mem (mem_children_of_childOfKind? given hgiven)
  · next hnone =>
    refine absurd ⟨hkind, fun c hc halias => ?_⟩ hn
    exact List.find?_eq_none.mp hnone c hc (beq_iff_eq.mpr halias)

theorem drawnFrom_definition (h : definition n = some d) (hn : ¬ Unaliased n) :
    d.DrawnFrom n Binding.NamedByText := by
  unfold definition at h
  split at h
  · obtain rfl := Option.some.inj h
    exact .function mem_children_of_childOfKind? (takenFrom_parameters n)
  split at h
  · obtain rfl := Option.some.inj h
    exact .function mem_children_of_childOfKind? (takenFrom_parameters n)
  split at h
  · obtain ⟨name, hname, rfl⟩ := Option.map_eq_some_iff.mp h
    exact .classLike (mem_children_of_childOfKind? name hname)
  split at h
  · obtain rfl := Option.some.inj h
    exact .binds (takenFrom_shortTargets n)
  split at h
  · obtain rfl := Option.some.inj h
    exact .binds (takenFrom_identifiers n)
  split at h
  · next hkind =>
    obtain rfl := Option.some.inj h
    exact .imports (takenFrom_importName? (beq_iff_eq.mp hkind) hn)
  · cases h

/-- Without an alias the literal itself is what is imported. -/
theorem importName?_of_unaliased (hn : Unaliased n) (hb : importName? n = some b) :
    b.node ∈ n.children ∧ NamedByPath b := by
  unfold importName? at hb
  split at hb
  · next given hgiven =>
    have hkind : given.kind = "package_identifier" := by simpa using List.find?_some hgiven
    exact absurd hkind (hn.2 given (mem_children_of_childOfKind? given hgiven))
  · obtain ⟨path, hpath, rfl⟩ := Option.map_eq_some_iff.mp hb
    refine ⟨List.mem_of_find?_eq_some hpath, (unquote path.text).toList, ?_, ?_⟩
    · rw [unquote, Text.stripEnds, String.toList_ofList]
      exact Text.isStripped_stripChars _ _
    · rw [String.toList_ofList]
      exact Text.isLastPart_afterLast _ _

theorem drawnFrom_of_unaliased (h : definition n = some d) (hn : Unaliased n) : d.DrawnFrom n NamedByPath := by
  have himports : definition n = some (.imports (importName? n).toList) := by
    simp [definition, hn.1]
  obtain rfl := Option.some.inj (h.symm.trans himports)
  refine ⟨?_, fun _ hb => absurd hb (Option.not_mem_none _), fun b hb => ?_⟩
  · show ((importName? n).toList.map Binding.node).Sublist _
    cases hname : importName? n with
    | none => exact List.nil_sublist _
    | some b =>
      have hmem := (importName?_of_unaliased hn hname).1
      rw [Node.walkAll_eq_flatMap]
      exact List.singleton_sublist.mpr (List.mem_flatMap.mpr ⟨b.node, hmem, b.node.mem_walk_self⟩)
  · exact (importName?_of_unaliased hn (Option.mem_toList.mp hb)).2

end Go

/-- **Bindings come from the defining node, in the order of the source and each once.** Under the rules of every
language a definition takes its bindings from below its node in pre-order and its name from the children, and all of
them are named by the texts of their nodes, except that a Go import without an alias is named by the last part of its
path. A pattern of leaves, whose kinds are no pattern kinds, binds the leaves that are reached through patterns alone,
and nothing else. -/
theorem definition_drawnFrom :
    (∀ rules ∈ ScopingRules.builtIn, ∀ n d, rules.definition n = some d →
      (rules.name = "go" ∧ Go.Unaliased n → d.DrawnFrom n Go.NamedByPath) ∧
        (¬(rules.name = "go" ∧ Go.Unaliased n) → d.DrawnFrom n Binding.NamedByText)) ∧
      ∀ leafKinds patternKinds, leafKinds.Disjoint patternKinds → ∀ n,
        patternLeaves leafKinds patternKinds n =
          (n.places.filter (isReached leafKinds patternKinds)).map fun p => Binding.of p.node := by
  refine ⟨fun rules hrules n d h => ?_, fun _ _ hdisjoint n => patternLeaves_eq_filter hdisjoint rfl n⟩
  rcases ScopingRules.mem_builtIn.mp hrules with rfl | rfl | rfl | rfl
  · exact ⟨fun hgo => absurd hgo.1 (by decide), fun _ => Python.drawnFrom_definition h⟩
  · exact ⟨fun hgo => absurd hgo.1 (by decide), fun _ => EcmaScript.drawnFrom_definition h⟩
  · exact ⟨fun hgo => Go.drawnFrom_of_unaliased h hgo.2,
      fun hgo => Go.drawnFrom_definition h fun hn => hgo ⟨rfl, hn⟩⟩
  · cases h

open Node (token around)

/-- The import of a package by its path alone. -/
def unaliasedImport : Node := around "import_spec" 7 18 [token "interpreted_string_literal" 7 "\"net/http\""]

/-- The targets `a, (b, f.c)` of a Python assignment; what is called is no name of a pattern. -/
def nestedTargets : Node :=
  around "pattern_list" 0 20
    [token "identifier" 0 "a",
      around "tuple_pattern" 3 20
        [token "identifier" 4 "b", around "attribute" 7 10 [token "identifier" 7 "f", token "identifier" 9 "c"]]]

theorem definition_drawnFrom_netHttp :
    (∃ d, Go.rules.definition unaliasedImport = some d ∧ Go.Unaliased unaliasedImport ∧
      d.DrawnFrom unaliasedImport Go.NamedByPath ∧ d.bindings.map Binding.name = ["http"]) ∧
      (["identifier"].Disjoint Python.patterns ∧
        (patternLeaves ["identifier"] Python.patterns nestedTargets).map Binding.name = ["a", "b"]) := by
  obtain ⟨hdefinitions, hpatterns⟩ := definition_drawnFrom
  have hgo : Go.rules ∈ ScopingRules.builtIn := ScopingRules.mem_builtIn.mpr (.inr (.inr (.inl rfl)))
  have hn : Go.Unaliased unaliasedImport := ⟨rfl, by decide⟩
  have hdisjoint : ["identifier"].Disjoint Python.patterns := List.singleton_disjoint.mpr (by decide)
  refine ⟨⟨_, rfl, hn, ?_, by decide⟩, hdisjoint, ?_⟩
  · exact (hdefinitions Go.rules hgo unaliasedImport _ rfl).1 ⟨rfl, hn⟩
  · rw [hpatterns _ _ hdisjoint nestedTargets]
    decide

end CodeGraph
