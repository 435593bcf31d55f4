import CodeGraph.Proofs.Graph.Containment
import CodeGraph.Proofs.Scope.Calls
import CodeGraph.Proofs.Scope.DefinedNames

/-!
# Why an edge is in a graph

Every edge of a graph says something about the tree that can be seen without any table: which node contains which,
what a control-flow construct governs, which definition has the name that is called, and which binding spells the
name that is used. `Grounded` lists these reasons, one for each kind of edge. Both ends of a grounded edge are names
of nodes of the tree, and so they are found in the graph. Main statement: `build_edgesWellFormed`.
-/

namespace CodeGraph

/-- The node that an edge leaves, with the kind of the edge. -/
def Edge.origin (e : Edge) : NodeId × EdgeKind := (e.source, e.kind)

namespace ScopingRules

/-- The reasons for which an edge is in the graph of a tree. Nodes may share names; an edge is grounded where some
nodes of its names are as it says. -/
inductive Grounded (rules : ScopingRules) (root : Node) : Edge → Prop where
  /-- From a node to one of its children. -/
  | contains {n c : Node} (hn : n ∈ root.walk) (hc : c ∈ n.children) :
      Grounded rules root ⟨n.id, c.id, .contains⟩
  /-- From a control-flow construct to its body, which is one of its children. -/
  | controlFlow {n body : Node} (hn : n ∈ root.walk) (hkind : rules.isControlFlow n.kind = true)
      (hbody : rules.controlBody n = some body) (hchild : body ∈ n.children) :
      Grounded rules root ⟨n.id, body.id, .controlFlow⟩
  /-- From the callee of a call to a node that defines a function of its name. -/
  | calls {call callee f : Node} (hcall : call ∈ root.walk) (hkind : rules.isCall call.kind = true)
      (hcallee : rules.callee call = some callee) (hchild : callee ∈ call.children)
      (hf : f ∈ root.walk) (hname : rules.functionNameOf? f = some callee.text) :
      Grounded rules root ⟨callee.id, f.id, .calls⟩
  /-- From the callee of a call to a node that is imported under its name. -/
  | callsImport {call callee n : Node} {b : Binding} (hcall : call ∈ root.walk)
      (hkind : rules.isCall call.kind = true) (hcallee : rules.callee call = some callee)
      (hchild : callee ∈ call.children) (hn : n ∈ root.walk) (hb : b ∈ rules.importsOf n)
      (hmem : b.node ∈ root.walk) (hname : b.name = callee.text) :
      Grounded rules root ⟨callee.id, b.node.id, .callsImport⟩
  /-- From an identifier to a node with the same text that is bound as a variable. -/
  | references {use n : Node} {b : Binding} (huse : use ∈ root.walk)
      (hkind : rules.isReference use.kind = true) (hn : n ∈ root.walk)
      (hb : b ∈ rules.variablesOf n) (hmem : b.node ∈ root.walk) (htext : b.node.text = use.text)
      (hne : b.node.id ≠ use.id) : Grounded rules root ⟨use.id, b.node.id, .references⟩

/-- Edges that resolution finds by name. -/
def ByName (e : Edge) : Prop := e.kind = .calls ∨ e.kind = .callsImport ∨ e.kind = .references

/-- Whether a node is a control-flow construct that has a body. -/
def governs (rules : ScopingRules) (n : Node) : Bool :=
  rules.isControlFlow n.kind && (rules.controlBody n).isSome

/-- How the edges of a graph are listed: what contains what, each node but the root once and in pre-order, then
what control flow governs, in pre-order of the governing nodes, and then what is found by name. -/
structure ListedAs (rules : ScopingRules) (root : Node) (edges : List Edge)
    (contained governed named : List Edge) : Prop where
  edges_eq : edges = contained ++ governed ++ named
  contained_kind : ∀ e ∈ contained, e.kind = .contains
  contained_targets : contained.map (·.target) = root.walk.tail.map Node.id
  contained_length : contained.length + 1 = root.walk.length
  governed_kind : ∀ e ∈ governed, e.kind = .controlFlow
  governed_sources : governed.map (·.source) = (root.walk.filter rules.governs).map Node.id
  named_kind : ∀ e ∈ named, ByName e
  structural : rules.isSemantic = false → governed = [] ∧ named = []

end ScopingRules

/-- Whether a graph knows a name: it is in the index, and a node of that name is found under it. -/
def SemanticGraph.HasNode (graph : SemanticGraph) (id : NodeId) : Prop :=
  (graph.index.get? id).isSome ∧ ∃ n, graph.node? id = some n ∧ n.id = id

/-- What is meant by the edges of a graph of a tree being well formed. -/
structure SemanticGraph.EdgesWellFormed (rules : ScopingRules) (root : Node) (graph : SemanticGraph) :
    Prop where
  listed : ∃ contained governed named, rules.ListedAs root graph.edges contained governed named
  hasNodes : ∀ e ∈ graph.edges, graph.HasNode e.source ∧ graph.HasNode e.target
  grounded : ∀ e ∈ graph.edges, rules.Grounded root e

variable {root n : Node} {b : Binding}

theorem ScopingRules.Grounded.endpoints {rules : ScopingRules} {e : Edge}
    (h : rules.Grounded root e) :
    (∃ s ∈ root.walk, s.id = e.source) ∧ ∃ t ∈ root.walk, t.id = e.target := by
  cases h with
  | contains hn hc => exact ⟨⟨_, hn, rfl⟩, _, Node.mem_walk_child hn hc, rfl⟩
  | controlFlow hn _ _ hchild => exact ⟨⟨_, hn, rfl⟩, _, Node.mem_walk_child hn hchild, rfl⟩
  | calls hcall _ _ hchild hf => exact ⟨⟨_, Node.mem_walk_child hcall hchild, rfl⟩, _, hf, rfl⟩
  | callsImport hcall _ _ hchild _ _ hmem =>
    exact ⟨⟨_, Node.mem_walk_child hcall hchild, rfl⟩, _, hmem, rfl⟩
  | references huse _ _ _ hmem => exact ⟨⟨_, huse, rfl⟩, _, hmem, rfl⟩

/-! ### Imports lie in the tree -/

theorem Node.mem_walk_childOfKind {kind : String} {c : Node} (hn : n ∈ root.walk)
    (hc : n.childOfKind? kind = some c) : c ∈ root.walk :=
  mem_walk_child hn (List.mem_of_find?_eq_some hc)

theorem Node.mem_walk_childOfKinds {kinds : List String} {c : Node} (hn : n ∈ root.walk)
    (hc : n.childOfKinds? kinds = some c) : c ∈ root.walk :=
  mem_walk_child hn (List.mem_of_find?_eq_some hc)

/-- The last identifier among the children of a node lies where its children lie. -/
theorem Node.mem_walk_lastIdentifier (hn : n ∈ root.walk)
    (hb : (n.children.reverse.find? (·.kind == "identifier")).map Binding.of = some b) :
    b.node ∈ root.walk := by
  obtain ⟨c, hc, rfl⟩ := Option.map_eq_some_iff.mp hb
  exact mem_walk_child hn (List.mem_reverse.mp (List.mem_of_find?_eq_some hc))

theorem Python.mem_walk_importName? (hn : n ∈ root.walk) (hb : importName? n = some b) :
    b.node ∈ root.walk := by
  unfold importName? at hb
  split at hb
  · obtain rfl := Option.some.inj hb
    exact hn
  split at hb
  · exact Node.mem_walk_lastIdentifier hn hb
  · cases hb

theorem EcmaScript.mem_walk_clauseNames (hn : n ∈ root.walk) (hb : b ∈ clauseNames n) :
    b.node ∈ root.walk := by
  unfold clauseNames at hb
  split at hb
  · rw [List.mem_singleton.mp hb]
    exact hn
  split at hb
  · rw [Option.mem_toList] at hb
    obtain ⟨c, hc, rfl⟩ := Option.map_eq_some_iff.mp hb
    exact Node.mem_walk_childOfKind hn hc
  split at hb
  · obtain ⟨spec, hspec, hb⟩ := List.mem_filterMap.mp hb
    exact Node.mem_walk_lastIdentifier (Node.mem_walk_child hn (List.mem_filter.mp hspec).1) hb
  · exact absurd hb List.not_mem_nil

theorem Go.mem_walk_importName? (hn : n ∈ root.walk) (hb : importName? n = some b) :
    b.node ∈ root.walk := by
  unfold importName? at hb
  split at hb
  · next given hgiven =>
    obtain rfl := Option.some.inj hb
    exact Node.mem_walk_childOfKind hn hgiven
  · obtain ⟨path, hpath, rfl⟩ := Option.map_eq_some_iff.mp hb
    exact Node.mem_walk_childOfKinds hn hpath

/-- Names are imported by import statements alone. -/
theorem Python.eq_of_definition_imports {bs : List Binding}
    (h : definition n = some (.imports bs)) : bs = n.children.filterMap importName? := by
  unfold definition at h
  split_ifs at h <;> simp_all

theorem EcmaScript.eq_of_definition_imports {bs : List Binding}
    (h : definition n = some (.imports bs)) : bs = importNames n := by
  unfold definition at h
  split_ifs at h <;> simp_all

theorem Go.eq_of_definition_imports {bs : List Binding}
    (h : definition n = some (.imports bs)) : bs = (importName? n).toList := by
  unfold definition at h
  split_ifs at h <;> simp_all

namespace ScopingRules

variable {rules : ScopingRules}

theorem exists_of_mem_importsOf (hb : b ∈ rules.importsOf n) :
    ∃ bs, rules.definition n = some (.imports bs) ∧ b ∈ bs := by
  rw [importsOf] at hb
  cases hdef : rules.definition n with
  | none => rw [hdef] at hb; exact absurd hb List.not_mem_nil
  | some d =>
    rw [hdef] at hb
    cases d with
    | imports bs => exact ⟨bs, rfl, hb⟩
    | function _ _ => exact absurd hb List.not_mem_nil
    | classLike _ => exact absurd hb List.not_mem_nil
    | binds _ => exact absurd hb List.not_mem_nil

theorem mem_walk_importsOf (hrules : rules ∈ builtIn) (hn : n ∈ root.walk)
    (hb : b ∈ rules.importsOf n) : b.node ∈ root.walk := by
  obtain ⟨bs, hdef, hmem⟩ := exists_of_mem_importsOf hb
  rcases mem_builtIn.mp hrules with rfl | rfl | rfl | rfl
  · rw [Python.eq_of_definition_imports hdef] at hmem
    obtain ⟨c, hc, hname⟩ := List.mem_filterMap.mp hmem
    exact Python.mem_walk_importName? (Node.mem_walk_child hn hc) hname
  · rw [EcmaScript.eq_of_definition_imports hdef, EcmaScript.importNames] at hmem
    split at hmem
    · exact absurd hmem List.not_mem_nil
    · next clause hclause =>
      obtain ⟨c, hc, hname⟩ := List.mem_flatMap.mp hmem
      have hclause := Node.mem_walk_childOfKind hn hclause
      exact EcmaScript.mem_walk_clauseNames (Node.mem_walk_child hclause hc) hname
  · rw [Go.eq_of_definition_imports hdef] at hmem
    exact Go.mem_walk_importName? hn (Option.mem_toList.mp hmem)
  · cases hdef

/-! ### What the tables lead to -/

theorem mem_children_of_controlBody (hrules : rules ∈ builtIn) {body : Node}
    (hbody : rules.controlBody n = some body) : body ∈ n.children := by
  rcases mem_builtIn.mp hrules with rfl | rfl | rfl | rfl
  · exact List.mem_of_find?_eq_some hbody
  · exact List.mem_of_find?_eq_some hbody
  · exact List.mem_of_find?_eq_some hbody
  · cases hbody

theorem mem_children_of_callee (hrules : rules ∈ builtIn) {callee : Node}
    (hcallee : rules.callee n = some callee) : callee ∈ n.children := by
  rcases mem_builtIn.mp hrules with rfl | rfl | rfl | rfl
  · exact List.mem_of_find?_eq_some hcallee
  · exact List.mem_of_find?_eq_some hcallee
  · exact List.mem_of_find?_eq_some hcallee
  · cases hcallee

theorem mem_of_lastFunction? {name : String} (h : rules.lastFunction? root name = some n) :
    n ∈ root.walk ∧ rules.functionNameOf? n = some name := by
  have hmem := List.mem_filter.mp (List.mem_of_getLast? h)
  exact ⟨hmem.1, of_decide_eq_true hmem.2⟩

theorem mem_of_lastImport? {name : String} (h : rules.lastImport? root name = some b) :
    (∃ n ∈ root.walk, b ∈ rules.importsOf n) ∧ b.name = name := by
  have hmem := List.mem_filter.mp (List.mem_of_getLast? h)
  exact ⟨List.mem_flatMap.mp hmem.1, of_decide_eq_true hmem.2⟩

/-- A variable of the finished table is bound by a node of the tree. -/
theorem exists_of_lookupLocal {name : String} {scope : Scope} {id : NodeId}
    (h : (rules.tableOf root).lookupLocal scope name = some id) :
    ∃ p ∈ root.places, ∃ b ∈ rules.variablesOf p.node, b.name = name ∧ b.node.id = id := by
  rw [lookupLocal_tableOf] at h
  obtain ⟨p, hp, hid⟩ := List.mem_flatMap.mp (List.mem_of_getLast? h)
  obtain ⟨b, hb, rfl⟩ := List.mem_map.mp hid
  obtain ⟨hb, hname⟩ := List.mem_filter.mp hb
  exact ⟨p, (List.mem_filter.mp hp).1, b, hb, of_decide_eq_true hname, rfl⟩

/-! ### The edges of resolution are grounded -/

theorem grounded_of_mem_controlEdges (hrules : rules ∈ builtIn) {e : Edge}
    (he : e ∈ rules.controlEdges root) : rules.Grounded root e := by
  obtain ⟨n, hn, he⟩ := List.mem_filterMap.mp he
  rw [controlEdge?] at he
  split at he
  · next hkind =>
    obtain ⟨body, hbody, rfl⟩ := Option.map_eq_some_iff.mp he
    exact .controlFlow hn hkind hbody (mem_children_of_controlBody hrules hbody)
  · cases he

theorem grounded_of_mem_callEdges (hrules : rules ∈ builtIn) {callee : Node} (hn : n ∈ root.walk)
    (hkind : rules.isCall n.kind = true) (hcallee : rules.callee n = some callee) {e : Edge}
    (he : e ∈ (rules.tableOf root).callEdges callee) : rules.Grounded root e := by
  have hchild := mem_children_of_callee hrules hcallee
  rw [callEdges_tableOf, calleeEdges, List.mem_append, Option.mem_toList, Option.mem_toList] at he
  rcases he with he | he
  · obtain ⟨f, hf, rfl⟩ := Option.map_eq_some_iff.mp he
    obtain ⟨hmem, hname⟩ := mem_of_lastFunction? hf
    exact .calls hn hkind hcallee hchild hmem hname
  · obtain ⟨b, hb, rfl⟩ := Option.map_eq_some_iff.mp he
    obtain ⟨⟨m, hm, hb⟩, hname⟩ := mem_of_lastImport? hb
    exact .callsImport hn hkind hcallee hchild hm hb (mem_walk_importsOf hrules hm hb) hname

theorem grounded_of_mem_referenceEdges (hrules : rules ∈ builtIn) {scope : Scope}
    (hn : n ∈ root.walk) (hkind : rules.isReference n.kind = true) {e : Edge}
    (he : e ∈ (rules.tableOf root).referenceEdges scope n) : rules.Grounded root e := by
  rw [ScopeTable.referenceEdges] at he
  split at he
  · exact absurd he List.not_mem_nil
  split at he
  · exact absurd he List.not_mem_nil
  · next id hfound hne =>
    obtain rfl := List.mem_singleton.mp he
    obtain ⟨_, hlookup⟩ := ScopeTable.exists_lookupLocal_of_findWithin hfound
    obtain ⟨p, hp, b, hb, hname, rfl⟩ := exists_of_lookupLocal hlookup
    have hbound := boundIn_variablesOf hrules hp hb
    obtain ⟨above, hmem, -⟩ := hbound.liesIn
    have hp : p.node ∈ root.walk := Node.mem_walk_iff.mpr ⟨p.above, hp⟩
    exact .references hn hkind hp hb (Node.mem_walk_iff.mpr ⟨above, hmem⟩)
      (hbound.name_eq.symm.trans hname) hne

/-- What a place emits is grounded, whatever scope and parent it is looked at from. -/
theorem grounded_of_mem_ownLinks (hrules : rules ∈ builtIn) {parent : Option Node} {scope : Scope}
    (hn : n ∈ root.walk) {e : Edge} (he : e ∈ rules.ownLinks (rules.tableOf root) parent scope n) :
    rules.Grounded root e := by
  rw [ownLinks] at he
  split at he
  · next hkind =>
    split at he
    · exact absurd he List.not_mem_nil
    · next callee hcallee => exact grounded_of_mem_callEdges hrules hn hkind hcallee he
  split at he
  · next hkind =>
    split at he
    · exact absurd he List.not_mem_nil
    · exact grounded_of_mem_referenceEdges hrules hn hkind he
  · exact absurd he List.not_mem_nil

/-! ### The order of the edges -/

/-- An edge leaves the node that emits it, or the callee of the call that does. -/
theorem origin_of_mem_ownLinks {table : ScopeTable} {parent : Option Node} {scope : Scope} {e : Edge}
    (he : e ∈ rules.ownLinks table parent scope n) :
    e.origin = (n.id, .references) ∨
      ∃ callee, rules.callee n = some callee ∧
        (e.origin = (callee.id, .calls) ∨ e.origin = (callee.id, .callsImport)) := by
  rw [ownLinks] at he
  split at he
  · split at he
    · exact absurd he List.not_mem_nil
    · next callee hcallee =>
      rw [ScopeTable.callEdges, List.mem_append, Option.mem_toList, Option.mem_toList] at he
      refine .inr ⟨callee, hcallee, ?_⟩
      rcases he with he | he
      · obtain ⟨_, _, rfl⟩ := Option.map_eq_some_iff.mp he
        exact .inl rfl
      · obtain ⟨_, _, rfl⟩ := Option.map_eq_some_iff.mp he
        exact .inr rfl
  split at he
  · split at he
    · exact absurd he List.not_mem_nil
    rw [ScopeTable.referenceEdges] at he
    split at he
    · exact absurd he List.not_mem_nil
    split at he
    · exact absurd he List.not_mem_nil
    · rw [List.mem_singleton.mp he]
      exact .inl rfl
  · exact absurd he List.not_mem_nil

theorem byName_of_mem_ownLinks {table : ScopeTable} {parent : Option Node} {scope : Scope} {e : Edge}
    (he : e ∈ rules.ownLinks table parent scope n) : ByName e := by
  rcases origin_of_mem_ownLinks he with h | ⟨_, -, h | h⟩
  · exact .inr (.inr (congrArg Prod.snd h))
  · exact .inl (congrArg Prod.snd h)
  · exact .inr (.inl (congrArg Prod.snd h))

theorem map_source_controlEdges (rules : ScopingRules) (root : Node) :
    (rules.controlEdges root).map (·.source) = (root.walk.filter rules.governs).map Node.id := by
  rw [controlEdges]
  induction root.walk with
  | nil => rfl
  | cons n ns ih =>
    rw [List.filterMap_cons, List.filter_cons, governs, controlEdge?]
    cases hkind : rules.isControlFlow n.kind with
    | false => exact ih
    | true =>
      cases hbody : rules.controlBody n with
      | none => exact ih
      | some body => exact congrArg (n.id :: ·) ih

/-- Rules that find nothing but structure know no control flow. -/
theorem governs_of_not_isSemantic (hrules : rules ∈ builtIn) (hsem : rules.isSemantic = false)
    (n : Node) : rules.governs n = false := by
  rcases mem_builtIn.mp hrules with rfl | rfl | rfl | rfl
  · cases hsem
  · cases hsem
  · cases hsem
  · rfl

theorem grounded_of_mem_containment {e : Edge} (he : e ∈ root.containment) :
    rules.Grounded root e := by
  obtain ⟨n, hn, c, hc, rfl⟩ := (Node.mem_containment_iff root).mp he
  exact .contains hn hc

theorem grounded_of_mem_resolve (hrules : rules ∈ builtIn) {e : Edge}
    (he : e ∈ (rules.resolve root).edges) : rules.Grounded root e := by
  rcases rules.mem_edges_resolve he with he | ⟨p, hp, he⟩
  · exact grounded_of_mem_controlEdges hrules he
  · exact grounded_of_mem_ownLinks hrules (Node.mem_walk_iff.mpr ⟨p.above, hp⟩) he

theorem exists_listedAs (hrules : rules ∈ builtIn) (root : Node) (language : Language) :
    ∃ contained governed named,
      rules.ListedAs root (SemanticGraph.build root language rules).edges contained governed named := by
  have hkind : ∀ e ∈ root.containment, e.kind = .contains := fun _ => Node.kind_of_mem_containment
  have hedges : (SemanticGraph.build root language rules).edges =
      root.containment ++ (rules.resolve root).edges := rfl
  cases hsem : rules.isSemantic with
  | false =>
    refine ⟨root.containment, [], [], ?_⟩
    exact
      { edges_eq := by rw [hedges, resolve, hsem]; simp
        contained_kind := hkind
        contained_targets := root.map_target_containment
        contained_length := root.length_containment
        governed_kind := fun _ he => absurd he List.not_mem_nil
        governed_sources := by
          have hnone := List.filter_eq_nil_iff.mpr fun n (_ : n ∈ root.walk) =>
            Bool.eq_false_iff.mp (governs_of_not_isSemantic hrules hsem n)
          rw [hnone]
          rfl
        named_kind := fun _ he => absurd he List.not_mem_nil
        structural := fun _ => ⟨rfl, rfl⟩ }
  | true =>
    refine ⟨root.containment, rules.controlEdges root,
      root.places.flatMap (rules.linksAt (rules.tableOf root)), ?_⟩
    exact
      { edges_eq := by rw [hedges, rules.edges_resolve hsem, List.append_assoc]
        contained_kind := hkind
        contained_targets := root.map_target_containment
        contained_length := root.length_containment
        governed_kind := fun _ he => rules.kind_of_mem_controlEdges he
        governed_sources := rules.map_source_controlEdges root
        named_kind := fun e he => by
          obtain ⟨p, -, he⟩ := List.mem_flatMap.mp he
          exact byName_of_mem_ownLinks he
        structural := fun h => absurd (hsem.symm.trans h) Bool.true_eq_false.mp }

/-- **Every edge of a graph is well formed.** Whatever the tree, also where nodes share names: the edges are listed
kind by kind, both ends of each are nodes of the graph, and each has its reason in the tree. -/
theorem build_edgesWellFormed (hrules : rules ∈ builtIn) (root : Node) (language : Language) :
    (SemanticGraph.build root language rules).EdgesWellFormed rules root := by
  have hgrounded : ∀ e ∈ (SemanticGraph.build root language rules).edges,
      rules.Grounded root e := by
    intro e he
    rcases List.mem_append.mp he with he | he
    · exact grounded_of_mem_containment he
    · exact grounded_of_mem_resolve hrules he
  refine ⟨exists_listedAs hrules root language, fun e he => ?_, hgrounded⟩
  have hhas : ∀ {n : Node}, n ∈ root.walk →
      (SemanticGraph.build root language rules).HasNode n.id := fun hn =>
    ⟨isSome_get?_index_extract hn, SemanticGraph.exists_node?_build language rules hn⟩
  obtain ⟨⟨s, hs, hsource⟩, t, ht, htarget⟩ := (hgrounded e he).endpoints
  exact ⟨hsource ▸ hhas hs, htarget ▸ hhas ht⟩

open Node (token around)

/-- The Python source `import f; def f(a): a; if f(): f`, less what has no part in any edge but `contains`. -/
def edgesOfAllKinds : Node :=
  around "module" 0 34
    [around "import_statement" 0 8 [token "import" 0 "import", token "dotted_name" 7 "f"],
      around "function_definition" 10 21
        [token "identifier" 14 "f", around "parameters" 15 18 [token "identifier" 16 "a"],
          around "block" 20 21 [token "identifier" 20 "a"]],
      around "if_statement" 23 32
        [around "call" 26 29 [token "identifier" 26 "f"],
          around "block" 31 32 [token "identifier" 31 "f"]]]

/-- Its edges other than `contains`, in their order. -/
def edgesBeyondContainment : List Edge :=
  [⟨⟨"if_statement_23_32"⟩, ⟨"block_31_32"⟩, .controlFlow⟩,
    ⟨⟨"identifier_20_21"⟩, ⟨"identifier_16_17"⟩, .references⟩,
    ⟨⟨"identifier_26_27"⟩, ⟨"function_definition_10_21"⟩, .calls⟩,
    ⟨⟨"identifier_26_27"⟩, ⟨"dotted_name_7_8"⟩, .callsImport⟩]

theorem build_edgesWellFormed_allKinds :
    Python.rules ∈ builtIn ∧
      (SemanticGraph.build edgesOfAllKinds .python Python.rules).EdgesWellFormed Python.rules
        edgesOfAllKinds ∧
      (SemanticGraph.build edgesOfAllKinds .python Python.rules).edges =
        edgesOfAllKinds.containment ++ edgesBeyondContainment := by
  have hrules : Python.rules ∈ builtIn := List.mem_cons_self
  exact ⟨hrules, build_edgesWellFormed hrules edgesOfAllKinds .python, by decide⟩

end ScopingRules

end CodeGraph
