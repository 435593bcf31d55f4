import CodeGraph.Proofs.Scope.Answers
import CodeGraph.Proofs.Scope.Passes
import CodeGraph.Scoping.Python

/-!
# Resolution is lexical scoping

What a name means at a place is said without any table: of the scopes around the place, innermost first,
the first that binds the name anywhere in the tree, and in it the binding that comes last. As long as no
two nodes that open scopes share a name, the reference edges of resolution are exactly those from the uses
to their meanings, in pre-order.
-/

namespace CodeGraph

namespace ScopingRules

variable (rules : ScopingRules)

/-! ### Meanings without a table -/

/-- The bindings of a name in a scope, wherever in the tree they are made: in pre-order of the nodes
that make them, and then in the order of their definition. -/
def bindingsOf (root : Node) (name : String) (scope : Scope) : List NodeId :=
  (root.places.filter fun p => rules.innermost p.path = scope).flatMap fun p =>
    ((rules.variablesOf p.node).filter fun b => b.name = name).map fun b => b.node.id

/-- What a name means at the end of a way down: the last binding in the first scope that has one. -/
def meaning (root : Node) (path : List Node) (name : String) : Option NodeId :=
  (rules.scopesOn path).findSome? fun scope => (rules.bindingsOf root name scope).getLast?

/-- Whether a place is the use of a name: an identifier that is no call, and that its parent does not
define. -/
def isUse (p : Place) : Bool :=
  rules.isReference p.node.kind && !rules.isCall p.node.kind &&
    !(p.parent?.any fun parent => rules.isDefinitionSite parent p.node)

/-- The edge from a use to what its name means; none leads from a node to itself. -/
def lexicalEdge? (root : Node) (p : Place) : Option Edge :=
  match rules.meaning root p.path p.node.text with
  | none => none
  | some target => if target = p.node.id then none else some ⟨p.node.id, target, .references⟩

/-- The edges from the uses of a tree to what their names mean, in pre-order. -/
def lexicalEdges (root : Node) : List Edge :=
  (root.places.filter rules.isUse).filterMap (rules.lexicalEdge? root)

/-- The names of the nodes that open scopes, in pre-order. -/
def scopeIds (root : Node) : List NodeId := (root.walk.filter rules.opensScope).map Node.id

/-! ### The table of the first pass -/

variable {rules}

theorem map_fst_filterMap_enteredAt (ps : List Place) :
    (ps.filterMap rules.enteredAt).map (·.1) =
      ((ps.map Place.node).filter rules.opensScope).map Node.id := by
  induction ps with
  | nil => rfl
  | cons p ps ih =>
    by_cases hp : rules.opensScope p.node = true
    · simp [enteredAt, hp, ih]
    · simp [enteredAt, hp, ih]

theorem lookupLocal_tableOf (root : Node) (scope : Scope) (name : String) :
    (rules.tableOf root).lookupLocal scope name = (rules.bindingsOf root name scope).getLast? := by
  have hsteps : (rules.declare .global root).filterMap ScopeStep.bound? =
      root.places.flatMap rules.boundAt := rules.filterMap_bound?_declare [] root
  rw [tableOf, ScopeTable.lookupLocal_ofSteps, hsteps, bindingsOf]
  congr 1
  induction root.places with
  | nil => rfl
  | cons p ps ih =>
    rw [List.flatMap_cons, List.filter_append, List.map_append, ih]
    by_cases hp : rules.innermost p.path = scope
    · simp [boundAt, hp, List.filter_map, Function.comp_def]
    · simp [boundAt, hp, List.filter_map, Function.comp_def]

theorem scopeIds_eq_map_entered (rules : ScopingRules) (root : Node) :
    rules.scopeIds root =
      ((rules.declare .global root).filterMap ScopeStep.entered?).map (·.1) := by
  have hsteps : (rules.declare .global root).filterMap ScopeStep.entered? =
      root.places.filterMap rules.enteredAt := rules.filterMap_entered?_declare [] root
  rw [hsteps, map_fst_filterMap_enteredAt, Node.map_node_places, scopeIds]

/-- Where no two scopes share a name, a scope lies in the scope around its place. -/
theorem parent?_tableOf {root : Node} (hnd : (rules.scopeIds root).Nodup) {n : Node}
    {above : List Node} (hmem : ⟨n, above⟩ ∈ root.places) (hn : rules.opensScope n = true) :
    (rules.tableOf root).parent? (.node n.id) = some (rules.innermost above) := by
  have hsteps : (rules.declare .global root).filterMap ScopeStep.entered? =
      root.places.filterMap rules.enteredAt := rules.filterMap_entered?_declare [] root
  refine ScopeTable.parent?_ofSteps ?_ ?_
  · rw [← scopeIds_eq_map_entered]
    exact hnd
  · rw [hsteps]
    exact List.mem_filterMap.mpr ⟨⟨n, above⟩, hmem, by simp [enteredAt, hn]⟩

/-! ### Looking names up -/

/-- As long as a table has the scopes nested as a way down has them, the way out of the innermost one visits the scopes
around the end of the way down. -/
theorem chainFrom_innermost {table : ScopeTable} (path : List Node)
    (hparent : ∀ n rest, (n :: rest) <:+ path → rules.opensScope n = true →
      table.parent? (.node n.id) = some (rules.innermost rest)) :
    table.ChainFrom (rules.innermost path) (rules.scopesOn path) := by
  induction path with
  | nil => exact .last rfl
  | cons n path ih =>
    have hpath := ih fun m rest hs => hparent m rest (hs.trans (List.suffix_cons n path))
    -- a step outwards is taken only at a node that opens a scope
    by_cases hn : rules.opensScope n = true
    · rw [innermost_cons_of_opens hn, scopesOn_cons_of_opens hn]
      exact .outward (hparent n path List.suffix_rfl hn) hpath
    · rw [innermost_cons_of_not_opens hn, scopesOn_cons_of_not_opens hn]
      exact hpath

theorem chainFrom_tableOf {root : Node} (hnd : (rules.scopeIds root).Nodup) {p : Place}
    (hp : p ∈ root.places) :
    (rules.tableOf root).ChainFrom (rules.innermost p.path) (rules.scopesOn p.path) :=
  chainFrom_innermost p.path fun _ _ hs hn => parent?_tableOf hnd (Node.mem_places_of_suffix hp hs) hn

/-- A look-up in the finished table finds the meaning of a name. -/
theorem findVariable_tableOf {root : Node} (hnd : (rules.scopeIds root).Nodup) {p : Place}
    (hp : p ∈ root.places) (name : String) :
    (rules.tableOf root).findVariable name (rules.innermost p.path) =
      rules.meaning root p.path name := by
  have hchain := (chainFrom_tableOf hnd hp).scopeChain_eq
  rw [ScopeTable.findVariable, ScopeTable.findWithin_eq_findSome?, ← ScopeTable.scopeChain, hchain, meaning]
  simp only [lookupLocal_tableOf]

/-! ### The edges of the second pass -/

theorem filter_references_callEdges (table : ScopeTable) (callee : Node) :
    (table.callEdges callee).filter (·.kind = .references) = [] := by
  cases hf : table.findFunction callee.text <;> cases hi : table.findImport callee.text <;>
    simp [ScopeTable.callEdges, hf, hi]

theorem filter_references_controlEdges (root : Node) :
    (rules.controlEdges root).filter (·.kind = .references) = [] := by
  refine List.filter_eq_nil_iff.mpr fun e he => ?_
  simp [rules.kind_of_mem_controlEdges he]

theorem isDefining_parent? (p : Place) :
    rules.isDefining p.parent? p.node =
      p.parent?.any fun parent => rules.isDefinitionSite parent p.node := by
  cases p.parent? <;> rfl

/-- The reference edge that a place emits is the one to the meaning of its name. -/
theorem filter_references_linksAt {root : Node} (hnd : (rules.scopeIds root).Nodup) {p : Place}
    (hp : p ∈ root.places) :
    (rules.linksAt (rules.tableOf root) p).filter (·.kind = .references) =
      if rules.isUse p then (rules.lexicalEdge? root p).toList else [] := by
  rw [linksAt, ownLinks, isUse, isDefining_parent?]
  by_cases hcall : rules.isCall p.node.kind = true
  · rw [if_pos hcall]
    cases rules.callee p.node with
    | none => simp [hcall]
    | some callee => simp [hcall, filter_references_callEdges]
  · by_cases href : rules.isReference p.node.kind = true
    · rw [if_neg hcall, if_pos href]
      by_cases hdef : (p.parent?.any fun parent => rules.isDefinitionSite parent p.node) = true
      · simp [hdef]
      · rw [if_neg hdef, ScopeTable.referenceEdges, findVariable_tableOf hnd hp, lexicalEdge?]
        cases rules.meaning root p.path p.node.text with
        | none => simp
        | some target => by_cases ht : target = p.node.id <;> simp [ht, href, hcall, hdef]
    · simp [hcall, href]

/-- **Reference resolution is lexical scoping.** Where no two scopes share a name, the reference edges
are, in order, those from each use to what its name means; the meaning does not ask whether the binding
comes before the use. -/
theorem references_resolve_eq_lexicalEdges (hsem : rules.isSemantic = true) {root : Node}
    (hnd : (rules.scopeIds root).Nodup) :
    (rules.resolve root).edges.filter (·.kind = .references) = rules.lexicalEdges root := by
  have hlinks : rules.links (rules.tableOf root) none .global root =
      root.places.flatMap (rules.linksAt (rules.tableOf root)) :=
    rules.links_eq_flatMap (rules.tableOf root) [] root
  -- for every part of the places, since a place is looked up in the table of the whole tree
  have hemit : ∀ ps : List Place, (∀ p ∈ ps, p ∈ root.places) →
      (ps.flatMap (rules.linksAt (rules.tableOf root))).filter (·.kind = .references) =
        (ps.filter rules.isUse).filterMap (rules.lexicalEdge? root) := by
    intro ps hps
    induction ps with
    | nil => rfl
    | cons p ps ih =>
      rw [List.flatMap_cons, List.filter_append, filter_references_linksAt hnd (hps p (by simp)),
        ih fun q hq => hps q (by simp [hq])]
      by_cases hp : rules.isUse p = true
      · rw [if_pos hp, List.filter_cons_of_pos hp, List.filterMap_cons]
        cases rules.lexicalEdge? root p <;> rfl
      · rw [if_neg hp, List.filter_cons_of_neg hp, List.nil_append]
  rw [resolve, if_pos hsem]
  show (rules.controlEdges root ++ rules.links (rules.tableOf root) none .global root).filter _ = _
  rw [List.filter_append, filter_references_controlEdges, List.nil_append, hlinks,
    hemit root.places fun p hp => hp, lexicalEdges]

/-- A module that binds `x`, uses it in a function `f`, binds it anew in a function `g` after a use there,
and binds it once more at its end. -/
def shadowingTree : Node :=
  let leaf (kind : String) (start : Nat) (text : String) : Node :=
    ⟨kind, ⟨start, start + text.length, ⟨0, start⟩, ⟨0, start + text.length⟩⟩, text, []⟩
  let inner (kind : String) (start stop : Nat) (children : List Node) : Node :=
    ⟨kind, ⟨start, stop, ⟨0, start⟩, ⟨0, stop⟩⟩, "", children⟩
  inner "module" 0 70
    [inner "assignment" 0 5 [leaf "identifier" 0 "x", leaf "=" 2 "=", leaf "integer" 4 "1"],
      inner "function_definition" 10 30
        [leaf "identifier" 14 "f", inner "block" 20 30 [leaf "identifier" 28 "x"]],
      inner "function_definition" 35 60
        [leaf "identifier" 39 "g",
          inner "block" 44 60
            [leaf "identifier" 44 "x",
              inner "assignment" 50 55 [leaf "identifier" 50 "x", leaf "=" 52 "=", leaf "integer" 54 "2"]]],
      inner "assignment" 65 70 [leaf "identifier" 65 "x", leaf "=" 67 "=", leaf "integer" 69 "3"]]

theorem references_resolve_shadowingTree :
    Python.rules.isSemantic = true ∧ (Python.rules.scopeIds shadowingTree).Nodup ∧
      (Python.rules.resolve shadowingTree).edges.filter (·.kind = .references) =
        Python.rules.lexicalEdges shadowingTree ∧
      Python.rules.lexicalEdges shadowingTree =
        [⟨⟨"identifier_0_1"⟩, ⟨"identifier_65_66"⟩, .references⟩,
          ⟨⟨"identifier_28_29"⟩, ⟨"identifier_65_66"⟩, .references⟩,
          ⟨⟨"identifier_44_45"⟩, ⟨"identifier_50_51"⟩, .references⟩] := by
  have hsem : Python.rules.isSemantic = true := rfl
  have hnd : (Python.rules.scopeIds shadowingTree).Nodup := by decide
  exact ⟨hsem, hnd, references_resolve_eq_lexicalEdges hsem hnd, by decide⟩

end ScopingRules

end CodeGraph
