import CodeGraph.Proofs.Scope.Lexical
import CodeGraph.Proofs.Scope.WayOut
import CodeGraph.Scoping.RuleBook

/-!
# Scopes lie in the global scope

The table knows a scope by the name of the node that opens it, and the last node of a name says which scope it
lies in. Where two scopes of one name lie side by side the way out may pass from one to the other, and yet it
ends: it goes up to an enclosing scope, or on to one that comes later in the source. Only a scope that lies
inside a scope of its own name can close the way out to a circle.
-/

namespace CodeGraph

namespace ScopingRules

variable (rules : ScopingRules)

/-- No node that opens a scope lies below another one of the same name. -/
def NoScopeInItself (root : Node) : Prop :=
  ∀ n ∈ root.walk, rules.opensScope n = true →
    ∀ m ∈ Node.walkAll n.children, rules.opensScope m = true → m.id ≠ n.id

instance (root : Node) : Decidable (rules.NoScopeInItself root) :=
  inferInstanceAs (Decidable (∀ n ∈ root.walk, rules.opensScope n = true →
    ∀ m ∈ Node.walkAll n.children, rules.opensScope m = true → m.id ≠ n.id))

/-- The scopes that are entered at some places. -/
def enteredIn (ps : List Place) : List (NodeId × Scope) := ps.filterMap rules.enteredAt

variable {rules} {t : ScopeTable}

theorem enteredIn_append (ps qs : List Place) :
    rules.enteredIn (ps ++ qs) = rules.enteredIn ps ++ rules.enteredIn qs := List.filterMap_append

theorem enteredIn_cons_of_opens {p : Place} (h : rules.opensScope p.node = true) (ps : List Place) :
    rules.enteredIn (p :: ps) = (p.node.id, rules.innermost p.above) :: rules.enteredIn ps :=
  List.filterMap_cons_some (by rw [enteredAt, if_pos h])

theorem enteredIn_cons_of_not_opens {p : Place} (h : ¬ rules.opensScope p.node = true)
    (ps : List Place) : rules.enteredIn (p :: ps) = rules.enteredIn ps :=
  List.filterMap_cons_none (by rw [enteredAt, if_neg h])

theorem exists_node_of_mem_enteredIn {e : NodeId × Scope} {ps : List Place}
    (he : e ∈ rules.enteredIn ps) :
    ∃ n ∈ ps.map Place.node, rules.opensScope n = true ∧ n.id = e.1 := by
  have hid : e.1 ∈ (rules.enteredIn ps).map (·.1) := List.mem_map_of_mem he
  rw [enteredIn, map_fst_filterMap_enteredAt] at hid
  obtain ⟨n, hn, heq⟩ := List.mem_map.mp hid
  exact ⟨n, List.mem_filter.mp hn |>.1, List.mem_filter.mp hn |>.2, heq⟩

/-! ### The last scope of a name -/

theorem parent?_eq_getLast? {entered : List (NodeId × Scope)}
    (ht : t.parents.entries = entered.reverse) (id : NodeId) :
    t.parent? (.node id) = ((entered.filter (·.1 = id)).map (·.2)).getLast? := by
  show Writes.newest? id t.parents.entries = _
  rw [ht, Writes.newest?_reverse]

/-- A scope that is not entered again lies where it was entered. -/
theorem parent?_of_last {before after : List (NodeId × Scope)} {id : NodeId} {outer : Scope}
    (ht : t.parents.entries = (before ++ (id, outer) :: after).reverse)
    (hafter : ∀ e ∈ after, e.1 ≠ id) : t.parent? (.node id) = some outer := by
  have hnone : after.filter (·.1 = id) = [] :=
    List.filter_eq_nil_iff.mpr fun e he => by simpa using hafter e he
  rw [parent?_eq_getLast? ht, List.filter_append, List.filter_cons_of_pos (by simp), hnone]
  simp

/-! ### Every scope of a tree -/

/-- Where the scope around a node ends in the global one, and so do all scopes entered behind the node, the
scope inside the node does so as well. -/
theorem reachesGlobal_innermost_cons {before after : List (NodeId × Scope)} {above : List Node}
    {n : Node} (ht : t.parents.entries =
      (before ++ rules.enteredIn (⟨n, above⟩ :: Node.placesUnderAll (n :: above) n.children) ++
        after).reverse)
    (hnest : rules.NoScopeInItself n) (houter : t.ReachesGlobal (rules.innermost above))
    (hafter : ∀ e ∈ after, t.ReachesGlobal (.node e.1)) :
    t.ReachesGlobal (rules.innermost (n :: above)) := by
  by_cases hn : rules.opensScope n = true
  swap
  · rwa [innermost_cons_of_not_opens hn]
  rw [innermost_cons_of_opens hn]
  by_cases hagain : ∃ e ∈ after, e.1 = n.id
  · obtain ⟨e, he, hid⟩ := hagain
    exact hid ▸ hafter e he
  · rw [enteredIn_cons_of_opens hn, List.append_assoc, List.cons_append] at ht
    refine .of_parent? (parent?_of_last ht fun e he => ?_) houter
    rcases List.mem_append.mp he with he | he
    · -- the scopes below the node have other names
      obtain ⟨m, hm, hopens, hid⟩ := exists_node_of_mem_enteredIn he
      rw [Node.map_node_placesUnderAll] at hm
      exact hid ▸ hnest n n.mem_walk_self hn m hm hopens
    · exact fun hid => hagain ⟨e, he, hid⟩

mutual

/-- The induction goes through the places from the last to the first, and down from a node to its children: the
scopes around a place and the scopes behind it are known to end when the place is reached. -/
theorem reachesGlobal_placesUnder {before after : List (NodeId × Scope)} {above : List Node} :
    ∀ n : Node, t.parents.entries =
        (before ++ rules.enteredIn (n.placesUnder above) ++ after).reverse →
      rules.NoScopeInItself n → t.ReachesGlobal (rules.innermost above) →
      (∀ e ∈ after, t.ReachesGlobal (.node e.1)) →
      ∀ e ∈ rules.enteredIn (n.placesUnder above), t.ReachesGlobal (.node e.1)
  | ⟨kind, span, text, children⟩, ht, hnest, houter, hafter => by
    rw [Node.placesUnder] at ht ⊢
    have hinner := reachesGlobal_innermost_cons ht hnest houter hafter
    have hnestAll : ∀ c ∈ children, rules.NoScopeInItself c := fun c hc n hn =>
      hnest n (Node.mem_walk_of_mem_children hc hn)
    by_cases hopens : rules.opensScope ⟨kind, span, text, children⟩ = true
    · rw [enteredIn_cons_of_opens hopens] at ht ⊢
      rw [List.append_cons] at ht
      have hchildren := reachesGlobal_placesUnderAll children ht hnestAll hinner hafter
      intro e he
      rcases List.mem_cons.mp he with rfl | he
      · rwa [innermost_cons_of_opens hopens] at hinner
      · exact hchildren e he
    · rw [enteredIn_cons_of_not_opens hopens] at ht ⊢
      exact reachesGlobal_placesUnderAll children ht hnestAll hinner hafter

theorem reachesGlobal_placesUnderAll {before after : List (NodeId × Scope)} {above : List Node} :
    ∀ ns : List Node, t.parents.entries =
        (before ++ rules.enteredIn (Node.placesUnderAll above ns) ++ after).reverse →
      (∀ n ∈ ns, rules.NoScopeInItself n) → t.ReachesGlobal (rules.innermost above) →
      (∀ e ∈ after, t.ReachesGlobal (.node e.1)) →
      ∀ e ∈ rules.enteredIn (Node.placesUnderAll above ns), t.ReachesGlobal (.node e.1)
  | [], _, _, _, _ => fun e he => absurd he List.not_mem_nil
  | n :: ns, ht, hnest, houter, hafter => by
    rw [Node.placesUnderAll, enteredIn_append] at ht ⊢
    rw [← List.append_assoc before] at ht
    have hns := reachesGlobal_placesUnderAll ns ht
      (fun m hm => hnest m (List.mem_cons_of_mem _ hm)) houter hafter
    have hbehind : ∀ e ∈ rules.enteredIn (Node.placesUnderAll above ns) ++ after,
        t.ReachesGlobal (.node e.1) := fun e he => (List.mem_append.mp he).elim (hns e) (hafter e)
    rw [List.append_assoc (before ++ _)] at ht
    have hn := reachesGlobal_placesUnder n ht (hnest n List.mem_cons_self) houter hbehind
    exact fun e he => (List.mem_append.mp he).elim (hn e) (hns e)

end

variable {root : Node}

theorem parents_tableOf (root : Node) :
    (rules.tableOf root).parents.entries = (rules.enteredIn root.places).reverse := by
  have hsteps : (rules.declare .global root).filterMap ScopeStep.entered? =
      rules.enteredIn root.places := rules.filterMap_entered?_declare [] root
  rw [← hsteps]
  exact ScopeTable.Group.nesting.entries_ofSteps _

theorem reachesGlobal_of_mem_enteredIn (hnest : rules.NoScopeInItself root) {e : NodeId × Scope}
    (he : e ∈ rules.enteredIn root.places) : (rules.tableOf root).ReachesGlobal (.node e.1) := by
  have hentries : (rules.tableOf root).parents.entries =
      ([] ++ rules.enteredIn (root.placesUnder []) ++ []).reverse := by
    rw [List.append_nil, List.nil_append]
    exact parents_tableOf root
  exact reachesGlobal_placesUnder root hentries hnest
    (innermost_nil rules ▸ ScopeTable.reachesGlobal_global _)
    (fun _ h => absurd h List.not_mem_nil) e he

theorem reachesGlobal_of_isSome_parent? (hnest : rules.NoScopeInItself root) {scope : Scope}
    (hscope : ((rules.tableOf root).parent? scope).isSome) :
    (rules.tableOf root).ReachesGlobal scope := by
  obtain ⟨outer, houter⟩ := Option.isSome_iff_exists.mp hscope
  cases scope with
  | global => cases houter
  | node id =>
    have hmem := ScopeTable.mem_entries_of_parent? houter
    rw [parents_tableOf, List.mem_reverse] at hmem
    exact reachesGlobal_of_mem_enteredIn hnest hmem

theorem reachesGlobal_of_opens (hnest : rules.NoScopeInItself root) {n : Node} {above : List Node}
    (hp : ⟨n, above⟩ ∈ root.places) (hn : rules.opensScope n = true) :
    (rules.tableOf root).ReachesGlobal (.node n.id) := by
  have hentered : rules.enteredAt ⟨n, above⟩ = some (n.id, rules.innermost above) := if_pos hn
  exact reachesGlobal_of_mem_enteredIn hnest (List.mem_filterMap.mpr ⟨_, hp, hentered⟩)

theorem reachesGlobal_innermost (hnest : rules.NoScopeInItself root) {n : Node} {above : List Node}
    (hp : ⟨n, above⟩ ∈ root.places) :
    (rules.tableOf root).ReachesGlobal (rules.innermost (n :: above)) := by
  induction above generalizing n with
  | nil =>
    by_cases hn : rules.opensScope n = true
    · exact innermost_cons_of_opens hn [] ▸ reachesGlobal_of_opens hnest hp hn
    · rw [innermost_cons_of_not_opens hn, innermost_nil]
      exact ScopeTable.reachesGlobal_global _
  | cons m rest ih =>
    by_cases hn : rules.opensScope n = true
    · exact innermost_cons_of_opens hn _ ▸ reachesGlobal_of_opens hnest hp hn
    · rw [innermost_cons_of_not_opens hn]
      exact ih (Node.mem_places_of_suffix hp (List.suffix_cons _ _))

/-- The structural rules open no scope. -/
theorem innermost_structural (path : List Node) : structural.innermost path = .global := by
  have hnone : path.filter structural.opensScope = [] :=
    List.filter_eq_nil_iff.mpr fun _ _ => Bool.false_ne_true
  rw [innermost, scopesOn, hnone]
  rfl

/-- **Scopes end in the global scope.** For the rules of every language, and for every tree in which no scope lies
inside a scope of its own name, the way out of every scope of the tree ends in the global scope: of those that
are known to the table, and of those around a place. So the table lists all of it, and every search for a
variable comes back with the answer of the table. -/
theorem scopes_end_in_global (hrules : rules ∈ builtIn) (hnest : rules.NoScopeInItself root)
    {scope : Scope} (hscope : ((rules.resolve root).scopes.parent? scope).isSome ∨
      ∃ p ∈ root.places, rules.innermost p.path = scope) :
    (rules.resolve root).scopes.ReachesGlobal scope ∧
      (∀ chain, (rules.resolve root).scopes.ChainFrom scope chain ↔
        (rules.resolve root).scopes.scopeChain scope = chain) ∧
      ∀ name found, (rules.resolve root).scopes.Search name scope found ↔
        (rules.resolve root).scopes.findVariable name scope = found := by
  have hreach : (rules.resolve root).scopes.ReachesGlobal scope := by
    cases hsem : rules.isSemantic with
    | true =>
      have htable : (rules.resolve root).scopes = rules.tableOf root := by rw [resolve, if_pos hsem]
      rw [htable] at hscope ⊢
      rcases hscope with hscope | ⟨p, hp, rfl⟩
      · exact reachesGlobal_of_isSome_parent? hnest hscope
      · exact reachesGlobal_innermost hnest hp
    | false =>
      rcases mem_builtIn.mp hrules with rfl | rfl | rfl | rfl
      · cases hsem
      · cases hsem
      · cases hsem
      · rcases hscope with hscope | ⟨p, -, rfl⟩
        · cases scope <;> cases hscope
        · exact innermost_structural p.path ▸ ScopeTable.reachesGlobal_global _
  refine ⟨hreach, fun chain => ⟨ScopeTable.ChainFrom.scopeChain_eq, ?_⟩, fun name found => ⟨?_, ?_⟩⟩
  · rintro rfl
    exact hreach.chainFrom_scopeChain
  · exact fun h => (hreach.search_findVariable name).unique h
  · rintro rfl
    exact hreach.search_findVariable name

open Node (token around)

/-- Two classes of one kind and range, side by side: a function lies in the first, and the second lies in a
loop. -/
def twinClasses : Node :=
  around "module" 0 60
    [around "class_definition" 0 20 [around "function_definition" 5 15 [token "identifier" 9 "f"]],
      around "for_statement" 30 60 [around "class_definition" 0 20 []]]

/-- The way out of the function goes through the loop, in which it does not lie. -/
theorem scopes_end_in_global_twinClasses :
    let table := (Python.rules.resolve twinClasses).scopes
    let scope := Scope.node ⟨"function_definition_5_15"⟩
    Python.rules.NoScopeInItself twinClasses ∧ (table.parent? scope).isSome ∧
      table.ReachesGlobal scope ∧
      table.ChainFrom scope [scope, .node ⟨"class_definition_0_20"⟩,
        .node ⟨"for_statement_30_60"⟩, .global] ∧
      table.Search "f" scope none := by
  have hnest : Python.rules.NoScopeInItself twinClasses := by decide
  have hscope : ((Python.rules.resolve twinClasses).scopes.parent?
      (.node ⟨"function_definition_5_15"⟩)).isSome := by decide
  obtain ⟨hreach, hchain, hsearch⟩ := scopes_end_in_global List.mem_cons_self hnest (.inl hscope)
  exact ⟨hnest, hscope, hreach, (hchain _).mpr (by decide), (hsearch _ _).mpr (by decide)⟩

/-- A scope right inside another one of its kind and range. -/
def scopeInItself (kind : String) : Node :=
  around "module" 0 8 [around kind 0 8 [around kind 0 8 []]]

/-- Whether the scope of `scopeInItself` is known to the table and has no way out, and no search that starts in
it comes back. -/
def NeverOut (rules : ScopingRules) (kind : String) : Prop :=
  let table := (rules.resolve (scopeInItself kind)).scopes
  let scope := Scope.node (NodeId.of kind 0 8)
  (table.parent? scope).isSome ∧ (∀ chain, ¬ table.ChainFrom scope chain) ∧
    ∀ name found, ¬ table.Search name scope found

/-- A scope that lies in itself, as a scope is known by its name, and in which nothing is bound. -/
theorem neverOut_of_parent?_self {kind : String}
    (hparent : (rules.resolve (scopeInItself kind)).scopes.parent? (.node (NodeId.of kind 0 8)) =
      some (.node (NodeId.of kind 0 8)))
    (hlocal : (rules.resolve (scopeInItself kind)).scopes.bindings.entries = []) :
    NeverOut rules kind := by
  have hnone : ∀ name, (rules.resolve (scopeInItself kind)).scopes.lookupLocal
      (.node (NodeId.of kind 0 8)) name = none := fun name => by
    rw [ScopeTable.lookupLocal, Writes.get?, hlocal, Writes.newest?]
  exact ⟨by rw [hparent]; rfl, ScopeTable.not_chainFrom_of_parent?_self hparent,
    fun name => ScopeTable.not_search_of_parent?_self hparent (hnone name)⟩

/-- Under the rules of every language a scope inside a scope of its own name has no way out. -/
theorem scope_in_itself_never_out :
    NeverOut Python.rules "function_definition" ∧
      NeverOut EcmaScript.rules "function_declaration" ∧
      NeverOut Go.rules "function_declaration" :=
  ⟨neverOut_of_parent?_self (by decide) rfl, neverOut_of_parent?_self (by decide) rfl,
    neverOut_of_parent?_self (by decide) rfl⟩

end ScopingRules

end CodeGraph
