import CodeGraph.Proofs.Scope.Binders
import CodeGraph.Proofs.Scope.Lexical
import Mathlib.Data.List.Nodup

/-!
# When a defined name is a use

What a definition binds, and which identifiers count as names being defined, are two functions of the rules of a
language, and the second knows less than the first. A bound name that it does not know is looked up like a use,
and finds the last binding of its name in its own scope: itself, so that no edge is left, or a later one. The
edges from bound names are exactly those from the unknown ones to a later binding of the same scope.
-/

namespace CodeGraph

namespace ScopingRules

variable {rules : ScopingRules} {root : Node}

/-! ### Places and their names -/

/-- In a tree whose nodes have names of their own, a name has one place. -/
theorem place_eq_of_id_eq (hids : (root.walk.map Node.id).Nodup) {p q : Place} (hp : p ∈ root.places)
    (hq : q ∈ root.places) (h : p.node.id = q.node.id) : p = q := by
  rw [← Node.map_node_places, List.map_map] at hids
  exact List.inj_on_of_nodup_map hids hp hq h

theorem scopeIds_nodup (rules : ScopingRules) (hids : (root.walk.map Node.id).Nodup) :
    (rules.scopeIds root).Nodup :=
  hids.sublist (List.filter_sublist.map Node.id)

/-- The reference edge that a place emits is the one of its use. -/
theorem mem_references_linksAt_iff (hnd : (rules.scopeIds root).Nodup) {q : Place}
    (hq : q ∈ root.places) {e : Edge} (he : e.kind = .references) :
    e ∈ rules.linksAt (rules.tableOf root) q ↔
      rules.isUse q = true ∧ rules.lexicalEdge? root q = some e := by
  have hfilter : e ∈ rules.linksAt (rules.tableOf root) q ↔
      e ∈ (rules.linksAt (rules.tableOf root) q).filter (·.kind = .references) := by
    rw [List.mem_filter, he]
    exact ⟨fun h => ⟨h, rfl⟩, And.left⟩
  rw [hfilter, filter_references_linksAt hnd hq]
  split
  · next huse =>
    rw [Option.mem_toList, huse]
    exact ⟨fun h => ⟨rfl, h⟩, And.right⟩
  · next huse =>
    constructor
    · intro h
      exact absurd h List.not_mem_nil
    · intro h
      exact absurd h.1 huse

/-- The reference edges are those of the uses. -/
theorem mem_references_iff (hsem : rules.isSemantic = true) (hnd : (rules.scopeIds root).Nodup)
    {e : Edge} (he : e.kind = .references) :
    e ∈ (rules.resolve root).edges ↔
      ∃ q ∈ root.places, rules.isUse q = true ∧ rules.lexicalEdge? root q = some e := by
  rw [rules.edges_resolve hsem, List.mem_append, List.mem_flatMap]
  constructor
  · rintro (hmem | ⟨q, hq, hmem⟩)
    · rw [rules.kind_of_mem_controlEdges hmem] at he
      cases he
    · exact ⟨q, hq, (mem_references_linksAt_iff hnd hq he).mp hmem⟩
  · rintro ⟨q, hq, huse⟩
    exact Or.inr ⟨q, hq, (mem_references_linksAt_iff hnd hq he).mpr huse⟩

theorem lexicalEdge?_eq_some {q : Place} {e : Edge} :
    rules.lexicalEdge? root q = some e ↔
      ∃ target, rules.meaning root q.path q.node.text = some target ∧ target ≠ q.node.id ∧
        e = ⟨q.node.id, target, .references⟩ := by
  rw [lexicalEdge?]
  cases rules.meaning root q.path q.node.text with
  | none => simp
  | some target =>
    by_cases ht : target = q.node.id
    · simp [ht]
    · simp [ht, eq_comm]

/-! ### What a bound name means -/

theorem mem_bindingsOf {p : Place} (hp : p ∈ root.places) {b : Binding}
    (hb : b ∈ rules.variablesOf p.node) :
    b.node.id ∈ rules.bindingsOf root b.name (rules.innermost p.path) := by
  refine List.mem_flatMap.mpr ⟨p, List.mem_filter.mpr ⟨hp, decide_eq_true rfl⟩, ?_⟩
  exact List.mem_map.mpr ⟨b, List.mem_filter.mpr ⟨hb, decide_eq_true rfl⟩, rfl⟩

/-- A name that is bound in the innermost scope means the last of its bindings there. -/
theorem meaning_of_bound {path : List Node} {name : String} {id : NodeId}
    (h : id ∈ rules.bindingsOf root name (rules.innermost path)) :
    rules.meaning root path name = (rules.bindingsOf root name (rules.innermost path)).getLast? := by
  obtain ⟨scope, outer, hscopes⟩ : ∃ scope outer, rules.scopesOn path = scope :: outer :=
    List.exists_cons_of_ne_nil (List.append_ne_nil_of_right_ne_nil _ (List.cons_ne_nil _ _))
  have hin : rules.innermost path = scope := by rw [innermost, hscopes]; rfl
  rw [hin] at h ⊢
  rw [meaning, hscopes, List.findSome?_cons, List.getLast?_eq_getLast_of_ne_nil (List.ne_nil_of_mem h)]

/-- **When a defined name is a use.** In a tree whose nodes have names of their own, let a definition bind a
name. Its node lies in the scope it is bound in, and its reference edge, if any, leads to the last binding of the
name there. It has one exactly where the rules do not count it as a name being defined and that last binding is
another node. -/
theorem references_of_boundName (hrules : rules ∈ builtIn) (hsem : rules.isSemantic = true)
    (hids : (root.walk.map Node.id).Nodup) {p : Place} (hp : p ∈ root.places) {b : Binding}
    (hb : b ∈ rules.variablesOf p.node) :
    ∃ q ∈ root.places, q.node = b.node ∧ rules.innermost q.path = rules.innermost p.path ∧
      ∀ target, ⟨b.node.id, target, .references⟩ ∈ (rules.resolve root).edges ↔
        rules.isUse q = true ∧ target ≠ b.node.id ∧
          (rules.bindingsOf root b.name (rules.innermost p.path)).getLast? = some target := by
  obtain ⟨hname, above, hmem, hscope⟩ := boundIn_variablesOf hrules hp hb
  refine ⟨⟨b.node, above⟩, hmem, rfl, hscope, fun target => ?_⟩
  have hmeaning : rules.meaning root (b.node :: above) b.node.text =
      (rules.bindingsOf root b.name (rules.innermost p.path)).getLast? := by
    have hbound := mem_bindingsOf hp hb
    rw [hname, ← hscope] at hbound ⊢
    exact meaning_of_bound hbound
  rw [mem_references_iff hsem (scopeIds_nodup rules hids) rfl]
  constructor
  · rintro ⟨q, hq, huse, hedge⟩
    obtain ⟨found, hfound, hne, heq⟩ := lexicalEdge?_eq_some.mp hedge
    obtain ⟨hid, rfl, -⟩ := Edge.mk.inj heq
    -- the source of the edge names its place, and so the use is the bound node itself
    obtain rfl := place_eq_of_id_eq hids hmem hq hid
    exact ⟨huse, hne, hmeaning ▸ hfound⟩
  · rintro ⟨huse, hne, hlast⟩
    exact ⟨_, hmem, huse, lexicalEdge?_eq_some.mpr ⟨target, hmeaning.trans hlast, hne, rfl⟩⟩

/-! ### Names bound twice -/

open Node (token around)

/-- The Python assignment of a digit to `x`. -/
def assignX (start : Nat) (value : String) : Node :=
  around "assignment" start (start + 5)
    [token "identifier" start "x", token "=" (start + 2) "=", token "integer" (start + 4) value]

/-- Its statement. -/
def statementX (start : Nat) (value : String) : Node :=
  around "expression_statement" start (start + 5) [assignX start value]

/-- The Python source `x = 1; x = 2`. -/
def assignedTwice : Node :=
  around "module" 0 12 [statementX 0 "1", token ";" 5 ";", statementX 7 "2"]

/-- The place of its first assignment. -/
def firstAssignment : Place := ⟨assignX 0 "1", [statementX 0 "1", assignedTwice]⟩

theorem references_of_boundName_assignedTwice :
    Python.rules ∈ builtIn ∧ Python.rules.isSemantic = true ∧
      (assignedTwice.walk.map Node.id).Nodup ∧ firstAssignment ∈ assignedTwice.places ∧
      Binding.of (token "identifier" 0 "x") ∈ Python.rules.variablesOf firstAssignment.node ∧
      ⟨⟨"identifier_0_1"⟩, ⟨"identifier_7_8"⟩, .references⟩ ∈
        (Python.rules.resolve assignedTwice).edges := by
  have hids : (assignedTwice.walk.map Node.id).Nodup := by decide
  have hp : firstAssignment ∈ assignedTwice.places := .tail _ (.tail _ (.head _))
  have hname : ⟨token "identifier" 0 "x", firstAssignment.path⟩ ∈ assignedTwice.places :=
    Node.mem_places_child hp (.head _)
  have hb : Binding.of (token "identifier" 0 "x") ∈ Python.rules.variablesOf firstAssignment.node :=
    .head _
  refine ⟨List.mem_cons_self, rfl, hids, hp, hb, ?_⟩
  obtain ⟨q, hq, hnode, -, hedge⟩ := references_of_boundName List.mem_cons_self rfl hids hp hb
  obtain rfl := place_eq_of_id_eq hids hname hq (congrArg Node.id hnode).symm
  exact (hedge _).mpr ⟨by decide, by decide, by decide⟩

/-- Whether no name that is bound in a tree is the source of a reference edge. -/
def BoundNamesUnused (rules : ScopingRules) (root : Node) : Prop :=
  ∀ p ∈ root.places, ∀ b ∈ rules.variablesOf p.node, ∀ e ∈ (rules.resolve root).edges,
    e.kind = .references → e.source ≠ b.node.id

instance (rules : ScopingRules) (root : Node) : Decidable (rules.BoundNamesUnused root) :=
  inferInstanceAs (Decidable (∀ p ∈ root.places, ∀ b ∈ rules.variablesOf p.node,
    ∀ e ∈ (rules.resolve root).edges, e.kind = .references → e.source ≠ b.node.id))

/-- The Python source `def f(*a): a = 1`. -/
def splatAssigned : Node :=
  around "module" 0 16
    [around "function_definition" 0 16
      [token "def" 0 "def", token "identifier" 4 "f",
        around "parameters" 5 9
          [token "(" 5 "(",
            around "list_splat_pattern" 6 8 [token "*" 6 "*", token "identifier" 7 "a"],
            token ")" 8 ")"],
        token ":" 9 ":",
        around "block" 11 16
          [around "expression_statement" 11 16
            [around "assignment" 11 16
              [token "identifier" 11 "a", token "=" 13 "=", token "integer" 15 "1"]]]]]

/-- The JavaScript source `var {k: v} = o; var v = 1;`. -/
def pairThenVariable : Node :=
  around "program" 0 26
    [around "variable_declaration" 0 15
      [token "var" 0 "var",
        around "variable_declarator" 4 14
          [around "object_pattern" 4 10
            [token "\x7b" 4 "\x7b",
              around "pair_pattern" 5 9
                [token "property_identifier" 5 "k", token ":" 6 ":", token "identifier" 8 "v"],
              token "\x7d" 9 "\x7d"],
            token "=" 11 "=", token "identifier" 13 "o"],
        token ";" 14 ";"],
      around "variable_declaration" 16 26
        [token "var" 16 "var",
          around "variable_declarator" 20 25
            [token "identifier" 20 "v", token "=" 22 "=", token "number" 24 "1"],
          token ";" 25 ";"]]

/-- The Go block `{ x := 1; x, y := 2, 3 }`. -/
def shortVariablesTwice : Node :=
  around "block" 0 24
    [token "\x7b" 0 "\x7b",
      around "short_var_declaration" 2 8
        [around "expression_list" 2 3 [token "identifier" 2 "x"], token ":=" 4 ":=",
          around "expression_list" 7 8 [token "int_literal" 7 "1"]],
      token ";" 8 ";",
      around "short_var_declaration" 10 22
        [around "expression_list" 10 14
          [token "identifier" 10 "x", token "," 11 ",", token "identifier" 13 "y"],
          token ":=" 15 ":=",
          around "expression_list" 18 22
            [token "int_literal" 18 "2", token "," 19 ",", token "int_literal" 21 "3"]],
      token "\x7d" 23 "\x7d"]

/-- Bound names are sources of reference edges under the rules of every language: a name assigned twice, a
splat parameter and a pair pattern whose names are bound again, and a short variable declaration that repeats
a name. -/
theorem not_boundNamesUnused :
    ((assignedTwice.walk.map Node.id).Nodup ∧ ¬Python.rules.BoundNamesUnused assignedTwice) ∧
    ((splatAssigned.walk.map Node.id).Nodup ∧ ¬Python.rules.BoundNamesUnused splatAssigned) ∧
    ((pairThenVariable.walk.map Node.id).Nodup ∧
      ¬EcmaScript.rules.BoundNamesUnused pairThenVariable) ∧
    ((shortVariablesTwice.walk.map Node.id).Nodup ∧
      ¬Go.rules.BoundNamesUnused shortVariablesTwice) := by
  refine ⟨⟨?_, ?_⟩, ⟨?_, ?_⟩, ⟨?_, ?_⟩, ⟨?_, ?_⟩⟩ <;> decide

end ScopingRules

end CodeGraph
