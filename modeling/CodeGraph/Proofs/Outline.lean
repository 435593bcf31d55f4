import CodeGraph.Outline
import CodeGraph.Proofs.Scope.Calls
import CodeGraph.Proofs.Tree.Worklist

/-!
# What an outline sums up

An outline counts the nodes of a tree, knows the most control-flow constructs on one way down to a node, and lists
the named functions and the classes in pre-order. Resolution collects the same definitions in tables in which the
last one of a name stays, so a name is in a table exactly where it is listed, and the table has the node that is
listed under it last. A walk with a stack of its own, on which each node waits with the number of constructs around
it, sums up the same. Main statement: `outline_agrees`.
-/

namespace CodeGraph

namespace ScopingRules

variable (rules : ScopingRules)

/-! ### Control flow on the way down -/

/-- The number of control-flow constructs among some nodes. -/
def controlCount (path : List Node) : Nat := path.countP fun n => rules.isControlFlow n.kind

/-- The number of control-flow constructs inside a node of which so many lie around it. -/
def controlInside (outer : Nat) (n : Node) : Nat :=
  if rules.isControlFlow n.kind then outer + 1 else outer

theorem controlCount_cons (n : Node) (path : List Node) :
    rules.controlCount (n :: path) = rules.controlInside (rules.controlCount path) n := by
  rw [controlCount, controlInside, List.countP_cons]
  split <;> rfl

/-- The most control-flow constructs on a way down to one of some places. -/
def deepest (ps : List Place) : Nat := (ps.map fun p => rules.controlCount p.path).foldr max 0

theorem deepest_append (ps qs : List Place) :
    rules.deepest (ps ++ qs) = max (rules.deepest ps) (rules.deepest qs) := by
  induction ps with
  | nil => exact (Nat.zero_max _).symm
  | cons p ps ih =>
    show max _ (rules.deepest (ps ++ qs)) = max (max _ (rules.deepest ps)) _
    rw [ih, Nat.max_assoc]

theorem le_deepest {ps : List Place} {p : Place} (hp : p ∈ ps) :
    rules.controlCount p.path ≤ rules.deepest ps := by
  induction ps with
  | nil => exact absurd hp List.not_mem_nil
  | cons q ps ih =>
    rcases List.mem_cons.mp hp with rfl | hp
    · exact Nat.le_max_left _ _
    · exact Nat.le_trans (ih hp) (Nat.le_max_right _ _)

theorem exists_eq_deepest {ps : List Place} (hne : ps ≠ []) :
    ∃ p ∈ ps, rules.controlCount p.path = rules.deepest ps := by
  induction ps with
  | nil => exact absurd rfl hne
  | cons q ps ih =>
    have hcons : rules.deepest (q :: ps) = max (rules.controlCount q.path) (rules.deepest ps) := rfl
    rcases Nat.le_total (rules.deepest ps) (rules.controlCount q.path) with hle | hle
    · exact ⟨q, List.mem_cons_self, by rw [hcons, Nat.max_eq_left hle]⟩
    · by_cases hps : ps = []
      · subst hps
        exact ⟨q, List.mem_cons_self, by rw [hcons, Nat.le_zero.mp hle]; exact (Nat.max_zero _).symm⟩
      · obtain ⟨p, hp, heq⟩ := ih hps
        exact ⟨p, List.mem_cons_of_mem _ hp, by rw [hcons, Nat.max_eq_right hle, heq]⟩

mutual

theorem nesting_eq_deepest (above : List Node) :
    ∀ n : Node, rules.nesting (rules.controlCount above) n = rules.deepest (n.placesUnder above)
  | ⟨kind, span, text, children⟩ => by
    have hchildren := nestingAll_eq_deepest (⟨kind, span, text, children⟩ :: above) children
    rw [controlCount_cons] at hchildren
    rw [nesting, Node.placesUnder]
    show max _ (rules.nestingAll (rules.controlInside _ ⟨kind, span, text, children⟩) children) =
      max (rules.controlCount (_ :: above)) (rules.deepest _)
    rw [hchildren, controlCount_cons]
    rfl

theorem nestingAll_eq_deepest (above : List Node) :
    ∀ ns : List Node,
      rules.nestingAll (rules.controlCount above) ns = rules.deepest (Node.placesUnderAll above ns)
  | [] => rfl
  | n :: ns => by
    rw [nestingAll, nesting_eq_deepest, nestingAll_eq_deepest, Node.placesUnderAll, deepest_append]

end

end ScopingRules

/-! ### A walk that sums up -/

namespace Outline

variable (rules : ScopingRules)

/-- The outline with one more node, around which there are so many control-flow constructs. -/
def visit (o : Outline) (t : Task Nat) : Outline :=
  { o with
    functions := o.functions ++ (rules.functionEntryOf? t.node).toList
    classes := o.classes ++ (rules.classEntryOf? t.node).toList
    imports := o.imports ++ (rules.importEntryOf? t.node).toList
    maxNesting := max o.maxNesting (rules.controlInside t.given t.node)
    totalNodes := o.totalNodes + 1 }

/-- The outline of no node. -/
def blank (language : Language) (codeLength : Nat) : Outline := ⟨language, codeLength, [], [], [], 0, 0⟩

theorem foldl_visit (o : Outline) (ts : List (Task Nat)) :
    ts.foldl (visit rules) o =
      { o with
        functions := o.functions ++ ts.flatMap fun t => (rules.functionEntryOf? t.node).toList
        classes := o.classes ++ ts.flatMap fun t => (rules.classEntryOf? t.node).toList
        imports := o.imports ++ ts.flatMap fun t => (rules.importEntryOf? t.node).toList
        maxNesting := max o.maxNesting ((ts.map fun t => rules.controlInside t.given t.node).foldr max 0)
        totalNodes := o.totalNodes + ts.length } := by
  induction ts generalizing o with
  | nil => simp
  | cons t ts ih =>
    rw [List.foldl_cons, ih, visit]
    simp only [List.flatMap_cons, List.append_assoc, List.map_cons, List.foldr_cons, Nat.max_assoc,
      List.length_cons, Nat.add_assoc, Nat.add_comm 1]

end Outline

variable (rules : ScopingRules) (root : Node) (language : Language) (codeLength : Nat)

/-- The outline of a tree by a walk with a stack of its own. -/
def outlineByWalk : Outline :=
  Task.walk (Outline.visit rules) rules.controlInside (Outline.blank language codeLength) [⟨root, 0⟩]

theorem given_controlInside (p : Place) :
    p.given rules.controlInside 0 = rules.controlCount p.above := by
  obtain ⟨node, above⟩ := p
  induction above with
  | nil => rfl
  | cons n above ih =>
    rw [rules.controlCount_cons, ← ih]
    rfl

theorem nesting_root : rules.nesting 0 root = rules.deepest root.places :=
  rules.nesting_eq_deepest [] root

theorem flatMap_entries {α : Type} (item? : Node → Option α) :
    (root.places.map (Place.task rules.controlInside 0)).flatMap (fun t => (item? t.node).toList) =
      root.walk.filterMap item? := by
  rw [List.filterMap_eq_flatMap_toList, ← Node.map_node_places, List.flatMap_map, List.flatMap_map]
  rfl

theorem outlineByWalk_eq :
    outlineByWalk rules root language codeLength = outline root language rules codeLength := by
  have hdepths : (root.places.map (Place.task rules.controlInside 0)).map
      (fun t => rules.controlInside t.given t.node) = root.places.map fun p => rules.controlCount p.path := by
    rw [List.map_map]
    refine List.map_congr_left fun p _ => ?_
    show rules.controlInside (p.given rules.controlInside 0) p.node = rules.controlCount (p.node :: p.above)
    rw [given_controlInside, rules.controlCount_cons]
  have hcount : root.places.length = root.count := by
    rw [← Node.length_walk, ← Node.map_node_places, List.length_map]
  rw [outlineByWalk, Task.walk_root, Outline.foldl_visit, hdepths, flatMap_entries, flatMap_entries,
    flatMap_entries, List.length_map, hcount, outline, nesting_root]
  simp only [Outline.blank, List.nil_append, Nat.zero_add, Nat.zero_max]
  rfl

/-! ### The definitions that are listed -/

/-- The nodes of a tree that have an entry, each with its own, in pre-order. -/
def Node.entries {α : Type} (item? : Node → Option α) (root : Node) : List (Node × α) :=
  root.walk.filterMap fun n => (item? n).map fun e => (n, e)

/-- Entries of nodes are listed, and names are found: every name that is listed and no other, and for it the node
of the entry that is listed under it last. -/
structure FindsLast {α : Type} (item? : Node → Option α) (nameOf : α → String) (root : Node)
    (listed : List α) (find? : String → Option NodeId) : Prop where
  listed_eq : listed = (root.entries item?).map (·.2)
  isSome_iff : ∀ name, (find? name).isSome ↔ ∃ e ∈ listed, nameOf e = name
  last : ∀ name, find? name =
    ((root.entries item?).filter (nameOf ·.2 = name)).getLast?.map fun e => e.1.id

variable {α : Type} {item? : Node → Option α} {nameOf : α → String}

theorem map_snd_entries : (root.entries item?).map (·.2) = root.walk.filterMap item? := by
  rw [Node.entries, List.map_filterMap]
  refine List.filterMap_congr fun n _ => ?_
  cases item? n <;> rfl

theorem map_fst_filter_entries (name : String) :
    ((root.entries item?).filter (nameOf ·.2 = name)).map (·.1) =
      root.walk.filter fun n => (item? n).map nameOf = some name := by
  rw [Node.entries]
  induction root.walk with
  | nil => rfl
  | cons n ns ih =>
    cases he : item? n with
    | none => simp [he, ih]
    | some e => by_cases hname : nameOf e = name <;> simp [he, hname, ih]

/-- Where a name has the last node with an entry of the name, what is listed is found. -/
theorem findsLast {find? : String → Option NodeId} (hfind : ∀ name, find? name =
      ((root.walk.filter fun n => (item? n).map nameOf = some name).getLast?).map Node.id) :
    FindsLast item? nameOf root (root.walk.filterMap item?) find? := by
  refine ⟨(map_snd_entries root).symm, fun name => ?_, fun name => ?_⟩
  · rw [hfind, Option.isSome_map, List.getLast?_isSome, ← map_fst_filter_entries, ne_eq,
      List.map_eq_nil_iff, ← map_snd_entries]
    constructor
    · intro hne
      obtain ⟨x, hx⟩ := List.exists_mem_of_ne_nil _ hne
      obtain ⟨hmem, hname⟩ := List.mem_filter.mp hx
      exact ⟨x.2, List.mem_map_of_mem hmem, of_decide_eq_true hname⟩
    · rintro ⟨e, he, hname⟩
      obtain ⟨x, hx, rfl⟩ := List.mem_map.mp he
      exact List.ne_nil_of_mem (List.mem_filter.mpr ⟨hx, decide_eq_true hname⟩)
  · rw [hfind, ← map_fst_filter_entries, List.getLast?_map, Option.map_map]
    rfl

namespace ScopingRules

variable {rules}

theorem filterMap_classAdded?_entrySteps (outer : Scope) (n : Node) :
    (rules.entrySteps outer n).filterMap ScopeStep.classAdded? =
      (((rules.classEntryOf? n).map ClassEntry.name).map fun name => (name, n.id)).toList := by
  rw [rules.filterMap_entrySteps (fun _ _ => rfl) (fun _ => rfl)]
  unfold classEntryOf?
  cases rules.definition n with
  | none => rfl
  | some d =>
    cases d with
    | function name params =>
      cases name <;> simp [bindingSteps, ScopeStep.classAdded?, List.filterMap_cons]
    | classLike name => simp [bindingSteps, ScopeStep.classAdded?]
    | binds bindings => simp [bindingSteps, ScopeStep.classAdded?]
    | imports bindings => simp [bindingSteps, ScopeStep.classAdded?]

theorem map_name_functionEntry (n : Node) :
    (rules.functionEntryOf? n).map FunctionEntry.name = rules.functionNameOf? n := by
  unfold functionEntryOf? functionNameOf?
  cases rules.definition n with
  | none => rfl
  | some d =>
    cases d with
    | function name params => cases name <;> rfl
    | classLike name => rfl
    | binds bindings => rfl
    | imports bindings => rfl

theorem functions_findsLast :
    FindsLast rules.functionEntryOf? FunctionEntry.name root (root.walk.filterMap rules.functionEntryOf?)
      (rules.tableOf root).findFunction := by
  refine findsLast root fun name => ?_
  simp only [map_name_functionEntry]
  exact findFunction_tableOf root name

theorem classes_findsLast :
    FindsLast rules.classEntryOf? ClassEntry.name root (root.walk.filterMap rules.classEntryOf?)
      (rules.tableOf root).findClass :=
  findsLast root fun name => get?_tableOf (g := .classes) rfl filterMap_classAdded?_entrySteps root name

end ScopingRules

/-! ### The whole outline -/

/-- An outline describes a tree: how many nodes it has, how deep control flow is nested on the way down to any of
them, and which functions and classes they define, in pre-order and with lines that count from one. -/
structure Outline.Describes (o : Outline) (rules : ScopingRules) (root : Node) : Prop where
  totalNodes : o.totalNodes = root.count
  nesting_le : ∀ p ∈ root.places, rules.controlCount p.path ≤ o.maxNesting
  nesting_reached : ∃ p ∈ root.places, rules.controlCount p.path = o.maxNesting
  functions : o.functions = root.walk.flatMap fun n =>
    match rules.definition n with
    | some (.function (some name) params) =>
      [⟨name.name, ⟨n.span.start.line + 1, n.span.stop.line + 1⟩, params.map (·.name)⟩]
    | _ => []
  classes : o.classes = root.walk.flatMap fun n =>
    match rules.definition n with
    | some (.classLike name) => [⟨name.name, ⟨n.span.start.line + 1, n.span.stop.line + 1⟩⟩]
    | _ => []

theorem describes_outline : (outline root language rules codeLength).Describes rules root where
  totalNodes := rfl
  nesting_le p hp := by
    show _ ≤ rules.nesting 0 root
    rw [nesting_root]
    exact rules.le_deepest hp
  nesting_reached := by
    show ∃ p ∈ root.places, _ = rules.nesting 0 root
    rw [nesting_root]
    exact rules.exists_eq_deepest (List.ne_nil_of_mem root.mem_places_self)
  functions := by
    show root.walk.filterMap rules.functionEntryOf? = _
    rw [List.filterMap_eq_flatMap_toList]
    congr 1
    funext n
    unfold ScopingRules.functionEntryOf?
    cases rules.definition n with
    | none => rfl
    | some d =>
      cases d with
      | function name params => cases name <;> rfl
      | classLike name => rfl
      | binds bindings => rfl
      | imports bindings => rfl
  classes := by
    show root.walk.filterMap rules.classEntryOf? = _
    rw [List.filterMap_eq_flatMap_toList]
    congr 1
    funext n
    unfold ScopingRules.classEntryOf?
    cases rules.definition n with
    | none => rfl
    | some d => cases d <;> rfl

/-- **An outline agrees with the tree and with resolution.** Under all rules it describes the tree, and a walk with a
stack of its own sums up the same. Under semantic rules the functions that are listed are those whose names
resolution finds, each name with the function listed under it last, and so are the classes. -/
theorem outline_agrees :
    (outline root language rules codeLength).Describes rules root ∧
      outlineByWalk rules root language codeLength = outline root language rules codeLength ∧
      (rules.isSemantic = true →
        FindsLast rules.functionEntryOf? FunctionEntry.name root
          (outline root language rules codeLength).functions (rules.resolve root).scopes.findFunction ∧
        FindsLast rules.classEntryOf? ClassEntry.name root
          (outline root language rules codeLength).classes (rules.resolve root).scopes.findClass) := by
  refine ⟨describes_outline rules root language codeLength, outlineByWalk_eq rules root language codeLength,
    fun hsem => ?_⟩
  have htable : (rules.resolve root).scopes = rules.tableOf root := by
    rw [ScopingRules.resolve, if_pos hsem]
  rw [htable]
  exact ⟨ScopingRules.functions_findsLast root, ScopingRules.classes_findsLast root⟩

open Node (token around)

/-- A module with a class and two functions `f`; an `if` stands in the loop of the first of them. -/
def definedTwice : Node :=
  around "module" 0 60
    [around "function_definition" 0 30
      [token "identifier" 4 "f", around "parameters" 5 10 [token "identifier" 6 "a", token "identifier" 8 "b"],
        around "for_statement" 12 30 [around "if_statement" 20 30 []]],
      around "class_definition" 32 40 [token "identifier" 38 "C"],
      around "function_definition" 42 60 [token "identifier" 46 "f", around "if_statement" 50 60 []]]

theorem outline_agrees_definedTwice :
    let o := outline definedTwice .python Python.rules 60
    let table := (Python.rules.resolve definedTwice).scopes
    Python.rules.isSemantic = true ∧ o.Describes Python.rules definedTwice ∧
      o.functions = [⟨"f", ⟨1, 1⟩, ["a", "b"]⟩, ⟨"f", ⟨1, 1⟩, []⟩] ∧ o.maxNesting = 2 ∧
      table.findFunction "f" = some ⟨"function_definition_42_60"⟩ ∧
      table.findClass "C" = some ⟨"class_definition_32_40"⟩ ∧ table.findClass "f" = none := by
  have hsem : Python.rules.isSemantic = true := rfl
  obtain ⟨hdescribes, -, hfinds⟩ := outline_agrees Python.rules definedTwice .python 60
  obtain ⟨hfunctions, hclasses⟩ := hfinds hsem
  refine ⟨hsem, hdescribes, by decide, by decide, ?_, ?_, ?_⟩
  · rw [hfunctions.last]
    decide
  · rw [hclasses.last]
    decide
  · rw [hclasses.last]
    decide

end CodeGraph
