import CodeGraph.Proofs.Outline
import CodeGraph.Proofs.Scope.Answers
import Mathlib.Order.Bounds.Defs

/-!
# Marks of control flow

The definition pass marks a control-flow construct on the way into it and takes the mark off on the way out. So between
two crossings the table has the marks it had at first and above them one for each construct that the pass is inside of,
innermost first, whatever was declared in between. A pass leaves the marks as it has found them, and of the marks that
the table ever has during resolution there are as many as an outline counts levels. Main statement: `marks_declare`.
-/

namespace CodeGraph

/-- What starts a list that is made in parts: all of it, or some of the parts and the start of the next, which is not
taken to its end. -/
theorem exists_of_isPrefix_flatMap {α β : Type} {f : α → List β} {xs : List α} {ys : List β}
    (h : ys <+: xs.flatMap f) :
    ys = xs.flatMap f ∨ ∃ before x after part, xs = before ++ x :: after ∧ part <+: f x ∧ part ≠ f x ∧
      ys = before.flatMap f ++ part := by
  induction xs generalizing ys with
  | nil => exact .inl (List.prefix_nil.mp h)
  | cons x xs ih =>
    rw [List.flatMap_cons] at h ⊢
    by_cases hall : f x <+: ys
    · obtain ⟨rest, rfl⟩ := hall
      rcases ih ((List.prefix_append_right_inj (f x)).mp h) with hrest | ⟨before, y, after, part, hxs, hpart⟩
      · exact .inl (by rw [hrest])
      · obtain ⟨hstart, hne, hrest⟩ := hpart
        refine .inr ⟨x :: before, y, after, part, by rw [hxs]; rfl, hstart, hne, ?_⟩
        rw [hrest, List.flatMap_cons, List.append_assoc]
    · have hpart : ys <+: f x :=
        (List.prefix_or_prefix_of_prefix h (List.prefix_append _ _)).resolve_right hall
      have hne : ys ≠ f x := by
        rintro rfl
        exact hall List.prefix_rfl
      exact .inr ⟨[], x, xs, ys, rfl, hpart, hne, rfl⟩

namespace ScopingRules

variable (rules : ScopingRules)

/-- The names of the control-flow constructs on a way down, innermost first as the marks of a table are. -/
def marksOn (path : List Node) : List NodeId := (path.filter fun n => rules.isControlFlow n.kind).map Node.id

theorem length_marksOn (path : List Node) : (rules.marksOn path).length = rules.controlCount path := by
  rw [marksOn, List.length_map, controlCount, List.countP_eq_length_filter]

theorem marksOn_cons_of_pos {n : Node} (h : rules.isControlFlow n.kind = true) (path : List Node) :
    rules.marksOn (n :: path) = n.id :: rules.marksOn path := by
  simp [marksOn, h]

theorem marksOn_cons_of_neg {n : Node} (h : ¬rules.isControlFlow n.kind = true) (path : List Node) :
    rules.marksOn (n :: path) = rules.marksOn path := by
  simp [marksOn, h]

variable {rules} {t : ScopeTable} {n : Node} {steps : List ScopeStep}

/-! ### One crossing -/

theorem marks_of_quiet (h : ∀ s ∈ steps, s.part ≠ .marks) (t : ScopeTable) :
    (t.applyAll steps).marks = t.marks :=
  ScopeTable.sameIn_applyAll_of_ne h t

/-- What a definition records is no mark. -/
theorem part_of_mem_bindingSteps {id : NodeId} {scope : Scope} {d : Definition} {s : ScopeStep}
    (hs : s ∈ bindingSteps id scope d) : s.part ≠ .marks := by
  cases d with
  | function name params =>
    rcases List.mem_append.mp hs with hs | hs
    · obtain ⟨b, -, rfl⟩ := Option.map_eq_some_iff.mp (Option.mem_toList.mp hs)
      exact ScopePart.noConfusion
    · obtain ⟨b, -, rfl⟩ := List.mem_map.mp hs
      exact ScopePart.noConfusion
  | classLike name =>
    rw [List.mem_singleton.mp hs]
    exact ScopePart.noConfusion
  | binds bindings =>
    obtain ⟨b, -, rfl⟩ := List.mem_map.mp hs
    exact ScopePart.noConfusion
  | imports bindings =>
    obtain ⟨b, -, rfl⟩ := List.mem_map.mp hs
    exact ScopePart.noConfusion

/-- The steps into a node set its mark last. -/
theorem exists_entrySteps_eq (rules : ScopingRules) (outer : Scope) (n : Node) :
    ∃ quiet, (∀ s ∈ quiet, s.part ≠ .marks) ∧
      rules.entrySteps outer n =
        quiet ++ if rules.isControlFlow n.kind then [.enterControlFlow n.id] else [] := by
  refine ⟨_, fun s hs => ?_, rfl⟩
  rcases List.mem_append.mp hs with hs | hs
  · split at hs
    · rw [List.mem_singleton.mp hs]
      exact ScopePart.noConfusion
    · exact absurd hs List.not_mem_nil
  · cases hdef : rules.definition n with
    | none =>
      rw [hdef] at hs
      exact absurd hs List.not_mem_nil
    | some d =>
      rw [hdef] at hs
      exact part_of_mem_bindingSteps hs

theorem marks_entrySteps (outer : Scope) (path : List Node) {rest : List NodeId}
    (ht : t.marks = rules.marksOn path ++ rest) :
    (t.applyAll (rules.entrySteps outer n)).marks = rules.marksOn (n :: path) ++ rest := by
  obtain ⟨quiet, hquiet, hentry⟩ := exists_entrySteps_eq rules outer n
  rw [hentry, ScopeTable.applyAll_append]
  have hmarks : (t.applyAll quiet).marks = rules.marksOn path ++ rest := by
    rw [marks_of_quiet hquiet, ht]
  by_cases hn : rules.isControlFlow n.kind = true
  · rw [if_pos hn, marksOn_cons_of_pos rules hn, List.cons_append, ← hmarks]
    rfl
  · rw [if_neg hn, marksOn_cons_of_neg rules hn]
    exact hmarks

/-- Before all steps into a node are taken, its mark is not set. -/
theorem marks_part_entrySteps {outer : Scope} {part : List ScopeStep}
    (hpart : part <+: rules.entrySteps outer n) (hne : part ≠ rules.entrySteps outer n) :
    (t.applyAll part).marks = t.marks := by
  obtain ⟨quiet, hquiet, hentry⟩ := exists_entrySteps_eq rules outer n
  have hstart : part <+: quiet := by
    rw [hentry] at hpart hne
    by_cases hn : rules.isControlFlow n.kind = true
    · rw [if_pos hn] at hpart hne
      exact (List.prefix_concat_iff.mp hpart).resolve_left hne
    · rwa [if_neg hn, List.append_nil] at hpart
  exact marks_of_quiet (fun s hs => hquiet s (hstart.subset hs)) t

theorem marks_exitSteps (path : List Node) {rest : List NodeId}
    (ht : t.marks = rules.marksOn (n :: path) ++ rest) :
    (t.applyAll (rules.exitSteps n)).marks = rules.marksOn path ++ rest := by
  by_cases hn : rules.isControlFlow n.kind = true
  · rw [marksOn_cons_of_pos rules hn] at ht
    rw [exitSteps, if_pos hn]
    show t.marks.tail = _
    rw [ht]
    rfl
  · rw [marksOn_cons_of_neg rules hn] at ht
    rw [exitSteps, if_neg hn]
    exact ht

/-- There are no steps out of a node before its mark is taken off. -/
theorem part_exitSteps {part : List ScopeStep} (hpart : part <+: rules.exitSteps n)
    (hne : part ≠ rules.exitSteps n) : part = [] := by
  by_cases hn : rules.isControlFlow n.kind = true
  · rw [exitSteps, if_pos hn] at hpart hne
    rw [← List.nil_append [ScopeStep.exitControlFlow]] at hpart hne
    exact List.prefix_nil.mp ((List.prefix_concat_iff.mp hpart).resolve_left hne)
  · rw [exitSteps, if_neg hn] at hpart
    exact List.prefix_nil.mp hpart

/-- A crossing turns the marks of the nodes around it before into those of the nodes around it after. -/
theorem marks_crossingSteps (start : Scope) (x : Crossing) {rest : List NodeId}
    (ht : t.marks = rules.marksOn x.before ++ rest) :
    (t.applyAll (rules.crossingSteps start x)).marks = rules.marksOn x.after ++ rest := by
  cases x with
  | enter p => exact marks_entrySteps _ p.above ht
  | leave p => exact marks_exitSteps p.above ht

theorem marks_part_crossingSteps {start : Scope} {x : Crossing} {part : List ScopeStep}
    (hpart : part <+: rules.crossingSteps start x) (hne : part ≠ rules.crossingSteps start x) :
    (t.applyAll part).marks = t.marks := by
  cases x with
  | enter p => exact marks_part_entrySteps hpart hne
  | leave p =>
    rw [part_exitSteps hpart hne]
    rfl

/-! ### Many crossings -/

/-- Crossings that lead from inside some nodes to inside others lead from the marks of these to the marks of those. -/
theorem marks_of_connects {start : Scope} {xs : List Crossing} {path stop : List Node} {rest : List NodeId}
    (h : Crossing.Connects path xs stop) (ht : t.marks = rules.marksOn path ++ rest) :
    (t.applyAll (xs.flatMap (rules.crossingSteps start))).marks = rules.marksOn stop ++ rest := by
  induction xs generalizing path t with
  | nil =>
    obtain rfl : path = stop := h
    exact ht
  | cons x xs ih =>
    obtain ⟨rfl, hxs⟩ := h
    rw [List.flatMap_cons, ScopeTable.applyAll_append]
    exact ih hxs (marks_crossingSteps start x ht)

variable {root : Node}

/-- The marks of the nodes around the pass, above those that were there at first. -/
theorem marks_to_before {before after : List Crossing} {x : Crossing} (t : ScopeTable) (start : Scope)
    (hx : root.tour = before ++ x :: after) :
    (t.applyAll (before.flatMap (rules.crossingSteps start))).marks = rules.marksOn x.before ++ t.marks := by
  have hconnects := root.connects_tour
  rw [hx] at hconnects
  exact marks_of_connects hconnects.to_before (List.nil_append _).symm

theorem marks_declare_eq (t : ScopeTable) (start : Scope) (root : Node) :
    (t.applyAll (rules.declare start root)).marks = t.marks := by
  rw [declare_eq_tour]
  exact marks_of_connects root.connects_tour (List.nil_append _).symm

theorem marks_to_after {before after : List Crossing} {x : Crossing} (t : ScopeTable) (start : Scope)
    (hx : root.tour = before ++ x :: after) :
    ((t.applyAll (before.flatMap (rules.crossingSteps start))).applyAll (rules.crossingSteps start x)).marks =
      rules.marksOn x.after ++ t.marks :=
  marks_crossingSteps start x (marks_to_before t start hx)

/-- Wherever the pass is stopped, the marks are those of a way down the tree. -/
theorem exists_marks_of_isPrefix {start : Scope} (hsteps : steps <+: rules.declare start root) (t : ScopeTable) :
    ∃ path, (path = [] ∨ ∃ p ∈ root.places, p.path = path) ∧
      (t.applyAll steps).marks = rules.marksOn path ++ t.marks := by
  rw [declare_eq_tour] at hsteps
  rcases exists_of_isPrefix_flatMap hsteps with rfl | ⟨before, x, after, part, hx, hpart, hne, rfl⟩
  · refine ⟨[], .inl rfl, ?_⟩
    rw [← declare_eq_tour, marks_declare_eq]
    rfl
  · refine ⟨x.before, ?_, ?_⟩
    · have hplace : x.place ∈ root.places :=
        Node.mem_tour_iff.mp (hx ▸ List.mem_append_right _ List.mem_cons_self)
      cases x with
      | leave p => exact .inr ⟨p, hplace, rfl⟩
      | enter p =>
        obtain ⟨node, above⟩ := p
        cases above with
        | nil => exact .inl rfl
        | cons m rest => exact .inr ⟨⟨m, rest⟩, Node.mem_places_of_suffix hplace (List.suffix_cons _ _), rfl⟩
    · rw [ScopeTable.applyAll_append, marks_part_crossingSteps hpart hne]
      exact marks_to_before t start hx

/-- Among the tables that the definition pass goes through, the greatest number of marks is that of the control-flow
constructs on the way down to some node. -/
theorem isGreatest_controlDepth (rules : ScopingRules) (root : Node) (start : Scope) :
    IsGreatest
      {depth | ∃ steps, steps <+: rules.declare start root ∧ (ScopeTable.ofSteps steps).controlDepth = depth}
      (rules.deepest root.places) := by
  have hdepth : ∀ {steps path}, (ScopeTable.ofSteps steps).marks = rules.marksOn path ++ [] →
      (ScopeTable.ofSteps steps).controlDepth = rules.controlCount path := by
    intro steps path hmarks
    rw [ScopeTable.controlDepth, hmarks, List.append_nil, length_marksOn]
  constructor
  · obtain ⟨p, hp, hdeepest⟩ := rules.exists_eq_deepest (List.ne_nil_of_mem root.mem_places_self)
    have henter : .enter p ∈ root.tour := Node.mem_tour_iff.mpr hp
    obtain ⟨before, after, hx⟩ := List.append_of_mem henter
    refine ⟨before.flatMap (rules.crossingSteps start) ++ rules.crossingSteps start (.enter p), ?_, ?_⟩
    · rw [declare_eq_tour, hx, List.flatMap_append, List.flatMap_cons, ← List.append_assoc]
      exact List.prefix_append _ _
    · rw [← hdeepest]
      refine hdepth ?_
      rw [ScopeTable.ofSteps, ScopeTable.applyAll_append]
      exact marks_to_after .empty start hx
  · rintro depth ⟨steps, hsteps, rfl⟩
    obtain ⟨path, hpath, hmarks⟩ := exists_marks_of_isPrefix hsteps .empty
    rw [hdepth hmarks]
    rcases hpath with rfl | ⟨p, hp, rfl⟩
    · exact Nat.zero_le _
    · exact rules.le_deepest hp

/-- The definition pass over a tree carries the marks of a table along with it. It goes on a tour through the tree on
which it enters and leaves every node, and wherever it is, the marks of the nodes it is inside of lie on the marks that
were there at first: no step of a crossing but the last changes them. -/
structure CarriesMarks (rules : ScopingRules) (root : Node) (start : Scope) (t : ScopeTable) : Prop where
  tour : rules.declare start root = root.tour.flatMap (rules.crossingSteps start)
  visits : ∀ p ∈ root.places, .enter p ∈ root.tour ∧ .leave p ∈ root.tour
  crossed : ∀ before x after, root.tour = before ++ x :: after →
    ((t.applyAll (before.flatMap (rules.crossingSteps start))).applyAll
      (rules.crossingSteps start x)).marks = rules.marksOn x.after ++ t.marks
  crossing : ∀ before x after, root.tour = before ++ x :: after →
    ∀ part, part <+: rules.crossingSteps start x → part ≠ rules.crossingSteps start x →
      ((t.applyAll (before.flatMap (rules.crossingSteps start))).applyAll part).marks =
        rules.marksOn x.before ++ t.marks
  returns : (t.applyAll (rules.declare start root)).marks = t.marks

theorem carriesMarks (rules : ScopingRules) (root : Node) (start : Scope) (t : ScopeTable) :
    rules.CarriesMarks root start t where
  tour := rules.declare_eq_tour start root
  visits _ hp := ⟨Node.mem_tour_iff.mpr hp, Node.mem_tour_iff.mpr hp⟩
  crossed _ _ _ hx := marks_to_after t start hx
  crossing _ _ _ hx _ hpart hne := by
    rw [marks_part_crossingSteps hpart hne]
    exact marks_to_before t start hx
  returns := marks_declare_eq t start root

/-- **Marks of control flow are balanced.** Under all rules, and whatever table and scope it starts with, the definition
pass leaves the marks as it has found them, and while it is inside a node the marks above them are those of the
control-flow constructs on the way down to the node. So resolution returns a table without marks, and under semantic
rules the most marks that its table ever has are the levels that an outline of the tree counts. -/
theorem marks_declare (rules : ScopingRules) (root : Node) (start : Scope) (t : ScopeTable) (language : Language)
    (codeLength : Nat) :
    rules.CarriesMarks root start t ∧
      (rules.resolve root).scopes.controlDepth = 0 ∧
      (rules.isSemantic = true →
        (rules.resolve root).scopes = ScopeTable.ofSteps (rules.declare .global root) ∧
        IsGreatest
          {depth | ∃ steps, steps <+: rules.declare .global root ∧
            (ScopeTable.ofSteps steps).controlDepth = depth}
          (outline root language rules codeLength).maxNesting) := by
  refine ⟨carriesMarks rules root start t, ?_, fun hsem => ⟨?_, ?_⟩⟩
  · cases hsem : rules.isSemantic with
    | false =>
      rw [resolve, hsem]
      rfl
    | true =>
      have hmarks : (rules.tableOf root).marks = [] := marks_declare_eq .empty .global root
      rw [rules.scopes_resolve hsem, ScopeTable.controlDepth, hmarks]
      rfl
  · rw [rules.scopes_resolve hsem, tableOf]
  · show IsGreatest _ (rules.nesting 0 root)
    rw [nesting_root]
    exact isGreatest_controlDepth rules root .global

open Node (token around)

/-- A function with a loop in an `if`, and another `if` after it. -/
def loopInCondition : Node :=
  around "function_definition" 0 60
    [token "identifier" 4 "f",
      around "if_statement" 10 40 [around "for_statement" 20 40 [token "identifier" 24 "x"]],
      around "if_statement" 50 60 []]

/-- A pass that starts inside another construct is inside two more when it has come into the loop. -/
theorem marks_declare_loopInCondition :
    let start : ScopeTable := { ScopeTable.empty with marks := [⟨"while_statement_0_99"⟩] }
    let inside := loopInCondition.tour.take 4
    let loop : Crossing := loopInCondition.tour[4]
    Python.rules.isSemantic = true ∧
      ((start.applyAll (inside.flatMap (Python.rules.crossingSteps .global))).applyAll
        (Python.rules.crossingSteps .global loop)).marks =
          [⟨"for_statement_20_40"⟩, ⟨"if_statement_10_40"⟩, ⟨"while_statement_0_99"⟩] ∧
      (start.applyAll (Python.rules.declare .global loopInCondition)).marks = start.marks ∧
      (Python.rules.resolve loopInCondition).scopes.controlDepth = 0 ∧
      ∃ steps, steps <+: Python.rules.declare .global loopInCondition ∧
        (ScopeTable.ofSteps steps).controlDepth = 2 := by
  intro start inside loop
  have hsem : Python.rules.isSemantic = true := rfl
  obtain ⟨hcarries, hdepth, hsemantic⟩ :=
    marks_declare Python.rules loopInCondition .global start .python 60
  obtain ⟨-, hreached, -⟩ := hsemantic hsem
  have hnesting : (outline loopInCondition .python Python.rules 60).maxNesting = 2 := by decide
  refine ⟨hsem, ?_, hcarries.returns, hdepth, hnesting ▸ hreached⟩
  rw [hcarries.crossed inside loop (loopInCondition.tour.drop 5) rfl]
  decide

end ScopingRules

end CodeGraph
