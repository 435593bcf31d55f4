import CodeGraph.Proofs.Scope.WayOut
import Mathlib.Data.Finset.Card
import Mathlib.Data.List.Chain
import Mathlib.Data.List.Infix

/-!
# What a scope table answers

A scope table keeps six things apart, and what it answers about one of them is read off from the steps of that part of
its history. A name, a variable or the scope around a scope is what the last step on it gives (`LastGives`). The
control-flow constructs being visited are those whose entry no later exit takes back (`openMarks`). The list of the
scopes around a scope and the search for a variable go the same way out. Main statement: `answers_ofSteps`.
-/

namespace CodeGraph

namespace Writes

variable {κ ν : Type} [DecidableEq κ]

theorem mem_keysOf_iff {key : κ} {xs : List (κ × ν)} : key ∈ keysOf xs ↔ ∃ value, (key, value) ∈ xs := by
  induction xs with
  | nil => simp [keysOf]
  | cons x xs ih =>
    obtain ⟨k, v⟩ := x
    have hcons : key ∈ keysOf ((k, v) :: xs) ↔ key = k ∨ key ∈ keysOf xs := by
      rw [keysOf]
      by_cases hk : k ∈ keysOf xs
      · rw [if_pos hk]
        constructor
        · exact Or.inr
        · rintro (rfl | h)
          · exact hk
          · exact h
      · rw [if_neg hk, List.mem_cons]
    rw [hcons, ih]
    constructor
    · rintro (rfl | ⟨value, h⟩)
      · exact ⟨v, List.mem_cons_self⟩
      · exact ⟨value, List.mem_cons_of_mem _ h⟩
    · rintro ⟨value, h⟩
      rcases List.mem_cons.mp h with heq | h
      · exact Or.inl (Prod.mk.inj heq).1
      · exact Or.inr ⟨value, h⟩

theorem nodup_keysOf (xs : List (κ × ν)) : (keysOf xs).Nodup := by
  induction xs with
  | nil => exact List.nodup_nil
  | cons x xs ih =>
    obtain ⟨k, v⟩ := x
    rw [keysOf]
    by_cases hk : k ∈ keysOf xs
    · rwa [if_pos hk]
    · rw [if_neg hk]
      exact List.nodup_cons.mpr ⟨hk, ih⟩

end Writes

/-- What a scope table keeps apart. -/
inductive ScopePart where
  | functions
  | classes
  | imports
  | bindings
  /-- Which scopes were entered, and where they lie. -/
  | nesting
  /-- The control-flow constructs being visited. -/
  | marks
deriving DecidableEq, Repr

namespace ScopeStep

/-- The part of a table that a step is about. -/
def part : ScopeStep → ScopePart
  | .addFunction _ _ => .functions
  | .addClass _ _ => .classes
  | .addImport _ _ => .imports
  | .addVariable _ _ _ => .bindings
  | .enterScope _ _ => .nesting
  | .enterControlFlow _ | .exitControlFlow => .marks

/-- Whether a step enters a control-flow construct. -/
def isEntry : ScopeStep → Bool
  | .enterControlFlow _ => true
  | _ => false

/-- Whether a step leaves a control-flow construct. -/
def isExit : ScopeStep → Bool
  | .exitControlFlow => true
  | _ => false

end ScopeStep

namespace ScopeTable

variable {t t' : ScopeTable} {steps : List ScopeStep} {s : ScopeStep}

theorem ofSteps_concat (steps : List ScopeStep) (s : ScopeStep) :
    ofSteps (steps ++ [s]) = (ofSteps steps).apply s := by
  rw [ofSteps, applyAll_append]
  rfl

/-! ### The last step on a key -/

/-- An answer is what the last of the steps of a form gives; there is none where no step has the form. -/
inductive LastGives {α ν : Type} (form : α → ScopeStep) (gives : α → ν) (steps : List ScopeStep) :
    Option ν → Prop where
  | never (h : ∀ a, form a ∉ steps) : LastGives form gives steps none
  | last {before after : List ScopeStep} {a : α} (h : steps = before ++ form a :: after)
      (hafter : ∀ b, form b ∉ after) : LastGives form gives steps (some (gives a))

/-- A step of another form changes nothing about the last one of a form. -/
theorem LastGives.concat {α ν : Type} {form : α → ScopeStep} {gives : α → ν} {answer : Option ν}
    (h : LastGives form gives steps answer) (hs : ∀ a, form a ≠ s) :
    LastGives form gives (steps ++ [s]) answer := by
  have hkept : ∀ {xs : List ScopeStep}, (∀ a, form a ∉ xs) → ∀ a, form a ∉ xs ++ [s] := by
    intro xs hxs a hmem
    rcases List.mem_append.mp hmem with hmem | hmem
    · exact hxs a hmem
    · exact hs a (List.mem_singleton.mp hmem)
  cases h with
  | never h => exact .never (hkept h)
  | @last before after a h hafter =>
    have hsteps : steps ++ [s] = before ++ form a :: (after ++ [s]) := by
      rw [h, List.append_assoc, List.cons_append]
    exact .last hsteps (hkept hafter)

namespace Group

variable {κ ν : Type} [DecidableEq κ] (g : Group κ ν)

theorem get?_apply (t : ScopeTable) (s : ScopeStep) (key : κ) :
    (g.writes (t.apply s)).get? key =
      (Writes.newest? key (g.written? s).toList).or ((g.writes t).get? key) := by
  rw [Writes.get?, g.writes_apply, Writes.newest?_append, Writes.get?]

/-- A key of a group has what the last step gives that writes under it. -/
theorem lastGives_ofSteps {α : Type} {form : α → ScopeStep} {gives : α → ν} {key : κ}
    (hform : ∀ a, g.written? (form a) = some (key, gives a))
    (honly : ∀ s value, g.written? s = some (key, value) → ∃ a, form a = s)
    (steps : List ScopeStep) :
    LastGives form gives steps ((g.writes (ofSteps steps)).get? key) := by
  induction steps using List.reverseRecOn with
  | nil =>
    have hnone : (g.writes (ofSteps [])).get? key = none := by
      rw [Writes.get?, g.entries_ofSteps]
      rfl
    rw [hnone]
    exact .never fun a => List.not_mem_nil
  | append_singleton steps s ih =>
    rw [ofSteps_concat, g.get?_apply]
    by_cases hs : ∃ a, form a = s
    · obtain ⟨a, rfl⟩ := hs
      have hnewest : Writes.newest? key (g.written? (form a)).toList = some (gives a) := by
        simp [hform, Writes.newest?]
      rw [hnewest, Option.some_or]
      exact .last rfl fun b => List.not_mem_nil
    · have hnewest : Writes.newest? key (g.written? s).toList = none := by
        cases hwritten : g.written? s with
        | none => rfl
        | some entry =>
          obtain ⟨k, value⟩ := entry
          have hk : k ≠ key := by
            rintro rfl
            exact hs (honly s value hwritten)
          simp [Writes.newest?, hk]
      rw [hnewest, Option.none_or]
      exact ih.concat fun a ha => hs ⟨a, ha⟩

end Group

/-- The scopes that were entered are counted once each. -/
theorem scopeCount_ofSteps (steps : List ScopeStep) :
    ∃ ids : Finset NodeId, (∀ id, id ∈ ids ↔ ∃ parent, .enterScope id parent ∈ steps) ∧
      (ofSteps steps).scopeCount = ids.card := by
  have hentries : (ofSteps steps).parents.entries = (steps.filterMap ScopeStep.entered?).reverse :=
    Group.nesting.entries_ofSteps steps
  refine ⟨(Writes.keysOf (ofSteps steps).parents.entries).toFinset, fun id => ?_, ?_⟩
  · rw [List.mem_toFinset, Writes.mem_keysOf_iff, hentries]
    constructor
    · rintro ⟨outer, hmem⟩
      obtain ⟨s, hs, hentered⟩ := List.mem_filterMap.mp (List.mem_reverse.mp hmem)
      cases s with
      | enterScope id' parent =>
        obtain ⟨rfl, -⟩ := Prod.mk.inj (Option.some.inj hentered)
        exact ⟨parent, hs⟩
      | _ => cases hentered
    · rintro ⟨parent, hmem⟩
      exact ⟨parent.getD .global, List.mem_reverse.mpr (List.mem_filterMap.mpr ⟨_, hmem, rfl⟩)⟩
  · rw [List.toFinset_card_of_nodup (Writes.nodup_keysOf _)]
    rfl

/-! ### The stack of marks -/

/-- A construct entered before some steps is still being visited after them: at no point among them were there more
exits than entries. -/
def staysOpen (later : List ScopeStep) : Bool :=
  later.inits.all fun steps => steps.countP ScopeStep.isExit ≤ steps.countP ScopeStep.isEntry

/-- The control-flow constructs that a history leaves open, outermost first. -/
def openMarks : List ScopeStep → List NodeId
  | [] => []
  | .enterControlFlow id :: later =>
    if staysOpen later then id :: openMarks later else openMarks later
  | _ :: later => openMarks later

/-- How many of the marks that were there before some steps are gone after them. -/
def marksTaken : List ScopeStep → Nat
  | [] => 0
  | .enterControlFlow _ :: later => marksTaken later - 1
  | .exitControlFlow :: later => marksTaken later + 1
  | _ :: later => marksTaken later

theorem marksTaken_le_iff {later : List ScopeStep} {k : Nat} :
    marksTaken later ≤ k ↔ ∀ steps, steps <+: later →
      steps.countP ScopeStep.isExit ≤ steps.countP ScopeStep.isEntry + k := by
  induction later generalizing k with
  | nil =>
    constructor
    · intro _ steps hsteps
      rw [List.prefix_nil.mp hsteps]
      exact Nat.zero_le _
    · intro _
      exact Nat.zero_le _
  | cons s later ih =>
    have hcons : (∀ steps, steps <+: s :: later →
          steps.countP ScopeStep.isExit ≤ steps.countP ScopeStep.isEntry + k) ↔
        ∀ steps, steps <+: later →
          (s :: steps).countP ScopeStep.isExit ≤ (s :: steps).countP ScopeStep.isEntry + k := by
      constructor
      · intro h steps hsteps
        exact h _ (List.cons_prefix_cons.mpr ⟨rfl, hsteps⟩)
      · intro h steps hsteps
        rcases List.prefix_cons_iff.mp hsteps with rfl | ⟨rest, rfl, hrest⟩
        · exact Nat.zero_le _
        · exact h rest hrest
    rw [hcons]
    cases s with
    | enterControlFlow id =>
      rw [marksTaken, Nat.sub_le_iff_le_add, ih]
      refine forall_congr' fun steps => imp_congr_right fun _ => ?_
      simp only [List.countP_cons, ScopeStep.isEntry, ScopeStep.isExit, if_true, Bool.false_eq_true, if_false]
      omega
    | exitControlFlow =>
      rw [marksTaken]
      cases k with
      | zero =>
        constructor
        · intro h
          omega
        · intro h
          -- the exit alone is one more than there are entries
          exact absurd (h [] List.nil_prefix) (by decide)
      | succ k =>
        rw [Nat.add_le_add_iff_right, ih]
        refine forall_congr' fun steps => imp_congr_right fun _ => ?_
        simp only [List.countP_cons, ScopeStep.isEntry, ScopeStep.isExit, if_true, Bool.false_eq_true, if_false]
        omega
    | _ => simp [marksTaken, ih, ScopeStep.isEntry, ScopeStep.isExit]

theorem staysOpen_iff {later : List ScopeStep} : staysOpen later = true ↔ marksTaken later = 0 := by
  rw [← Nat.le_zero, marksTaken_le_iff]
  simp [staysOpen]

/-- After some steps the marks are those that the steps leave open, and of the earlier ones those that are not taken. -/
theorem marks_applyAll (steps : List ScopeStep) (t : ScopeTable) :
    (t.applyAll steps).marks = (openMarks steps).reverse ++ t.marks.drop (marksTaken steps) := by
  induction steps generalizing t with
  | nil => rfl
  | cons s later ih =>
    rw [applyAll_cons, ih]
    cases s with
    | enterControlFlow id =>
      rw [openMarks, marksTaken]
      by_cases hopen : staysOpen later = true
      · simp [hopen, staysOpen_iff.mp hopen, apply]
      · have hpos : marksTaken later ≠ 0 := fun h => hopen (staysOpen_iff.mpr h)
        obtain ⟨k, hk⟩ := Nat.exists_eq_succ_of_ne_zero hpos
        simp [hopen, hk, apply]
    | exitControlFlow => simp [openMarks, marksTaken, apply, List.drop_tail]
    | _ => rfl

theorem marks_ofSteps (steps : List ScopeStep) : (ofSteps steps).marks = (openMarks steps).reverse := by
  rw [ofSteps, marks_applyAll]
  simp [empty]

/-! ### Parts apart -/

/-- Two tables hold the same in one part. -/
def SameIn : ScopePart → ScopeTable → ScopeTable → Prop
  | .functions, t, t' => t.functions = t'.functions
  | .classes, t, t' => t.classes = t'.classes
  | .imports, t, t' => t.imports = t'.imports
  | .bindings, t, t' => t.bindings = t'.bindings
  | .nesting, t, t' => t.parents = t'.parents
  | .marks, t, t' => t.marks = t'.marks

/-- Two tables answer alike whatever is asked of one part. -/
def AgreeOn : ScopePart → ScopeTable → ScopeTable → Prop
  | .functions, t, t' => ∀ name, t.findFunction name = t'.findFunction name
  | .classes, t, t' => ∀ name, t.findClass name = t'.findClass name
  | .imports, t, t' => ∀ name, t.findImport name = t'.findImport name
  | .bindings, t, t' => ∀ scope name, t.lookupLocal scope name = t'.lookupLocal scope name
  | .nesting, t, t' => t.scopeCount = t'.scopeCount ∧
      ∀ scope, t.parent? scope = t'.parent? scope ∧ t.scopeChain scope = t'.scopeChain scope
  | .marks, t, t' => t.currentControlFlow = t'.currentControlFlow ∧
      t.controlDepth = t'.controlDepth ∧ t.exitControlFlow.1 = t'.exitControlFlow.1

variable {part : ScopePart}

theorem SameIn.apply (h : SameIn part t t') (s : ScopeStep) :
    SameIn part (t.apply s) (t'.apply s) := by
  cases part <;> cases s <;> simp_all [SameIn, ScopeTable.apply]

theorem SameIn.applyAll (h : SameIn part t t') (steps : List ScopeStep) :
    SameIn part (t.applyAll steps) (t'.applyAll steps) := by
  induction steps generalizing t t' with
  | nil => exact h
  | cons s steps ih => exact ih (h.apply s)

/-- A step leaves the parts alone that it is not about. -/
theorem sameIn_apply_of_ne (h : s.part ≠ part) (t : ScopeTable) : SameIn part (t.apply s) t := by
  cases part <;> cases s <;> first | rfl | exact absurd rfl h

theorem sameIn_applyAll_of_ne (h : ∀ s ∈ steps, s.part ≠ part) (t : ScopeTable) :
    SameIn part (t.applyAll steps) t := by
  induction steps generalizing t with
  | nil => cases part <;> rfl
  | cons s steps ih =>
    have hs := sameIn_apply_of_ne (h s List.mem_cons_self) t
    have hsteps := ih (fun s hs => h s (List.mem_cons_of_mem _ hs)) (t.apply s)
    cases part <;> exact Eq.trans hsteps hs

theorem SameIn.scopeChain (h : SameIn .nesting t t') (scope : Scope) :
    t.scopeChain scope = t'.scopeChain scope := by
  have hparents : t.parents = t'.parents := h
  have hparent : ∀ scope, t.parent? scope = t'.parent? scope := by
    intro scope
    cases scope with
    | global => rfl
    | node id => rw [parent?, hparents, parent?]
  have hwithin : ∀ fuel scope, t.chainWithin fuel scope = t'.chainWithin fuel scope := by
    intro fuel
    induction fuel with
    | zero => exact fun _ => rfl
    | succ fuel ih =>
      intro scope
      simp only [chainWithin, hparent, ih]
  rw [ScopeTable.scopeChain, hwithin, wayOut, hparents]
  rfl

theorem SameIn.agreeOn (h : SameIn part t t') : AgreeOn part t t' := by
  cases part with
  | functions | classes | imports =>
    intro name
    simp only [SameIn] at h
    simp only [findFunction, findClass, findImport, h]
  | bindings =>
    intro scope name
    simp only [SameIn] at h
    simp only [lookupLocal, h]
  | nesting =>
    have hparents : t.parents = t'.parents := h
    refine ⟨by rw [scopeCount, hparents, scopeCount], fun scope => ⟨?_, h.scopeChain scope⟩⟩
    cases scope with
    | global => rfl
    | node id => rw [parent?, hparents, parent?]
  | marks =>
    simp only [SameIn] at h
    simp only [AgreeOn, exitControlFlow, currentControlFlow, controlDepth, h, true_and]

/-! ### The way out -/

/-- The search for a variable is a search through the scopes on the way out. -/
theorem findWithin_eq_findSome? (t : ScopeTable) (name : String) (fuel : Nat) (scope : Scope) :
    t.findWithin name fuel scope = (t.chainWithin fuel scope).findSome? (t.lookupLocal · name) := by
  induction fuel generalizing scope with
  | zero =>
    rw [findWithin, chainWithin, List.findSome?_singleton]
  | succ fuel ih =>
    rw [findWithin, chainWithin, List.findSome?_cons]
    cases t.lookupLocal scope name with
    | some id => rfl
    | none =>
      cases t.parent? scope with
      | none => rfl
      | some outer => exact ih outer

theorem ChainFrom.head?_eq {scope : Scope} {chain : List Scope} (h : t.ChainFrom scope chain) :
    chain.head? = some scope := by
  cases h <;> rfl

theorem ChainFrom.isChain {scope : Scope} {chain : List Scope} (h : t.ChainFrom scope chain) :
    chain.IsChain fun inner outer => t.parent? inner = some outer := by
  induction h with
  | last => exact .singleton _
  | outward hsome hrest ih =>
    refine List.isChain_cons.mpr ⟨fun outer houter => ?_, ih⟩
    rw [hrest.head?_eq] at houter
    obtain rfl := Option.mem_some.mp houter
    exact hsome

theorem ChainFrom.parent?_getLast {scope : Scope} {chain : List Scope} (h : t.ChainFrom scope chain) :
    ∀ final ∈ chain.getLast?, t.parent? final = none := by
  induction h with
  | last hnone =>
    intro final hfinal
    obtain rfl := Option.some.inj hfinal
    exact hnone
  | outward hsome hrest ih =>
    intro final hfinal
    refine ih final ?_
    cases hrest with
    | last => rwa [List.getLast?_cons_cons] at hfinal
    | outward => rwa [List.getLast?_cons_cons] at hfinal

/-- A table answers as a history tells. -/
structure Recalls (t : ScopeTable) (steps : List ScopeStep) : Prop where
  functions : ∀ name, LastGives (.addFunction name) id steps (t.findFunction name)
  classes : ∀ name, LastGives (.addClass name) id steps (t.findClass name)
  imports : ∀ name, LastGives (.addImport name) id steps (t.findImport name)
  bindings : ∀ scope name,
    LastGives (fun id => .addVariable name id scope) id steps (t.lookupLocal scope name)
  parents : ∀ id, LastGives (.enterScope id) (·.getD .global) steps (t.parent? (.node id))
  scopes : ∃ ids : Finset NodeId, (∀ id, id ∈ ids ↔ ∃ parent, .enterScope id parent ∈ steps) ∧
    t.scopeCount = ids.card
  current : t.currentControlFlow = (openMarks steps).getLast?
  depth : t.controlDepth = (openMarks steps).length
  exits : t.exitControlFlow = ((openMarks steps).getLast?, ofSteps (steps ++ [.exitControlFlow]))

theorem recalls_ofSteps (steps : List ScopeStep) : (ofSteps steps).Recalls steps where
  functions name := by
    refine Group.functions.lastGives_ofSteps (fun _ => rfl) (fun s id hs => ?_) steps
    cases s with
    | addFunction name' id' =>
      obtain ⟨rfl, rfl⟩ := Prod.mk.inj (Option.some.inj hs)
      exact ⟨_, rfl⟩
    | _ => cases hs
  classes name := by
    refine Group.classes.lastGives_ofSteps (fun _ => rfl) (fun s id hs => ?_) steps
    cases s with
    | addClass name' id' =>
      obtain ⟨rfl, rfl⟩ := Prod.mk.inj (Option.some.inj hs)
      exact ⟨_, rfl⟩
    | _ => cases hs
  imports name := by
    refine Group.imports.lastGives_ofSteps (fun _ => rfl) (fun s id hs => ?_) steps
    cases s with
    | addImport name' id' =>
      obtain ⟨rfl, rfl⟩ := Prod.mk.inj (Option.some.inj hs)
      exact ⟨_, rfl⟩
    | _ => cases hs
  bindings scope name := by
    refine Group.bindings.lastGives_ofSteps (fun _ => rfl) (fun s id hs => ?_) steps
    cases s with
    | addVariable name' id' scope' =>
      obtain ⟨hkey, rfl⟩ := Prod.mk.inj (Option.some.inj hs)
      obtain ⟨rfl, rfl⟩ := Prod.mk.inj hkey
      exact ⟨_, rfl⟩
    | _ => cases hs
  parents id := by
    refine Group.nesting.lastGives_ofSteps (fun _ => rfl) (fun s outer hs => ?_) steps
    cases s with
    | enterScope id' parent =>
      obtain ⟨rfl, -⟩ := Prod.mk.inj (Option.some.inj hs)
      exact ⟨_, rfl⟩
    | _ => cases hs
  scopes := scopeCount_ofSteps steps
  current := by rw [currentControlFlow, marks_ofSteps, List.head?_reverse]
  depth := by rw [controlDepth, marks_ofSteps, List.length_reverse]
  exits := by
    rw [exitControlFlow, currentControlFlow, marks_ofSteps, List.head?_reverse, ofSteps_concat]

/-- **A scope table answers by its history.** For each name, variable and scope it tells what the last step on it gave,
and nothing where there was no such step; it counts the scopes that were entered, and its marks are a stack. A step that
is about another part might as well be missing. From wherever the way out ends, the scopes that the table lists start
there, each lies in the next, and the last lies in none; and the search for a variable ends with the first hit among
them. -/
theorem answers_ofSteps (steps : List ScopeStep) :
    let t := ofSteps steps
    t.Recalls steps ∧
      (∀ before s after part, steps = before ++ s :: after → s.part ≠ part →
        AgreeOn part t (ofSteps (before ++ after))) ∧
      ∀ start, (∃ chain, t.ChainFrom start chain) →
        (t.scopeChain start).head? = some start ∧
          ((t.scopeChain start).IsChain fun inner outer => t.parent? inner = some outer) ∧
          (∀ final ∈ (t.scopeChain start).getLast?, t.parent? final = none) ∧
          ∀ name, t.Search name start (t.findVariable name start) ∧
            t.findVariable name start = (t.scopeChain start).findSome? (t.lookupLocal · name) := by
  intro t
  refine ⟨recalls_ofSteps steps, ?_, ?_⟩
  · intro before s after part hsteps hpart
    refine SameIn.agreeOn ?_
    have hleft : t = ((ofSteps before).apply s).applyAll after := by
      show ofSteps steps = _
      rw [hsteps, ofSteps, applyAll_append]
      rfl
    have hright : ofSteps (before ++ after) = (ofSteps before).applyAll after := by
      rw [ofSteps, applyAll_append]
      rfl
    rw [hleft, hright]
    exact (sameIn_apply_of_ne hpart _).applyAll after
  · rintro start ⟨chain, hchain⟩
    rw [hchain.scopeChain_eq]
    refine ⟨hchain.head?_eq, hchain.isChain, hchain.parent?_getLast, fun name => ⟨?_, ?_⟩⟩
    · exact hchain.search_findWithin name hchain.length_le
    · rw [findVariable, findWithin_eq_findSome?, hchain.chainWithin_eq hchain.length_le]

/-- A scope is entered, left and entered again with another parent, a scope that is spelled like the global one lies in
it, and a construct is entered for which there is no exit. -/
def reentered : List ScopeStep :=
  [.enterScope ⟨"class_0_90"⟩ (some (.node ⟨"function_0_99"⟩)),
    .addVariable "x" ⟨"identifier_5_6"⟩ (.node ⟨"class_0_90"⟩), .enterControlFlow ⟨"if_7_80"⟩,
    .enterScope ⟨"global"⟩ (some (.node ⟨"class_0_90"⟩)),
    .addVariable "x" ⟨"identifier_8_9"⟩ .global, .enterControlFlow ⟨"for_10_40"⟩, .exitControlFlow,
    .enterScope ⟨"class_0_90"⟩ none]

theorem answers_ofSteps_reentered :
    let t := ofSteps reentered
    (∃ chain, t.ChainFrom (.node ⟨"global"⟩) chain) ∧
      (t.scopeChain (.node ⟨"global"⟩)).head? = some (.node ⟨"global"⟩) ∧
      t.findVariable "x" (.node ⟨"global"⟩) = some ⟨"identifier_5_6"⟩ ∧
      t.currentControlFlow = some ⟨"if_7_80"⟩ ∧
      (ofSteps (reentered.drop 1)).currentControlFlow = t.currentControlFlow := by
  intro t
  obtain ⟨hrecalls, happart, hout⟩ := answers_ofSteps reentered
  have hchain : t.ChainFrom (.node ⟨"global"⟩) [.node ⟨"global"⟩, .node ⟨"class_0_90"⟩, .global] :=
    .outward (by decide) (.outward (by decide) (.last rfl))
  obtain ⟨hhead, -, -, hfind⟩ := hout _ ⟨_, hchain⟩
  refine ⟨⟨_, hchain⟩, hhead, ?_, ?_, ?_⟩
  · rw [(hfind "x").2]
    decide
  · rw [hrecalls.current]
    decide
  · exact (happart [] _ _ .marks rfl (by decide)).1.symm

end ScopeTable

end CodeGraph
