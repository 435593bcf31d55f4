import CodeGraph.Scope.Table

/-!
# Scope tables by their histories

Every part of a scope table is a list of writes, newest first. After a history of steps each part holds
what the steps of its own group wrote, so a look-up answers with the last step of its group and key.
-/

namespace CodeGraph

namespace Writes

variable {κ ν : Type} [DecidableEq κ]

theorem newest?_append (key : κ) (xs ys : List (κ × ν)) :
    newest? key (xs ++ ys) = (newest? key xs).or (newest? key ys) := by
  induction xs with
  | nil => rfl
  | cons x xs ih =>
    obtain ⟨k, v⟩ := x
    by_cases hk : k = key
    · simp [newest?, hk]
    · simp [newest?, hk, ih]

/-- Of a list of writes, oldest first, the newest of a key is the last one. -/
theorem newest?_reverse (key : κ) (xs : List (κ × ν)) :
    newest? key xs.reverse = ((xs.filter (·.1 = key)).map (·.2)).getLast? := by
  induction xs with
  | nil => rfl
  | cons x xs ih =>
    obtain ⟨k, v⟩ := x
    rw [List.reverse_cons, newest?_append, ih]
    by_cases hk : k = key
    · simp [newest?, hk, List.getLast?_cons, Option.or_some]
    · simp [newest?, hk]

/-- A key that is written once has the value that is written under it. -/
theorem newest?_of_mem {xs : List (κ × ν)} (hnd : (xs.map (·.1)).Nodup) {key : κ} {value : ν}
    (hmem : (key, value) ∈ xs) : newest? key xs = some value := by
  induction xs with
  | nil => exact absurd hmem List.not_mem_nil
  | cons x xs ih =>
    obtain ⟨k, v⟩ := x
    rw [List.map_cons, List.nodup_cons] at hnd
    rcases List.mem_cons.mp hmem with heq | hmem
    · obtain ⟨rfl, rfl⟩ := Prod.mk.inj heq
      simp [newest?]
    · have hne : k ≠ key := by
        rintro rfl
        exact hnd.1 (List.mem_map.mpr ⟨_, hmem, rfl⟩)
      rw [newest?, if_neg hne]
      exact ih hnd.2 hmem

theorem mem_of_newest? {xs : List (κ × ν)} {key : κ} {value : ν}
    (h : newest? key xs = some value) : (key, value) ∈ xs := by
  induction xs with
  | nil => cases h
  | cons x xs ih =>
    obtain ⟨k, v⟩ := x
    rw [newest?] at h
    split at h
    · next hk =>
      obtain rfl := Option.some.inj h
      exact hk ▸ List.mem_cons_self
    · exact List.mem_cons_of_mem _ (ih h)

end Writes

namespace ScopeStep

/-- What a step writes into the variables. -/
def bound? : ScopeStep → Option ((Scope × String) × NodeId)
  | .addVariable name id scope => some ((scope, name), id)
  | _ => none

/-- What a step writes into the nesting of scopes. -/
def entered? : ScopeStep → Option (NodeId × Scope)
  | .enterScope id parent => some (id, parent.getD .global)
  | _ => none

/-- What a step writes into the functions. -/
def functionAdded? : ScopeStep → Option (String × NodeId)
  | .addFunction name id => some (name, id)
  | _ => none

/-- What a step writes into the classes. -/
def classAdded? : ScopeStep → Option (String × NodeId)
  | .addClass name id => some (name, id)
  | _ => none

/-- What a step writes into the imports. -/
def importAdded? : ScopeStep → Option (String × NodeId)
  | .addImport name id => some (name, id)
  | _ => none

end ScopeStep

namespace ScopeTable

/-- One of the groups of names in a scope table, with what each step writes into it. A step writes at
most one entry, and only the steps of a group change it. -/
structure Group (κ ν : Type) where
  writes : ScopeTable → Writes κ ν
  written? : ScopeStep → Option (κ × ν)
  writes_empty : (writes empty).entries = []
  writes_apply : ∀ t s, (writes (t.apply s)).entries = (written? s).toList ++ (writes t).entries

namespace Group

variable {κ ν : Type} (g : Group κ ν)

theorem entries_applyAll (steps : List ScopeStep) (t : ScopeTable) :
    (g.writes (t.applyAll steps)).entries =
      (steps.filterMap g.written?).reverse ++ (g.writes t).entries := by
  induction steps generalizing t with
  | nil => rfl
  | cons s steps ih =>
    rw [applyAll_cons, ih, g.writes_apply, List.filterMap_cons]
    cases g.written? s <;> simp

theorem entries_ofSteps (steps : List ScopeStep) :
    (g.writes (ofSteps steps)).entries = (steps.filterMap g.written?).reverse := by
  rw [ofSteps, g.entries_applyAll, g.writes_empty, List.append_nil]

/-- After a history of steps, a key of a group has the value that was written under it last. -/
theorem get?_ofSteps [DecidableEq κ] (steps : List ScopeStep) (key : κ) :
    (g.writes (ofSteps steps)).get? key =
      (((steps.filterMap g.written?).filter (·.1 = key)).map (·.2)).getLast? := by
  rw [Writes.get?, g.entries_ofSteps, Writes.newest?_reverse]

/-- The bindings of variables, by scope and name. -/
def bindings : Group (Scope × String) NodeId :=
  ⟨ScopeTable.bindings, ScopeStep.bound?, rfl, fun _ s => by cases s <;> rfl⟩

/-- The nesting of scopes. -/
def nesting : Group NodeId Scope :=
  ⟨ScopeTable.parents, ScopeStep.entered?, rfl, fun _ s => by cases s <;> rfl⟩

/-- The functions, by name. -/
def functions : Group String NodeId :=
  ⟨ScopeTable.functions, ScopeStep.functionAdded?, rfl, fun _ s => by cases s <;> rfl⟩

/-- The classes, by name. -/
def classes : Group String NodeId :=
  ⟨ScopeTable.classes, ScopeStep.classAdded?, rfl, fun _ s => by cases s <;> rfl⟩

/-- The imports, by name. -/
def imports : Group String NodeId :=
  ⟨ScopeTable.imports, ScopeStep.importAdded?, rfl, fun _ s => by cases s <;> rfl⟩

end Group

/-- A variable of a scope is the one that was bound last. -/
theorem lookupLocal_ofSteps (steps : List ScopeStep) (scope : Scope) (name : String) :
    (ofSteps steps).lookupLocal scope name =
      (((steps.filterMap ScopeStep.bound?).filter (·.1 = (scope, name))).map (·.2)).getLast? := by
  exact Group.bindings.get?_ofSteps steps (scope, name)

/-- An import of a name is the one that was added last. -/
theorem findImport_ofSteps (steps : List ScopeStep) (name : String) :
    (ofSteps steps).findImport name =
      (((steps.filterMap ScopeStep.importAdded?).filter (·.1 = name)).map (·.2)).getLast? := by
  exact Group.imports.get?_ofSteps steps name

/-- A scope that is entered once lies where it was entered. -/
theorem parent?_ofSteps {steps : List ScopeStep}
    (hnd : ((steps.filterMap ScopeStep.entered?).map (·.1)).Nodup) {id : NodeId} {outer : Scope}
    (hmem : (id, outer) ∈ steps.filterMap ScopeStep.entered?) :
    (ofSteps steps).parent? (.node id) = some outer := by
  have hentries : (ofSteps steps).parents.entries = (steps.filterMap ScopeStep.entered?).reverse :=
    Group.nesting.entries_ofSteps steps
  rw [parent?, Writes.get?, hentries]
  refine Writes.newest?_of_mem ?_ (List.mem_reverse.mpr hmem)
  rw [List.map_reverse]
  exact List.pairwise_reverse.mpr (hnd.imp Ne.symm)

/-- What a search finds is a variable of one of the scopes it visits. -/
theorem exists_lookupLocal_of_findWithin {table : ScopeTable} {name : String} {id : NodeId} {fuel : Nat}
    {scope : Scope} (h : table.findWithin name fuel scope = some id) :
    ∃ scope, table.lookupLocal scope name = some id := by
  induction fuel generalizing scope with
  | zero => exact ⟨scope, h⟩
  | succ fuel ih =>
    rw [findWithin] at h
    split at h
    · next found hfound => exact ⟨scope, hfound.trans h⟩
    split at h
    · cases h
    · exact ih h

end ScopeTable

end CodeGraph
