import CodeGraph.Proofs.Scope.Passes
import CodeGraph.Scoping.RuleBook

/-!
# Where the variables of a definition lie

Every variable that a definition binds is named by the text of its node, and that node lies below the defining
one with no scope opened in between. So a name being bound stands in the scope it is bound in, whichever of the
patterns of a language it is reached through. Main statement: `ScopingRules.boundIn_variablesOf`.
-/

namespace CodeGraph

namespace ScopingRules

variable (rules : ScopingRules)

/-- Whether a node has a place in a tree at which a scope is the innermost. -/
def LiesIn (root : Node) (scope : Scope) (n : Node) : Prop :=
  ∃ above, ⟨n, above⟩ ∈ root.places ∧ rules.innermost (n :: above) = scope

/-- A binding that is named by the text of its node, which lies in a scope of a tree. -/
structure BoundIn (root : Node) (scope : Scope) (b : Binding) : Prop where
  name_eq : b.name = b.node.text
  liesIn : rules.LiesIn root scope b.node

/-- Kinds of nodes that open no scope. -/
def Inert (kinds : List String) : Prop := ∀ kind ∈ kinds, rules.introducesScope kind = false

instance (kinds : List String) : Decidable (rules.Inert kinds) :=
  inferInstanceAs (Decidable (∀ kind ∈ kinds, rules.introducesScope kind = false))

variable {rules} {root : Node} {scope : Scope} {n c : Node}

theorem liesIn_of_mem_places {p : Place} (hp : p ∈ root.places) :
    rules.LiesIn root (rules.innermost p.path) p.node := ⟨p.above, hp, rfl⟩

theorem LiesIn.child (h : rules.LiesIn root scope n) (hc : c ∈ n.children)
    (hinert : rules.introducesScope c.kind = false) : rules.LiesIn root scope c := by
  obtain ⟨above, hmem, hscope⟩ := h
  refine ⟨n :: above, Node.mem_places_child hmem hc, ?_⟩
  rw [innermost_cons, scopeIn, hinert, if_neg Bool.false_ne_true]
  exact hscope

theorem LiesIn.child_of_mem {kinds : List String} (hkinds : rules.Inert kinds)
    (h : rules.LiesIn root scope n) (hc : c ∈ n.children) (hkind : kinds.contains c.kind = true) :
    rules.LiesIn root scope c :=
  h.child hc (hkinds c.kind (List.contains_iff_mem.mp hkind))

theorem LiesIn.child_of_beq {kind : String} (hinert : rules.introducesScope kind = false)
    (h : rules.LiesIn root scope n) (hc : c ∈ n.children) (hkind : (c.kind == kind) = true) :
    rules.LiesIn root scope c := by
  refine h.child hc ?_
  rw [beq_iff_eq.mp hkind]
  exact hinert

theorem LiesIn.childOfKind {kind : String} (hinert : rules.introducesScope kind = false)
    (h : rules.LiesIn root scope n) (hc : n.childOfKind? kind = some c) :
    rules.LiesIn root scope c := by
  have hkind := List.find?_some hc
  exact h.child_of_beq hinert (List.mem_of_find?_eq_some hc) hkind

theorem LiesIn.childOfKinds {kinds : List String} (hkinds : rules.Inert kinds)
    (h : rules.LiesIn root scope n) (hc : n.childOfKinds? kinds = some c) :
    rules.LiesIn root scope c := by
  have hkind := List.find?_some hc
  exact h.child_of_mem hkinds (List.mem_of_find?_eq_some hc) hkind

theorem LiesIn.bound (h : rules.LiesIn root scope n) : rules.BoundIn root scope (Binding.of n) :=
  ⟨rfl, h⟩

/-! ### Patterns of leaves -/

section Patterns

variable {leafKinds patternKinds : List String}

mutual

theorem boundIn_patternLeaves (hleaf : rules.Inert leafKinds) (hpattern : rules.Inert patternKinds) :
    ∀ (c : Node) {n : Node}, rules.LiesIn root scope n → c ∈ n.children →
      ∀ b ∈ patternLeaves leafKinds patternKinds c, rules.BoundIn root scope b
  | ⟨kind, span, text, children⟩, n, h, hc, b, hb => by
    rw [patternLeaves] at hb
    split at hb
    · next hkind =>
      rw [List.mem_singleton.mp hb]
      exact (h.child_of_mem hleaf hc hkind).bound
    · split at hb
      · next hkind =>
        have hinner := h.child_of_mem hpattern hc hkind
        exact boundIn_patternLeavesAll hleaf hpattern children hinner (fun _ hm => hm) b hb
      · exact absurd hb List.not_mem_nil

theorem boundIn_patternLeavesAll (hleaf : rules.Inert leafKinds)
    (hpattern : rules.Inert patternKinds) :
    ∀ (cs : List Node) {n : Node}, rules.LiesIn root scope n → (∀ c ∈ cs, c ∈ n.children) →
      ∀ b ∈ patternLeavesAll leafKinds patternKinds cs, rules.BoundIn root scope b
  | [], _, _, _, _, hb => absurd hb List.not_mem_nil
  | c :: cs, n, h, hcs, b, hb => by
    rw [patternLeavesAll, List.mem_append] at hb
    rcases hb with hb | hb
    · exact boundIn_patternLeaves hleaf hpattern c h (hcs c List.mem_cons_self) b hb
    · exact boundIn_patternLeavesAll hleaf hpattern cs h
        (fun m hm => hcs m (List.mem_cons_of_mem _ hm)) b hb

end

end Patterns

end ScopingRules

open ScopingRules

variable {root : Node} {scope : Scope} {n c : Node} {b : Binding}

/-! ### Python -/

namespace Python

theorem boundIn_parameter? (h : rules.LiesIn root scope n) (hc : c ∈ n.children)
    (hb : parameter? c = some b) : rules.BoundIn root scope b := by
  unfold parameter? at hb
  split at hb
  · next hkind =>
    obtain rfl := Option.some.inj hb
    exact (h.child_of_beq (by decide) hc hkind).bound
  · split at hb
    · next hkind =>
      have hwrapper : rules.LiesIn root scope c := h.child_of_mem (by decide) hc hkind
      split at hb
      · next name hname =>
        obtain rfl := Option.some.inj hb
        exact (hwrapper.childOfKind (by decide) hname).bound
      · obtain ⟨name, hname, rfl⟩ := Option.map_eq_some_iff.mp hb
        obtain ⟨splat, hsplat, hname⟩ := Option.bind_eq_some_iff.mp hname
        have hsplat := hwrapper.childOfKinds (by decide) hsplat
        exact (hsplat.childOfKind (by decide) hname).bound
    · cases hb

theorem boundIn_parameters (h : rules.LiesIn root scope n) (hb : b ∈ parameters n) :
    rules.BoundIn root scope b := by
  unfold parameters at hb
  split at hb
  · exact absurd hb List.not_mem_nil
  · next list hlist =>
    obtain ⟨c, hc, hcb⟩ := List.mem_filterMap.mp hb
    exact boundIn_parameter? (h.childOfKind (by decide) hlist) hc hcb

theorem boundIn_targets {cs : List Node} (h : rules.LiesIn root scope n)
    (hcs : ∀ c ∈ cs, c ∈ n.children) (hb : b ∈ targets cs) : rules.BoundIn root scope b :=
  boundIn_patternLeavesAll (by decide) (by decide) cs h hcs b hb

theorem boundIn_variablesOf (h : rules.LiesIn root scope n) (hb : b ∈ rules.variablesOf n) :
    rules.BoundIn root scope b := by
  unfold variablesOf at hb
  change b ∈ ((definition n).map Definition.variables).getD [] at hb
  unfold definition at hb
  split at hb
  · exact boundIn_parameters h hb
  split at hb
  · cases hname : n.childOfKind? "identifier" <;> rw [hname] at hb <;> exact absurd hb List.not_mem_nil
  split at hb
  · exact boundIn_targets h (fun c hc => (List.takeWhile_sublist _).mem hc) hb
  split at hb
  · refine boundIn_targets h (fun c hc => ?_) hb
    have hdrop := (List.takeWhile_sublist _).mem hc
    exact (List.dropWhile_sublist _).mem (List.mem_of_mem_drop hdrop)
  split at hb
  · exact absurd hb List.not_mem_nil
  · exact absurd hb List.not_mem_nil

end Python

/-! ### The ECMAScript family -/

namespace EcmaScript

theorem firstPatternNames_subset : ∀ ns, firstPatternNames ns ⊆ patternNamesAll ns
  | [], _, hb => hb
  | _ :: _, _, hb => List.mem_append_left _ hb

theorem lastPatternNames_subset : ∀ ns, lastPatternNames ns ⊆ patternNamesAll ns
  | [], _, hb => hb
  | _ :: ns, b, hb => by
    rw [lastPatternNames] at hb
    split at hb
    · exact List.mem_append_left _ hb
    · exact List.mem_append_right _ (lastPatternNames_subset ns hb)

theorem parameterNames_subset : ∀ ns, parameterNames ns ⊆ patternNamesAll ns
  | [], _, hb => hb
  | _ :: ns, b, hb => by
    rw [parameterNames] at hb
    split at hb
    · exact List.mem_append_right _ (parameterNames_subset ns hb)
    · exact List.mem_append_left _ hb

/-- Kinds of patterns that bind what some of their children bind. -/
def compoundPatterns : List String :=
  groupPatterns ++ ["pair_pattern"] ++ defaultPatterns ++ typedParameters

/-- A pattern is a name, or its children bind what it binds. -/
theorem mem_patternNames (hb : b ∈ patternNames n) :
    names.contains n.kind = true ∧ b = Binding.of n ∨
      compoundPatterns.contains n.kind = true ∧ b ∈ patternNamesAll n.children := by
  obtain ⟨kind, span, text, children⟩ := n
  have hcompound : ∀ {kinds : List String}, kinds ⊆ compoundPatterns →
      kinds.contains kind = true → compoundPatterns.contains kind = true :=
    fun hsub h => List.contains_iff_mem.mpr (hsub (List.contains_iff_mem.mp h))
  rw [patternNames] at hb
  split at hb
  · next hkind => exact .inl ⟨hkind, List.mem_singleton.mp hb⟩
  split at hb
  · next hkind => exact .inr ⟨hcompound (by decide) hkind, hb⟩
  split at hb
  · next hkind =>
    have hpair : ["pair_pattern"].contains kind = true := by simpa using hkind
    exact .inr ⟨hcompound (by decide) hpair, lastPatternNames_subset children hb⟩
  split at hb
  · next hkind => exact .inr ⟨hcompound (by decide) hkind, firstPatternNames_subset children hb⟩
  split at hb
  · next hkind => exact .inr ⟨hcompound (by decide) hkind, parameterNames_subset children hb⟩
  · exact absurd hb List.not_mem_nil

mutual

theorem boundIn_patternNames : ∀ (c : Node) {n : Node}, rules.LiesIn root scope n →
    c ∈ n.children → ∀ b ∈ patternNames c, rules.BoundIn root scope b
  | ⟨kind, span, text, children⟩, n, h, hc, b, hb => by
    rcases mem_patternNames hb with ⟨hkind, rfl⟩ | ⟨hkind, hb⟩
    · exact (h.child_of_mem (by decide) hc hkind).bound
    · have hinner := h.child_of_mem (by decide) hc hkind
      exact boundIn_patternNamesAll children hinner (fun _ hm => hm) b hb

theorem boundIn_patternNamesAll : ∀ (cs : List Node) {n : Node}, rules.LiesIn root scope n →
    (∀ c ∈ cs, c ∈ n.children) → ∀ b ∈ patternNamesAll cs, rules.BoundIn root scope b
  | [], _, _, _, _, hb => absurd hb List.not_mem_nil
  | c :: cs, n, h, hcs, b, hb => by
    rw [patternNamesAll, List.mem_append] at hb
    rcases hb with hb | hb
    · exact boundIn_patternNames c h (hcs c List.mem_cons_self) b hb
    · exact boundIn_patternNamesAll cs h (fun m hm => hcs m (List.mem_cons_of_mem _ hm)) b hb

end

theorem boundIn_parameters (h : rules.LiesIn root scope n) (hb : b ∈ parameters n) :
    rules.BoundIn root scope b := by
  unfold parameters at hb
  split at hb
  · next list hlist =>
    have hlist := h.childOfKind (by decide) hlist
    exact boundIn_patternNamesAll list.children hlist (fun _ hc => hc) b hb
  split at hb
  · split at hb
    · next first rest hchildren =>
      split at hb
      · next hkind =>
        rw [List.mem_singleton.mp hb]
        have hfirst : first ∈ n.children := hchildren ▸ List.mem_cons_self
        exact (h.child_of_beq (by decide) hfirst hkind).bound
      · exact absurd hb List.not_mem_nil
    · exact absurd hb List.not_mem_nil
  · exact absurd hb List.not_mem_nil

theorem boundIn_variablesOf (h : rules.LiesIn root scope n) (hb : b ∈ rules.variablesOf n) :
    rules.BoundIn root scope b := by
  unfold variablesOf at hb
  change b ∈ ((definition n).map Definition.variables).getD [] at hb
  unfold definition at hb
  split at hb
  · exact boundIn_parameters h hb
  split at hb
  · cases hname : n.childOfKinds? ["identifier", "type_identifier"] <;> rw [hname] at hb <;>
      exact absurd hb List.not_mem_nil
  split at hb
  · exact boundIn_patternNamesAll n.children h (fun _ hc => hc) b
      (firstPatternNames_subset n.children hb)
  split at hb
  · refine boundIn_patternNamesAll _ h (fun c hc => ?_) b hb
    have hdrop := (List.takeWhile_sublist _).mem hc
    exact (List.dropWhile_sublist _).mem (List.mem_of_mem_drop hdrop)
  split at hb
  · exact absurd hb List.not_mem_nil
  · exact absurd hb List.not_mem_nil

end EcmaScript

/-! ### Go -/

namespace Go

theorem boundIn_identifiers (h : rules.LiesIn root scope n)
    (hb : b ∈ (identifiers n).map Binding.of) : rules.BoundIn root scope b := by
  obtain ⟨name, hname, rfl⟩ := List.mem_map.mp hb
  obtain ⟨hmem, hkind⟩ := List.mem_filter.mp hname
  exact (h.child_of_beq (by decide) hmem hkind).bound

theorem boundIn_parameters (h : rules.LiesIn root scope n) (hb : b ∈ parameters n) :
    rules.BoundIn root scope b := by
  obtain ⟨name, hname, rfl⟩ := List.mem_map.mp hb
  obtain ⟨declaration, hdeclaration, hname⟩ := List.mem_flatMap.mp hname
  obtain ⟨list, hlist, hdeclaration⟩ := List.mem_flatMap.mp hdeclaration
  obtain ⟨hlist, hlistKind⟩ := List.mem_filter.mp hlist
  obtain ⟨hdeclaration, hdeclares⟩ := List.mem_filter.mp hdeclaration
  have hlist := h.child_of_beq (by decide) hlist hlistKind
  have hdeclaration : rules.LiesIn root scope declaration := by
    rcases (Bool.or_eq_true _ _).mp hdeclares with hkind | hkind
    · exact hlist.child_of_beq (by decide) hdeclaration hkind
    · exact hlist.child_of_beq (by decide) hdeclaration hkind
  exact boundIn_identifiers hdeclaration (List.mem_map_of_mem hname)

theorem boundIn_shortTargets (h : rules.LiesIn root scope n) (hb : b ∈ shortTargets n) :
    rules.BoundIn root scope b := by
  unfold shortTargets at hb
  split at hb
  · exact absurd hb List.not_mem_nil
  split at hb
  · exact absurd hb List.not_mem_nil
  · next list hlist => exact boundIn_identifiers (h.childOfKind (by decide) hlist) hb

theorem boundIn_variablesOf (h : rules.LiesIn root scope n) (hb : b ∈ rules.variablesOf n) :
    rules.BoundIn root scope b := by
  unfold variablesOf at hb
  change b ∈ ((definition n).map Definition.variables).getD [] at hb
  unfold definition at hb
  split at hb
  · exact boundIn_parameters h hb
  split at hb
  · exact boundIn_parameters h hb
  split at hb
  · cases hname : n.childOfKind? "type_identifier" <;> rw [hname] at hb <;>
      exact absurd hb List.not_mem_nil
  split at hb
  · exact boundIn_shortTargets h hb
  split at hb
  · exact boundIn_identifiers h hb
  split at hb
  · exact absurd hb List.not_mem_nil
  · exact absurd hb List.not_mem_nil

end Go

/-- **The variables of a definition lie in the scope they are bound in**, and are named by their nodes. -/
theorem ScopingRules.boundIn_variablesOf {rules : ScopingRules} (hrules : rules ∈ builtIn)
    {p : Place} (hp : p ∈ root.places) (hb : b ∈ rules.variablesOf p.node) :
    rules.BoundIn root (rules.innermost p.path) b := by
  have h := rules.liesIn_of_mem_places hp
  rcases mem_builtIn.mp hrules with rfl | rfl | rfl | rfl
  · exact Python.boundIn_variablesOf h hb
  · exact EcmaScript.boundIn_variablesOf h hb
  · exact Go.boundIn_variablesOf h hb
  · exact absurd hb List.not_mem_nil

end CodeGraph
