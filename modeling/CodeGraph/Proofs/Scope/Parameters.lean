import CodeGraph.Proofs.Scope.Binders
import CodeGraph.Proofs.Tree.Places
import Mathlib.Data.List.Chain

/-!
# Parameters and the names they define

Two functions of the ECMAScript rules select the name of a parameter: `patternNames` follows the child that
each pattern takes its names from, and `isDefinitionSite` compares a child with the first identifier beside it.
A name is bound exactly where every pattern on the way to it takes the child that leads there
(`binds_parameter_iff_taken`). The two functions disagree where a typed parameter begins with neither an
accessibility modifier nor the name: behind `readonly`, `override` or a decorator the name stays unbound, and the
default value of a destructured parameter counts as a name being defined.
-/

namespace CodeGraph.EcmaScript

variable {list n c d p : Node} {b : Binding}

/-! ### The children that names are taken from -/

/-- The children of a pattern that bind what it binds. -/
def taken (p : Node) : List Node :=
  if groupPatterns.contains p.kind then p.children
  else if p.kind == "pair_pattern" then p.children.getLast?.toList
  else if defaultPatterns.contains p.kind then p.children.head?.toList
  else if typedParameters.contains p.kind then
    (p.children.find? (·.kind != "accessibility_modifier")).toList
  else []

/-- Whether the pattern `p` takes names from its child `c`. -/
def Takes (c p : Node) : Prop := c ∈ taken p

theorem patternNamesAll_eq_flatMap (ns : List Node) : patternNamesAll ns = ns.flatMap patternNames := by
  induction ns with
  | nil => rfl
  | cons n ns ih => rw [patternNamesAll, ih, List.flatMap_cons]

theorem firstPatternNames_eq_flatMap (ns : List Node) :
    firstPatternNames ns = ns.head?.toList.flatMap patternNames := by
  cases ns with
  | nil => rfl
  | cons n ns => simp [firstPatternNames]

theorem lastPatternNames_eq_flatMap (ns : List Node) :
    lastPatternNames ns = ns.getLast?.toList.flatMap patternNames := by
  induction ns with
  | nil => rfl
  | cons n ns ih =>
    rw [lastPatternNames]
    cases ns with
    | nil => simp
    | cons m ms => simpa using ih

theorem parameterNames_eq_flatMap (ns : List Node) :
    parameterNames ns =
      (ns.find? (·.kind != "accessibility_modifier")).toList.flatMap patternNames := by
  induction ns with
  | nil => rfl
  | cons n ns ih =>
    rw [parameterNames]
    by_cases hkind : n.kind = "accessibility_modifier"
    · simpa [hkind] using ih
    · simp [hkind]

/-- A pattern that is no name binds what the children bind that it takes. -/
theorem patternNames_eq (n : Node) :
    patternNames n =
      if names.contains n.kind then [Binding.of n] else (taken n).flatMap patternNames := by
  obtain ⟨kind, span, text, children⟩ := n
  rw [patternNames, taken]
  split_ifs
  · rfl
  · exact patternNamesAll_eq_flatMap children
  · exact lastPatternNames_eq_flatMap children
  · exact firstPatternNames_eq_flatMap children
  · exact parameterNames_eq_flatMap children
  · rfl

theorem patternNames_of_identifier (hn : n.kind = "identifier") : patternNames n = [Binding.of n] := by
  rw [patternNames_eq, hn]
  rfl

theorem mem_children_of_takes (h : Takes c p) : c ∈ p.children := by
  unfold Takes taken at h
  split_ifs at h
  · exact h
  · exact List.mem_of_getLast? (Option.mem_toList.mp h)
  · exact List.mem_of_head? (Option.mem_toList.mp h)
  · exact List.mem_of_find?_eq_some (Option.mem_toList.mp h)
  · exact absurd h List.not_mem_nil

theorem names_contains_of_takes (h : Takes c p) : names.contains p.kind = false := by
  rw [← Bool.not_eq_true]
  intro hname
  have hkind : p.kind = "identifier" ∨ p.kind = "shorthand_property_identifier_pattern" := by
    simpa [names] using hname
  unfold Takes taken at h
  rcases hkind with hkind | hkind <;> rw [hkind] at h <;> exact absurd h List.not_mem_nil

theorem mem_patternNames_of_takes (h : Takes c p) (hb : b ∈ patternNames c) : b ∈ patternNames p := by
  rw [patternNames_eq, names_contains_of_takes h, if_neg Bool.false_ne_true]
  exact List.mem_flatMap.mpr ⟨c, h, hb⟩

/-! ### The ways down to the bound names -/

/-- A pattern binds all that it leads to by the children it takes. -/
theorem mem_patternNames_of_isChain (hb : b ∈ patternNames n) (way : List Node)
    (hway : (n :: way).IsChain Takes) : b ∈ patternNames ((n :: way).getLast (List.cons_ne_nil n way)) := by
  induction way generalizing n with
  | nil => exact hb
  | cons m way ih =>
    obtain ⟨htakes, hway⟩ := List.isChain_cons_cons.mp hway
    rw [List.getLast_cons (List.cons_ne_nil m way)]
    exact ih (mem_patternNames_of_takes htakes hb) hway

/-- A way down from a node to a name, by the children that each pattern takes. -/
structure Leads (root : Node) (above : List Node) (b : Binding) (c n : Node) (way : List Node) : Prop where
  eq_of : b = Binding.of n
  mem_places : ⟨n, way ++ above⟩ ∈ root.places
  isChain : (n :: way).IsChain Takes
  getLast? : (n :: way).getLast? = some c

theorem Leads.snoc {root : Node} {above way : List Node} (h : Leads root (p :: above) b c n way)
    (htakes : Takes c p) : Leads root above b p n (way ++ [p]) where
  eq_of := h.eq_of
  mem_places := by simpa using h.mem_places
  isChain := by
    rw [← List.cons_append, List.isChain_append]
    refine ⟨h.isChain, List.isChain_singleton p, ?_⟩
    intro x hx y hy
    obtain rfl := Option.some.inj (h.getLast?.symm.trans hx)
    obtain rfl := Option.some.inj hy
    exact htakes
  getLast? := by
    rw [← List.cons_append]
    exact List.getLast?_concat

mutual

/-- What a pattern binds, it leads to. -/
theorem exists_leads {root : Node} : ∀ (c : Node) {above : List Node}, ⟨c, above⟩ ∈ root.places →
    b ∈ patternNames c → ∃ n way, Leads root above b c n way
  | ⟨kind, span, text, children⟩, above, hc, hb => by
    rw [patternNames_eq] at hb
    split_ifs at hb
    · exact ⟨_, [], List.mem_singleton.mp hb, hc, List.isChain_singleton _, rfl⟩
    · obtain ⟨d, htakes, hb⟩ := List.mem_flatMap.mp hb
      have hmem : d ∈ children := mem_children_of_takes htakes
      obtain ⟨n, way, hleads⟩ := exists_leadsAll children d hmem (Node.mem_places_child hc hmem) hb
      exact ⟨n, _, hleads.snoc htakes⟩

theorem exists_leadsAll {root : Node} : ∀ (cs : List Node), ∀ d ∈ cs, ∀ {above : List Node},
    ⟨d, above⟩ ∈ root.places → b ∈ patternNames d → ∃ n way, Leads root above b d n way
  | [], _, hd, _, _, _ => absurd hd List.not_mem_nil
  | c :: cs, d, hd, _, hplace, hb => by
    rcases List.mem_cons.mp hd with heq | hd
    · rw [heq] at hplace hb ⊢
      exact exists_leads c hplace hb
    · exact exists_leadsAll cs d hd hplace hb

end

/-- **What a parameter list binds.** An identifier is bound by the parameters of a list exactly where some way
leads down to it on which each pattern takes the next. -/
theorem mem_patternNamesAll_iff (hn : n.kind = "identifier") :
    Binding.of n ∈ patternNamesAll list.children ↔
      ∃ way, ⟨n, way ++ [list]⟩ ∈ list.places ∧ (n :: way).IsChain Takes := by
  rw [patternNamesAll_eq_flatMap, List.mem_flatMap]
  constructor
  · rintro ⟨c, hc, hb⟩
    obtain ⟨m, way, hleads⟩ :=
      exists_leads c (Node.mem_places_child (Node.mem_places_self list) hc) hb
    obtain rfl : n = m := (Binding.mk.inj hleads.eq_of).2
    exact ⟨way, hleads.mem_places, hleads.isChain⟩
  · rintro ⟨way, hplace, hway⟩
    have hb : Binding.of n ∈ patternNames n := by
      rw [patternNames_of_identifier hn]
      exact List.mem_singleton_self _
    -- the last pattern of the way is the parameter itself, a child of the list
    have hpath : ⟨(n :: way).getLast (List.cons_ne_nil n way), [list]⟩ ∈ list.places := by
      refine Node.mem_places_of_suffix hplace ⟨(n :: way).dropLast, ?_⟩
      rw [Place.path, List.append_cons, List.dropLast_append_getLast, List.cons_append]
    exact ⟨_, Node.mem_children_of_mem_places hpath, mem_patternNames_of_isChain hb way hway⟩

/-! ### Where names are defined -/

/-- A node that is reached from a parameter list through parameters and patterns only, innermost first. -/
structure ReachedThrough (list n : Node) (patterns : List Node) : Prop where
  mem_places : ⟨n, patterns ++ [list]⟩ ∈ list.places
  compound : ∀ p ∈ patterns, compoundPatterns.contains p.kind = true

theorem defaultKinds (h : defaultPatterns.contains p.kind = true) :
    p.kind = "assignment_pattern" ∨ p.kind = "object_assignment_pattern" := by
  simpa [defaultPatterns] using h

theorem typedKinds (h : typedParameters.contains p.kind = true) :
    p.kind = "required_parameter" ∨ p.kind = "optional_parameter" := by
  simpa [typedParameters] using h

theorem compoundKinds (h : compoundPatterns.contains p.kind = true) :
    groupPatterns.contains p.kind = true ∨ p.kind = "pair_pattern" ∨
      defaultPatterns.contains p.kind = true ∨ typedParameters.contains p.kind = true := by
  simp only [compoundPatterns, List.contains_iff_mem, List.mem_append, List.mem_singleton] at h ⊢
  tauto

theorem takes_of_group (h : groupPatterns.contains p.kind = true) (hc : c ∈ p.children) : Takes c p := by
  rw [Takes, taken, if_pos h]
  exact hc

theorem taken_of_default (h : defaultPatterns.contains p.kind = true) :
    taken p = p.children.head?.toList := by
  rcases defaultKinds h with hkind | hkind <;> simp [taken, hkind, groupPatterns, defaultPatterns]

theorem taken_of_typed (h : typedParameters.contains p.kind = true) :
    taken p = (p.children.find? (·.kind != "accessibility_modifier")).toList := by
  rcases typedKinds h with hkind | hkind <;>
    simp [taken, hkind, groupPatterns, defaultPatterns, typedParameters]

theorem isDefinitionSite_of_default (h : defaultPatterns.contains p.kind = true) :
    isDefinitionSite p n = p.isFirstChild n := by
  rcases defaultKinds h with hkind | hkind <;> simp [isDefinitionSite, hkind, firstNamingParents]

theorem isDefinitionSite_of_typed (h : typedParameters.contains p.kind = true) :
    isDefinitionSite p n = true ↔
      ∃ first, p.childOfKind? "identifier" = some first ∧ first.span.startByte = n.span.startByte := by
  have hother : firstNamingParents.contains p.kind = false := by
    rcases typedKinds h with hkind | hkind <;> rw [hkind] <;> rfl
  rw [isDefinitionSite, hother, if_neg Bool.false_ne_true, if_pos h]
  cases p.childOfKind? "identifier" with
  | none => simp
  | some first => simp

theorem isDefinitionSite_of_pair (h : p.kind = "pair_pattern") : isDefinitionSite p n = false := by
  simp [isDefinitionSite, h, firstNamingParents, typedParameters, namingParents, functions, classes]

/-- The name of a typed parameter is its first identifier if only accessibility modifiers precede it. -/
theorem childOfKind?_identifier {first : Node}
    (hfirst : p.children.find? (·.kind != "accessibility_modifier") = some first)
    (hkind : first.kind = "identifier") : p.childOfKind? "identifier" = some first := by
  obtain ⟨-, before, after, hchildren, hbefore⟩ := List.find?_eq_some_iff_append.mp hfirst
  refine List.find?_eq_some_iff_append.mpr ⟨beq_iff_eq.mpr hkind, before, after, hchildren, ?_⟩
  intro m hm
  have hmodifier : m.kind = "accessibility_modifier" := by simpa using hbefore m hm
  simp [hmodifier]

/-- An identifier that counts as a name being defined and that its pattern does not take: another child is taken,
which is no identifier in a typed parameter, or which starts at the very same byte. -/
theorem exists_taken_of_definitionSite (hn : n.kind = "identifier") (hmem : n ∈ p.children)
    (hpattern : compoundPatterns.contains p.kind = true) (hsite : isDefinitionSite p n = true)
    (htakes : ¬Takes n p) :
    ∃ first, Takes first p ∧ first ≠ n ∧
      (typedParameters.contains p.kind = true ∧ first.kind ≠ "identifier" ∨
        first.kind = "identifier" ∧ first.span.startByte = n.span.startByte) := by
  have hne : ∀ {first : Node}, Takes first p → first ≠ n := by
    rintro first hfirst rfl
    exact htakes hfirst
  rcases compoundKinds hpattern with hgroup | hpair | hdefault | htyped
  · exact absurd (takes_of_group hgroup hmem) htakes
  · rw [isDefinitionSite_of_pair hpair] at hsite
    cases hsite
  · rw [isDefinitionSite_of_default hdefault, Node.isFirstChild] at hsite
    split at hsite
    · cases hsite
    · next first rest hchildren =>
      have hfirst : Takes first p := by simp [Takes, taken_of_default hdefault, hchildren]
      simp only [Bool.and_eq_true, beq_iff_eq] at hsite
      exact ⟨first, hfirst, hne hfirst, .inr ⟨hsite.2.trans hn, hsite.1⟩⟩
  · obtain ⟨named, hnamed, hstart⟩ := (isDefinitionSite_of_typed htyped).mp hsite
    have hsome : (p.children.find? (·.kind != "accessibility_modifier")).isSome = true :=
      List.find?_isSome.mpr ⟨n, hmem, by simp [hn]⟩
    obtain ⟨first, hfind⟩ := Option.isSome_iff_exists.mp hsome
    have hfirst : Takes first p := by simp [Takes, taken_of_typed htyped, hfind]
    refine ⟨first, hfirst, hne hfirst, ?_⟩
    by_cases hkind : first.kind = "identifier"
    · obtain rfl : first = named :=
        Option.some.inj ((childOfKind?_identifier hfind hkind).symm.trans hnamed)
      exact .inr ⟨hkind, hstart⟩
    · exact .inl ⟨htyped, hkind⟩

/-- **Which names being defined are bound.** Let an identifier be reached from the parameter list of a function
through parameters and patterns, and count as a name being defined. It is one of the parameters exactly where some
way leads down to it on which each pattern takes the next. Where its pattern is reached in this way, it is left out
only by a typed parameter that takes something before it that is no identifier, such as a modifier or a pattern,
or for a twin that starts at the very same byte. -/
theorem definitionSite_bound_iff_taken {f : Node} {patterns : List Node} (hf : functions.contains f.kind = true)
    (hlist : f.childOfKind? "formal_parameters" = some list) (hreached : ReachedThrough list n patterns)
    (hn : n.kind = "identifier") (hsite : rules.isDefinitionSite (patterns.headD list) n = true) :
    ∃ name params, rules.definition f = some (.function name params) ∧
      (Binding.of n ∈ params ↔
        ∃ way, ⟨n, way ++ [list]⟩ ∈ list.places ∧ (n :: way).IsChain Takes) ∧
      (patterns.IsChain Takes → Binding.of n ∉ params →
        ∃ p ∈ patterns.head?, ∃ first, Takes first p ∧ first ≠ n ∧
          (typedParameters.contains p.kind = true ∧ first.kind ≠ "identifier" ∨
            first.kind = "identifier" ∧ first.span.startByte = n.span.startByte)) := by
  have hdefinition : rules.definition f =
      some (.function (functionName? f) (patternNamesAll list.children)) := by
    change definition f = _
    rw [definition, if_pos hf, parameters, hlist]
  refine ⟨_, _, hdefinition, mem_patternNamesAll_iff hn, ?_⟩
  intro hpatterns hunbound
  rw [mem_patternNamesAll_iff hn] at hunbound
  cases patterns with
  | nil => exact absurd ⟨[], hreached.mem_places, List.isChain_singleton n⟩ hunbound
  | cons p outer =>
    have htakes : ¬Takes n p := fun htakes =>
      hunbound ⟨p :: outer, hreached.mem_places, List.isChain_cons_cons.mpr ⟨htakes, hpatterns⟩⟩
    have hmem : n ∈ p.children := Node.mem_children_of_mem_places hreached.mem_places
    have hpattern := hreached.compound p List.mem_cons_self
    exact ⟨p, rfl, exists_taken_of_definitionSite hn hmem hpattern hsite htakes⟩

/-! ### Names behind modifiers, and default values -/

open Node (token around)

/-- The parameter `a` of the TypeScript source `function f(private [a = d]) \x7b\x7d`. -/
def defaultedName : Node := around "assignment_pattern" 20 25
  [token "identifier" 20 "a", token "=" 22 "=", token "identifier" 24 "d"]

/-- The pattern that it is an element of. -/
def elementPattern : Node := around "array_pattern" 19 26 [token "[" 19 "[", defaultedName, token "]" 25 "]"]

/-- The parameter with its modifier. -/
def privateParameter : Node := around "required_parameter" 11 26
  [around "accessibility_modifier" 11 18 [token "private" 11 "private"], elementPattern]

/-- The parameter list. -/
def privateList : Node :=
  around "formal_parameters" 10 27 [token "(" 10 "(", privateParameter, token ")" 26 ")"]

/-- The function. -/
def privateFunction : Node := around "function_declaration" 0 30
  [token "function" 0 "function", token "identifier" 9 "f", privateList,
    around "statement_block" 28 30 [token "\x7b" 28 "\x7b", token "\x7d" 29 "\x7d"]]

theorem definitionSite_bound_iff_taken_privateFunction :
    functions.contains privateFunction.kind = true ∧
      privateFunction.childOfKind? "formal_parameters" = some privateList ∧
      ReachedThrough privateList (token "identifier" 20 "a")
        [defaultedName, elementPattern, privateParameter] ∧
      (token "identifier" 20 "a").kind = "identifier" ∧
      rules.isDefinitionSite defaultedName (token "identifier" 20 "a") = true ∧
      ∃ name params, rules.definition privateFunction = some (.function name params) ∧
        Binding.of (token "identifier" 20 "a") ∈ params := by
  have hparameter : ⟨privateParameter, [privateList]⟩ ∈ privateList.places :=
    Node.mem_places_child (Node.mem_places_self privateList) (.tail _ (.head _))
  have helement : ⟨elementPattern, [privateParameter, privateList]⟩ ∈ privateList.places :=
    Node.mem_places_child hparameter (.tail _ (.head _))
  have hdefaulted : ⟨defaultedName, [elementPattern, privateParameter, privateList]⟩ ∈ privateList.places :=
    Node.mem_places_child helement (.tail _ (.head _))
  have hreached : ReachedThrough privateList (token "identifier" 20 "a")
      [defaultedName, elementPattern, privateParameter] :=
    ⟨Node.mem_places_child hdefaulted (.head _), by decide⟩
  refine ⟨rfl, rfl, hreached, rfl, by decide, ?_⟩
  obtain ⟨name, params, hdefinition, hbound, -⟩ :=
    definitionSite_bound_iff_taken (f := privateFunction) rfl rfl hreached rfl (by decide)
  have hway : [token "identifier" 20 "a", defaultedName, elementPattern, privateParameter].IsChain Takes :=
    .cons_cons (.head _) (.cons_cons (.tail _ (.head _)) (.cons_cons (.head _) (.singleton _)))
  exact ⟨name, params, hdefinition, hbound.mpr ⟨_, hreached.mem_places, hway⟩⟩

/-- Whether all identifiers in the parameters of a function that count as names being defined are bound. -/
def DefinitionSitesBound (f : Node) : Prop :=
  ∀ list n patterns, f.childOfKind? "formal_parameters" = some list → ReachedThrough list n patterns →
    n.kind = "identifier" → rules.isDefinitionSite (patterns.headD list) n = true →
    ∀ name params, rules.definition f = some (.function name params) → Binding.of n ∈ params

/-- The parameter of the method in `class C \x7b constructor(readonly a) \x7b\x7d \x7d`. -/
def readonlyParameter : Node :=
  around "required_parameter" 22 32 [token "readonly" 22 "readonly", token "identifier" 31 "a"]

/-- Its parameter list. -/
def readonlyList : Node :=
  around "formal_parameters" 21 33 [token "(" 21 "(", readonlyParameter, token ")" 32 ")"]

/-- The method. -/
def readonlyMethod : Node := around "method_definition" 10 36
  [token "property_identifier" 10 "constructor", readonlyList,
    around "statement_block" 34 36 [token "\x7b" 34 "\x7b", token "\x7d" 35 "\x7d"]]

/-- The parameter of the TypeScript source `function f(\x7b b \x7d = d) \x7b\x7d`. -/
def destructuredParameter : Node := around "required_parameter" 11 20
  [around "object_pattern" 11 16
      [token "\x7b" 11 "\x7b", token "shorthand_property_identifier_pattern" 13 "b",
        token "\x7d" 15 "\x7d"],
    token "=" 17 "=", token "identifier" 19 "d"]

/-- Its parameter list. -/
def destructuredList : Node :=
  around "formal_parameters" 10 21 [token "(" 10 "(", destructuredParameter, token ")" 20 ")"]

/-- The function. -/
def destructuredFunction : Node := around "function_declaration" 0 24
  [token "function" 0 "function", token "identifier" 9 "f", destructuredList,
    around "statement_block" 22 24 [token "\x7b" 22 "\x7b", token "\x7d" 23 "\x7d"]]

/-- A name behind `readonly` is not bound, and the default value of a destructured parameter counts as a name
being defined. -/
theorem not_definitionSitesBound :
    (functions.contains readonlyMethod.kind = true ∧ ¬DefinitionSitesBound readonlyMethod) ∧
      (functions.contains destructuredFunction.kind = true ∧
        ¬DefinitionSitesBound destructuredFunction) := by
  refine ⟨⟨rfl, fun h => ?_⟩, ⟨rfl, fun h => ?_⟩⟩
  · have hparameter : ⟨readonlyParameter, [readonlyList]⟩ ∈ readonlyList.places :=
      Node.mem_places_child (Node.mem_places_self readonlyList) (.tail _ (.head _))
    have hreached : ReachedThrough readonlyList (token "identifier" 31 "a") [readonlyParameter] :=
      ⟨Node.mem_places_child hparameter (.tail _ (.head _)), by decide⟩
    have hbound := h _ _ _ rfl hreached rfl (by decide) _ _ rfl
    exact absurd hbound List.not_mem_nil
  · have hparameter : ⟨destructuredParameter, [destructuredList]⟩ ∈ destructuredList.places :=
      Node.mem_places_child (Node.mem_places_self destructuredList) (.tail _ (.head _))
    have hreached : ReachedThrough destructuredList (token "identifier" 19 "d") [destructuredParameter] :=
      ⟨Node.mem_places_child hparameter (.tail _ (.tail _ (.head _))), by decide⟩
    have hbound := h _ _ _ rfl hreached rfl (by decide) _ _ rfl
    have hname : "d" = "b" := (Binding.mk.inj (List.mem_singleton.mp hbound)).1
    exact absurd hname (by decide)

end CodeGraph.EcmaScript
