import CodeGraph.Proofs.Json.Spelling

/-!
# Values read back

The text of a value, on one line or over many, is read as one document, and nothing is taken of what
follows it. All numbers of the values considered here are natural numbers.
-/

namespace CodeGraph

namespace Document

/-- The document of a number; only natural numbers have one. -/
def ofNumber : JsonNumber → Document
  | .natural n => number (Json.literal false n)
  | .negative _ => malformed
  | .double _ => malformed

mutual

/-- The document as which the text of a value is read. -/
def ofJson : Json → Document
  | .null => null
  | .bool b => bool b
  | .number n => ofNumber n
  | .string s => string (some s)
  | .array items => array (ofJsonAll items)
  | .object members => object (ofJsonMembers members)

/-- The documents of some values. -/
def ofJsonAll : List Json → List Document
  | [] => []
  | x :: xs => ofJson x :: ofJsonAll xs

/-- The documents of the members of an object. -/
def ofJsonMembers : List (String × Json) → List (Option String × Document)
  | [] => []
  | (key, x) :: ms => (some key, ofJson x) :: ofJsonMembers ms

end

theorem ofJsonAll_eq_map (xs : List Json) : ofJsonAll xs = xs.map ofJson := by
  induction xs with
  | nil => rfl
  | cons x xs ih => rw [ofJsonAll, ih, List.map_cons]

theorem ofJsonMembers_eq_map (ms : List (String × Json)) :
    ofJsonMembers ms = ms.map fun m => (some m.1, ofJson m.2) := by
  induction ms with
  | nil => rfl
  | cons m ms ih => rw [ofJsonMembers, ih, List.map_cons]

@[simp] theorem ofJson_string (s : String) : ofJson (.string s) = string (some s) := rfl

@[simp] theorem ofJson_nat (n : Nat) : ofJson (.nat n) = number (Json.literal false n) := rfl

@[simp] theorem ofJson_array (xs : List Json) : ofJson (.array xs) = array (xs.map ofJson) := by
  rw [ofJson, ofJsonAll_eq_map]

@[simp] theorem ofJson_object (ms : List (String × Json)) :
    ofJson (.object ms) = object (ms.map fun m => (some m.1, ofJson m.2)) := by
  rw [ofJson, ofJsonMembers_eq_map]

end Document

namespace Json

mutual

/-- The numbers of a value, in the order in which they are written. -/
def numbers : Json → List JsonNumber
  | null => []
  | bool _ => []
  | number n => [n]
  | string _ => []
  | array items => numbersAll items
  | object members => numbersOfMembers members

/-- The numbers of some values. -/
def numbersAll : List Json → List JsonNumber
  | [] => []
  | x :: xs => numbers x ++ numbersAll xs

/-- The numbers of the members of an object. -/
def numbersOfMembers : List (String × Json) → List JsonNumber
  | [] => []
  | (_, x) :: ms => numbers x ++ numbersOfMembers ms

end

mutual

/-- The number of calls within one another by which the text of a value is read. -/
def reach : Json → Nat
  | null => 1
  | bool _ => 1
  | number _ => 1
  | string _ => 1
  | array items => reachAll items + 1
  | object members => reachOfMembers members + 1

/-- The number of calls within one another by which some items are read. -/
def reachAll : List Json → Nat
  | [] => 0
  | x :: xs => max (reach x) (reachAll xs) + 1

/-- The number of calls within one another by which some members are read. -/
def reachOfMembers : List (String × Json) → Nat
  | [] => 0
  | (_, x) :: ms => max (reach x) (reachOfMembers ms) + 1

end

/-- All numbers of a value are natural. -/
def OnlyNaturals (j : Json) : Prop := ∀ n ∈ j.numbers, ∃ k, n = .natural k

theorem numbersAll_eq_flatMap (xs : List Json) : numbersAll xs = xs.flatMap numbers := by
  induction xs with
  | nil => rfl
  | cons x xs ih => rw [numbersAll, ih, List.flatMap_cons]

theorem numbersOfMembers_eq_flatMap (ms : List (String × Json)) :
    numbersOfMembers ms = ms.flatMap fun m => numbers m.2 := by
  induction ms with
  | nil => rfl
  | cons m ms ih => rw [numbersOfMembers, ih, List.flatMap_cons]

@[simp] theorem numbers_string (s : String) : (string s).numbers = [] := rfl

@[simp] theorem numbers_nat (n : Nat) : (nat n).numbers = [.natural n] := rfl

@[simp] theorem numbers_array (xs : List Json) : (array xs).numbers = xs.flatMap numbers := by
  rw [numbers, numbersAll_eq_flatMap]

@[simp] theorem numbers_object (ms : List (String × Json)) :
    (object ms).numbers = ms.flatMap fun m => numbers m.2 := by
  rw [numbers, numbersOfMembers_eq_flatMap]

/-! ### White space -/

theorem skipSpace_cons_of_isSpace {c : Char} (hc : isSpace c = true) (cs : List Char) :
    skipSpace (c :: cs) = skipSpace cs := by
  simp [skipSpace, hc]

theorem skipSpace_cons_of_not_isSpace {c : Char} (hc : isSpace c = false) (cs : List Char) :
    skipSpace (c :: cs) = c :: cs := by
  simp [skipSpace, hc]

@[simp] theorem skipSpace_skipSpace (cs : List Char) : skipSpace (skipSpace cs) = skipSpace cs := by
  induction cs with
  | nil => rfl
  | cons c cs ih =>
    cases hc : isSpace c with
    | true => rw [skipSpace_cons_of_isSpace hc, ih]
    | false => rw [skipSpace_cons_of_not_isSpace hc, skipSpace_cons_of_not_isSpace hc]

theorem skipSpace_append {lead : List Char} (hlead : ∀ c ∈ lead, isSpace c = true)
    (cs : List Char) : skipSpace (lead ++ cs) = skipSpace cs := by
  induction lead with
  | nil => rfl
  | cons c lead ih =>
    rw [List.cons_append, skipSpace_cons_of_isSpace (hlead c (by simp)),
      ih fun d hd => hlead d (by simp [hd])]

@[simp] theorem skipSpace_lineBreak (l : Layout) (cs : List Char) :
    skipSpace (l.lineBreak cs) = skipSpace cs := by
  cases l with
  | compact => rfl
  | indented level =>
    rw [Layout.lineBreak, skipSpace_cons_of_isSpace rfl, skipSpace_append]
    intro c hc
    rw [List.eq_of_mem_replicate hc]
    rfl

@[simp] theorem skipSpace_gap (l : Layout) (cs : List Char) :
    skipSpace (l.gap cs) = skipSpace cs := by
  cases l with
  | compact => rfl
  | indented level => rw [Layout.gap, skipSpace_cons_of_isSpace rfl]

theorem length_le_length_lineBreak (l : Layout) (cs : List Char) :
    cs.length ≤ (l.lineBreak cs).length := by
  cases l with
  | compact => exact Nat.le_refl _
  | indented level =>
    rw [Layout.lineBreak, List.length_cons, List.length_append]
    omega

theorem length_le_length_gap (l : Layout) (cs : List Char) : cs.length ≤ (l.gap cs).length := by
  cases l with
  | compact => exact Nat.le_refl _
  | indented level => exact Nat.le_succ _

theorem lineBreak_append (l : Layout) (rest tail : List Char) :
    l.lineBreak (rest ++ tail) = l.lineBreak rest ++ tail := by
  cases l with
  | compact => rfl
  | indented level =>
    rw [Layout.lineBreak, Layout.lineBreak, List.cons_append, List.append_assoc]

theorem gap_append (l : Layout) (rest tail : List Char) :
    l.gap (rest ++ tail) = l.gap rest ++ tail := by
  cases l <;> rfl

theorem comma_append (first : Bool) (rest tail : List Char) :
    comma first (rest ++ tail) = comma first rest ++ tail := by
  cases first <;> rfl

theorem quote_append (s : String) (rest tail : List Char) :
    quote s (rest ++ tail) = quote s rest ++ tail := by
  rw [quote, quote, List.cons_append, List.append_assoc, List.cons_append]

theorem endsNumber_lineBreak (l : Layout) {c : Char} (hc : c = ']' ∨ c = '}') (rest : List Char) :
    EndsNumber (l.lineBreak (c :: rest)) := by
  cases l with
  | compact =>
    rcases hc with rfl | rfl
    · exact endsNumber_cons rfl (by decide) (by decide) (by decide) rest
    · exact endsNumber_cons rfl (by decide) (by decide) (by decide) rest
  | indented level => exact endsNumber_cons rfl (by decide) (by decide) (by decide) _

/-- A value starts with a character that is no white space and closes nothing. -/
theorem write_head (l : Layout) {j : Json} (hj : j.OnlyNaturals) (rest : List Char) :
    ∃ c cs, j.write l rest = c :: cs ∧ isSpace c = false ∧ c ≠ ']' ∧ c ≠ '}' := by
  cases j with
  | null => exact ⟨'n', _, rfl, rfl, by decide, by decide⟩
  | bool b =>
    cases b with
    | false => exact ⟨'f', _, rfl, rfl, by decide, by decide⟩
    | true => exact ⟨'t', _, rfl, rfl, by decide, by decide⟩
  | number n =>
    obtain ⟨k, rfl⟩ := hj n (by simp [numbers])
    obtain ⟨c, cs, hcs⟩ := List.exists_cons_of_ne_nil (Nat.toDigits_ne_nil (n := k) (b := 10))
    have hdigit : c.isDigit = true :=
      Nat.isDigit_of_mem_toDigits (b := 10) (n := k) (by decide) (by decide) (by rw [hcs]; simp)
    refine ⟨c, cs ++ rest, by rw [write, numberText, hcs]; rfl, ?_, ?_, ?_⟩
    · refine Bool.eq_false_iff.mpr fun hspace => ?_
      simp only [isSpace, Bool.or_eq_true, beq_iff_eq] at hspace
      rcases hspace with ((rfl | rfl) | rfl) | rfl <;> exact absurd hdigit (by decide)
    · rintro rfl
      exact absurd hdigit (by decide)
    · rintro rfl
      exact absurd hdigit (by decide)
  | string s => exact ⟨'"', _, rfl, rfl, by decide, by decide⟩
  | array items =>
    cases items with
    | nil => exact ⟨'[', _, rfl, rfl, by decide, by decide⟩
    | cons x xs => exact ⟨'[', _, rfl, rfl, by decide, by decide⟩
  | object members =>
    cases members with
    | nil => exact ⟨'\x7b', _, rfl, rfl, by decide, by decide⟩
    | cons m ms => exact ⟨'\x7b', _, rfl, rfl, by decide, by decide⟩

theorem skipSpace_write (l : Layout) {j : Json} (hj : j.OnlyNaturals) (rest : List Char) :
    skipSpace (j.write l rest) = j.write l rest := by
  obtain ⟨c, cs, hcs, hc, -, -⟩ := write_head l hj rest
  rw [hcs, skipSpace_cons_of_not_isSpace hc]

end Json

end CodeGraph
