import CodeGraph.Proofs.Json.Documents

/-!
# Reading what was written

`readValue_write` is the induction over values, with `Json.reach` as the fuel that it needs, and
`read?_write` the statement for whole texts: white space around the text of a value is passed over, and
anything else behind it is refused.
-/

namespace CodeGraph.Json

/-! ### What a value consists of has natural numbers too -/

theorem OnlyNaturals.head {x : Json} {xs : List Json} (h : (array (x :: xs)).OnlyNaturals) :
    x.OnlyNaturals := fun n hn => h n (by rw [numbers, numbersAll]; exact List.mem_append_left _ hn)

theorem OnlyNaturals.tail {x : Json} {xs : List Json} (h : (array (x :: xs)).OnlyNaturals) :
    (array xs).OnlyNaturals := fun n hn =>
  h n (by rw [numbers, numbersAll]; exact List.mem_append_right _ hn)

theorem OnlyNaturals.headMember {key : String} {x : Json} {ms : List (String × Json)}
    (h : (object ((key, x) :: ms)).OnlyNaturals) : x.OnlyNaturals := fun n hn =>
  h n (by rw [numbers, numbersOfMembers]; exact List.mem_append_left _ hn)

theorem OnlyNaturals.tailMembers {key : String} {x : Json} {ms : List (String × Json)}
    (h : (object ((key, x) :: ms)).OnlyNaturals) : (object ms).OnlyNaturals := fun n hn =>
  h n (by rw [numbers, numbersOfMembers]; exact List.mem_append_right _ hn)

/-! ### Scalars and keys -/

theorem exists_succ_of_reach_le {j : Json} {fuel : Nat} (h : j.reach ≤ fuel) :
    ∃ k, fuel = k + 1 := by
  have hpos : 0 < j.reach := by cases j <;> simp [reach]
  exact ⟨fuel - 1, by omega⟩

/-- A text that starts with neither bracket nor brace is read as a scalar. -/
theorem readValue_of_scalar {cs tail : List Char} {c : Char} (hcs : skipSpace cs = c :: tail)
    (hopen : c ≠ '[' ∧ c ≠ '\x7b') (fuel : Nat) :
    readValue (fuel + 1) cs = readScalar (c :: tail) := by
  rw [readValue, hcs]
  split
  · next heq => exact absurd (List.cons_eq_cons.mp heq).1 hopen.1
  · next heq => exact absurd (List.cons_eq_cons.mp heq).1 hopen.2
  · rfl

theorem readValue_natural {cs rest : List Char} {n : Nat}
    (hcs : skipSpace cs = Nat.toDigits 10 n ++ rest) (hrest : EndsNumber rest) (fuel : Nat) :
    readValue (fuel + 1) cs = (.number (literal false n), some rest) := by
  obtain ⟨c, ds, hds⟩ := List.exists_cons_of_ne_nil (Nat.toDigits_ne_nil (n := n) (b := 10))
  have hdigit : c.isDigit = true :=
    Nat.isDigit_of_mem_toDigits (b := 10) (n := n) (by decide) (by decide) (by rw [hds]; simp)
  have hopen : c ≠ '[' ∧ c ≠ '\x7b' := by
    constructor
    · rintro rfl
      exact absurd hdigit (by decide)
    · rintro rfl
      exact absurd hdigit (by decide)
  have hscalar := readScalar_toDigits n hrest
  rw [hds, List.cons_append] at hcs hscalar
  rw [readValue_of_scalar hcs hopen, hscalar]

theorem readKey_quote {cs rest : List Char} {key : String}
    (hcs : skipSpace cs = quote key (':' :: rest)) : readKey cs = some (some key, some rest) := by
  rw [readKey, hcs, quote]
  simp only
  rw [readUnits_flatMap_escape]
  simp only
  rw [skipSpace_cons_of_not_isSpace rfl, textOf_map_unitOf]
  rfl

/-! ### The induction over values -/

theorem endsNumber_writeItems (l : Layout) {tail : List Char} (htail : EndsNumber tail)
    (xs : List Json) : EndsNumber (writeItems l false xs tail) := by
  cases xs with
  | nil => exact htail
  | cons x xs => exact endsNumber_cons rfl (by decide) (by decide) (by decide) _

theorem endsNumber_writeMembers (l : Layout) {tail : List Char} (htail : EndsNumber tail)
    (ms : List (String × Json)) : EndsNumber (writeMembers l false ms tail) := by
  cases ms with
  | nil => exact htail
  | cons m ms => exact endsNumber_cons rfl (by decide) (by decide) (by decide) _

mutual

/-- The text of a value is read as its document, white space before it apart. -/
theorem readValue_write (l : Layout) :
    ∀ (j : Json) (fuel : Nat) (cs : List Char) {rest : List Char}, j.OnlyNaturals → j.reach ≤ fuel →
      ((∃ n, j = number n) → EndsNumber rest) → skipSpace cs = j.write l rest →
      readValue fuel cs = (Document.ofJson j, some rest)
  | .null, fuel, cs, rest, _, hfuel, _, hcs => by
    obtain ⟨fuel, rfl⟩ := exists_succ_of_reach_le hfuel
    rw [write] at hcs
    exact readValue_of_scalar hcs (by decide) fuel
  | .bool b, fuel, cs, rest, _, hfuel, _, hcs => by
    obtain ⟨fuel, rfl⟩ := exists_succ_of_reach_le hfuel
    cases b with
    | false =>
      rw [write] at hcs
      exact readValue_of_scalar hcs (by decide) fuel
    | true =>
      rw [write] at hcs
      exact readValue_of_scalar hcs (by decide) fuel
  | .number n, fuel, cs, rest, hj, hfuel, hrest, hcs => by
    obtain ⟨fuel, rfl⟩ := exists_succ_of_reach_le hfuel
    obtain ⟨k, rfl⟩ := hj n (by simp [numbers])
    rw [write, numberText] at hcs
    exact readValue_natural hcs (hrest ⟨_, rfl⟩) fuel
  | .string s, fuel, cs, rest, _, hfuel, _, hcs => by
    obtain ⟨fuel, rfl⟩ := exists_succ_of_reach_le hfuel
    rw [write] at hcs
    have hread := readScalar_quote s rest
    rw [quote] at hcs hread
    rw [readValue_of_scalar hcs (by decide), hread]
    rfl
  | .array [], fuel, cs, rest, _, hfuel, _, hcs => by
    obtain ⟨fuel, rfl⟩ := exists_succ_of_reach_le hfuel
    rw [write] at hcs
    rw [readValue, hcs]
    rfl
  | .array (x :: xs), fuel, cs, rest, hj, hfuel, _, hcs => by
    obtain ⟨fuel, rfl⟩ := exists_succ_of_reach_le hfuel
    rw [reach] at hfuel
    rw [write] at hcs
    have htail := endsNumber_lineBreak l (Or.inl rfl : ']' = ']' ∨ ']' = '}') rest
    have hclose : skipSpace (l.lineBreak (']' :: rest)) = ']' :: rest := by
      rw [skipSpace_lineBreak, skipSpace_cons_of_not_isSpace rfl]
    have hitems := readItems_write l.inner (x :: xs) (List.cons_ne_nil x xs) fuel
      (skipSpace (writeItems l.inner true (x :: xs) (l.lineBreak (']' :: rest)))) hj
      (by omega) htail hclose (skipSpace_skipSpace _)
    -- the first character of the first item is no closing bracket
    obtain ⟨c, ds, hds, -, hc, -⟩ := write_head l.inner hj.head
      (writeItems l.inner false xs (l.lineBreak (']' :: rest)))
    have hfirst : skipSpace (writeItems l.inner true (x :: xs) (l.lineBreak (']' :: rest))) =
        c :: ds := by
      rw [writeItems, comma, if_pos rfl, skipSpace_lineBreak, skipSpace_write _ hj.head, hds]
    rw [hfirst] at hitems
    rw [readValue, hcs]
    simp only
    rw [hfirst]
    split
    · next heq => exact absurd (List.cons_eq_cons.mp heq).1 hc
    · rw [hitems]
      rfl
  | .object [], fuel, cs, rest, _, hfuel, _, hcs => by
    obtain ⟨fuel, rfl⟩ := exists_succ_of_reach_le hfuel
    rw [write] at hcs
    rw [readValue, hcs]
    rfl
  | .object ((key, x) :: ms), fuel, cs, rest, hj, hfuel, _, hcs => by
    obtain ⟨fuel, rfl⟩ := exists_succ_of_reach_le hfuel
    rw [reach] at hfuel
    rw [write] at hcs
    have htail := endsNumber_lineBreak l (Or.inr rfl : '}' = ']' ∨ '}' = '}') rest
    have hclose : skipSpace (l.lineBreak ('}' :: rest)) = '}' :: rest := by
      rw [skipSpace_lineBreak, skipSpace_cons_of_not_isSpace rfl]
    have hmembers := readMembers_write l.inner ((key, x) :: ms) (List.cons_ne_nil _ ms) fuel
      (skipSpace (writeMembers l.inner true ((key, x) :: ms) (l.lineBreak ('}' :: rest)))) hj
      (by omega) htail hclose (skipSpace_skipSpace _)
    have hfirst : ∃ ds,
        skipSpace (writeMembers l.inner true ((key, x) :: ms) (l.lineBreak ('}' :: rest))) =
          '"' :: ds := by
      rw [writeMembers, comma, if_pos rfl, skipSpace_lineBreak, quote,
        skipSpace_cons_of_not_isSpace rfl]
      exact ⟨_, rfl⟩
    obtain ⟨ds, hds⟩ := hfirst
    rw [hds] at hmembers
    rw [readValue, hcs]
    simp only
    rw [hds]
    split
    · next heq => exact absurd (List.cons_eq_cons.mp heq).1 (by decide)
    · rw [hmembers]
      rfl

/-- The text of some items is read as their documents, up to the bracket that closes them. -/
theorem readItems_write (l : Layout) :
    ∀ (items : List Json), items ≠ [] → ∀ (fuel : Nat) (cs : List Char) {tail rest : List Char},
      (array items).OnlyNaturals → reachAll items ≤ fuel → EndsNumber tail →
      skipSpace tail = ']' :: rest → skipSpace cs = skipSpace (writeItems l true items tail) →
      readItems fuel cs = (Document.ofJsonAll items, some rest)
  | [], hne, _, _, _, _, _, _, _, _, _ => absurd rfl hne
  | x :: xs, _, fuel, cs, tail, rest, hj, hfuel, htail, hclose, hcs => by
    rw [reachAll] at hfuel
    obtain ⟨fuel, rfl⟩ : ∃ k, fuel = k + 1 := ⟨fuel - 1, by omega⟩
    rw [writeItems, comma, if_pos rfl, skipSpace_lineBreak, skipSpace_write _ hj.head] at hcs
    have hx := readValue_write l x fuel cs hj.head (by omega)
      (fun _ => endsNumber_writeItems l htail xs) hcs
    rw [readItems, hx]
    simp only
    cases xs with
    | nil =>
      rw [writeItems, hclose]
      rfl
    | cons y ys =>
      have hys := readItems_write l (y :: ys) (List.cons_ne_nil y ys) fuel
        (l.lineBreak (write l y (writeItems l false ys tail))) hj.tail (by omega) htail hclose
        (by rw [writeItems, comma, if_pos rfl])
      rw [writeItems, comma, if_neg (by decide), skipSpace_cons_of_not_isSpace rfl]
      simp only
      rw [hys]
      rfl

/-- The text of some members is read as theirs, up to the brace that closes them. -/
theorem readMembers_write (l : Layout) :
    ∀ (members : List (String × Json)), members ≠ [] →
      ∀ (fuel : Nat) (cs : List Char) {tail rest : List Char}, (object members).OnlyNaturals →
      reachOfMembers members ≤ fuel → EndsNumber tail → skipSpace tail = '}' :: rest →
      skipSpace cs = skipSpace (writeMembers l true members tail) →
      readMembers fuel cs = (Document.ofJsonMembers members, some rest)
  | [], hne, _, _, _, _, _, _, _, _, _ => absurd rfl hne
  | (key, x) :: ms, _, fuel, cs, tail, rest, hj, hfuel, htail, hclose, hcs => by
    rw [reachOfMembers] at hfuel
    obtain ⟨fuel, rfl⟩ : ∃ k, fuel = k + 1 := ⟨fuel - 1, by omega⟩
    rw [writeMembers, comma, if_pos rfl, skipSpace_lineBreak, quote,
      skipSpace_cons_of_not_isSpace rfl, ← quote] at hcs
    have hx := readValue_write l x fuel
      (l.gap (write l x (writeMembers l false ms tail))) hj.headMember (by omega)
      (fun _ => endsNumber_writeMembers l htail ms)
      (by rw [skipSpace_gap, skipSpace_write _ hj.headMember])
    rw [readMembers, readKey_quote hcs]
    simp only
    rw [hx]
    simp only
    cases ms with
    | nil =>
      rw [writeMembers, hclose]
      rfl
    | cons m ms =>
      obtain ⟨k, y⟩ := m
      have hms := readMembers_write l ((k, y) :: ms) (List.cons_ne_nil _ ms) fuel
        (l.lineBreak (quote k (':' :: l.gap (write l y (writeMembers l false ms tail)))))
        hj.tailMembers (by omega) htail hclose (by rw [writeMembers, comma, if_pos rfl])
      rw [writeMembers, comma, if_neg (by decide), skipSpace_cons_of_not_isSpace rfl]
      simp only
      rw [hms]
      rfl

end

/-! ### Whole texts -/

mutual

/-- The text of a value is long enough to be read. -/
theorem reach_le_length_write (l : Layout) :
    ∀ (j : Json) (rest : List Char), j.OnlyNaturals →
      j.reach + rest.length ≤ (j.write l rest).length
  | .null, rest, _ => by simp [reach, write]; omega
  | .bool b, rest, _ => by cases b <;> simp [reach, write] <;> omega
  | .number n, rest, hj => by
    obtain ⟨k, rfl⟩ := hj n (by simp [numbers])
    have hpos := Nat.length_toDigits_pos (b := 10) (n := k)
    rw [reach, write, numberText, List.length_append]
    omega
  | .string s, rest, _ => by
    rw [reach, write, quote, List.length_cons, List.length_append, List.length_cons]
    omega
  | .array [], rest, _ => by simp [reach, reachAll, write]; omega
  | .array (x :: xs), rest, hj => by
    have hitems := reachAll_le_length_writeItems l.inner (x :: xs) true (l.lineBreak (']' :: rest)) hj
    have hclose := length_le_length_lineBreak l (']' :: rest)
    rw [List.length_cons] at hclose
    rw [reach, write, List.length_cons]
    simp only [if_true] at hitems
    omega
  | .object [], rest, _ => by simp [reach, reachOfMembers, write]; omega
  | .object (m :: ms), rest, hj => by
    have hmembers :=
      reachOfMembers_le_length_writeMembers l.inner (m :: ms) true (l.lineBreak ('}' :: rest)) hj
    have hclose := length_le_length_lineBreak l ('}' :: rest)
    rw [List.length_cons] at hclose
    rw [reach, write, List.length_cons]
    simp only [if_true] at hmembers
    omega

theorem reachAll_le_length_writeItems (l : Layout) :
    ∀ (items : List Json) (first : Bool) (rest : List Char), (array items).OnlyNaturals →
      reachAll items + rest.length ≤
        (writeItems l first items rest).length + if first then 1 else 0
  | [], first, rest, _ => by simp [reachAll, writeItems]
  | x :: xs, first, rest, hj => by
    have hx := reach_le_length_write l x (writeItems l false xs rest) hj.head
    have hxs := reachAll_le_length_writeItems l xs false rest hj.tail
    have hbreak := length_le_length_lineBreak l (write l x (writeItems l false xs rest))
    rw [reachAll, writeItems]
    cases first with
    | true =>
      simp only [comma, if_true]
      simp only [Bool.false_eq_true, if_false] at hxs
      omega
    | false =>
      simp only [comma, Bool.false_eq_true, if_false, List.length_cons] at hxs ⊢
      omega

theorem reachOfMembers_le_length_writeMembers (l : Layout) :
    ∀ (members : List (String × Json)) (first : Bool) (rest : List Char),
      (object members).OnlyNaturals →
      reachOfMembers members + rest.length ≤
        (writeMembers l first members rest).length + if first then 1 else 0
  | [], first, rest, _ => by simp [reachOfMembers, writeMembers]
  | (key, x) :: ms, first, rest, hj => by
    have hx := reach_le_length_write l x (writeMembers l false ms rest) hj.headMember
    have hms := reachOfMembers_le_length_writeMembers l ms false rest hj.tailMembers
    have hgap := length_le_length_gap l (write l x (writeMembers l false ms rest))
    have hbreak := length_le_length_lineBreak l
      (quote key (':' :: l.gap (write l x (writeMembers l false ms rest))))
    rw [quote, List.length_cons, List.length_append, List.length_cons, List.length_cons] at hbreak
    rw [reachOfMembers, writeMembers]
    cases first with
    | true =>
      simp only [comma, if_true, quote]
      simp only [Bool.false_eq_true, if_false] at hms
      omega
    | false =>
      simp only [comma, Bool.false_eq_true, if_false, List.length_cons, quote] at hms ⊢
      omega

end

mutual

/-- What follows the text of a value has no part in it. -/
theorem write_append (l : Layout) :
    ∀ (j : Json) (rest tail : List Char), j.write l (rest ++ tail) = j.write l rest ++ tail
  | .null, _, _ => rfl
  | .bool true, _, _ => rfl
  | .bool false, _, _ => rfl
  | .number n, rest, tail => by rw [write, write, List.append_assoc]
  | .string s, rest, tail => by
    rw [write, write, quote_append]
  | .array [], _, _ => rfl
  | .array (x :: xs), rest, tail => by
    rw [write, write, ← List.cons_append, lineBreak_append, writeItems_append, List.cons_append]
  | .object [], _, _ => rfl
  | .object (m :: ms), rest, tail => by
    rw [write, write, ← List.cons_append, lineBreak_append, writeMembers_append, List.cons_append]

theorem writeItems_append (l : Layout) (first : Bool) :
    ∀ (items : List Json) (rest tail : List Char),
      writeItems l first items (rest ++ tail) = writeItems l first items rest ++ tail
  | [], _, _ => rfl
  | x :: xs, rest, tail => by
    rw [writeItems, writeItems, writeItems_append l false xs, write_append l x, lineBreak_append,
      comma_append]

theorem writeMembers_append (l : Layout) (first : Bool) :
    ∀ (members : List (String × Json)) (rest tail : List Char),
      writeMembers l first members (rest ++ tail) = writeMembers l first members rest ++ tail
  | [], _, _ => rfl
  | (key, x) :: ms, rest, tail => by
    rw [writeMembers, writeMembers, writeMembers_append l false ms, write_append l x, gap_append,
      ← List.cons_append, quote_append, lineBreak_append, comma_append]

end

theorem skipSpace_isEmpty (cs : List Char) : (skipSpace cs).isEmpty = cs.all isSpace := by
  induction cs with
  | nil => rfl
  | cons c cs ih =>
    cases hc : isSpace c with
    | true => rw [skipSpace_cons_of_isSpace hc, ih, List.all_cons, hc, Bool.true_and]
    | false =>
      rw [skipSpace_cons_of_not_isSpace hc, List.all_cons, hc, Bool.false_and, List.isEmpty_cons]

/-- **A value that is no number is read from its text with white space around it, in every layout.
Where anything else follows the text, it is refused.** -/
theorem read?_write (l : Layout) {j : Json} (hj : j.OnlyNaturals) (hnumber : ∀ n, j ≠ number n)
    {lead tail : List Char} (hlead : ∀ c ∈ lead, isSpace c = true) :
    read? (String.ofList (lead ++ j.write l [] ++ tail)) =
      if tail.all isSpace then some (Document.ofJson j) else none := by
  have htext : lead ++ j.write l [] ++ tail = lead ++ j.write l tail := by
    rw [List.append_assoc, ← write_append, List.nil_append]
  have hlen := reach_le_length_write l j tail hj
  have hread : readText (lead ++ j.write l tail) = (Document.ofJson j, some tail) := by
    refine readValue_write l j _ _ hj ?_ ?_ ?_
    · rw [List.length_append]
      omega
    · rintro ⟨n, rfl⟩
      exact absurd rfl (hnumber n)
    · rw [skipSpace_append hlead, skipSpace_write l hj]
  rw [read?, String.toList_ofList, htext, hread]
  simp only
  rw [skipSpace_isEmpty]

end CodeGraph.Json
