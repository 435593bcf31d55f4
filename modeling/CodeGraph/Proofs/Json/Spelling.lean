import CodeGraph.Json.Record

/-!
# Numbers and strings read back

A natural number is read back from its decimal digits, as far as what follows does not go on with it, and
a string from its escaped characters up to the closing quote.
-/

namespace CodeGraph

namespace Json

/-! ### Numbers -/

/-- What follows a number does not go on with it. -/
def EndsNumber (rest : List Char) : Prop :=
  ∀ c ∈ rest.head?, c.isDigit = false ∧ c ≠ '.' ∧ c ≠ 'e' ∧ c ≠ 'E'

theorem endsNumber_cons {c : Char} (hd : c.isDigit = false) (hp : c ≠ '.') (he : c ≠ 'e')
    (hE : c ≠ 'E') (rest : List Char) : EndsNumber (c :: rest) := by
  intro d hmem
  obtain rfl : c = d := by simpa using hmem
  exact ⟨hd, hp, he, hE⟩

theorem readDigits_append {ds rest : List Char} (hds : ∀ c ∈ ds, c.isDigit = true)
    (hrest : EndsNumber rest) :
    readDigits (ds ++ rest) = (ds.map fun c => c.toNat - 48, rest) := by
  induction ds with
  | nil =>
    cases rest with
    | nil => rfl
    | cons c rest => simp [readDigits, (hrest c (by simp)).1]
  | cons d ds ih =>
    have hd : d.isDigit = true := hds d (by simp)
    rw [List.cons_append, readDigits, if_pos hd, ih fun c hc => hds c (by simp [hc])]
    rfl

/-- The first digit of a number that is not zero is no zero. -/
theorem toDigits_head_pos {n : Nat} (hn : 0 < n) :
    ∃ c cs, Nat.toDigits 10 n = c :: cs ∧ 0 < c.toNat - 48 := by
  induction n using Nat.strongRecOn with
  | _ n ih =>
    rw [Nat.toDigits_eq_if (by decide)]
    by_cases hlt : n < 10
    · rw [if_pos hlt]
      exact ⟨n.digitChar, [], rfl, by rw [Nat.toNat_digitChar_sub_48_of_lt_ten hlt]; exact hn⟩
    · rw [if_neg hlt]
      obtain ⟨c, cs, hcs, hpos⟩ := ih (n / 10) (by omega) (by omega)
      exact ⟨c, cs ++ [(n % 10).digitChar], by rw [hcs]; rfl, hpos⟩

theorem readWhole_toDigits (n : Nat) {rest : List Char} (hrest : EndsNumber rest) :
    readWhole (Nat.toDigits 10 n ++ rest) = some ((literal false n).whole, rest) := by
  have hds : ∀ c ∈ Nat.toDigits 10 n, c.isDigit = true := fun c hc =>
    Nat.isDigit_of_mem_toDigits (by decide) (by decide) hc
  rw [readWhole, readDigits_append hds hrest, literal]
  rcases Nat.eq_zero_or_pos n with rfl | hn
  · rfl
  · obtain ⟨c, cs, hcs, hpos⟩ := toDigits_head_pos hn
    rw [hcs, List.map_cons]
    obtain ⟨k, hk⟩ : ∃ k, c.toNat - 48 = k + 1 := ⟨c.toNat - 48 - 1, by omega⟩
    simp only [hk]

theorem readFraction_of_endsNumber {rest : List Char} (hrest : EndsNumber rest) :
    readFraction rest = some (none, rest) := by
  cases rest with
  | nil => rfl
  | cons c rest =>
    have hc : c ≠ '.' := (hrest c (by simp)).2.1
    simp [readFraction, hc]

theorem readExponent_of_endsNumber {rest : List Char} (hrest : EndsNumber rest) :
    readExponent rest = some (none, rest) := by
  cases rest with
  | nil => rfl
  | cons c rest =>
    obtain ⟨-, -, he, hE⟩ := hrest c (by simp)
    simp [readExponent, he, hE]

/-- A natural number is read back from its digits. -/
theorem readScalar_toDigits (n : Nat) {rest : List Char} (hrest : EndsNumber rest) :
    readScalar (Nat.toDigits 10 n ++ rest) = (.number (literal false n), some rest) := by
  have hread : readNumber false (Nat.toDigits 10 n ++ rest) = some (literal false n, rest) := by
    rw [readNumber, readWhole_toDigits n hrest]
    simp only
    rw [readFraction_of_endsNumber hrest]
    simp only
    rw [readExponent_of_endsNumber hrest]
    rfl
  obtain ⟨c, cs, hcs⟩ := List.exists_cons_of_ne_nil (Nat.toDigits_ne_nil (n := n) (b := 10))
  have hdigit : c.isDigit = true :=
    Nat.isDigit_of_mem_toDigits (b := 10) (n := n) (by decide) (by decide) (by rw [hcs]; simp)
  rw [hcs, List.cons_append] at hread ⊢
  -- no other kind of value starts with a digit
  unfold readScalar
  split
  case h_6 => rw [hread]
  all_goals
    rename_i heq
    obtain ⟨rfl, -⟩ := List.cons_eq_cons.mp heq
    exact absurd hdigit (by decide)

theorem valueOf_literal (n : Nat) : NumberLiteral.valueOf (literal false n).whole = n := by
  have h := Nat.ofDigitChars_ten_toDigits (n := n)
  rw [Nat.ofDigitChars_eq_foldl] at h
  rw [NumberLiteral.valueOf, literal, List.foldl_map]
  exact h

theorem le_maxSignificand_iff (n : Nat) : n ≤ NumberLiteral.maxSignificand ↔ n < UInt64.size :=
  Nat.le_sub_one_iff_lt (by decide)

/-- A natural number of at most sixty-four bits is exact, and a larger one is no natural number any
more. -/
theorem value?_literal (n : Nat) :
    (n < UInt64.size → (literal false n).value? = some (.natural n)) ∧
      (¬ n < UInt64.size → ∀ k, (literal false n).value? ≠ some (.natural k)) := by
  have hval := valueOf_literal n
  have hfrac : (literal false n).fraction = none := rfl
  have hexp : (literal false n).exponent = none := rfl
  have hneg : (literal false n).negative = false := rfl
  constructor
  · intro hn
    have hle : n ≤ NumberLiteral.maxSignificand := (le_maxSignificand_iff n).mpr hn
    simp [NumberLiteral.value?, hval, hfrac, hexp, hneg, hle]
  · intro hn k
    have hle : ¬ n ≤ NumberLiteral.maxSignificand := fun hle => hn ((le_maxSignificand_iff n).mp hle)
    simp [NumberLiteral.value?, hval, hfrac, hexp, hneg, hle]

/-! ### Strings -/

/-- The unit as which a character of a string is read back. -/
def unitOf (c : Char) : TextUnit :=
  if c.toNat < 32 ∧ c.toNat ∉ [8, 9, 10, 12, 13] then .unit c.toNat else .plain c

theorem hexUnit?_hexDigit : ∀ n < 32,
    hexUnit? '0' '0' (Text.hexDigit (n / 16)) (Text.hexDigit (n % 16)) = some n := by
  decide

theorem eq_ofNat_of_toNat_eq {c : Char} {n : Nat} (h : c.toNat = n) : c = Char.ofNat n := by
  rw [← h, Char.ofNat_toNat]

theorem readUnits_escape (c : Char) (rest : List Char) :
    readUnits (escape c ++ rest) = (readUnits rest).map fun r => (unitOf c :: r.1, r.2) := by
  unfold escape
  split
  · next h => subst h; rfl
  split
  · next h => subst h; rfl
  split
  · next h =>
    obtain rfl := eq_ofNat_of_toNat_eq h
    rfl
  split
  · next h =>
    obtain rfl := eq_ofNat_of_toNat_eq h
    rfl
  split
  · next h =>
    obtain rfl := eq_ofNat_of_toNat_eq h
    rfl
  split
  · next h =>
    obtain rfl := eq_ofNat_of_toNat_eq h
    rfl
  split
  · next h =>
    obtain rfl := eq_ofNat_of_toNat_eq h
    rfl
  split
  · next h8 h9 h10 h12 h13 hlt =>
    have hunit : unitOf c = .unit c.toNat := by simp [unitOf, h8, h9, h10, h12, h13, hlt]
    simp only [List.cons_append, List.nil_append]
    rw [readUnits, hexUnit?_hexDigit c.toNat hlt, hunit]
  · next hquote hslash _ _ _ _ _ hlt =>
    have hunit : unitOf c = .plain c := by simp [unitOf, hlt]
    have hplain : ¬ (c = '\\' ∨ c.toNat < 32) := by simp [hslash, hlt]
    rw [List.cons_append, List.nil_append, readUnits, if_neg hplain, hunit]
    · exact hquote
    · intro _ _ _ _ _ hc _
      exact hslash hc
    · intro _ _ hc _
      exact hslash hc

theorem readUnits_flatMap_escape (cs rest : List Char) :
    readUnits (cs.flatMap escape ++ '"' :: rest) = some (cs.map unitOf, rest) := by
  induction cs with
  | nil => rfl
  | cons c cs ih =>
    rw [List.flatMap_cons, List.append_assoc, readUnits_escape, ih]
    rfl

theorem assemble_unit_cons {n : Nat} (hn : n < 32) (us : List TextUnit) :
    assemble (.unit n :: us) = (assemble us).map (Char.ofNat n :: ·) := by
  have hhigh : isHighSurrogate n = false := by
    rw [isHighSurrogate, Bool.and_eq_false_iff]
    exact Or.inl (decide_eq_false (by omega))
  have hlow : isLowSurrogate n = false := by
    rw [isLowSurrogate, Bool.and_eq_false_iff]
    exact Or.inl (decide_eq_false (by omega))
  cases us with
  | nil => simp [assemble, hhigh, hlow]
  | cons u us => cases u <;> simp [assemble, hhigh, hlow]

theorem assemble_map_unitOf (cs : List Char) : assemble (cs.map unitOf) = some cs := by
  induction cs with
  | nil => rfl
  | cons c cs ih =>
    rw [List.map_cons, unitOf]
    by_cases hc : c.toNat < 32 ∧ c.toNat ∉ [8, 9, 10, 12, 13]
    · rw [if_pos hc, assemble_unit_cons hc.1, ih, Char.ofNat_toNat]
      rfl
    · rw [if_neg hc, assemble, ih]
      rfl

theorem textOf_map_unitOf (s : String) : textOf (s.toList.map unitOf) = some s := by
  rw [textOf, assemble_map_unitOf, Option.map_some, String.ofList_toList]

/-- A string is read back from its escaped characters. -/
theorem readScalar_quote (s : String) (rest : List Char) :
    readScalar (quote s rest) = (.string (some s), some rest) := by
  rw [quote, readScalar, readUnits_flatMap_escape]
  simp only
  rw [textOf_map_unitOf]

end Json

end CodeGraph
