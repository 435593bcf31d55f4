import CodeGraph.Proofs.Json.Spelling
import CodeGraph.Toml.Quoted
import Mathlib.Tactic.SplitIfs

/-!
# Quoted strings read back

A string is read back from its quotes, whichever form they take: one quote on each side or three, with or
without escapes. What follows must not be a quote itself, which could go on with the closing ones. The forms of
one quote are read character by character; in the forms of three a quote of the string is told from the closing
ones by what comes right behind it. Main statement: `readString_quote`.
-/

namespace CodeGraph.Toml

variable {c q : Char} {cs rest more : List Char} {lines : Bool}

/-! ### Three closing quotes -/

theorem close?_of_head_ne (h : c ≠ q) : close? q true (c :: cs) = none := by
  cases cs with
  | nil => rfl
  | cons d cs => simp [close?, h]

theorem close?_of_second_ne (h : c ≠ q) : close? q true (q :: c :: cs) = none := by
  simp [close?, h]

theorem close?_quotes (hrest : rest.head? ≠ some q) :
    close? q true (q :: q :: rest) = some ([], rest) := by
  cases rest with
  | nil => simp [close?]
  | cons c rest =>
    have hc : c ≠ q := by simpa using hrest
    cases rest with
    | nil => simp [close?, hc]
    | cons d rest => simp [close?, hc]

theorem close?_quote_quotes (hrest : rest.head? ≠ some q) :
    close? q true (q :: q :: q :: rest) = some ([q], rest) := by
  cases rest with
  | nil => simp [close?]
  | cons c rest =>
    have hc : c ≠ q := by simpa using hrest
    simp [close?, hc]

theorem close?_two_quotes : close? q true (q :: q :: q :: q :: rest) = some ([q, q], rest) := by
  simp [close?]

/-! ### Between double quotes -/

theorem readBasic_close {ending : List Char × List Char} (h : close? '"' lines rest = some ending) :
    readBasic lines .text ('"' :: rest) = some ending := by
  rw [readBasic.eq_def]
  simp [h]

theorem readBasic_quote (h : close? '"' lines rest = none) :
    readBasic lines .text ('"' :: rest) = push '"' (readBasic lines .text rest) := by
  rw [readBasic.eq_def]
  simp [h]

theorem readBasic_of_isPlain (hc : isPlain c = true) (hquote : c ≠ '"') (hslash : c ≠ '\\') :
    readBasic lines .text (c :: more) = push c (readBasic lines .text more) := by
  rw [readBasic.eq_def]
  simp [hc, hquote, hslash]

theorem readBasic_newline : readBasic true .text ('\n' :: more) = push '\n' (readBasic true .text more) := by
  rw [readBasic.eq_def]
  simp

theorem startsLine_of_not_mem (h : c ∉ [' ', '\t', '\n', '\r']) :
    startsLine ((c :: more).dropWhile isSpace) = false := by
  simp only [List.mem_cons, List.not_mem_nil, or_false, not_or] at h
  have hspace : isSpace c = false := by simp [isSpace, h]
  rw [List.dropWhile_cons, hspace, if_neg Bool.false_ne_true]
  simp [startsLine, h]

theorem not_mem_of_shortEscape? {e : Char} (he : shortEscape? e = some c) :
    e ∉ [' ', '\t', '\n', '\r', 'u', 'U'] := by
  simp only [List.mem_cons, List.not_mem_nil, or_false]
  rintro (rfl | rfl | rfl | rfl | rfl | rfl) <;> simp [shortEscape?] at he

theorem readBasic_shortEscape {e : Char} (he : shortEscape? e = some c) :
    readBasic lines .text ('\\' :: e :: more) = push c (readBasic lines .text more) := by
  have hmem := not_mem_of_shortEscape? he
  have hline : startsLine ((e :: more).dropWhile isSpace) = false :=
    startsLine_of_not_mem fun h => hmem (List.mem_append_left ['u', 'U'] h)
  simp only [List.mem_cons, List.not_mem_nil, or_false, not_or] at hmem
  rw [readBasic.eq_def]
  simp [hline, he, hmem]

theorem hexValue?_upperHexDigit : ∀ n < 16, Text.hexValue? (Text.upperHexDigit n) = some n := by decide

theorem readBasic_digit (value : Nat) {more n : Nat} (hn : n < 16) :
    readBasic lines (.digits (more + 1) value) (Text.upperHexDigit n :: rest) =
      readBasic lines (.digits more (16 * value + n)) rest := by
  rw [readBasic, hexValue?_upperHexDigit n hn]

theorem readBasic_lastDigit (value : Nat) {n : Nat} (hn : n < 16) (hvalid : (16 * value + n).isValidChar) :
    readBasic lines (.digits 0 value) (Text.upperHexDigit n :: rest) =
      push (Char.ofNat (16 * value + n)) (readBasic lines .text rest) := by
  rw [readBasic, hexValue?_upperHexDigit n hn]
  simp only
  rw [scalar?, if_pos hvalid]

theorem readBasic_unicode (n : Nat) (hn : n < 128) :
    readBasic lines .text ('\\' :: 'u' :: '0' :: '0' :: Text.upperHexDigit (n / 16) ::
        Text.upperHexDigit (n % 16) :: more) = push (Char.ofNat n) (readBasic lines .text more) := by
  have hu : ∀ ds, readBasic lines .text ('\\' :: 'u' :: ds) = readBasic lines (.digits 3 0) ds := by
    intro ds
    have hline : startsLine (('u' :: ds).dropWhile isSpace) = false := startsLine_of_not_mem (by decide)
    rw [readBasic.eq_def]
    simp [hline]
  have hzero : '0' = Text.upperHexDigit 0 := rfl
  have hvalue : 16 * (n / 16) + n % 16 = n := Nat.div_add_mod n 16
  rw [hu, hzero, readBasic_digit 0 (by omega), readBasic_digit _ (by omega), readBasic_digit _ (by omega),
    readBasic_lastDigit _ (by omega)]
  · simp [hvalue]
  · simp only [Nat.mul_zero, Nat.add_zero, Nat.zero_add, hvalue]
    exact Or.inl (by omega)

/-- A character between double quotes is read back. -/
theorem readBasic_escape (hc : c ≠ '"') :
    readBasic lines .text (escape lines c ++ more) = push c (readBasic lines .text more) := by
  unfold escape
  split
  · next h =>
    subst h
    exact readBasic_shortEscape rfl
  · next hslash =>
    split
    · next h =>
      subst h
      cases lines with
      | true => exact readBasic_newline
      | false => exact readBasic_shortEscape rfl
    split
    · next h =>
      obtain rfl := Json.eq_ofNat_of_toNat_eq h
      exact readBasic_shortEscape rfl
    split
    · next h =>
      obtain rfl := Json.eq_ofNat_of_toNat_eq h
      exact readBasic_shortEscape rfl
    split
    · next h =>
      obtain rfl := Json.eq_ofNat_of_toNat_eq h
      exact readBasic_shortEscape rfl
    split
    · next h =>
      obtain rfl := Json.eq_ofNat_of_toNat_eq h
      exact readBasic_shortEscape rfl
    split
    · next h =>
      have hread := @readBasic_unicode more lines c.toNat (by omega)
      rw [Char.ofNat_toNat] at hread
      exact hread
    · next h =>
      have hplain : isPlain c = true := by
        simp only [isPlain]
        simp
        omega
      exact readBasic_of_isPlain hplain hc hslash

/-- A string of one line is read back up to its closing quote. -/
theorem readBasic_escapeAll_line (run : Nat) :
    readBasic false .text (escapeAll false run cs ++ '"' :: rest) = some (cs, rest) := by
  induction cs generalizing run with
  | nil => exact readBasic_close rfl
  | cons c cs ih =>
    rw [escapeAll]
    by_cases hc : c = '"'
    · subst hc
      rw [if_pos rfl, Bool.false_and, if_neg Bool.false_ne_true, List.cons_append, List.cons_append,
        readBasic_shortEscape rfl, ih 0]
      rfl
    · rw [if_neg hc, List.append_assoc, readBasic_escape hc, ih 0]
      rfl

/-- What the spelling of a character between double quotes starts with: no quote, and nothing that ends a line
unless the character is a newline. -/
def StartsWell (c : Char) (spelling : List Char) : Prop :=
  ∃ d ds, spelling = d :: ds ∧ d ≠ '"' ∧ d ≠ '\r' ∧ (d = '\n' → c = '\n')

theorem startsWell_backslash (c : Char) (cs : List Char) : StartsWell c ('\\' :: cs) :=
  ⟨_, cs, rfl, by decide, by decide, fun h => absurd h (by decide)⟩

theorem startsWell_escape (hc : c ≠ '"') : StartsWell c (escape lines c) := by
  unfold escape
  split_ifs with _ hnewline _ _ _ _ hreturn
  · exact startsWell_backslash c _
  · exact ⟨_, _, rfl, by decide, by decide, fun _ => hnewline⟩
  · exact startsWell_backslash c _
  · exact startsWell_backslash c _
  · exact startsWell_backslash c _
  · exact startsWell_backslash c _
  · exact startsWell_backslash c _
  · exact startsWell_backslash c _
  · refine ⟨c, [], rfl, hc, ?_, id⟩
    rintro rfl
    exact hreturn rfl

theorem startsWell_escapeAll {run : Nat} (h : c ≠ '"' ∨ 2 ≤ run) :
    StartsWell c (escapeAll lines run (c :: cs)) := by
  rw [escapeAll]
  by_cases hc : c = '"'
  · have hle : 2 ≤ run := h.resolve_left fun hne => hne hc
    have hrun : (lines && decide (run < 2)) = false := by
      rw [decide_eq_false (by omega), Bool.and_false]
    rw [if_pos hc, hrun, if_neg Bool.false_ne_true]
    exact startsWell_backslash c _
  · obtain ⟨d, ds, heq, hd⟩ := @startsWell_escape c lines hc
    rw [if_neg hc, heq]
    exact ⟨d, _, rfl, hd⟩

/-- A quote among some characters does not end the string before their end. -/
theorem close?_escapeAll (hrest : rest.head? ≠ some '"') {run : Nat} (hrun : 0 < run) :
    close? '"' true (escapeAll true run cs ++ '"' :: '"' :: '"' :: rest) = some ('"' :: cs, rest) ∨
      close? '"' true (escapeAll true run cs ++ '"' :: '"' :: '"' :: rest) = none := by
  cases cs with
  | nil => exact .inl (close?_quote_quotes hrest)
  | cons c cs =>
    by_cases h : c ≠ '"' ∨ 2 ≤ run
    · obtain ⟨d, ds, heq, hd, -⟩ := startsWell_escapeAll h
      rw [heq]
      exact .inr (close?_of_head_ne hd)
    · obtain ⟨rfl, rfl⟩ : c = '"' ∧ run = 1 := by
        rw [not_or, Decidable.not_not] at h
        exact ⟨h.1, by omega⟩
      rw [escapeAll]
      rw [if_pos rfl, Bool.true_and, if_pos (by decide), List.cons_append]
      cases cs with
      | nil => exact .inl close?_two_quotes
      | cons d ds =>
        obtain ⟨e, es, heq, he, -⟩ := startsWell_escapeAll (c := d) (.inr (Nat.le_refl 2))
        rw [heq]
        exact .inr (close?_of_second_ne he)

/-- A string of several lines is read back up to its three closing quotes. -/
theorem readBasic_escapeAll_lines (hrest : rest.head? ≠ some '"') (run : Nat) :
    readBasic true .text (escapeAll true run cs ++ '"' :: '"' :: '"' :: rest) = some (cs, rest) := by
  induction cs generalizing run with
  | nil => exact readBasic_close (close?_quotes hrest)
  | cons c cs ih =>
    rw [escapeAll]
    by_cases hc : c = '"'
    · subst hc
      rw [if_pos rfl, Bool.true_and]
      by_cases hrun : run < 2
      · rw [if_pos (decide_eq_true hrun), List.cons_append]
        rcases close?_escapeAll hrest (Nat.succ_pos run) with hclose | hclose
        · exact readBasic_close hclose
        · rw [readBasic_quote hclose, ih]
          rfl
      · rw [if_neg (by simpa using hrun), List.cons_append, List.cons_append, readBasic_shortEscape rfl, ih]
        rfl
    · rw [if_neg hc, List.append_assoc, readBasic_escape hc, ih]
      rfl

/-! ### Between single quotes -/

theorem readLiteral_close {ending : List Char × List Char} (h : close? '\'' lines rest = some ending) :
    readLiteral lines ('\'' :: rest) = some ending := by
  simp [readLiteral, h]

theorem readLiteral_quote (h : close? '\'' lines rest = none) :
    readLiteral lines ('\'' :: rest) = push '\'' (readLiteral lines rest) := by
  simp [readLiteral, h]

theorem isPlain_or_newline (hc : needsEscape c = false) : isPlain c = true ∨ c = '\n' := by
  by_cases hplain : isPlain c = true
  · exact .inl hplain
  · exact .inr (by simpa [needsEscape, hplain] using hc)

theorem readLiteral_of_clean (hc : needsEscape c = false) (hline : lines = false → c ≠ '\n')
    (hquote : c ≠ '\'') : readLiteral lines (c :: more) = push c (readLiteral lines more) := by
  have hplain : isPlain c = true ∨ lines = true ∧ c = '\n' := by
    rcases isPlain_or_newline hc with hplain | hnewline
    · exact .inl hplain
    · cases lines with
      | true => exact .inr ⟨rfl, hnewline⟩
      | false => exact absurd hnewline (hline rfl)
  rw [readLiteral, if_neg hquote, if_pos hplain]

theorem readLiteral_line (hclean : ∀ c ∈ cs, needsEscape c = false) (hline : '\n' ∉ cs) (hquote : '\'' ∉ cs) :
    readLiteral false (cs ++ '\'' :: rest) = some (cs, rest) := by
  induction cs with
  | nil => exact readLiteral_close rfl
  | cons c cs ih =>
    simp only [List.mem_cons, not_or, forall_eq_or_imp] at hclean hline hquote
    rw [List.cons_append, readLiteral_of_clean hclean.1 (fun _ => Ne.symm hline.1) (Ne.symm hquote.1),
      ih hclean.2 hline.2 hquote.2]
    rfl

theorem le_longestRun (q : Char) (before : Nat) (cs : List Char) : before ≤ longestRun q before cs := by
  induction cs generalizing before with
  | nil => exact Nat.le_refl before
  | cons c cs ih =>
    rw [longestRun]
    split
    · exact Nat.le_of_succ_le (ih (before + 1))
    · exact Nat.le_max_left _ _

theorem not_mem_of_longestRun_eq_zero (h : longestRun q 0 cs = 0) : q ∉ cs := by
  induction cs with
  | nil => exact List.not_mem_nil
  | cons c cs ih =>
    rw [longestRun] at h
    split at h
    · have hle := le_longestRun q (0 + 1) cs
      omega
    · next hc =>
      rw [Nat.zero_max] at h
      simp [ih h, Ne.symm hc]

/-- A quote of the string does not end it before its end. -/
theorem close?_of_longestRun (hrest : rest.head? ≠ some q) {run : Nat} (hrun : 0 < run)
    (hle : longestRun q run cs ≤ 2) :
    close? q true (cs ++ q :: q :: q :: rest) = some (q :: cs, rest) ∨
      close? q true (cs ++ q :: q :: q :: rest) = none := by
  cases cs with
  | nil => exact .inl (close?_quote_quotes hrest)
  | cons c cs =>
    by_cases hc : c = q
    · subst hc
      rw [longestRun, if_pos rfl] at hle
      cases cs with
      | nil => exact .inl close?_two_quotes
      | cons d cs =>
        refine .inr (close?_of_second_ne ?_)
        rintro rfl
        rw [longestRun, if_pos rfl] at hle
        have hthree := le_longestRun d (run + 1 + 1) cs
        omega
    · exact .inr (close?_of_head_ne hc)

theorem readLiteral_lines (hrest : rest.head? ≠ some '\'') (hclean : ∀ c ∈ cs, needsEscape c = false)
    {run : Nat} (hle : longestRun '\'' run cs ≤ 2) :
    readLiteral true (cs ++ '\'' :: '\'' :: '\'' :: rest) = some (cs, rest) := by
  induction cs generalizing run with
  | nil => exact readLiteral_close (close?_quotes hrest)
  | cons c cs ih =>
    simp only [List.mem_cons, forall_eq_or_imp] at hclean
    rw [longestRun] at hle
    by_cases hc : c = '\''
    · subst hc
      rw [if_pos rfl] at hle
      rcases close?_of_longestRun hrest (Nat.succ_pos run) hle with hclose | hclose
      · exact readLiteral_close hclose
      · rw [List.cons_append, readLiteral_quote hclose, ih hclean.2 hle]
        rfl
    · rw [if_neg hc] at hle
      have hread : ∀ more, readLiteral true (c :: more) = push c (readLiteral true more) := fun _ =>
        readLiteral_of_clean hclean.1 (fun h => Bool.noConfusion h) hc
      rw [List.cons_append, hread, ih hclean.2 (Nat.le_trans (Nat.le_max_right _ _) hle)]
      rfl

/-! ### All forms -/

theorem readString_basic (h : ∀ r, cs ≠ '"' :: '"' :: r) :
    readString ('"' :: cs) = readBasic false .text cs := by
  unfold readString
  split
  · next heq => exact absurd (List.cons.inj heq).2 (h _)
  · next heq => rw [(List.cons.inj heq).2]
  · next heq => exact absurd (List.cons.inj heq).1 (by decide)
  · next heq => exact absurd (List.cons.inj heq).1 (by decide)
  · next hne _ _ => exact absurd rfl (hne cs)

theorem readString_literal (h : ∀ r, cs ≠ '\'' :: '\'' :: r) :
    readString ('\'' :: cs) = readLiteral false cs := by
  unfold readString
  split
  · next heq => exact absurd (List.cons.inj heq).1 (by decide)
  · next heq => exact absurd (List.cons.inj heq).1 (by decide)
  · next heq => exact absurd (List.cons.inj heq).2 (h _)
  · next heq => rw [(List.cons.inj heq).2]
  · next hne => exact absurd rfl (hne cs)

theorem skipBreak_of_not_startsLine (h : startsLine cs = false) : skipBreak cs = cs := by
  unfold skipBreak
  split
  · cases h
  · cases h
  · rfl

/-- Nothing of a string is taken for the newline that may follow its opening quotes. -/
theorem skipBreak_openingBreak {body : List Char} (h : '\n' ∉ cs → startsLine (body ++ more) = false) :
    skipBreak (openingBreak cs ++ body ++ more) = body ++ more := by
  rw [openingBreak, List.append_assoc]
  split
  · rfl
  · next hline =>
    have hmem : '\n' ∉ cs := by simpa using hline
    exact skipBreak_of_not_startsLine (h hmem)

theorem startsLine_cons (hnewline : c ≠ '\n') (hreturn : c ≠ '\r') : startsLine (c :: cs) = false := by
  simp [startsLine, hnewline, hreturn]

theorem startsLine_escapeAll (hline : '\n' ∉ cs) :
    startsLine (escapeAll true 0 cs ++ '"' :: more) = false := by
  cases cs with
  | nil => rfl
  | cons c cs =>
    by_cases hc : c = '"'
    · subst hc
      rfl
    · obtain ⟨d, ds, heq, -, hreturn, hnewline⟩ := startsWell_escapeAll (.inl hc)
      rw [heq]
      refine startsLine_cons (fun h => ?_) hreturn
      rw [hnewline h] at hline
      exact hline List.mem_cons_self

theorem startsLine_of_clean (hclean : ∀ c ∈ cs, needsEscape c = false) (hline : '\n' ∉ cs) :
    startsLine (cs ++ '\'' :: more) = false := by
  cases cs with
  | nil => rfl
  | cons c cs =>
    have hc := hclean c List.mem_cons_self
    refine startsLine_cons ?_ ?_
    · rintro rfl
      exact hline List.mem_cons_self
    · rintro rfl
      exact absurd hc (by decide)

theorem Quoting.of_eq_literal (h : Quoting.of cs = .literal) :
    (∀ c ∈ cs, needsEscape c = false) ∧ '\n' ∉ cs ∧ '\'' ∉ cs := by
  unfold Quoting.of at h
  dsimp only at h
  split_ifs at h with _ hliteral
  simp only [Bool.and_eq_true, Bool.not_eq_true', List.any_eq_false, Bool.not_eq_true,
    beq_iff_eq] at hliteral
  obtain ⟨⟨hclean, hline⟩, hrun⟩ := hliteral
  exact ⟨hclean, by simpa using hline, not_mem_of_longestRun_eq_zero hrun⟩

theorem Quoting.of_eq_literalLines (h : Quoting.of cs = .literalLines) :
    (∀ c ∈ cs, needsEscape c = false) ∧ longestRun '\'' 0 cs ≤ 2 := by
  unfold Quoting.of at h
  dsimp only at h
  split_ifs at h with _ _ _ hlines
  simp only [Bool.and_eq_true, Bool.not_eq_true', List.any_eq_false, Bool.not_eq_true,
    decide_eq_true_eq] at hlines
  exact hlines

theorem readString_escapeAll_line (hrest : rest.head? ≠ some '"') :
    readString ('"' :: (escapeAll false 0 cs ++ '"' :: rest)) = some (cs, rest) := by
  rw [readString_basic, readBasic_escapeAll_line]
  intro r heq
  cases cs with
  | nil =>
    rw [(List.cons.inj heq).2] at hrest
    exact hrest rfl
  | cons c cs =>
    by_cases hc : c = '"'
    · subst hc
      exact absurd (List.cons.inj heq).1 (by decide)
    · obtain ⟨d, ds, hhead, hd, -⟩ := startsWell_escapeAll (.inl hc)
      rw [hhead] at heq
      exact hd (List.cons.inj heq).1

theorem readString_escapeAll_lines (hrest : rest.head? ≠ some '"') :
    readString ('"' :: '"' :: '"' :: (openingBreak cs ++ escapeAll true 0 cs ++ '"' :: '"' :: '"' :: rest)) =
      some (cs, rest) := by
  rw [readString, skipBreak_openingBreak startsLine_escapeAll]
  exact readBasic_escapeAll_lines hrest 0

theorem readString_literal_line (hrest : rest.head? ≠ some '\'') (hclean : ∀ c ∈ cs, needsEscape c = false)
    (hline : '\n' ∉ cs) (hquote : '\'' ∉ cs) :
    readString ('\'' :: (cs ++ '\'' :: rest)) = some (cs, rest) := by
  rw [readString_literal, readLiteral_line hclean hline hquote]
  intro r heq
  cases cs with
  | nil =>
    rw [(List.cons.inj heq).2] at hrest
    exact hrest rfl
  | cons c cs =>
    rw [(List.cons.inj heq).1] at hquote
    exact hquote List.mem_cons_self

theorem readString_literal_lines (hrest : rest.head? ≠ some '\'') (hclean : ∀ c ∈ cs, needsEscape c = false)
    (hle : longestRun '\'' 0 cs ≤ 2) :
    readString ('\'' :: '\'' :: '\'' :: (openingBreak cs ++ cs ++ '\'' :: '\'' :: '\'' :: rest)) =
      some (cs, rest) := by
  rw [readString, skipBreak_openingBreak (startsLine_of_clean hclean)]
  exact readLiteral_lines hrest hclean hle

/-- **A string is read back from its quotes**, as far as what follows is no quote. -/
theorem readString_quote (hbasic : rest.head? ≠ some '"') (hliteral : rest.head? ≠ some '\'') :
    readString (quote cs ++ rest) = some (cs, rest) := by
  unfold quote
  split
  · simpa using readString_escapeAll_line hbasic
  · next hform =>
    obtain ⟨hclean, hline, hquote⟩ := Quoting.of_eq_literal hform
    simpa using readString_literal_line hliteral hclean hline hquote
  · simpa using readString_escapeAll_lines hbasic
  · next hform =>
    obtain ⟨hclean, hle⟩ := Quoting.of_eq_literalLines hform
    simpa using readString_literal_lines hliteral hclean hle

example : quote "\"\"\"\n\x07".toList = "\"\"\"\n\"\"\\\"\n\\u0007\"\"\"".toList := by decide

end CodeGraph.Toml
