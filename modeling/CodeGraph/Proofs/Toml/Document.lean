import CodeGraph.Proofs.Json.Spelling
import CodeGraph.Proofs.Toml.Quoted
import CodeGraph.Toml.Reader
import Mathlib.Algebra.Group.Nat.Defs
import Mathlib.Data.List.TakeWhile

/-!
# Documents read back

A document is read statement by statement: headers, and keys without quotes with a string or a natural number of at
most sixty-three bits, each on a line of its own. `Spells` relates the characters of a document to its statements,
blank lines apart. Main statement: `Spells.read?`.
-/

namespace CodeGraph.Toml

variable {c : Char} {cs rest : List Char}

/-- A class of characters tells its members from all others. -/
theorem ne_of_test {p : Char → Bool} {d : Char} (hc : p c = true) (hd : p d = false) : c ≠ d := by
  rintro rfl
  rw [hc] at hd
  cases hd

theorem isSpace_of_test {p : Char → Bool} (hc : p c = true) (hblank : p ' ' = false) (htab : p '\t' = false) :
    isSpace c = false := by
  simp [isSpace, ne_of_test hc hblank, ne_of_test hc htab]

/-! ### Natural numbers -/

theorem splitOn_of_not_mem {sep : Char} (h : sep ∉ cs) : Text.splitOn sep cs = [cs] := by
  induction cs with
  | nil => rfl
  | cons c cs ih =>
    simp only [List.mem_cons, not_or] at h
    rw [Text.splitOn, if_neg (Ne.symm h.1), ih h.2]

theorem not_mem_of_isDigit {d : Char} (hcs : ∀ c ∈ cs, c.isDigit = true) (hd : d.isDigit = false) :
    d ∉ cs := fun hmem => ne_of_test (hcs d hmem) hd rfl

theorem hexValue?_of_isDigit (hc : c.isDigit = true) :
    Text.hexValue? c = some (c.toNat - 48) ∧ c.toNat - 48 < 10 := by
  have hbounds : 48 ≤ c.toNat ∧ c.toNat ≤ 57 := by
    simp only [Char.isDigit, Bool.and_eq_true, decide_eq_true_eq] at hc
    exact hc
  have hrange : '0' ≤ c ∧ c ≤ '9' := hbounds
  rw [Text.hexValue?, if_pos hrange]
  exact ⟨rfl, by omega⟩

theorem digits?_of_isDigit (hne : cs ≠ []) (hcs : ∀ c ∈ cs, c.isDigit = true) :
    digits? 10 cs = some (cs.map fun c => c.toNat - 48) := by
  have hvalues : cs.map Text.hexValue? = (cs.map fun c => c.toNat - 48).map some := by
    rw [List.map_map]
    exact List.map_congr_left fun c hc => (hexValue?_of_isDigit (hcs c hc)).1
  have hsmall : ((cs.map fun c => c.toNat - 48).map some).all (fun d => d.any (· < 10)) = true := by
    simp only [List.all_map, List.all_eq_true, Function.comp_apply, Option.any_some, decide_eq_true_eq]
    exact fun c hc => (hexValue?_of_isDigit (hcs c hc)).2
  have hsome : ∀ ns : List Nat, (ns.map some).filterMap id = ns := fun ns => by simp
  rw [digits?, splitOn_of_not_mem (not_mem_of_isDigit hcs rfl)]
  simp only [List.map_cons, List.map_nil, List.all_cons, List.all_nil, hvalues, hsmall, List.flatten_cons,
    List.flatten_nil, List.append_nil, hsome]
  simp [hne]

theorem numberOf_toDigits (n : Nat) :
    numberOf 10 ((Nat.toDigits 10 n).map fun c => c.toNat - 48) = n := by
  have h := Nat.ofDigitChars_ten_toDigits (n := n)
  rw [Nat.ofDigitChars_eq_foldl] at h
  rw [numberOf, List.foldl_map]
  exact h

theorem isDigit_of_mem_toDigits (n : Nat) : ∀ c ∈ Nat.toDigits 10 n, c.isDigit = true :=
  fun _ hc => Nat.isDigit_of_mem_toDigits (by decide) (by decide) hc

theorem wholeDigits?_toDigits (n : Nat) :
    wholeDigits? (Nat.toDigits 10 n) = some ((Nat.toDigits 10 n).map fun c => c.toNat - 48) := by
  have hdigits := digits?_of_isDigit Nat.toDigits_ne_nil (isDigit_of_mem_toDigits n)
  rcases Nat.eq_zero_or_pos n with rfl | hn
  · rfl
  · obtain ⟨c, cs, hcs, hpos⟩ := Json.toDigits_head_pos hn
    rw [wholeDigits?, hdigits]
    intro d ds heq
    rw [hcs] at heq
    rw [(List.cons.inj heq).1] at hpos
    exact absurd hpos (by decide)

theorem sign_of_isDigit (hcs : ∀ c ∈ cs, c.isDigit = true) : sign cs = (false, cs) := by
  unfold sign
  split
  · exact absurd (hcs '-' List.mem_cons_self) (by decide)
  · exact absurd (hcs '+' List.mem_cons_self) (by decide)
  · rfl

theorem anyInteger?_toDigits (n : Nat) : anyInteger? (Nat.toDigits 10 n) = some (n : Int) := by
  have hds := isDigit_of_mem_toDigits n
  unfold anyInteger?
  split
  · next heq =>
    rw [heq] at hds
    exact absurd (hds 'x' (by simp)) (by decide)
  · next heq =>
    rw [heq] at hds
    exact absurd (hds 'o' (by simp)) (by decide)
  · next heq =>
    rw [heq] at hds
    exact absurd (hds 'b' (by simp)) (by decide)
  · rw [sign_of_isDigit hds]
    simp only [wholeDigits?_toDigits, Option.map_some, numberOf_toDigits, Bool.false_eq_true, if_false]

theorem isFloat_of_isDigit (hcs : ∀ c ∈ cs, c.isDigit = true) : isFloat cs = false := by
  have hmarks : ∀ c ∈ cs, isDigitMark c = true := fun c hc => by rw [isDigitMark, hcs c hc, Bool.true_or]
  have hinf : cs ≠ ['i', 'n', 'f'] := by
    rintro rfl
    exact absurd (hcs 'i' (by simp)) (by decide)
  have hnan : cs ≠ ['n', 'a', 'n'] := by
    rintro rfl
    exact absurd (hcs 'n' (by simp)) (by decide)
  have hdrop : cs.dropWhile isDigitMark = [] := List.dropWhile_eq_nil_iff.mpr hmarks
  rw [isFloat, sign_of_isDigit hcs]
  simp only
  rw [isUnsignedFloat, if_neg (by simp [hinf, hnan]), hdrop]
  cases wholeDigits? (cs.takeWhile isDigitMark) <;> rfl

theorem isTime_of_isDigit (hcs : ∀ c ∈ cs, c.isDigit = true) : isTime cs = false := by
  have hdate : afterDate? cs = none := by
    unfold afterDate?
    split
    · exact absurd (hcs '-' (by simp)) (by decide)
    · rfl
  have htime : afterTime? cs = none := by
    unfold afterTime?
    split
    · exact absurd (hcs ':' (by simp)) (by decide)
    · rfl
  rw [isTime, hdate, htime]
  rfl

/-- A natural number of at most sixty-three bits is read back from its digits. -/
theorem ofWord?_toDigits {n : Nat} (hn : n < 2 ^ 63) : ofWord? (Nat.toDigits 10 n) = some (.integer n) := by
  have hds := isDigit_of_mem_toDigits n
  have htrue : Nat.toDigits 10 n ≠ ['t', 'r', 'u', 'e'] := fun heq =>
    absurd (hds 't' (by simp [heq])) (by decide)
  have hfalse : Nat.toDigits 10 n ≠ ['f', 'a', 'l', 's', 'e'] := fun heq =>
    absurd (hds 'f' (by simp [heq])) (by decide)
  have hleast : Int64.minValue.toInt = -2 ^ 63 := by decide
  have hmost : Int64.maxValue.toInt = 2 ^ 63 - 1 := by decide
  have hfits : fits n = true := by
    rw [fits, hleast, hmost, Bool.and_eq_true, decide_eq_true_eq, decide_eq_true_eq]
    omega
  rw [ofWord?, if_neg htrue, if_neg hfalse, isTime_of_isDigit hds, isFloat_of_isDigit hds,
    if_neg Bool.false_ne_true, if_neg Bool.false_ne_true, integer?, anyInteger?_toDigits, Option.filter_some,
    if_pos hfits]
  rfl

/-! ### Values -/

theorem takeWord_line (hcs : ∀ c ∈ cs, isWordChar c = true) :
    takeWord (cs ++ '\n' :: rest) = (cs, '\n' :: rest) := by
  have htake : (cs ++ '\n' :: rest).takeWhile isWordChar = cs := by
    rw [List.takeWhile_append_of_pos hcs, List.takeWhile_cons_of_neg (by decide), List.append_nil]
  have hdrop : (cs ++ '\n' :: rest).dropWhile isWordChar = '\n' :: rest := by
    rw [List.dropWhile_append_of_pos hcs, List.dropWhile_cons_of_neg (by decide)]
  rw [takeWord, htake, hdrop]
  rfl

theorem readValue_toDigits {n : Nat} (hn : n < 2 ^ 63) (levels fuel : Nat) (rest : List Char) :
    readValue levels (fuel + 1) (Nat.toDigits 10 n ++ '\n' :: rest) = some (.integer n, '\n' :: rest) := by
  have hds := isDigit_of_mem_toDigits n
  have hword : ∀ c ∈ Nat.toDigits 10 n, isWordChar c = true := fun c hc => by
    simp [isWordChar, Char.isAlphanum, hds c hc]
  have htake := @takeWord_line _ rest hword
  have hof := ofWord?_toDigits hn
  obtain ⟨c, cs, hcs⟩ := List.exists_cons_of_ne_nil (Nat.toDigits_ne_nil (n := n) (b := 10))
  have hc : c.isDigit = true := hds c (by rw [hcs]; exact List.mem_cons_self)
  rw [hcs, List.cons_append] at htake ⊢
  rw [hcs] at hof
  -- no other kind of value starts with a digit
  unfold readValue
  split
  case h_5 => rw [htake]; simp only [hof, Option.map_some]
  all_goals
    rename_i heq
    obtain ⟨rfl, -⟩ := List.cons_eq_cons.mp heq
    exact absurd hc (by decide)

theorem quote_head (cs : List Char) : ∃ c ds, quote cs = c :: ds ∧ (c = '"' ∨ c = '\'') := by
  unfold quote
  split
  · exact ⟨_, _, rfl, .inl rfl⟩
  · exact ⟨_, _, rfl, .inr rfl⟩
  · exact ⟨_, _, rfl, .inl rfl⟩
  · exact ⟨_, _, rfl, .inr rfl⟩

theorem readValue_quote (s : String) (levels fuel : Nat) (rest : List Char) :
    readValue levels (fuel + 1) (quote s.toList ++ '\n' :: rest) = some (.string s, '\n' :: rest) := by
  have hstring : readString (quote s.toList ++ '\n' :: rest) = some (s.toList, '\n' :: rest) :=
    readString_quote (by simp) (by simp)
  obtain ⟨c, ds, hquote, hc⟩ := quote_head s.toList
  rw [hquote, List.cons_append] at hstring ⊢
  rcases hc with rfl | rfl
  · rw [readValue, hstring, Option.map_some, String.ofList_toList]
  · rw [readValue, hstring, Option.map_some, String.ofList_toList]

/-- The characters of a value that ends its line. -/
structure SpellsValue (cs : List Char) (v : Value) : Prop where
  head : ∃ c ds, cs = c :: ds ∧ isSpace c = false
  read : ∀ levels fuel rest, readValue levels (fuel + 1) (cs ++ '\n' :: rest) = some (v, '\n' :: rest)

theorem spellsValue_toDigits {n : Nat} (hn : n < 2 ^ 63) :
    SpellsValue (Nat.toDigits 10 n) (.integer n) := by
  obtain ⟨c, cs, hcs⟩ := List.exists_cons_of_ne_nil (Nat.toDigits_ne_nil (n := n) (b := 10))
  have hc : c.isDigit = true := isDigit_of_mem_toDigits n c (by rw [hcs]; exact List.mem_cons_self)
  exact ⟨⟨c, cs, hcs, isSpace_of_test hc rfl rfl⟩, readValue_toDigits hn⟩

theorem spellsValue_quote (s : String) : SpellsValue (quote s.toList) (.string s) := by
  obtain ⟨c, ds, hquote, hc⟩ := quote_head s.toList
  have hspace : isSpace c = false := by
    rcases hc with rfl | rfl
    · rfl
    · rfl
  exact ⟨⟨c, ds, hquote, hspace⟩, readValue_quote s⟩

/-! ### Keys and lines -/

/-- Keys that need no quotes. -/
def IsBare (key : String) : Prop := key.toList ≠ [] ∧ key.toList.all isKeyChar = true

instance (key : String) : Decidable (IsBare key) :=
  inferInstanceAs (Decidable (key.toList ≠ [] ∧ key.toList.all isKeyChar = true))

theorem IsBare.isKeyChar {key : String} (hkey : IsBare key) : ∀ c ∈ key.toList, isKeyChar c = true :=
  List.all_eq_true.mp hkey.2

/-- A bare key starts with one of its characters. -/
theorem IsBare.exists_cons {key : String} (hkey : IsBare key) :
    ∃ d ds, key.toList = d :: ds ∧ Toml.isKeyChar d = true := by
  obtain ⟨d, ds, hcons⟩ := List.exists_cons_of_ne_nil hkey.1
  exact ⟨d, ds, hcons, hkey.isKeyChar d (by rw [hcons]; exact List.mem_cons_self)⟩

theorem readKeyPart_bare {key : String} (hkey : IsBare key) (hc : isKeyChar c = false) :
    readKeyPart (key.toList ++ c :: rest) = some (key, c :: rest) := by
  have hall := hkey.isKeyChar
  have htake : (key.toList ++ c :: rest).takeWhile isKeyChar = key.toList := by
    rw [List.takeWhile_append_of_pos hall, List.takeWhile_cons_of_neg (by simp [hc]), List.append_nil]
  have hdrop : (key.toList ++ c :: rest).dropWhile isKeyChar = c :: rest := by
    rw [List.dropWhile_append_of_pos hall, List.dropWhile_cons_of_neg (by simp [hc])]
  obtain ⟨d, ds, hcons, hd⟩ := hkey.exists_cons
  have hnonempty : key.toList.isEmpty = false := by rw [hcons]; rfl
  unfold readKeyPart
  split
  · next heq =>
    rw [hcons] at heq
    exact absurd (List.cons.inj heq).1 (ne_of_test hd rfl)
  · next heq =>
    rw [hcons] at heq
    exact absurd (List.cons.inj heq).1 (ne_of_test hd rfl)
  · rw [htake, hdrop, hnonempty, if_neg Bool.false_ne_true, String.ofList_toList]

/-- A key of one part is read up to what follows it, white space apart. -/
theorem readKey_bare {key : String} (hkey : IsBare key) (hc : isKeyChar c = false) (more : Nat)
    (hend : ∀ tail, skipSpace (c :: rest) ≠ '.' :: tail) :
    readKey (more + 1) (key.toList ++ c :: rest) = some ([key], skipSpace (c :: rest)) := by
  have hstart : skipSpace (key.toList ++ c :: rest) = key.toList ++ c :: rest := by
    obtain ⟨d, ds, hcons, hd⟩ := hkey.exists_cons
    rw [hcons, List.cons_append, skipSpace, List.dropWhile_cons_of_neg (by simp [isSpace_of_test hd rfl rfl])]
  rw [readKey, hstart, readKeyPart_bare hkey hc]
  dsimp only
  split
  · next heq => exact absurd heq (hend _)
  · rfl

/-- Characters that a statement starts with: those of bare keys, and the bracket of a header. -/
def startsStatement (c : Char) : Bool := isKeyChar c || c == '['

/-- The characters of a statement that has a line of its own. -/
structure SpellsLine (cs : List Char) (s : Statement) : Prop where
  head : ∃ c tail, cs = c :: tail ∧ startsStatement c = true
  read : ∀ rest, readStatement (cs ++ '\n' :: rest) = some (s, '\n' :: rest)

theorem spellsLine_header {key : String} (hkey : IsBare key) :
    SpellsLine ('[' :: (key.toList ++ [']'])) (.header [key] false) where
  head := ⟨'[', _, rfl, rfl⟩
  read rest := by
    have hread : readKey maxLevels (key.toList ++ ']' :: '\n' :: rest) = some ([key], ']' :: '\n' :: rest) :=
      readKey_bare hkey rfl 78 (fun tail heq => absurd (List.cons.inj heq).1 (by decide))
    obtain ⟨d, ds, hcons, hd⟩ := hkey.exists_cons
    have hbracket : d ≠ '[' := ne_of_test hd rfl
    simp only [List.cons_append, List.append_assoc, List.nil_append]
    rw [hcons, List.cons_append] at hread ⊢
    rw [readStatement, readHeader, hread]
    · rfl
    · intro tail heq
      exact hbracket (List.cons.inj heq).1

theorem spellsLine_entry {key : String} {value : List Char} {v : Value} (hkey : IsBare key)
    (hvalue : SpellsValue value v) :
    SpellsLine (key.toList ++ ' ' :: '=' :: ' ' :: value) (.entry [key] v) := by
  obtain ⟨d, ds, hcons, hd⟩ := hkey.exists_cons
  have hstart : startsStatement d = true := by rw [startsStatement, hd, Bool.true_or]
  refine ⟨⟨d, ds ++ ' ' :: '=' :: ' ' :: value, by rw [hcons]; rfl, hstart⟩, fun rest => ?_⟩
  have hbracket : d ≠ '[' := ne_of_test hd rfl
  have hkey : readKey maxLevels (key.toList ++ ' ' :: '=' :: ' ' :: (value ++ '\n' :: rest)) =
      some ([key], '=' :: ' ' :: (value ++ '\n' :: rest)) :=
    readKey_bare hkey rfl 78 (fun tail heq => absurd (List.cons.inj heq).1 (by decide))
  have hspace : skipSpace (' ' :: (value ++ '\n' :: rest)) = value ++ '\n' :: rest := by
    obtain ⟨c, ds, rfl, hc⟩ := hvalue.head
    rw [skipSpace, List.dropWhile_cons_of_pos rfl, List.cons_append,
      List.dropWhile_cons_of_neg (by simp [hc])]
  have hentry : readStatement (key.toList ++ ' ' :: '=' :: ' ' :: (value ++ '\n' :: rest)) =
      readEntry (key.toList ++ ' ' :: '=' :: ' ' :: (value ++ '\n' :: rest)) := by
    rw [hcons, List.cons_append]
    unfold readStatement
    split
    · next heq => exact absurd (List.cons.inj heq).1 hbracket
    · rfl
  simp only [List.append_assoc, List.cons_append]
  rw [hentry, readEntry, hkey]
  simp only
  rw [hspace, hvalue.read]
  rfl

/-! ### Documents -/

/-- The characters of a document and its statements: each has a line of its own, and lines may be blank. -/
inductive Spells : List Char → List Statement → Prop where
  | nil : Spells [] []
  | blank {cs : List Char} {ss : List Statement} (h : Spells cs ss) : Spells ('\n' :: cs) ss
  | line {cs rest : List Char} {s : Statement} {ss : List Statement} (hs : SpellsLine cs s)
      (h : Spells rest ss) : Spells (cs ++ '\n' :: rest) (s :: ss)

variable {ss : List Statement}

theorem readStatements_newline (fuel : Nat) (cs : List Char) :
    readStatements fuel ('\n' :: cs) = readStatements fuel cs := by
  cases fuel with
  | zero => rfl
  | succ fuel => rfl

/-- One statement more takes one more step. -/
theorem SpellsLine.readStatements {s : Statement} (hs : SpellsLine cs s) (fuel : Nat) (rest : List Char) :
    Toml.readStatements (fuel + 1) (cs ++ '\n' :: rest) =
      (Toml.readStatements fuel rest).map (s :: ·) := by
  obtain ⟨c, tail, rfl, hc⟩ := hs.head
  have hread := hs.read rest
  have hskip : skipLines false (c :: (tail ++ '\n' :: rest)) = c :: (tail ++ '\n' :: rest) := by
    have hline := @startsLine_cons c (tail ++ '\n' :: rest) (ne_of_test hc rfl) (ne_of_test hc rfl)
    have hcomment : c ≠ '#' := ne_of_test hc rfl
    rw [skipLines, hline, isSpace_of_test hc rfl rfl]
    simp [hcomment]
  rw [List.cons_append] at hread ⊢
  rw [Toml.readStatements, hskip]
  have hspace : skipSpace ('\n' :: rest) = '\n' :: rest := rfl
  have hends : endsLine ('\n' :: rest) = true := rfl
  dsimp only
  rw [hread]
  dsimp only
  rw [hspace, hends, if_pos rfl, readStatements_newline]

theorem Spells.readStatements (h : Spells cs ss) {fuel : Nat} (hfuel : ss.length < fuel) :
    Toml.readStatements fuel cs = some ss := by
  induction h generalizing fuel with
  | nil =>
    obtain ⟨more, rfl⟩ : ∃ more, fuel = more + 1 := ⟨fuel - 1, by omega⟩
    rfl
  | blank _ ih =>
    rw [readStatements_newline]
    exact ih hfuel
  | line hs _ ih =>
    obtain ⟨more, rfl⟩ : ∃ more, fuel = more + 1 := ⟨fuel - 1, by omega⟩
    rw [List.length_cons] at hfuel
    rw [hs.readStatements, ih (by omega)]
    rfl

theorem Spells.length_le (h : Spells cs ss) : ss.length ≤ cs.length := by
  induction h with
  | nil => exact Nat.le_refl 0
  | blank _ ih => exact Nat.le_succ_of_le ih
  | line _ _ ih =>
    rw [List.length_append, List.length_cons, List.length_cons]
    omega

theorem Spells.skipMark (h : Spells cs ss) : Toml.skipMark cs = cs := by
  have hmark : ∀ rest, cs ≠ '\ufeff' :: rest := by
    rintro rest rfl
    generalize hcs : '\ufeff' :: rest = cs at h
    cases h with
    | nil => cases hcs
    | blank _ => exact absurd (List.cons.inj hcs).1 (by decide)
    | line hs _ =>
      obtain ⟨c, tail, rfl, hc⟩ := hs.head
      exact ne_of_test hc rfl (List.cons.inj hcs).1.symm
  unfold Toml.skipMark
  split
  · exact absurd rfl (hmark _)
  · rfl

/-- **A document is read back from its characters.** -/
theorem Spells.read? (h : Spells cs ss) : Toml.read? (String.ofList cs) = entriesOf? ss := by
  have hlength := h.length_le
  rw [Toml.read?, String.toList_ofList, h.skipMark, h.readStatements (by omega), Option.bind_some]

end CodeGraph.Toml
