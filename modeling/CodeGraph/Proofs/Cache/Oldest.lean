import CodeGraph.Proofs.Cache.History

/-!
# The oldest result of a digest

A look-up by digest alone takes, of the rows of a digest and a kind, the one that precedes all others by its time and
then by the name of its language (`IsOldest`). There is one wherever there is any such row, and only one, for rows that
tie in both have one key. It answers with this row where its language is known, and fails where not. Main statement:
`find_agrees_byLanguage`.
-/

namespace CodeGraph

/-! ### The order of rows -/

/-- A row is not after another: it was written earlier, or at the same time and its language comes no later. -/
def StoreRow.Precedes (a b : StoreRow) : Prop :=
  a.createdAt < b.createdAt ∨ a.createdAt = b.createdAt ∧ a.key.language ≤ b.key.language

namespace StoreRow

variable {a b c : StoreRow}

theorem Precedes.refl (a : StoreRow) : a.Precedes a := Or.inr ⟨rfl, String.le_refl _⟩

theorem Precedes.trans (hab : a.Precedes b) (hbc : b.Precedes c) : a.Precedes c := by
  rcases hab with hab | ⟨hab, hlanguage⟩
  · rcases hbc with hbc | ⟨hbc, -⟩
    · exact Or.inl (Int.lt_trans hab hbc)
    · exact Or.inl (hbc ▸ hab)
  · rcases hbc with hbc | ⟨hbc, hlanguage'⟩
    · exact Or.inl (hab ▸ hbc)
    · exact Or.inr ⟨hab.trans hbc, String.le_trans hlanguage hlanguage'⟩

theorem Precedes.language_eq (hab : a.Precedes b) (hba : b.Precedes a) :
    a.key.language = b.key.language := by
  rcases hab with hab | ⟨hab, hlanguage⟩
  · rcases hba with hba | ⟨hba, -⟩ <;> omega
  · rcases hba with hba | ⟨-, hlanguage'⟩
    · omega
    · exact String.le_antisymm hlanguage hlanguage'

theorem precedes_of_isBefore (h : a.isBefore b = true) : a.Precedes b := by
  rw [isBefore, Bool.or_eq_true, Bool.and_eq_true, decide_eq_true_eq, decide_eq_true_eq, beq_iff_eq] at h
  exact h.imp_right fun h => ⟨h.1, Std.le_of_lt h.2⟩

theorem precedes_of_not_isBefore (h : a.isBefore b = false) : b.Precedes a := by
  rw [isBefore, Bool.or_eq_false_iff, Bool.and_eq_false_iff, decide_eq_false_iff_not,
    decide_eq_false_iff_not, beq_eq_false_iff_ne] at h
  obtain ⟨htime, hne | hlanguage⟩ := h
  · exact Or.inl (by omega)
  · rcases Int.lt_or_eq_of_le (Int.not_lt.mp htime) with hlt | heq
    · exact Or.inl hlt
    · exact Or.inr ⟨heq, String.not_lt.mp hlanguage⟩

end StoreRow

namespace ResultStore

variable {s : ResultStore} {digest : String} {kind : ResultKind} {row : StoreRow}

/-- The row of a digest and a kind that precedes all of them. -/
structure IsOldest (s : ResultStore) (digest : String) (kind : ResultKind) (row : StoreRow) : Prop where
  mem : row ∈ s.rows
  digest_eq : row.key.digest = digest
  kind_eq : row.key.kind = kind.name
  first : ∀ other ∈ s.rows, other.key.digest = digest → other.key.kind = kind.name → row.Precedes other

/-- Of rows with one digest and one kind no two are the oldest: they would have one language, and so one key. -/
theorem IsOldest.unique {other : StoreRow} (h : s.IsOldest digest kind row)
    (hother : s.IsOldest digest kind other) : row = other := by
  have hlanguage := (h.first other hother.mem hother.digest_eq hother.kind_eq).language_eq
    (hother.first row h.mem h.digest_eq h.kind_eq)
  have hkey : row.key = other.key := by
    rw [StoreKey.mk.injEq]
    exact ⟨h.digest_eq.trans hother.digest_eq.symm, hlanguage, h.kind_eq.trans hother.kind_eq.symm⟩
  exact List.inj_on_of_nodup_map s.distinct h.mem hother.mem hkey

/-! ### What a look-up takes -/

theorem earliest?_eq_none_iff {rows : List StoreRow} : earliest? rows = none ↔ rows = [] := by
  cases rows with
  | nil => exact iff_of_true rfl rfl
  | cons row rows => exact iff_of_false (Option.some_ne_none _) (List.cons_ne_nil row rows)

theorem precedes_of_earliest? {rows : List StoreRow} (h : earliest? rows = some row) :
    row ∈ rows ∧ ∀ other ∈ rows, row.Precedes other := by
  induction rows generalizing row with
  | nil => cases h
  | cons first rows ih =>
    have hrow : earlier first (earliest? rows) = row := Option.some.inj h
    cases hrest : earliest? rows with
    | none =>
      rw [hrest] at hrow
      obtain rfl := earliest?_eq_none_iff.mp hrest
      obtain rfl : first = row := hrow
      exact ⟨List.mem_singleton_self _, List.forall_mem_singleton.mpr (.refl _)⟩
    | some found =>
      obtain ⟨hfound, hfirst⟩ := ih hrest
      rw [hrest, earlier] at hrow
      split at hrow
      · next hbefore =>
        obtain rfl := hrow
        exact ⟨List.mem_cons_of_mem _ hfound,
          List.forall_mem_cons.mpr ⟨StoreRow.precedes_of_isBefore hbefore, hfirst⟩⟩
      · next hnot =>
        obtain rfl := hrow
        have hprecedes := StoreRow.precedes_of_not_isBefore (Bool.eq_false_iff.mpr hnot)
        exact ⟨List.mem_cons_self, List.forall_mem_cons.mpr
          ⟨.refl _, fun other hother => hprecedes.trans (hfirst other hother)⟩⟩

theorem oldest?_eq_none_iff :
    s.oldest? digest kind = none ↔
      ∀ row ∈ s.rows, ¬ (row.key.digest = digest ∧ row.key.kind = kind.name) := by
  rw [oldest?, earliest?_eq_none_iff, List.filter_eq_nil_iff]
  simp only [StoreRow.matchesDigest_eq_true]

theorem oldest?_eq_some_iff : s.oldest? digest kind = some row ↔ s.IsOldest digest kind row := by
  have hsound : ∀ {found}, s.oldest? digest kind = some found → s.IsOldest digest kind found := by
    intro found h
    obtain ⟨hmem, hfirst⟩ := precedes_of_earliest? h
    obtain ⟨hrow, hmatch⟩ := List.mem_filter.mp hmem
    obtain ⟨hdigest, hkind⟩ := StoreRow.matchesDigest_eq_true.mp hmatch
    refine ⟨hrow, hdigest, hkind, fun other hother hdigest' hkind' => hfirst other ?_⟩
    exact List.mem_filter.mpr ⟨hother, StoreRow.matchesDigest_eq_true.mpr ⟨hdigest', hkind'⟩⟩
  refine ⟨hsound, fun h => ?_⟩
  cases hold : s.oldest? digest kind with
  | none => exact absurd ⟨h.digest_eq, h.kind_eq⟩ (oldest?_eq_none_iff.mp hold row h.mem)
  | some found => rw [(hsound hold).unique h]

theorem exists_isOldest (hrow : row ∈ s.rows) (hdigest : row.key.digest = digest)
    (hkind : row.key.kind = kind.name) : ∃ found, s.IsOldest digest kind found := by
  cases hold : s.oldest? digest kind with
  | none => exact absurd ⟨hdigest, hkind⟩ (oldest?_eq_none_iff.mp hold row hrow)
  | some found => exact ⟨found, oldest?_eq_some_iff.mp hold⟩

theorem find_eq_none_iff :
    s.find digest kind = .ok none ↔
      ∀ row ∈ s.rows, ¬ (row.key.digest = digest ∧ row.key.kind = kind.name) := by
  rw [← oldest?_eq_none_iff, find]
  cases s.oldest? digest kind with
  | none => exact iff_of_true rfl rfl
  | some row => cases htag : Language.ofTag? row.key.language <;> simp [htag]

theorem find_eq_some_iff {language : Language} {payload : String} :
    s.find digest kind = .ok (some (language, payload)) ↔
      ∃ row, s.IsOldest digest kind row ∧ Language.ofTag? row.key.language = some language ∧
        row.payload = payload := by
  simp only [← oldest?_eq_some_iff, find]
  cases s.oldest? digest kind with
  | none => simp
  | some row => cases htag : Language.ofTag? row.key.language <;> simp [htag]

theorem find_eq_error_iff {e : Fault} :
    s.find digest kind = .error e ↔
      ∃ row, s.IsOldest digest kind row ∧ Language.ofTag? row.key.language = none ∧
        e = .unsupportedLanguage row.key.language := by
  simp only [← oldest?_eq_some_iff, find]
  cases s.oldest? digest kind with
  | none => simp
  | some row => cases htag : Language.ofTag? row.key.language <;> simp [htag, eq_comm]

/-! ### Look-ups with and without a language -/

/-- Where all keys are known, nothing is found by a digest exactly where nothing is found under any language. -/
theorem find_eq_none_iff_get? (hknown : ∀ row ∈ s.rows, row.key.IsKnown) :
    s.find digest kind = .ok none ↔ ∀ language, s.get? (.of digest language kind) = none := by
  simp only [find_eq_none_iff, get?_eq_none_iff, row?, List.find?_eq_none, decide_eq_true_eq]
  constructor
  · intro h language row hrow hkey
    exact h row hrow (by simp [hkey, StoreKey.of])
  · rintro h row hrow ⟨hdigest, hkind⟩
    obtain ⟨digest', language, kind', hkey⟩ := hknown row hrow
    refine h language row hrow (hkey.trans ?_)
    simp only [hkey, StoreKey.of] at hdigest hkind
    rw [hdigest, ResultKind.name_injective hkind]

/-- Where all keys are known, the language of the oldest row is the one that it was put under. -/
theorem IsOldest.key_eq (h : s.IsOldest digest kind row) (hknown : ∀ row ∈ s.rows, row.key.IsKnown) :
    ∃ language, row.key = .of digest language kind ∧
      Language.ofTag? row.key.language = some language := by
  obtain ⟨digest', language, kind', hkey⟩ := hknown row h.mem
  have hdigest := h.digest_eq
  have hkind := h.kind_eq
  simp only [hkey, StoreKey.of] at hdigest hkind
  obtain rfl := ResultKind.name_injective hkind
  exact ⟨language, hkey.trans (by rw [hdigest]), by rw [hkey]; exact Language.ofTag?_name language⟩

/-- The oldest row stays the oldest while only later rows come. -/
theorem IsOldest.after (h : s.IsOldest digest kind row) {future : List StoreOperation}
    (hclear : .clear ∉ future)
    (hlater : ∀ new ∈ future.filterMap StoreOperation.row?, row.createdAt < new.createdAt) :
    (s.after future).IsOldest digest kind row where
  mem := (suffix_rows_after hclear s).subset h.mem
  digest_eq := h.digest_eq
  kind_eq := h.kind_eq
  first other hother hdigest hkind := by
    rcases mem_rows_after hother with hold | hnew
    · exact h.first other hold hdigest hkind
    · exact Or.inl (hlater other hnew)

/-- **A look-up by digest agrees with the look-ups by key, and its answer stays.** In every store that began empty, it
never fails; it finds nothing exactly where the look-ups of the digest find nothing under any language; and where it
finds a payload, that is what is found under its language, in the row that precedes all others of the digest and the
kind by time and then by language. In any store whatever, an answer that is found stays while only later rows are put,
and the look-up fails exactly where the language of the row that precedes all others has no known tag. -/
theorem find_agrees_byLanguage (digest : String) (kind : ResultKind) :
    (∀ past, let s := (∅ : ResultStore).after past
      (∃ answer, s.find digest kind = .ok answer) ∧
        (s.find digest kind = .ok none ↔ ∀ language, s.get? (.of digest language kind) = none) ∧
        ∀ language payload, s.find digest kind = .ok (some (language, payload)) →
          s.get? (.of digest language kind) = some payload ∧
            ∃ row, s.IsOldest digest kind row ∧ row.key = .of digest language kind) ∧
      ∀ s : ResultStore,
        (∀ found, s.find digest kind = .ok (some found) → ∀ future, .clear ∉ future →
          (∀ old ∈ s.rows, ∀ new ∈ future.filterMap StoreOperation.row?, old.createdAt < new.createdAt) →
            (s.after future).find digest kind = .ok (some found)) ∧
        (∀ tag, s.find digest kind = .error (.unsupportedLanguage tag) ↔
          ∃ row, s.IsOldest digest kind row ∧ row.key.language = tag ∧ Language.ofTag? tag = none) ∧
        ∀ e, s.find digest kind = .error e → ∃ tag, e = .unsupportedLanguage tag := by
  refine ⟨fun past => ?_, fun s => ⟨fun found hfound future hclear hlater => ?_, fun tag => ?_, fun e he => ?_⟩⟩
  · intro s
    have hknown : ∀ row ∈ s.rows, row.key.IsKnown := fun row hrow =>
      isKnown_after hrow fun hstart => absurd hstart List.not_mem_nil
    refine ⟨?_, find_eq_none_iff_get? hknown, fun language payload hfound => ?_⟩
    · cases hfind : s.find digest kind with
      | ok answer => exact ⟨answer, rfl⟩
      | error e =>
        obtain ⟨row, hrow, htag, -⟩ := find_eq_error_iff.mp hfind
        obtain ⟨language, -, htag'⟩ := hrow.key_eq hknown
        exact absurd (htag.symm.trans htag') (by simp)
    · obtain ⟨row, hrow, htag, hpayload⟩ := find_eq_some_iff.mp hfound
      obtain ⟨language', hkey, htag'⟩ := hrow.key_eq hknown
      obtain rfl := Option.some.inj (htag.symm.trans htag')
      exact ⟨get?_eq_some_iff.mpr ⟨row, hrow.mem, hkey, hpayload⟩, row, hrow, hkey⟩
  · obtain ⟨row, hrow, htag, hpayload⟩ := find_eq_some_iff.mp hfound
    exact find_eq_some_iff.mpr ⟨row, hrow.after hclear (hlater row hrow.mem), htag, hpayload⟩
  · rw [find_eq_error_iff]
    constructor
    · rintro ⟨row, hrow, htag, htold⟩
      obtain rfl := Fault.unsupportedLanguage.inj htold
      exact ⟨row, hrow, rfl, htag⟩
    · rintro ⟨row, hrow, rfl, htag⟩
      exact ⟨row, hrow, htag, rfl⟩
  · obtain ⟨row, -, -, htold⟩ := find_eq_error_iff.mp he
    exact ⟨_, htold⟩

/-- Two rows of one time and a later one; what is put at the earliest time finds its key taken. -/
def tiedPast : List StoreOperation :=
  [.put "d" .rust .tree "1" 5, .put "d" .go .tree "2" 5, .put "d" .go .tree "3" 4, .put "d" .python .tree "4" 7]

/-- A store whose oldest row is of a language that there is not. -/
def cobolStore : ResultStore :=
  ofRows [⟨⟨"d", "cobol", "ast"⟩, "5", 3⟩, ⟨⟨"d", "python", "ast"⟩, "6", 4⟩]

theorem find_agrees_byLanguage_tiedPast :
    let s := (∅ : ResultStore).after tiedPast
    (s.get? (.of "d" .go .tree) = some "2" ∧
        ∃ row, s.IsOldest "d" .tree row ∧ row.key = .of "d" .go .tree) ∧
      (s.after [.put "d" .c .tree "7" 9, .count, .put "d" .java .tree "8" 8]).find "d" .tree =
        .ok (some (.go, "2")) ∧
      ∃ row, cobolStore.IsOldest "d" .tree row ∧ row.key.language = "cobol" ∧
        Language.ofTag? "cobol" = none := by
  intro s
  have hfound : s.find "d" .tree = .ok (some (.go, "2")) := by decide +kernel
  obtain ⟨hputs, hany⟩ := find_agrees_byLanguage "d" .tree
  refine ⟨(hputs tiedPast).2.2 .go "2" hfound, ?_, ((hany cobolStore).2.1 "cobol").mp (by decide +kernel)⟩
  exact (hany s).1 _ hfound _ (by decide) (by decide +kernel)

end ResultStore

end CodeGraph
