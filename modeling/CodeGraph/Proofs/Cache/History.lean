import CodeGraph.Proofs.Cache.Rows
import Mathlib.Data.Finset.Card

/-!
# The history of a store

A store is asked, put to and cleared. Asking leaves it as it is, and until it is cleared it keeps every row: of the rows
that are offered for a key, it takes the first that finds the key free (`row?_after`). What a store answers at any time is
read off from this. Main statement: `writeOnce_after`.
-/

namespace CodeGraph

/-- One use of a store. -/
inductive StoreOperation where
  | put (digest : String) (language : Language) (kind : ResultKind) (payload : String) (now : Int)
  | get (digest : String) (language : Language) (kind : ResultKind)
  | find (digest : String) (kind : ResultKind)
  | count
  | stats
  | clear
deriving DecidableEq

/-- The row that an operation offers to the store. -/
def StoreOperation.row? : StoreOperation → Option StoreRow
  | put digest language kind payload now => some ⟨.of digest language kind, payload, now⟩
  | _ => none

/-- A key of a language and of a kind that there are. -/
def StoreKey.IsKnown (key : StoreKey) : Prop := ∃ digest language kind, key = .of digest language kind

theorem StoreOperation.isKnown_of_row? {operation : StoreOperation} {row : StoreRow}
    (h : operation.row? = some row) : row.key.IsKnown := by
  cases operation with
  | put digest language kind payload now =>
    obtain rfl := Option.some.inj h
    exact ⟨digest, language, kind, rfl⟩
  | get | find | count | stats | clear => cases h

namespace ResultStore

/-- The store after an operation. -/
def step (s : ResultStore) : StoreOperation → ResultStore
  | .put digest language kind payload now => (s.put (.of digest language kind) payload now).1
  | .clear => s.clear.1
  | .get _ _ _ | .find _ _ | .count | .stats => s

/-- The store after some operations. -/
def after (s : ResultStore) (operations : List StoreOperation) : ResultStore :=
  operations.foldl step s

variable {s : ResultStore} {key : StoreKey} {operations : List StoreOperation}

/-! ### Rows over time -/

theorem row?_step {operation : StoreOperation} (h : operation ≠ .clear) (s : ResultStore)
    (key : StoreKey) :
    (s.step operation).row? key = (s.row? key).or (operation.row?.filter (·.key = key)) := by
  cases operation with
  | put digest language kind payload now =>
    show (s.add ⟨.of digest language kind, payload, now⟩).row? key = _
    rw [row?_add, StoreOperation.row?]
    by_cases hkey : StoreKey.of digest language kind = key
    · cases hrow : s.row? key <;> simp [hkey, hrow, Option.filter]
    · simp [hkey, Option.filter]
  | clear => exact absurd rfl h
  | get | find | count | stats => exact (Option.or_none).symm

/-- Until the store is cleared, a key has the row that it has, or else the first that is offered for it. -/
theorem row?_after (h : .clear ∉ operations) (s : ResultStore) (key : StoreKey) :
    (s.after operations).row? key =
      (s.row? key).or ((operations.filterMap StoreOperation.row?).find? (·.key = key)) := by
  induction operations generalizing s with
  | nil => exact (Option.or_none).symm
  | cons operation operations ih =>
    rw [List.mem_cons, not_or] at h
    have hoffered : ((operation :: operations).filterMap StoreOperation.row?).find? (·.key = key) =
        (operation.row?.filter (·.key = key)).or
          ((operations.filterMap StoreOperation.row?).find? (·.key = key)) := by
      rw [List.filterMap_cons]
      cases operation.row? with
      | none => rfl
      | some row => by_cases hkey : row.key = key <;> simp [hkey, Option.filter]
    rw [hoffered, ← Option.or_assoc, ← row?_step (Ne.symm h.1), ← ih h.2]
    rfl

theorem suffix_rows_after (h : .clear ∉ operations) (s : ResultStore) :
    s.rows <:+ (s.after operations).rows := by
  induction operations generalizing s with
  | nil => exact List.suffix_refl _
  | cons operation operations ih =>
    rw [List.mem_cons, not_or] at h
    refine List.IsSuffix.trans ?_ (ih h.2 (s.step operation))
    cases operation with
    | put digest language kind payload now => exact suffix_rows_put s _ payload now
    | clear => exact absurd rfl h.1
    | get | find | count | stats => exact List.suffix_refl _

/-- Every row was there from the start, or was offered. -/
theorem mem_rows_after {row : StoreRow} (h : row ∈ (s.after operations).rows) :
    row ∈ s.rows ∨ row ∈ operations.filterMap StoreOperation.row? := by
  induction operations generalizing s with
  | nil => exact Or.inl h
  | cons operation operations ih =>
    have hoffered : operations.filterMap StoreOperation.row? ⊆
        (operation :: operations).filterMap StoreOperation.row? :=
      (List.sublist_cons_self operation operations).filterMap _ |>.subset
    rcases ih h with hstep | hlater
    · cases operation with
      | put digest language kind payload now =>
        rcases mem_rows_put hstep with hold | rfl
        · exact Or.inl hold
        · exact Or.inr (List.mem_filterMap.mpr ⟨_, List.mem_cons_self, rfl⟩)
      | clear => exact absurd hstep List.not_mem_nil
      | get | find | count | stats => exact Or.inl hstep
    · exact Or.inr (hoffered hlater)

/-- In a run from a store with known keys, all keys are known. -/
theorem isKnown_after {row : StoreRow} (h : row ∈ (s.after operations).rows)
    (hs : row ∈ s.rows → row.key.IsKnown) : row.key.IsKnown := by
  rcases mem_rows_after h with hold | hoffered
  · exact hs hold
  · obtain ⟨operation, -, hrow⟩ := List.mem_filterMap.mp hoffered
    exact StoreOperation.isKnown_of_row? hrow

/-! ### Counting -/

theorem count_eq_card (s : ResultStore) :
    ∃ keys : Finset StoreKey, (∀ key, key ∈ keys ↔ (s.get? key).isSome) ∧ s.count = keys.card := by
  refine ⟨(s.rows.map (·.key)).toFinset, fun key => ?_, ?_⟩
  · simp only [List.mem_toFinset, List.mem_map, Option.isSome_iff_exists, get?_eq_some_iff]
    constructor
    · rintro ⟨row, hrow, rfl⟩
      exact ⟨row.payload, row, hrow, rfl, rfl⟩
    · rintro ⟨_, row, hrow, rfl, _⟩
      exact ⟨row, hrow, rfl⟩
  · rw [List.toFinset_card_of_nodup s.distinct, List.length_map, count]

/-- Rows of known keys are counted under one kind each. -/
theorem count_eq_sum_stats (h : ∀ row ∈ s.rows, row.key.IsKnown) :
    s.count = s.stats.trees + s.stats.graphs + s.stats.outlines := by
  simp only [count, stats, countKind]
  generalize s.rows = rows at h ⊢
  induction rows with
  | nil => rfl
  | cons row rows ih =>
    obtain ⟨⟨digest, language, kind, hkey⟩, hrows⟩ := List.forall_mem_cons.mp h
    simp only [List.countP_cons, List.length_cons, ih hrows, hkey, StoreKey.of]
    cases kind <;> simp [ResultKind.name] <;> omega

/-! ### Written once -/

/-- No put under a key is among some operations, so none of the rows that they offer has the key. -/
theorem find?_offered_of_not_put {digest : String} {language : Language} {kind : ResultKind}
    (h : ∀ payload now, .put digest language kind payload now ∉ operations) :
    (operations.filterMap StoreOperation.row?).find? (·.key = .of digest language kind) = none := by
  refine List.find?_eq_none.mpr fun row hrow hkey => ?_
  obtain ⟨operation, hmem, hoffered⟩ := List.mem_filterMap.mp hrow
  cases operation with
  | put digest' language' kind' payload now =>
    obtain rfl := Option.some.inj hoffered
    obtain ⟨rfl, rfl, rfl⟩ := StoreKey.of_inj (of_decide_eq_true hkey)
    exact h payload now hmem
  | get | find | count | stats | clear => cases hoffered

/-- **A store is written once under every key.** At every point of every history, from whatever rows it began:
a put writes exactly where a look-up of its key finds nothing, and what it writes is found then. What is found under a
key stays until the store is cleared, and so does its absence where nothing is put under that very key. The count is
the number of keys under which something is found; clearing tells it and leaves nothing. Where the rows from the
beginning are of known languages and kinds, the counts of the kinds add up to it. -/
theorem writeOnce_after (initial : ResultStore) (past : List StoreOperation) :
    let s := initial.after past
    (∀ digest language kind, let key := StoreKey.of digest language kind
      (∀ payload now, ((s.put key payload now).2 = true ↔ s.get? key = none) ∧
        (s.get? key = none → (s.put key payload now).1.get? key = some payload)) ∧
      ∀ future, .clear ∉ future →
        (∀ payload, s.get? key = some payload → (s.after future).get? key = some payload) ∧
        ((∀ payload now, .put digest language kind payload now ∉ future) →
          (s.after future).get? key = s.get? key)) ∧
      (∃ keys : Finset StoreKey, (∀ key, key ∈ keys ↔ (s.get? key).isSome) ∧ s.count = keys.card) ∧
      s.clear.2 = s.count ∧ s.clear.1.count = 0 ∧ (∀ key, s.clear.1.get? key = none) ∧
      ((∀ row ∈ s.rows, row ∈ initial.rows → row.key.IsKnown) →
        s.count = s.stats.trees + s.stats.graphs + s.stats.outlines) := by
  intro s
  refine ⟨fun digest language kind => ⟨fun payload now => ⟨?_, fun hfree => ?_⟩, fun future hclear => ?_⟩,
    s.count_eq_card, rfl, rfl, fun _ => rfl, fun hknown => ?_⟩
  · rw [put, Option.isNone_iff_eq_none, get?_eq_none_iff]
  · rw [get?_put, if_pos ⟨rfl, hfree⟩]
  · refine ⟨fun payload hfound => ?_, fun hother => ?_⟩
    · obtain ⟨row, hrow, hpayload⟩ := Option.map_eq_some_iff.mp hfound
      rw [get?, row?_after hclear, hrow, Option.some_or, Option.map_some, hpayload]
    · rw [get?, row?_after hclear, find?_offered_of_not_put hother, Option.or_none, get?]
  · exact count_eq_sum_stats fun row hrow => isKnown_after hrow (hknown row hrow)

/-- A store that began with a row of a language and a kind that there are not. -/
def strayStore : ResultStore := ofRows [⟨⟨"d", "cobol", "tokens"⟩, "0", 3⟩]

/-- The stray row is cleared away, and one key is put to twice, with another one between. -/
def strayPast : List StoreOperation :=
  [.stats, .clear, .put "d" .go .graph "1" 5, .get "d" .go .graph, .put "d" .go .tree "2" 5,
    .put "d" .go .graph "3" 4]

theorem writeOnce_after_strayPast :
    let s := strayStore.after strayPast
    (s.put (.of "d" .rust .graph) "4" 6).2 = true ∧
      (s.after [.put "d" .go .graph "5" 6, .find "d" .graph, .put "e" .go .tree "6" 7]).get?
        (.of "d" .go .graph) = some "1" ∧
      (s.after [.put "d" .go .outline "7" 6, .count]).get? (.of "d" .rust .graph) = none ∧
      s.count = s.stats.trees + s.stats.graphs + s.stats.outlines := by
  intro s
  obtain ⟨hkeys, -, -, -, -, hcount⟩ := writeOnce_after strayStore strayPast
  refine ⟨((hkeys "d" .rust .graph).1 "4" 6).1.mpr (by decide +kernel), ?_, ?_, hcount ?_⟩
  · exact ((hkeys "d" .go .graph).2 _ (by decide)).1 "1" (by decide +kernel)
  · rw [((hkeys "d" .rust .graph).2 _ (by decide)).2 fun payload now => by simp]
    decide +kernel
  · intro row hrow hold
    obtain rfl : row = ⟨⟨"d", "cobol", "tokens"⟩, "0", 3⟩ := List.mem_singleton.mp hold
    exact absurd hrow (by decide +kernel)

end ResultStore

end CodeGraph
