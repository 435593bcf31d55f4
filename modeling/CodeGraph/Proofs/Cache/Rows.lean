import CodeGraph.Cache.Store
import CodeGraph.Proofs.KeyOrder

/-!
# The rows of a store

What is put under a key is a new row in front of the others where the key has none, and is dropped where it has one. So
no row ever changes, and a payload is found by a key exactly where there is a row of that key.
-/

namespace CodeGraph

/-! ### Keys -/

theorem Language.name_injective {a b : Language} (h : a.name = b.name) : a = b := by
  have := congrArg ofName? h
  simpa [ofName?_name] using this

/-- Different results have different keys. -/
theorem StoreKey.of_inj {d e : String} {l m : Language} {k j : ResultKind}
    (h : of d l k = of e m j) : d = e ∧ l = m ∧ k = j := by
  obtain ⟨hdigest, hlanguage, hkind⟩ := StoreKey.mk.inj h
  exact ⟨hdigest, Language.name_injective hlanguage, ResultKind.name_injective hkind⟩

theorem StoreKey.ofSource_inj {s t : String} {l m : Language} {k j : ResultKind}
    (h : ofSource s l k = ofSource t m j) :
    Blake3.textDigest s = Blake3.textDigest t ∧ l = m ∧ k = j :=
  of_inj h

theorem StoreRow.matchesDigest_eq_true {digest : String} {kind : ResultKind} {row : StoreRow} :
    row.matchesDigest digest kind = true ↔ row.key.digest = digest ∧ row.key.kind = kind.name := by
  rw [matchesDigest, Bool.and_eq_true, beq_iff_eq, beq_iff_eq]

namespace ResultStore

variable {s : ResultStore} {key : StoreKey} {payload : String}

/-! ### Rows and payloads -/

theorem row?_eq_some_iff {row : StoreRow} : s.row? key = some row ↔ row ∈ s.rows ∧ row.key = key :=
  Keyed.find?_key_eq_some_iff s.distinct

theorem get?_eq_some_iff :
    s.get? key = some payload ↔ ∃ row ∈ s.rows, row.key = key ∧ row.payload = payload := by
  simp only [get?, Option.map_eq_some_iff, row?_eq_some_iff, and_assoc]

theorem get?_eq_none_iff : s.get? key = none ↔ s.row? key = none := by
  rw [get?, Option.map_eq_none_iff]

/-! ### New rows -/

theorem row?_add (s : ResultStore) (row : StoreRow) (key : StoreKey) :
    (s.add row).row? key =
      if row.key = key ∧ s.row? row.key = none then some row else s.row? key := by
  unfold add
  split
  · next other hother => rw [if_neg fun h => absurd (hother.symm.trans h.2) (by simp)]
  · next hnone =>
    by_cases hkey : row.key = key
    · rw [if_pos ⟨hkey, hnone⟩, row?, List.find?_cons_of_pos (by simpa using hkey)]
    · rw [if_neg fun h => hkey h.1, row?, List.find?_cons_of_neg (by simpa using hkey), row?]

theorem get?_put (s : ResultStore) (key' : StoreKey) (payload : String) (now : Int)
    (key : StoreKey) :
    (s.put key' payload now).1.get? key =
      if key' = key ∧ s.get? key' = none then some payload else s.get? key := by
  rw [put, get?, row?_add]
  by_cases h : key' = key ∧ s.row? key' = none
  · rw [if_pos h, if_pos ⟨h.1, get?_eq_none_iff.mpr h.2⟩, Option.map_some]
  · rw [if_neg h, if_neg fun h' => h ⟨h'.1, get?_eq_none_iff.mp h'.2⟩, get?]

/-- A key has a row after something was put under it. -/
theorem exists_get?_put (s : ResultStore) (key : StoreKey) (payload : String) (now : Int) :
    ∃ kept, (s.put key payload now).1.get? key = some kept := by
  rw [get?_put]
  cases hget : s.get? key with
  | none => exact ⟨payload, if_pos ⟨rfl, rfl⟩⟩
  | some kept => exact ⟨kept, if_neg fun h => Option.some_ne_none kept h.2⟩

theorem rows_put_of_free (h : s.row? key = none) (payload : String) (now : Int) :
    (s.put key payload now).1.rows = ⟨key, payload, now⟩ :: s.rows := by
  rw [put, add]
  split
  · next other hother => cases h.symm.trans hother
  · rfl

/-- What is put under a key that has a row is dropped, readable or not. -/
theorem put_of_row (h : s.row? key ≠ none) (payload : String) (now : Int) :
    (s.put key payload now).1 = s := by
  rw [put, add]
  split
  · rfl
  · next hnone => exact absurd hnone h

theorem suffix_rows_put (s : ResultStore) (key : StoreKey) (payload : String) (now : Int) :
    s.rows <:+ (s.put key payload now).1.rows := by
  by_cases h : s.row? key = none
  · rw [rows_put_of_free h]
    exact List.suffix_cons _ _
  · simp only [put_of_row h, List.suffix_refl]

theorem mem_rows_put {now : Int} {row : StoreRow} (h : row ∈ (s.put key payload now).1.rows) :
    row ∈ s.rows ∨ row = ⟨key, payload, now⟩ := by
  cases hrow : s.row? key with
  | none =>
    rw [rows_put_of_free hrow] at h
    exact (List.mem_cons.mp h).symm
  | some other =>
    rw [put_of_row (by simp [hrow])] at h
    exact Or.inl h

end ResultStore

end CodeGraph
