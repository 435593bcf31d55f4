import CodeGraph.Keyed
import Mathlib.Data.List.Nodup

/-!
# Lists in the order of their keys

Where no two entries share a key, an entry is found by its key. A list in strictly increasing order
of its keys is the only one with its entries, so it comes out of `byKey` in whatever order its entries
went in. In any list, `byKey` keeps the first entry of each key.
-/

namespace CodeGraph.Keyed

section Find

variable {α κ : Type} [DecidableEq κ] {key : α → κ} {xs : List α}

/-- With the key of an entry, an entry of the key is found. -/
theorem exists_find?_key (key : α → κ) {a : α} (ha : a ∈ xs) :
    ∃ b, xs.find? (key · = key a) = some b ∧ b ∈ xs ∧ key b = key a := by
  have hsome : (xs.find? (key · = key a)).isSome := List.find?_isSome.mpr ⟨a, ha, decide_eq_true rfl⟩
  obtain ⟨b, hb⟩ := Option.isSome_iff_exists.mp hsome
  exact ⟨b, hb, List.mem_of_find?_eq_some hb, by simpa using List.find?_some hb⟩

/-- Where every key has one entry, it finds this entry. -/
theorem find?_key_eq_some_iff (h : (xs.map key).Nodup) {k : κ} {a : α} :
    xs.find? (key · = k) = some a ↔ a ∈ xs ∧ key a = k := by
  constructor
  · intro ha
    exact ⟨List.mem_of_find?_eq_some ha, by simpa using List.find?_some ha⟩
  · rintro ⟨ha, rfl⟩
    obtain ⟨b, hb, hmem, hkey⟩ := exists_find?_key key ha
    rw [hb, List.inj_on_of_nodup_map h hmem ha hkey]

end Find

variable {α : Type} (key : α → String)

theorem nodup_keys_of_increasing {xs : List α} (h : Increasing key xs) : (xs.map key).Nodup := by
  refine List.pairwise_map.mpr (List.Pairwise.imp (fun hab heq => ?_) h)
  exact String.lt_irrefl _ (heq ▸ hab)

/-- Entries of one key in a list of strictly increasing keys are one. -/
theorem eq_of_mem_increasing {xs : List α} (h : Increasing key xs) {a b : α} (ha : a ∈ xs)
    (hb : b ∈ xs) (hkey : key a = key b) : a = b :=
  List.inj_on_of_nodup_map (nodup_keys_of_increasing key h) ha hb hkey

theorem keyLe_trans (a b c : α) (hab : decide (key a ≤ key b) = true)
    (hbc : decide (key b ≤ key c) = true) : decide (key a ≤ key c) = true := by
  simp only [decide_eq_true_eq] at hab hbc ⊢
  exact String.le_trans hab hbc

theorem keyLe_total (a b : α) : (decide (key a ≤ key b) || decide (key b ≤ key a)) = true := by
  simpa using String.le_total (key a) (key b)

theorem byKey_of_perm {xs ys : List α} (h : Increasing key xs) (hperm : ys.Perm xs) :
    byKey key ys = xs := by
  have hsorted := List.pairwise_mergeSort (keyLe_trans key) (keyLe_total key) ys
  have hmerge : (ys.mergeSort fun a b => decide (key a ≤ key b)).Perm xs :=
    (List.mergeSort_perm ys _).trans hperm
  have hxs : xs.Pairwise fun a b => decide (key a ≤ key b) = true :=
    h.imp fun hab => by simpa using Std.le_of_lt hab
  have heq : ys.mergeSort (fun a b => decide (key a ≤ key b)) = xs := by
    refine hmerge.eq_of_pairwise (fun a b ha hb hab hba => ?_) hsorted hxs
    simp only [decide_eq_true_eq] at hab hba
    exact eq_of_mem_increasing key h (hmerge.mem_iff.mp ha) hb (String.le_antisymm hab hba)
  rw [byKey, heq, dropRepeats_of_increasing key h]

/-! ### The first entry of a key -/

theorem find?_dropRepeats (k : String) (xs : List α) :
    (dropRepeats key xs).find? (key · = k) = xs.find? (key · = k) := by
  induction xs with
  | nil => rfl
  | cons a rest ih =>
    rw [List.find?_cons, ← ih, dropRepeats]
    cases dropRepeats key rest with
    | nil => rfl
    | cons b bs =>
      show (if key a = key b then a :: bs else a :: b :: bs).find? (key · = k) = _
      by_cases hab : key a = key b
      · rw [if_pos hab, List.find?_cons, List.find?_cons, hab]
        cases decide (key b = k) <;> rfl
      · rw [if_neg hab, List.find?_cons]

/-- Sorting by keys leaves the entries of one key in their order. -/
theorem filter_mergeSort (k : String) (xs : List α) :
    (xs.mergeSort fun a b => decide (key a ≤ key b)).filter (key · = k) = xs.filter (key · = k) := by
  have hpairwise : (xs.filter (key · = k)).Pairwise fun a b => decide (key a ≤ key b) = true := by
    refine List.pairwise_of_forall_mem_list fun a ha b hb => ?_
    have hka : key a = k := by simpa using (List.mem_filter.mp ha).2
    have hkb : key b = k := by simpa using (List.mem_filter.mp hb).2
    rw [hka, hkb]
    exact decide_eq_true (String.le_refl k)
  have hsub := List.sublist_mergeSort (keyLe_trans key) (keyLe_total key) hpairwise
    List.filter_sublist
  have hfilter := hsub.filter (key · = k)
  simp only [List.filter_filter, Bool.and_self] at hfilter
  have hlen := ((List.mergeSort_perm xs fun a b => decide (key a ≤ key b)).filter (key · = k)).length_eq
  exact (hfilter.eq_of_length hlen.symm).symm

theorem find?_byKey (k : String) (xs : List α) :
    (byKey key xs).find? (key · = k) = xs.find? (key · = k) := by
  rw [byKey, find?_dropRepeats, ← List.head?_filter, filter_mergeSort, List.head?_filter]

end CodeGraph.Keyed
