/-!
# Lists by key

`byKey` puts a list into the order of its keys, each key once. Of entries with one key the first
stays, so `byKey` of a reversed list keeps the last. The result is strictly increasing, and a list
that is so already is left alone.
-/

namespace CodeGraph.Keyed

variable {α : Type} (key : α → String)

/-- Strictly increasing keys. -/
def Increasing (xs : List α) : Prop := xs.Pairwise fun a b => key a < key b

instance (xs : List α) : Decidable (Increasing key xs) :=
  inferInstanceAs (Decidable (xs.Pairwise fun a b => key a < key b))

/-- Of neighbours with one key, keep the first. -/
def dropRepeats : List α → List α
  | [] => []
  | a :: rest =>
    match dropRepeats rest with
    | [] => [a]
    | b :: bs => if key a = key b then a :: bs else a :: b :: bs

/-- The entries in the order of their keys; of entries with one key, the first. -/
def byKey (xs : List α) : List α :=
  dropRepeats key (xs.mergeSort fun a b => decide (key a ≤ key b))

theorem mem_of_mem_dropRepeats {xs : List α} {x : α} (h : x ∈ dropRepeats key xs) : x ∈ xs := by
  induction xs with
  | nil => exact h
  | cons a rest ih =>
    unfold dropRepeats at h
    split at h
    · simp_all
    · next b bs heq =>
      rw [heq] at ih
      split at h
      · rcases List.mem_cons.mp h with rfl | h
        · exact List.mem_cons_self
        · exact List.mem_cons_of_mem _ (ih (List.mem_cons_of_mem _ h))
      · rcases List.mem_cons.mp h with rfl | h
        · exact List.mem_cons_self
        · exact List.mem_cons_of_mem _ (ih h)

theorem increasing_dropRepeats {xs : List α} (h : xs.Pairwise fun a b => key a ≤ key b) :
    Increasing key (dropRepeats key xs) := by
  induction xs with
  | nil => exact List.Pairwise.nil
  | cons a rest ih =>
    obtain ⟨ha, hrest⟩ := List.pairwise_cons.mp h
    have ih := ih hrest
    unfold dropRepeats
    split
    · exact List.pairwise_singleton _ _
    · next b bs heq =>
      have hb : b ∈ rest := mem_of_mem_dropRepeats key (heq ▸ List.mem_cons_self)
      rw [heq] at ih
      obtain ⟨hbs, htail⟩ := List.pairwise_cons.mp ih
      split
      · next hab => exact List.pairwise_cons.mpr ⟨fun c hc => hab ▸ hbs c hc, htail⟩
      · next hab =>
        have hlt : key a < key b := Std.lt_of_le_of_ne (ha b hb) hab
        refine List.pairwise_cons.mpr ⟨fun c hc => ?_, ih⟩
        rcases List.mem_cons.mp hc with rfl | hc
        · exact hlt
        · exact String.lt_trans hlt (hbs c hc)

theorem increasing_byKey (xs : List α) : Increasing key (byKey key xs) := by
  refine increasing_dropRepeats key ?_
  have := @List.pairwise_mergeSort α (fun a b => decide (key a ≤ key b))
    (fun a b c hab hbc => by
      simp only [decide_eq_true_eq] at hab hbc ⊢
      exact String.le_trans hab hbc)
    (fun a b => by simpa using String.le_total (key a) (key b)) xs
  exact this.imp fun h => by simpa using h

theorem dropRepeats_of_increasing {xs : List α} (h : Increasing key xs) :
    dropRepeats key xs = xs := by
  induction xs with
  | nil => rfl
  | cons a rest ih =>
    obtain ⟨ha, hrest⟩ := List.pairwise_cons.mp h
    unfold dropRepeats
    rw [ih hrest]
    cases rest with
    | nil => rfl
    | cons b bs =>
      have hne : key a ≠ key b := fun he =>
        String.lt_irrefl _ (he ▸ ha b List.mem_cons_self)
      simp [hne]

theorem byKey_of_increasing {xs : List α} (h : Increasing key xs) : byKey key xs = xs := by
  unfold byKey
  rw [List.mergeSort_of_pairwise, dropRepeats_of_increasing key h]
  exact h.imp fun hab => by simpa using Std.le_of_lt hab

end CodeGraph.Keyed
