import Mathlib.Order.Basic
import CodeGraph.Span

/-!
# The order of points

Points are ordered by their lines, and on one line by their columns. Every byte moves a point on, to the next column
or to the start of the next line. So the points of the offsets of a text come in the order of the offsets, and two
offsets are compared by their points.
-/

namespace CodeGraph.Point

/-- Lines come first, and columns count on one line alone. -/
instance : LE Point := ⟨fun p q => p.line < q.line ∨ p.line = q.line ∧ p.column ≤ q.column⟩

instance : LT Point := ⟨fun p q => p.line < q.line ∨ p.line = q.line ∧ p.column < q.column⟩

theorem le_iff {p q : Point} : p ≤ q ↔ p.line < q.line ∨ p.line = q.line ∧ p.column ≤ q.column := Iff.rfl

theorem lt_iff {p q : Point} : p < q ↔ p.line < q.line ∨ p.line = q.line ∧ p.column < q.column := Iff.rfl

instance (p q : Point) : Decidable (p ≤ q) := decidable_of_iff _ le_iff.symm

instance (p q : Point) : Decidable (p < q) := decidable_of_iff _ lt_iff.symm

instance : LinearOrder Point where
  le_refl p := Or.inr ⟨rfl, Nat.le_refl _⟩
  le_trans p q r hpq hqr := by
    rw [le_iff] at hpq hqr ⊢
    omega
  le_antisymm p q hpq hqp := by
    obtain ⟨pl, pc⟩ := p
    obtain ⟨ql, qc⟩ := q
    rw [le_iff] at hpq hqp
    simp only at hpq hqp
    simp only [mk.injEq]
    omega
  le_total p q := by
    rw [le_iff, le_iff]
    omega
  lt_iff_le_not_ge p q := by
    rw [lt_iff, le_iff, le_iff]
    omega
  toDecidableLE := inferInstance
  toDecidableLT := inferInstance
  toDecidableEq := inferInstance

/-! ### Bytes move a point on -/

theorem lt_step (p : Point) (b : UInt8) : p < p.step b := by
  rw [lt_iff, line_step, column_step]
  by_cases hb : b = 10
  · rw [if_pos hb, if_pos hb]
    omega
  · rw [if_neg hb, if_neg hb]
    omega

theorem le_advance (p : Point) (bs : List UInt8) : p ≤ p.advance bs := by
  induction bs generalizing p with
  | nil => exact le_refl p
  | cons b bs ih => exact (le_of_lt (p.lt_step b)).trans (ih (p.step b))

theorem lt_advance (p : Point) {bs : List UInt8} (h : bs ≠ []) : p < p.advance bs := by
  cases bs with
  | nil => exact absurd rfl h
  | cons b bs => exact lt_of_lt_of_le (p.lt_step b) ((p.step b).le_advance bs)

variable {text : ByteArray} {i j : Nat}

/-- A later offset has a later point. -/
theorem ofOffset_lt_ofOffset (hij : i < j) (hj : j ≤ text.size) : ofOffset text i < ofOffset text j := by
  have hsize : text.data.toList.length = text.size := rfl
  have hsplit : text.data.toList.take j =
      text.data.toList.take i ++ (text.data.toList.drop i).take (j - i) := by
    rw [← List.take_add, Nat.add_sub_cancel' (Nat.le_of_lt hij)]
  have hbetween : (text.data.toList.drop i).take (j - i) ≠ [] := by
    refine List.ne_nil_of_length_pos ?_
    rw [List.length_take, List.length_drop]
    omega
  rw [ofOffset, ofOffset, hsplit, advance_append]
  exact lt_advance _ hbetween

theorem ofOffset_le_ofOffset_iff (hi : i ≤ text.size) (hj : j ≤ text.size) :
    ofOffset text i ≤ ofOffset text j ↔ i ≤ j := by
  constructor
  · intro h
    by_contra hlt
    exact absurd h (not_le_of_gt (ofOffset_lt_ofOffset (Nat.lt_of_not_le hlt) hi))
  · intro h
    rcases Nat.lt_or_eq_of_le h with hlt | rfl
    · exact le_of_lt (ofOffset_lt_ofOffset hlt hj)
    · exact le_refl _

end CodeGraph.Point
