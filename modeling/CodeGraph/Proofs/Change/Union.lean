import CodeGraph.Proofs.Change.Ranges

/-!
# Merged ranges are the union

Every joined range is a range that was drawn out, time after time, to the end of another that it reaches. So what
holds of the given ranges, and is kept where one is drawn out to the end of another, holds of the joined ones
(`forall_mem_mergeRanges`): that is where their ends come from, and why they cover no more bytes. As the ranges of
a union do not touch, each given range lies in one of them only, and to merge them again changes nothing.
-/

namespace CodeGraph

namespace Span

/-- A byte lies in a range. -/
def HasByte (s : Span) (i : Nat) : Prop := s.startByte ≤ i ∧ i < s.endByte

/-- Two ranges start at one place. -/
def SameStart (a b : Span) : Prop := a.startByte = b.startByte ∧ a.start = b.start

/-- Two ranges end at one place. -/
def SameEnd (a b : Span) : Prop := a.endByte = b.endByte ∧ a.stop = b.stop

instance (a b : Span) : Decidable (a.Covers b) := inferInstanceAs (Decidable (_ ∧ _))

theorem Covers.hasByte {a b : Span} (h : a.Covers b) {i : Nat} (hi : b.HasByte i) : a.HasByte i :=
  ⟨Nat.le_trans h.1 hi.1, Nat.lt_of_lt_of_le hi.2 h.2⟩

theorem sameStart_extend (a b : Span) : (a.extend b).SameStart a := by
  unfold extend
  split <;> exact ⟨rfl, rfl⟩

theorem sameEnd_extend (a b : Span) : (a.extend b).SameEnd a ∨ (a.extend b).SameEnd b := by
  unfold extend
  split
  · exact Or.inr ⟨rfl, rfl⟩
  · exact Or.inl ⟨rfl, rfl⟩

/-- A range that is drawn out to the end of another which it reaches has the bytes of both alone. -/
theorem hasByte_extend {a b : Span} (htouch : b.startByte ≤ a.endByte) {i : Nat}
    (hi : (a.extend b).HasByte i) : a.HasByte i ∨ b.HasByte i := by
  unfold HasByte at *
  rw [extend_startByte, extend_endByte] at hi
  omega

/-! ### Ranges that do not touch -/

/-- Ranges that do not touch stay apart. -/
theorem join_of_separate {ranges : List Span} (h : Separate ranges) : join ranges = ranges := by
  induction ranges with
  | nil => rfl
  | cons a rest ih =>
    obtain ⟨ha, hrest⟩ := List.pairwise_cons.mp h
    cases rest with
    | nil => rfl
    | cons b rest =>
      have hgap : ¬ b.startByte ≤ a.endByte := Nat.not_le_of_lt (ha b List.mem_cons_self)
      have hjoin : joinFrom b rest = b :: rest := ih hrest
      rw [join, joinFrom, if_neg hgap, hjoin]

theorem bytes_eq_of_precedes {a b : Span} (hab : a.precedes b = true) (hba : b.precedes a = true) :
    a.startByte = b.startByte ∧ a.endByte = b.endByte := by
  simp only [precedes, Bool.or_eq_true, Bool.and_eq_true, decide_eq_true_eq, beq_iff_eq] at hab hba
  omega

theorem precedes_of_lt {a b : Span} (h : a.startByte < b.startByte) : a.precedes b = true := by
  simp only [precedes, Bool.or_eq_true, decide_eq_true_eq]
  exact Or.inl h

/-- Of ranges that do not touch, at most one covers a range. -/
theorem countP_covers_of_separate {ranges : List Span} (h : Separate ranges) {r : Span} (hr : r.Forward)
    (hcovered : ∃ s ∈ ranges, s.Covers r) : ranges.countP (fun s => s.Covers r) = 1 := by
  induction ranges with
  | nil => exact absurd hcovered (by simp)
  | cons a rest ih =>
    obtain ⟨ha, hrest⟩ := List.pairwise_cons.mp h
    by_cases hcovers : a.Covers r
    · -- the others start behind the end of the range
      have hothers : rest.countP (fun s => s.Covers r) = 0 := by
        refine List.countP_eq_zero.mpr fun s hs hsr => ?_
        have hgap := ha s hs
        obtain ⟨hstart, -⟩ := of_decide_eq_true hsr
        obtain ⟨-, hstop⟩ := hcovers
        unfold Forward at hr
        omega
      rw [List.countP_cons_of_pos (by simpa using hcovers), hothers]
    · obtain ⟨s, hs, hsr⟩ := hcovered
      have hmem : s ∈ rest := by
        rcases List.mem_cons.mp hs with rfl | hs
        · exact absurd hsr hcovers
        · exact hs
      rw [List.countP_cons_of_neg (by simpa using hcovers), ih hrest ⟨s, hmem, hsr⟩]

end Span

/-! ### Merging -/

variable {ranges : List Span}

/-- The bytes of merged ranges are those of the ranges. -/
theorem exists_hasByte_mergeRanges (ranges : List Span) (i : Nat) :
    (∃ s ∈ mergeRanges ranges, s.HasByte i) ↔ ∃ r ∈ ranges, r.HasByte i := by
  constructor
  · rintro ⟨s, hs, hi⟩
    refine forall_mem_mergeRanges (P := fun s => s.HasByte i → ∃ r ∈ ranges, r.HasByte i) ?_ ?_ s hs hi
    · intro a b ha hb htouch hab
      exact (Span.hasByte_extend htouch hab).elim ha hb
    · exact fun r hr hri => ⟨r, hr, hri⟩
  · rintro ⟨r, hr, hi⟩
    obtain ⟨s, hs, hcovers⟩ := exists_covers_mergeRanges hr
    exact ⟨s, hs, hcovers.hasByte hi⟩

/-- A merged range starts where one of the ranges starts, and ends where one of them ends. -/
theorem ends_of_mem_mergeRanges {s : Span} (hs : s ∈ mergeRanges ranges) :
    (∃ r ∈ ranges, s.SameStart r) ∧ ∃ r ∈ ranges, s.SameEnd r := by
  refine forall_mem_mergeRanges
    (P := fun s => (∃ r ∈ ranges, s.SameStart r) ∧ ∃ r ∈ ranges, s.SameEnd r) ?_ ?_ s hs
  · rintro a b ⟨⟨r, hr, har⟩, haend⟩ ⟨-, hbend⟩ -
    obtain ⟨hbyte, hpoint⟩ := Span.sameStart_extend a b
    refine ⟨⟨r, hr, hbyte.trans har.1, hpoint.trans har.2⟩, ?_⟩
    rcases Span.sameEnd_extend a b with ⟨hbyte, hpoint⟩ | ⟨hbyte, hpoint⟩
    · obtain ⟨t, ht, hat⟩ := haend
      exact ⟨t, ht, hbyte.trans hat.1, hpoint.trans hat.2⟩
    · obtain ⟨t, ht, hbt⟩ := hbend
      exact ⟨t, ht, hbyte.trans hbt.1, hpoint.trans hbt.2⟩
  · exact fun r hr => ⟨⟨r, hr, rfl, rfl⟩, r, hr, rfl, rfl⟩

theorem mergeRanges_of_separate (hseparate : Span.Separate ranges) (hforward : ∀ r ∈ ranges, r.Forward) :
    mergeRanges ranges = ranges := by
  have hsorted : ranges.Pairwise fun a b => Span.precedes a b = true := by
    refine List.Pairwise.imp_of_mem (fun {a b} ha _ hab => ?_) hseparate
    exact Span.precedes_of_lt (Nat.lt_of_le_of_lt (hforward a ha) hab)
  rw [mergeRanges, List.mergeSort_of_pairwise hsorted, Span.join_of_separate hseparate]

/-- Ranges with their points at their bytes are merged alike in every order. -/
theorem mergeRanges_of_perm {starts stops : Nat → Point}
    (hpoints : ∀ r ∈ ranges, r.start = starts r.startByte ∧ r.stop = stops r.endByte)
    {others : List Span} (hperm : others.Perm ranges) : mergeRanges others = mergeRanges ranges := by
  have hsorts : (others.mergeSort Span.precedes).Perm (ranges.mergeSort Span.precedes) :=
    (List.mergeSort_perm others _).trans (hperm.trans (List.mergeSort_perm ranges _).symm)
  have hsame : others.mergeSort Span.precedes = ranges.mergeSort Span.precedes := by
    refine hsorts.eq_of_pairwise (fun a b ha hb hab hba => ?_)
      (Span.pairwise_mergeSort_precedes others) (Span.pairwise_mergeSort_precedes ranges)
    have hmema := (List.mergeSort_perm ranges Span.precedes).mem_iff.mp (hsorts.mem_iff.mp ha)
    have hmemb := (List.mergeSort_perm ranges Span.precedes).mem_iff.mp hb
    -- neither comes first, so they have the same bytes, and with them the same points
    obtain ⟨hstart, hend⟩ := Span.bytes_eq_of_precedes hab hba
    obtain ⟨hastart, hastop⟩ := hpoints a hmema
    obtain ⟨hbstart, hbstop⟩ := hpoints b hmemb
    obtain ⟨as, ae, ap, aq⟩ := a
    obtain ⟨bs, be, bp, bq⟩ := b
    simp only at hstart hend hastart hastop hbstart hbstop
    rw [hastart, hastop, hbstart, hbstop, hstart, hend]
  rw [mergeRanges, mergeRanges, hsame]

/-- **Merging gives the union in its one form.** The merged ranges are in order with a gap between each and the
next, each given range lies in one of them, they have the same bytes, and their ends are ends of given ranges. To
merge them again changes nothing, and where points go by bytes the order of the given ranges makes no
difference. -/
theorem mergeRanges_canonical (hforward : ∀ r ∈ ranges, r.Forward) :
    Span.Separate (mergeRanges ranges) ∧
      (∀ r ∈ ranges, (mergeRanges ranges).countP (fun s => s.Covers r) = 1) ∧
      (∀ i, (∃ s ∈ mergeRanges ranges, s.HasByte i) ↔ ∃ r ∈ ranges, r.HasByte i) ∧
      (∀ s ∈ mergeRanges ranges, (∃ r ∈ ranges, s.SameStart r) ∧ ∃ r ∈ ranges, s.SameEnd r) ∧
      mergeRanges (mergeRanges ranges) = mergeRanges ranges ∧
      ∀ starts stops : Nat → Point,
        (∀ r ∈ ranges, r.start = starts r.startByte ∧ r.stop = stops r.endByte) →
          ∀ others : List Span, others.Perm ranges → mergeRanges others = mergeRanges ranges := by
  have hseparate := separate_mergeRanges ranges
  refine ⟨hseparate, fun r hr => ?_, exists_hasByte_mergeRanges ranges,
    fun s hs => ends_of_mem_mergeRanges hs, ?_, fun starts stops hpoints others hperm => ?_⟩
  · exact Span.countP_covers_of_separate hseparate (hforward r hr) (exists_covers_mergeRanges hr)
  · exact mergeRanges_of_separate hseparate (forward_mergeRanges hforward)
  · exact mergeRanges_of_perm hpoints hperm

/-- Ranges on one line that overlap, touch, lie within one another, are equal or are empty. -/
def scatteredRanges : List Span :=
  [⟨10, 12, ⟨0, 10⟩, ⟨0, 12⟩⟩, ⟨0, 4, ⟨0, 0⟩, ⟨0, 4⟩⟩, ⟨3, 6, ⟨0, 3⟩, ⟨0, 6⟩⟩, ⟨12, 14, ⟨0, 12⟩, ⟨0, 14⟩⟩,
    ⟨1, 2, ⟨0, 1⟩, ⟨0, 2⟩⟩, ⟨0, 4, ⟨0, 0⟩, ⟨0, 4⟩⟩, ⟨8, 8, ⟨0, 8⟩, ⟨0, 8⟩⟩, ⟨6, 6, ⟨0, 6⟩, ⟨0, 6⟩⟩]

theorem mergeRanges_scatteredRanges :
    (∀ r ∈ scatteredRanges, r.Forward) ∧
      mergeRanges scatteredRanges =
        [⟨0, 6, ⟨0, 0⟩, ⟨0, 6⟩⟩, ⟨8, 8, ⟨0, 8⟩, ⟨0, 8⟩⟩, ⟨10, 14, ⟨0, 10⟩, ⟨0, 14⟩⟩] ∧
      (∀ r ∈ scatteredRanges, (mergeRanges scatteredRanges).countP (fun s => s.Covers r) = 1) ∧
      mergeRanges (mergeRanges scatteredRanges) = mergeRanges scatteredRanges ∧
      mergeRanges scatteredRanges.reverse = mergeRanges scatteredRanges := by
  have hforward : ∀ r ∈ scatteredRanges, r.Forward := by decide
  have hpoints : ∀ r ∈ scatteredRanges, r.start = ⟨0, r.startByte⟩ ∧ r.stop = ⟨0, r.endByte⟩ := by decide
  obtain ⟨-, hone, -, -, hagain, horder⟩ := mergeRanges_canonical hforward
  have hmerged : mergeRanges scatteredRanges =
      [⟨0, 6, ⟨0, 0⟩, ⟨0, 6⟩⟩, ⟨8, 8, ⟨0, 8⟩, ⟨0, 8⟩⟩, ⟨10, 14, ⟨0, 10⟩, ⟨0, 14⟩⟩] := by
    simp [mergeRanges, List.mergeSort, Span.precedes, Span.join, Span.joinFrom, Span.extend, scatteredRanges]
  exact ⟨hforward, hmerged, hone, hagain, horder (Point.mk 0) (Point.mk 0) hpoints _ (List.reverse_perm _)⟩

end CodeGraph
