import CodeGraph.Change.Diff
import CodeGraph.Proofs.Change.Edit

/-!
# Changed ranges cover every change

Joining ranges in order loses none of them: each lies within one of the joined ranges, and between two joined
ranges there is a gap. As the range of the textual edit is among those joined, the changed ranges cover it
whatever the parser reports, and every byte outside them is a byte of the old text.
-/

namespace CodeGraph

namespace Span

/-- A range reaches from the start of another at the latest to its end at the earliest. -/
def Covers (a b : Span) : Prop := a.startByte ≤ b.startByte ∧ b.endByte ≤ a.endByte

/-- A range ends no earlier than it starts. -/
def Forward (a : Span) : Prop := a.startByte ≤ a.endByte

/-- Ranges in order, with a gap between each and the next. -/
def Separate (ranges : List Span) : Prop := ranges.Pairwise fun a b => a.endByte < b.startByte

instance (a : Span) : Decidable a.Forward := inferInstanceAs (Decidable (_ ≤ _))

instance (ranges : List Span) : Decidable (Separate ranges) :=
  inferInstanceAs (Decidable (ranges.Pairwise _))

theorem covers_refl (a : Span) : a.Covers a := ⟨Nat.le_refl _, Nat.le_refl _⟩

theorem Covers.trans {a b c : Span} (hab : a.Covers b) (hbc : b.Covers c) : a.Covers c :=
  ⟨Nat.le_trans hab.1 hbc.1, Nat.le_trans hbc.2 hab.2⟩

@[simp] theorem extend_startByte (a b : Span) : (a.extend b).startByte = a.startByte := by
  unfold extend
  split <;> rfl

@[simp] theorem extend_endByte (a b : Span) : (a.extend b).endByte = max a.endByte b.endByte := by
  unfold extend
  split
  · show b.endByte = _
    omega
  · omega

theorem extend_covers_left (a b : Span) : (a.extend b).Covers a := by
  unfold Covers
  rw [extend_startByte, extend_endByte]
  omega

theorem extend_covers_right {a b : Span} (h : a.startByte ≤ b.startByte) : (a.extend b).Covers b := by
  unfold Covers
  rw [extend_startByte, extend_endByte]
  omega

theorem Forward.extend {a : Span} (h : a.Forward) (b : Span) : (a.extend b).Forward := by
  unfold Forward at *
  rw [extend_startByte, extend_endByte]
  omega

/-! ### Joining ranges in order -/

/-- Ranges in the order of their starts. -/
def InOrder (ranges : List Span) : Prop := ranges.Pairwise fun a b => a.startByte ≤ b.startByte

variable {last : Span} {rs : List Span}

/-- Joining takes one range after the other: it draws the last one out, or puts it down and goes on from the
next. In both cases what is left is in order. -/
theorem InOrder.joined {r : Span} (h : InOrder (last :: r :: rs)) :
    InOrder (last.extend r :: rs) ∧ InOrder (r :: rs) := by
  obtain ⟨hlast, hrest⟩ := List.pairwise_cons.mp h
  obtain ⟨-, hrs⟩ := List.pairwise_cons.mp hrest
  refine ⟨List.pairwise_cons.mpr ⟨?_, hrs⟩, hrest⟩
  intro s hs
  rw [extend_startByte]
  exact hlast s (List.mem_cons_of_mem _ hs)

theorem startByte_le_of_mem_joinFrom (h : InOrder (last :: rs)) :
    ∀ s ∈ joinFrom last rs, last.startByte ≤ s.startByte := by
  induction rs generalizing last with
  | nil =>
    intro s hs
    rw [joinFrom, List.mem_singleton] at hs
    exact Nat.le_of_eq (congrArg Span.startByte hs.symm)
  | cons r rs ih =>
    intro s hs
    have hr : last.startByte ≤ r.startByte := (List.pairwise_cons.mp h).1 r List.mem_cons_self
    rw [joinFrom] at hs
    by_cases htouch : r.startByte ≤ last.endByte
    · rw [if_pos htouch] at hs
      have := ih h.joined.1 s hs
      rw [extend_startByte] at this
      exact this
    · rw [if_neg htouch] at hs
      rcases List.mem_cons.mp hs with rfl | hs
      · exact Nat.le_refl _
      · exact Nat.le_trans hr (ih h.joined.2 s hs)

theorem separate_joinFrom (h : InOrder (last :: rs)) : Separate (joinFrom last rs) := by
  induction rs generalizing last with
  | nil => exact List.pairwise_singleton _ _
  | cons r rs ih =>
    rw [joinFrom]
    by_cases htouch : r.startByte ≤ last.endByte
    · rw [if_pos htouch]
      exact ih h.joined.1
    · rw [if_neg htouch]
      refine List.pairwise_cons.mpr ⟨?_, ih h.joined.2⟩
      intro s hs
      have := startByte_le_of_mem_joinFrom h.joined.2 s hs
      omega

/-- Joining loses no range. -/
theorem exists_covers_joinFrom (h : InOrder (last :: rs)) :
    ∀ r ∈ last :: rs, ∃ s ∈ joinFrom last rs, s.Covers r := by
  induction rs generalizing last with
  | nil =>
    intro r hr
    rw [joinFrom]
    exact ⟨r, hr, r.covers_refl⟩
  | cons next rs ih =>
    intro r hr
    have hnext : last.startByte ≤ next.startByte := (List.pairwise_cons.mp h).1 next List.mem_cons_self
    rw [joinFrom]
    by_cases htouch : next.startByte ≤ last.endByte
    · rw [if_pos htouch]
      -- both ranges lie within the one they are joined to
      obtain ⟨s, hs, hcovers⟩ := ih h.joined.1 (last.extend next) List.mem_cons_self
      rcases List.mem_cons.mp hr with rfl | hr
      · exact ⟨s, hs, hcovers.trans (extend_covers_left _ _)⟩
      rcases List.mem_cons.mp hr with rfl | hr
      · exact ⟨s, hs, hcovers.trans (extend_covers_right hnext)⟩
      · exact ih h.joined.1 r (List.mem_cons_of_mem _ hr)
    · rw [if_neg htouch]
      rcases List.mem_cons.mp hr with rfl | hr
      · exact ⟨r, List.mem_cons_self, r.covers_refl⟩
      · obtain ⟨s, hs, hcovers⟩ := ih h.joined.2 r hr
        exact ⟨s, List.mem_cons_of_mem _ hs, hcovers⟩

/-- What is kept where one range is drawn out to the end of another that it reaches holds of all joined ranges. -/
theorem forall_mem_joinFrom {P : Span → Prop}
    (hextend : ∀ a b, P a → P b → b.startByte ≤ a.endByte → P (a.extend b)) (hlast : P last)
    (hrs : ∀ r ∈ rs, P r) : ∀ s ∈ joinFrom last rs, P s := by
  induction rs generalizing last with
  | nil =>
    intro s hs
    rw [joinFrom, List.mem_singleton] at hs
    rw [hs]
    exact hlast
  | cons r rs ih =>
    obtain ⟨hr, hrest⟩ := List.forall_mem_cons.mp hrs
    intro s hs
    rw [joinFrom] at hs
    by_cases htouch : r.startByte ≤ last.endByte
    · rw [if_pos htouch] at hs
      exact ih (hextend last r hlast hr htouch) hrest s hs
    · rw [if_neg htouch] at hs
      rcases List.mem_cons.mp hs with rfl | hs
      · exact hlast
      · exact ih hr hrest s hs

/-! ### The order of ranges -/

theorem precedes_trans (a b c : Span) (hab : a.precedes b = true) (hbc : b.precedes c = true) :
    a.precedes c = true := by
  simp only [precedes, Bool.or_eq_true, Bool.and_eq_true, decide_eq_true_eq, beq_iff_eq] at hab hbc ⊢
  omega

theorem precedes_total (a b : Span) : (a.precedes b || b.precedes a) = true := by
  simp only [precedes, Bool.or_eq_true, Bool.and_eq_true, decide_eq_true_eq, beq_iff_eq]
  omega

theorem pairwise_mergeSort_precedes (ranges : List Span) :
    (ranges.mergeSort precedes).Pairwise fun a b => a.precedes b = true :=
  List.pairwise_mergeSort precedes_trans precedes_total ranges

theorem inOrder_mergeSort (ranges : List Span) : InOrder (ranges.mergeSort precedes) := by
  refine (pairwise_mergeSort_precedes ranges).imp ?_
  intro a b hab
  simp only [precedes, Bool.or_eq_true, Bool.and_eq_true, decide_eq_true_eq, beq_iff_eq] at hab
  omega

end Span

/-! ### Merging -/

theorem separate_mergeRanges (ranges : List Span) : Span.Separate (mergeRanges ranges) := by
  have horder := Span.inOrder_mergeSort ranges
  rw [mergeRanges]
  cases hsorted : ranges.mergeSort Span.precedes with
  | nil => exact List.Pairwise.nil
  | cons r rs =>
    rw [hsorted] at horder
    exact Span.separate_joinFrom horder

/-- Merging loses no range. -/
theorem exists_covers_mergeRanges {ranges : List Span} {r : Span} (hr : r ∈ ranges) :
    ∃ s ∈ mergeRanges ranges, s.Covers r := by
  have horder := Span.inOrder_mergeSort ranges
  have hmem : r ∈ ranges.mergeSort Span.precedes := (List.mergeSort_perm ranges Span.precedes).mem_iff.mpr hr
  rw [mergeRanges]
  cases hsorted : ranges.mergeSort Span.precedes with
  | nil =>
    rw [hsorted] at hmem
    exact absurd hmem List.not_mem_nil
  | cons first rest =>
    rw [hsorted] at horder hmem
    exact Span.exists_covers_joinFrom horder r hmem

/-- What is kept by drawing out holds of all merged ranges. -/
theorem forall_mem_mergeRanges {ranges : List Span} {P : Span → Prop}
    (hextend : ∀ a b, P a → P b → b.startByte ≤ a.endByte → P (a.extend b))
    (h : ∀ r ∈ ranges, P r) : ∀ s ∈ mergeRanges ranges, P s := by
  have hsorted : ∀ r ∈ ranges.mergeSort Span.precedes, P r := fun r hr =>
    h r ((List.mergeSort_perm ranges Span.precedes).mem_iff.mp hr)
  rw [mergeRanges]
  cases hsort : ranges.mergeSort Span.precedes with
  | nil =>
    intro s hs
    exact absurd hs List.not_mem_nil
  | cons r rs =>
    rw [hsort] at hsorted
    obtain ⟨hr, hrs⟩ := List.forall_mem_cons.mp hsorted
    exact Span.forall_mem_joinFrom hextend hr hrs

theorem forward_mergeRanges {ranges : List Span} (h : ∀ r ∈ ranges, r.Forward) :
    ∀ s ∈ mergeRanges ranges, s.Forward :=
  forall_mem_mergeRanges (fun _ b ha _ _ => ha.extend b) h

/-- Two ranges are joined in their order. -/
theorem mergeRanges_pair (a b : Span) :
    mergeRanges [a, b] = if a.precedes b then Span.joinFrom a [b] else Span.joinFrom b [a] := by
  have hsorted : [a, b].mergeSort Span.precedes = if a.precedes b then [a, b] else [b, a] := by
    simp [List.mergeSort, List.merge]
  rw [mergeRanges, hsorted]
  split <;> rfl

/-! ### The ranges between two texts -/

variable {raw : List Span} {old new : String}

theorem changedRanges_of_textEdit {e : TextEdit} (h : textEdit old new = some e) :
    changedRanges raw old new = mergeRanges (raw ++ [e.written]) := by
  rw [changedRanges, h]

theorem changedRanges_of_written {written : Span}
    (h : (textEdit old new).map TextEdit.written = some written) :
    changedRanges raw old new = mergeRanges (raw ++ [written]) := by
  obtain ⟨e, he, rfl⟩ := Option.map_eq_some_iff.mp h
  exact changedRanges_of_textEdit he

/-- Some changed range covers the range that the textual edit writes. -/
theorem exists_covers_written (raw : List Span) {e : TextEdit} (h : textEdit old new = some e) :
    ∃ s ∈ changedRanges raw old new, s.Covers e.written := by
  rw [changedRanges_of_textEdit h]
  exact exists_covers_mergeRanges (List.mem_append_right _ List.mem_cons_self)

theorem changedRanges_eq_nil : changedRanges raw old new = [] ↔ old = new := by
  constructor
  · intro hnil
    cases hedit : textEdit old new with
    | none => exact textEdit_eq_none.mp hedit
    | some e =>
      obtain ⟨s, hs, -⟩ := exists_covers_written raw hedit
      rw [hnil] at hs
      exact absurd hs List.not_mem_nil
  · intro heq
    rw [changedRanges, textEdit_eq_none.mpr heq]

theorem forward_written {e : TextEdit} (h : textEdit old new = some e) : e.written.Forward := by
  obtain ⟨head, removed, added, tail, hsplits⟩ := splits_of_textEdit h
  exact hsplits.startByte_le

/-- A byte outside the changed ranges is kept from the old text. -/
theorem keeps_of_not_mem_changedRanges {e : TextEdit} (h : textEdit old new = some e) {i : Nat}
    (hi : ∀ s ∈ changedRanges raw old new, ¬(s.startByte ≤ i ∧ i < s.endByte)) : e.Keeps old new i := by
  obtain ⟨head, removed, added, tail, hsplits⟩ := splits_of_textEdit h
  obtain ⟨s, hs, hstart, hstop⟩ := exists_covers_written raw h
  have hout := hi s hs
  refine hsplits.keeps ?_
  simp only [TextEdit.written] at hstart hstop
  omega

/-- Two results are compared equal exactly where they were parsed from one text. -/
theorem isEmpty_diffResults {parser : Parser} {a b : TreeResult} {d : TreeDiff}
    (h : diffResults parser a b = .ok d) : d.isEmpty = true ↔ a.source? = b.source? := by
  obtain ⟨oldParse, newParse, ha, hb, hranges, -, -⟩ := diffResults_eq_ok h
  rw [TreeDiff.isEmpty, List.isEmpty_iff, hranges, Parser.changedRanges, changedRanges_eq_nil,
    TreeResult.source?, TreeResult.source?, ha, hb]
  exact (Option.some_inj).symm

/-- **No textual change is missed.** Whatever ranges the parser reports, two texts differ nowhere exactly where
they are equal. Otherwise the changed ranges are in order with a gap between each and the next, one of them
covers the range that the textual edit writes, and every byte outside them is kept from the old text. -/
theorem changedRanges_cover_edit (old new : String) (hraw : ∀ r ∈ raw, r.Forward) :
    (changedRanges raw old new = [] ↔ old = new) ∧
      (∀ (parser : Parser) (a b : TreeResult) (d : TreeDiff), diffResults parser a b = .ok d →
        (d.isEmpty = true ↔ a.source? = b.source?)) ∧
      (old ≠ new → ∃ e, textEdit old new = some e ∧
        Span.Separate (changedRanges raw old new) ∧ (∀ s ∈ changedRanges raw old new, s.Forward) ∧
        (∃ s ∈ changedRanges raw old new, s.startByte ≤ e.startByte ∧ e.newEndByte ≤ s.endByte) ∧
        ∀ i, (∀ s ∈ changedRanges raw old new, ¬(s.startByte ≤ i ∧ i < s.endByte)) →
          e.Keeps old new i) := by
  refine ⟨changedRanges_eq_nil, fun parser a b d h => isEmpty_diffResults h, fun hne => ?_⟩
  obtain ⟨e, he⟩ : ∃ e, textEdit old new = some e := by
    cases hedit : textEdit old new with
    | none => exact absurd (textEdit_eq_none.mp hedit) hne
    | some e => exact ⟨e, rfl⟩
  have hforward : ∀ r ∈ raw ++ [e.written], r.Forward := by
    intro r hr
    rcases List.mem_append.mp hr with hr | hr
    · exact hraw r hr
    · rw [List.mem_singleton.mp hr]
      exact forward_written he
  refine ⟨e, he, ?_, ?_, exists_covers_written raw he, fun i hi => keeps_of_not_mem_changedRanges he hi⟩
  · rw [changedRanges_of_textEdit he]
    exact separate_mergeRanges _
  · rw [changedRanges_of_textEdit he]
    exact forward_mergeRanges hforward

/-- What a parser may report between `a = é; b` and `a = è, c; b`: a range that touches the end of the edit, one
before it, and an empty one behind it. -/
def reportedRanges : List Span :=
  [⟨9, 10, ⟨0, 9⟩, ⟨0, 10⟩⟩, ⟨0, 1, ⟨0, 0⟩, ⟨0, 1⟩⟩, ⟨12, 12, ⟨0, 12⟩, ⟨0, 12⟩⟩]

theorem changedRanges_cover_reportedRanges :
    (∀ r ∈ reportedRanges, r.Forward) ∧
      textEdit "a = é; b" "a = è, c; b" = some ⟨4, 6, 9, ⟨0, 4⟩, ⟨0, 6⟩, ⟨0, 9⟩⟩ ∧
      changedRanges reportedRanges "a = é; b" "a = è, c; b" =
        [⟨0, 1, ⟨0, 0⟩, ⟨0, 1⟩⟩, ⟨4, 10, ⟨0, 4⟩, ⟨0, 10⟩⟩, ⟨12, 12, ⟨0, 12⟩, ⟨0, 12⟩⟩] ∧
      ∀ i, (i < 4 ∨ 10 ≤ i) → 1 ≤ i →
        TextEdit.Keeps ⟨4, 6, 9, ⟨0, 4⟩, ⟨0, 6⟩, ⟨0, 9⟩⟩ "a = é; b" "a = è, c; b" i := by
  have hraw : ∀ r ∈ reportedRanges, r.Forward := by decide
  have hedit : textEdit "a = é; b" "a = è, c; b" = some ⟨4, 6, 9, ⟨0, 4⟩, ⟨0, 6⟩, ⟨0, 9⟩⟩ := by decide
  have hranges : changedRanges reportedRanges "a = é; b" "a = è, c; b" =
      [⟨0, 1, ⟨0, 0⟩, ⟨0, 1⟩⟩, ⟨4, 10, ⟨0, 4⟩, ⟨0, 10⟩⟩, ⟨12, 12, ⟨0, 12⟩, ⟨0, 12⟩⟩] := by
    rw [changedRanges_of_textEdit hedit]
    simp [mergeRanges, List.mergeSort, Span.precedes, Span.join, Span.joinFrom, Span.extend, TextEdit.written,
      reportedRanges]
  refine ⟨hraw, hedit, hranges, ?_⟩
  intro i hi hpos
  obtain ⟨-, -, hchanged⟩ := changedRanges_cover_edit "a = é; b" "a = è, c; b" hraw
  obtain ⟨e, he, -, -, -, hkeeps⟩ := hchanged (by decide)
  obtain rfl := Option.some.inj (hedit.symm.trans he)
  refine hkeeps i ?_
  intro s hs
  rw [hranges] at hs
  simp only [List.mem_cons, List.not_mem_nil, or_false] at hs
  rcases hs with rfl | rfl | rfl <;> simp only <;> omega

end CodeGraph
