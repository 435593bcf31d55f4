import CodeGraph.Change.Edit

/-!
# What a textual edit leaves alone

A textual edit splits the two texts at a common head and a common tail: only what stands between them is
replaced. So every byte of the new text before the edit is the byte of the old text at its own offset, and every
byte after the edit is the byte of the old text as far from the edit's end.
-/

namespace CodeGraph

namespace Text

theorem commonPrefix_isPrefix_left :
    ∀ as bs : List Char, commonPrefix as bs <+: as
  | [], _ => List.prefix_rfl
  | _ :: _, [] => List.nil_prefix
  | a :: as, b :: bs => by
    rw [commonPrefix]
    by_cases hab : a = b
    · rw [if_pos hab]
      exact List.cons_prefix_cons.mpr ⟨rfl, commonPrefix_isPrefix_left as bs⟩
    · rw [if_neg hab]
      exact List.nil_prefix

theorem commonPrefix_isPrefix_right :
    ∀ as bs : List Char, commonPrefix as bs <+: bs
  | [], _ => List.nil_prefix
  | _ :: _, [] => List.prefix_rfl
  | a :: as, b :: bs => by
    rw [commonPrefix]
    by_cases hab : a = b
    · rw [if_pos hab]
      exact List.cons_prefix_cons.mpr ⟨hab, commonPrefix_isPrefix_right as bs⟩
    · rw [if_neg hab]
      exact List.nil_prefix

theorem commonSuffix_isSuffix_left (as bs : List Char) : commonSuffix as bs <:+ as := by
  have h := commonPrefix_isPrefix_left as.reverse bs.reverse
  rw [commonSuffix, ← List.reverse_prefix, List.reverse_reverse]
  exact h

theorem commonSuffix_isSuffix_right (as bs : List Char) : commonSuffix as bs <:+ bs := by
  have h := commonPrefix_isPrefix_right as.reverse bs.reverse
  rw [commonSuffix, ← List.reverse_prefix, List.reverse_reverse]
  exact h

theorem isPrefix_commonPrefix :
    ∀ {as bs xs : List Char}, xs <+: as → xs <+: bs → xs <+: commonPrefix as bs
  | _, _, [], _, _ => List.nil_prefix
  | [], _, _ :: _, ha, _ => absurd (List.prefix_nil.mp ha) (List.cons_ne_nil _ _)
  | _ :: _, [], _ :: _, _, hb => absurd (List.prefix_nil.mp hb) (List.cons_ne_nil _ _)
  | a :: as, b :: bs, x :: xs, ha, hb => by
    obtain ⟨rfl, has⟩ := List.cons_prefix_cons.mp ha
    obtain ⟨rfl, hbs⟩ := List.cons_prefix_cons.mp hb
    rw [commonPrefix, if_pos rfl]
    exact List.cons_prefix_cons.mpr ⟨rfl, isPrefix_commonPrefix has hbs⟩

theorem isSuffix_commonSuffix {as bs xs : List Char} (ha : xs <:+ as) (hb : xs <:+ bs) :
    xs <:+ commonSuffix as bs := by
  rw [commonSuffix, ← List.reverse_prefix, List.reverse_reverse]
  exact isPrefix_commonPrefix (List.reverse_prefix.mpr ha) (List.reverse_prefix.mpr hb)

/-- Two texts are split by their common prefix and the common suffix of what is left. -/
theorem exists_split (as bs : List Char) :
    let head := commonPrefix as bs
    let tail := commonSuffix (as.drop head.length) (bs.drop head.length)
    ∃ removed added, as = head ++ removed ++ tail ∧ bs = head ++ added ++ tail := by
  intro head tail
  have has : as = head ++ as.drop head.length :=
    List.prefix_iff_eq_append.mp (commonPrefix_isPrefix_left as bs) |>.symm
  have hbs : bs = head ++ bs.drop head.length :=
    List.prefix_iff_eq_append.mp (commonPrefix_isPrefix_right as bs) |>.symm
  obtain ⟨removed, hremoved⟩ := commonSuffix_isSuffix_left (as.drop head.length) (bs.drop head.length)
  obtain ⟨added, hadded⟩ := commonSuffix_isSuffix_right (as.drop head.length) (bs.drop head.length)
  refine ⟨removed, added, ?_, ?_⟩
  · rw [List.append_assoc, hremoved]
    exact has
  · rw [List.append_assoc, hadded]
    exact hbs

theorem encode_append (xs ys : List Char) : encode (xs ++ ys) = encode xs ++ encode ys :=
  List.flatMap_append

theorem toUTF8_data (s : String) : s.toUTF8.data = (encode s.toList).toArray := by
  rw [String.toUTF8, ← String.utf8Encode_toList, List.utf8Encode, List.data_toByteArray]
  rfl

theorem getElem?_toUTF8 (s : String) (i : Nat) : s.toUTF8[i]? = (encode s.toList)[i]? := by
  have hdata : s.toUTF8[i]? = s.toUTF8.data[i]? := rfl
  rw [hdata, toUTF8_data, List.getElem?_toArray]

end Text

namespace TextEdit

/-- An edit between two texts: a common head, what is removed, what is added, and a common tail. -/
structure Splits (e : TextEdit) (old new : String) (head removed added tail : List Char) : Prop where
  old_eq : old.toList = head ++ removed ++ tail
  new_eq : new.toList = head ++ added ++ tail
  startByte_eq : e.startByte = Text.sizeOf head
  oldEndByte_eq : e.oldEndByte = Text.sizeOf (head ++ removed)
  newEndByte_eq : e.newEndByte = Text.sizeOf (head ++ added)

/-- A byte of the new text is that of the old text which it was before the edit. -/
def Keeps (e : TextEdit) (old new : String) (i : Nat) : Prop :=
  (i < e.startByte ∧ new.toUTF8[i]? = old.toUTF8[i]?) ∨
    (e.newEndByte ≤ i ∧ new.toUTF8[i]? = old.toUTF8[i - e.newEndByte + e.oldEndByte]?)

variable {e : TextEdit} {old new : String} {head removed added tail : List Char}

theorem Splits.startByte_le (h : e.Splits old new head removed added tail) :
    e.startByte ≤ e.newEndByte := by
  rw [h.startByte_eq, h.newEndByte_eq, Text.sizeOf_append]
  omega

theorem Splits.keeps_before (h : e.Splits old new head removed added tail) {i : Nat}
    (hi : i < e.startByte) : new.toUTF8[i]? = old.toUTF8[i]? := by
  have hlen : i < (Text.encode head).length := by
    rw [Text.length_encode, ← h.startByte_eq]
    exact hi
  rw [Text.getElem?_toUTF8, Text.getElem?_toUTF8, h.old_eq, h.new_eq, List.append_assoc,
    List.append_assoc, Text.encode_append head, Text.encode_append head,
    List.getElem?_append_left hlen, List.getElem?_append_left hlen]

theorem Splits.keeps_after (h : e.Splits old new head removed added tail) {i : Nat}
    (hi : e.newEndByte ≤ i) :
    new.toUTF8[i]? = old.toUTF8[i - e.newEndByte + e.oldEndByte]? := by
  have hnew : (Text.encode (head ++ added)).length = e.newEndByte := by
    rw [Text.length_encode, h.newEndByte_eq]
  have hold : (Text.encode (head ++ removed)).length = e.oldEndByte := by
    rw [Text.length_encode, h.oldEndByte_eq]
  rw [Text.getElem?_toUTF8, Text.getElem?_toUTF8, h.old_eq, h.new_eq, Text.encode_append (head ++ added),
    Text.encode_append (head ++ removed), List.getElem?_append_right (by omega),
    List.getElem?_append_right (by omega), hnew, hold]
  congr 1
  omega

/-- Outside the range that an edit writes, every byte of the new text is kept from the old one. -/
theorem Splits.keeps (h : e.Splits old new head removed added tail) {i : Nat}
    (hi : i < e.startByte ∨ e.newEndByte ≤ i) : e.Keeps old new i := by
  rcases hi with hi | hi
  · exact Or.inl ⟨hi, h.keeps_before hi⟩
  · exact Or.inr ⟨hi, h.keeps_after hi⟩

end TextEdit

theorem textEdit_eq_none {old new : String} : textEdit old new = none ↔ old = new := by
  rw [textEdit]
  by_cases h : old = new
  · simp [h]
  · simp [h]

/-- The edit between two texts splits both of them at their common prefix and at the common suffix of what is
left. -/
theorem splits_commonPrefix {old new : String} {e : TextEdit} (h : textEdit old new = some e) :
    let head := Text.commonPrefix old.toList new.toList
    let tail := Text.commonSuffix (old.toList.drop head.length) (new.toList.drop head.length)
    ∃ removed added, e.Splits old new head removed added tail := by
  have hne : old ≠ new := by
    intro heq
    rw [textEdit_eq_none.mpr heq] at h
    cases h
  rw [textEdit, if_neg hne] at h
  obtain rfl := Option.some.inj h
  obtain ⟨removed, added, hold, hnew⟩ := Text.exists_split old.toList new.toList
  have hsizeOld := congrArg Text.sizeOf hold
  have hsizeNew := congrArg Text.sizeOf hnew
  rw [Text.sizeOf_append] at hsizeOld hsizeNew
  refine ⟨removed, added, hold, hnew, rfl, ?_, ?_⟩
  · show Text.sizeOf old.toList - _ = _
    omega
  · show Text.sizeOf new.toList - _ = _
    omega

theorem splits_of_textEdit {old new : String} {e : TextEdit} (h : textEdit old new = some e) :
    ∃ head removed added tail, e.Splits old new head removed added tail := by
  obtain ⟨removed, added, hsplits⟩ := splits_commonPrefix h
  exact ⟨_, removed, added, _, hsplits⟩

end CodeGraph
