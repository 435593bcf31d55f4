import CodeGraph.Proofs.Change.Bytes

/-!
# Textual edits are exact

The edit between two texts turns the one into the other, keeps as much of them as can be kept at both ends, and tells
the lines and columns of its own ends. Main statement: `textEdit_exact`.
-/

namespace CodeGraph

namespace Text

/-- A longest common prefix of two texts. -/
structure LongestPrefix (xs as bs : List Char) : Prop where
  left : xs <+: as
  right : xs <+: bs
  longest : ∀ ys, ys <+: as → ys <+: bs → ys.length ≤ xs.length

/-- A longest common suffix of two texts. -/
structure LongestSuffix (xs as bs : List Char) : Prop where
  left : xs <:+ as
  right : xs <:+ bs
  longest : ∀ ys, ys <:+ as → ys <:+ bs → ys.length ≤ xs.length

theorem longestPrefix_commonPrefix (as bs : List Char) : LongestPrefix (commonPrefix as bs) as bs where
  left := commonPrefix_isPrefix_left as bs
  right := commonPrefix_isPrefix_right as bs
  longest _ has hbs := (isPrefix_commonPrefix has hbs).length_le

theorem longestSuffix_commonSuffix (as bs : List Char) : LongestSuffix (commonSuffix as bs) as bs where
  left := commonSuffix_isSuffix_left as bs
  right := commonSuffix_isSuffix_right as bs
  longest _ has hbs := (isSuffix_commonSuffix has hbs).length_le

end Text

/-- A point is the place of an offset: its line counts the newlines before, its column the bytes since the last. -/
structure Point.IsPlace (p : Point) (s : String) (offset : Nat) : Prop where
  line_eq : p.line = ((Text.bytes s).take offset).count 10
  column_eq : p.column = (((Text.bytes s).take offset).reverse.takeWhile (· ≠ 10)).length

theorem Point.isPlace_ofOffset (s : String) (offset : Nat) :
    (ofOffset s.toUTF8 offset).IsPlace s offset where
  line_eq := by
    rw [ofOffset, line_advance]
    exact Nat.zero_add _
  column_eq := by
    have h := column_advance_reverse ((Text.bytes s).take offset).reverse
    rwa [List.reverse_reverse] at h

namespace TextEdit

/-- What an edit does that turns one text into another. -/
structure Turns (e : TextEdit) (old new : String) : Prop where
  forward : e.startByte ≤ e.oldEndByte ∧ e.startByte ≤ e.newEndByte
  within : e.oldEndByte ≤ old.utf8ByteSize ∧ e.newEndByte ≤ new.utf8ByteSize
  /-- No end of it divides a character. -/
  start_isValid : (⟨e.startByte⟩ : String.Pos.Raw).IsValid old ∧ (⟨e.startByte⟩ : String.Pos.Raw).IsValid new
  end_isValid :
    (⟨e.oldEndByte⟩ : String.Pos.Raw).IsValid old ∧ (⟨e.newEndByte⟩ : String.Pos.Raw).IsValid new
  before : (Text.bytes old).take e.startByte = (Text.bytes new).take e.startByte
  after : (Text.bytes old).drop e.oldEndByte = (Text.bytes new).drop e.newEndByte
  /-- What it writes, put in the place of what it removes, gives the new text. -/
  replaced : (Text.bytes old).take e.startByte ++ ((Text.bytes new).take e.newEndByte).drop e.startByte ++
    (Text.bytes old).drop e.oldEndByte = Text.bytes new
  places : e.start.IsPlace old e.startByte ∧ e.oldEnd.IsPlace old e.oldEndByte ∧
    e.newEnd.IsPlace new e.newEndByte

/-- An edit between two texts keeps their longest common prefix, and the longest common suffix of what is left. -/
def KeepsMost (e : TextEdit) (old new : String) : Prop :=
  ∃ head tail, Text.LongestPrefix head old.toList new.toList ∧
    Text.LongestSuffix tail (old.toList.drop head.length) (new.toList.drop head.length) ∧
    e.startByte = Text.sizeOf head ∧ e.oldEndByte + Text.sizeOf tail = old.utf8ByteSize ∧
    e.newEndByte + Text.sizeOf tail = new.utf8ByteSize

variable {e : TextEdit} {old new : String} {head removed added tail : List Char}

theorem Splits.size_old (h : e.Splits old new head removed added tail) :
    e.oldEndByte + Text.sizeOf tail = old.utf8ByteSize := by
  rw [h.oldEndByte_eq, ← Text.sizeOf_append, ← h.old_eq, Text.utf8ByteSize_eq]

theorem Splits.size_new (h : e.Splits old new head removed added tail) :
    e.newEndByte + Text.sizeOf tail = new.utf8ByteSize := by
  rw [h.newEndByte_eq, ← Text.sizeOf_append, ← h.new_eq, Text.utf8ByteSize_eq]

end TextEdit

/-- An edit tells the places of its ends. -/
theorem places_of_textEdit {old new : String} {e : TextEdit} (h : textEdit old new = some e) :
    e.start.IsPlace old e.startByte ∧ e.oldEnd.IsPlace old e.oldEndByte ∧
      e.newEnd.IsPlace new e.newEndByte := by
  have hne : old ≠ new := fun heq => by
    rw [textEdit_eq_none.mpr heq] at h
    cases h
  rw [textEdit, if_neg hne] at h
  obtain rfl := Option.some.inj h
  dsimp only
  exact ⟨Point.isPlace_ofOffset old _, Point.isPlace_ofOffset old _, Point.isPlace_ofOffset new _⟩

theorem turns_of_textEdit {old new : String} {e : TextEdit} (h : textEdit old new = some e) :
    e.Turns old new := by
  obtain ⟨head, removed, added, tail, hsplits⟩ := splits_of_textEdit h
  have hsizeOld := hsplits.size_old
  have hsizeNew := hsplits.size_new
  have hstart := hsplits.startByte_eq
  have holdEnd := hsplits.oldEndByte_eq
  have hnewEnd := hsplits.newEndByte_eq
  have hold : old.toList = head ++ (removed ++ tail) := by rw [hsplits.old_eq, List.append_assoc]
  have hnew : new.toList = head ++ (added ++ tail) := by rw [hsplits.new_eq, List.append_assoc]
  have hbefore : (Text.bytes old).take e.startByte = Text.encode head := by rw [hstart, Text.take_bytes hold]
  have hafter : (Text.bytes old).drop e.oldEndByte = Text.encode tail := by
    rw [holdEnd, Text.drop_bytes hsplits.old_eq]
  exact
    { forward := by
        rw [Text.sizeOf_append] at holdEnd hnewEnd
        omega
      within := by omega
      start_isValid := ⟨Text.isValid_iff_exists_split.mpr ⟨head, _, hold, hstart.symm⟩,
        Text.isValid_iff_exists_split.mpr ⟨head, _, hnew, hstart.symm⟩⟩
      end_isValid := ⟨Text.isValid_iff_exists_split.mpr ⟨_, tail, hsplits.old_eq, holdEnd.symm⟩,
        Text.isValid_iff_exists_split.mpr ⟨_, tail, hsplits.new_eq, hnewEnd.symm⟩⟩
      before := by rw [hbefore, hstart, Text.take_bytes hnew]
      after := by rw [hafter, hnewEnd, Text.drop_bytes hsplits.new_eq]
      replaced := by
        rw [hbefore, hafter, hnewEnd, Text.take_bytes hsplits.new_eq, hstart, Text.encode_append,
          List.drop_left' (Text.length_encode head), ← Text.encode_append, ← Text.encode_append,
          ← hsplits.new_eq, Text.bytes_eq_encode]
      places := places_of_textEdit h }

/-- **The edit between two texts is exact.** There is none between equal texts only. It turns the old text into the
new one, its ends lie between characters and are told with their lines and columns, and it keeps the longest common
prefix and the longest common suffix of what is left. Found in bytes, it is the same. -/
theorem textEdit_exact (old new : String) :
    (textEdit old new = none ↔ old = new) ∧
      (∀ e, textEdit old new = some e → e.Turns old new ∧ e.KeepsMost old new) ∧
      byteEdit old new = textEdit old new := by
  refine ⟨textEdit_eq_none, fun e he => ⟨turns_of_textEdit he, ?_⟩, byteEdit_eq_textEdit old new⟩
  obtain ⟨removed, added, hsplits⟩ := splits_commonPrefix he
  exact ⟨_, _, Text.longestPrefix_commonPrefix _ _, Text.longestSuffix_commonSuffix _ _,
    hsplits.startByte_eq, hsplits.size_old, hsplits.size_new⟩

-- the two letters agree in the first of their two bytes, of which the edit keeps none
example : textEdit "aé" "aè" = some ⟨1, 3, 3, ⟨0, 1⟩, ⟨0, 3⟩, ⟨0, 3⟩⟩ := by decide

end CodeGraph
