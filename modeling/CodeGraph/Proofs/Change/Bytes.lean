import Mathlib.Data.Nat.Find
import CodeGraph.Proofs.Change.Edit

/-!
# Edits found in bytes

`byteEdit` finds the edit between two texts without taking characters apart: it counts the bytes in which the texts
agree from the front and, of what is left, from the back, and each time goes back to a boundary of characters in both
texts. Main statement: this is the edit that `textEdit` finds in characters. Bytes of two characters may agree in
part, so both counts can be too large, but no boundary lies between the last common character and the last common
byte.
-/

namespace CodeGraph

namespace Text

/-- The bytes of a text. -/
def bytes (s : String) : List UInt8 := s.toUTF8.data.toList

/-- The number of bytes at the front in which two lists agree. -/
def agreement : List UInt8 → List UInt8 → Nat
  | a :: as, b :: bs => if a = b then agreement as bs + 1 else 0
  | _, _ => 0

end Text

/-- The edit that turns `old` into `new`, found in bytes. -/
def byteEdit (old new : String) : Option TextEdit :=
  if old = new then none
  else
    let as := Text.bytes old
    let bs := Text.bytes new
    let startByte := Nat.findGreatest
      (fun n => (⟨n⟩ : String.Pos.Raw).IsValid old ∧ (⟨n⟩ : String.Pos.Raw).IsValid new)
      (Text.agreement as bs)
    let room := min as.length bs.length - startByte
    let kept := Nat.findGreatest
      (fun n => (⟨as.length - n⟩ : String.Pos.Raw).IsValid old ∧
        (⟨bs.length - n⟩ : String.Pos.Raw).IsValid new)
      (Text.agreement (as.reverse.take room) (bs.reverse.take room))
    some
      ⟨startByte, as.length - kept, bs.length - kept, Point.ofOffset old.toUTF8 startByte,
        Point.ofOffset old.toUTF8 (as.length - kept), Point.ofOffset new.toUTF8 (bs.length - kept)⟩

namespace Text

/-! ### Characters and their bytes -/

theorem bytes_eq_encode (s : String) : bytes s = encode s.toList := by
  rw [bytes, toUTF8_data]

theorem length_bytes (s : String) : (bytes s).length = sizeOf s.toList := by
  rw [bytes_eq_encode, length_encode]

theorem utf8ByteSize_eq (s : String) : s.utf8ByteSize = sizeOf s.toList := by
  rw [← length_bytes, ← String.size_toByteArray]
  rfl

/-- A split between two characters splits the bytes. -/
theorem take_bytes {s : String} {xs ys : List Char} (h : s.toList = xs ++ ys) :
    (bytes s).take (sizeOf xs) = encode xs := by
  rw [bytes_eq_encode, h, encode_append, List.take_left' (length_encode xs)]

theorem drop_bytes {s : String} {xs ys : List Char} (h : s.toList = xs ++ ys) :
    (bytes s).drop (sizeOf xs) = encode ys := by
  rw [bytes_eq_encode, h, encode_append, List.drop_left' (length_encode xs)]

theorem encode_injective {xs ys : List Char} (h : encode xs = encode ys) : xs = ys := by
  have hutf8 : xs.utf8Encode = ys.utf8Encode := congrArg List.toByteArray h
  rw [← String.toByteArray_ofList, ← String.toByteArray_ofList, String.toByteArray_inj] at hutf8
  exact String.ofList_injective hutf8

theorem sizeOf_le_of_sublist {xs ys : List Char} (h : xs.Sublist ys) : sizeOf xs ≤ sizeOf ys := by
  induction h with
  | slnil => exact Nat.le_refl _
  | cons c _ ih =>
    rw [sizeOf_cons]
    omega
  | cons_cons c _ ih =>
    rw [sizeOf_cons, sizeOf_cons]
    omega

theorem eq_nil_of_sizeOf_eq_zero : ∀ {cs : List Char}, sizeOf cs = 0 → cs = []
  | [], _ => rfl
  | c :: cs, h => by
    have := c.utf8Size_pos
    rw [sizeOf_cons] at h
    omega

/-- Of two suffixes of one text, the one with fewer bytes is a suffix of the other. -/
theorem suffix_of_sizeOf_le {xs ys cs : List Char} (hxs : xs <:+ cs) (hys : ys <:+ cs)
    (h : sizeOf xs ≤ sizeOf ys) : xs <:+ ys := by
  rcases List.suffix_or_suffix_of_suffix hxs hys with hsuffix | ⟨more, rfl⟩
  · exact hsuffix
  · rw [sizeOf_append] at h
    obtain rfl : more = [] := eq_nil_of_sizeOf_eq_zero (by omega)
    exact List.suffix_refl _

/-- A boundary of a text splits it between two characters. -/
theorem isValid_iff_exists_split {s : String} {n : Nat} :
    (⟨n⟩ : String.Pos.Raw).IsValid s ↔ ∃ xs ys, s.toList = xs ++ ys ∧ sizeOf xs = n := by
  rw [String.Pos.Raw.isValid_iff_exists_append]
  constructor
  · rintro ⟨s₁, s₂, rfl, hn⟩
    refine ⟨s₁.toList, s₂.toList, String.toList_append, ?_⟩
    rw [← utf8ByteSize_eq]
    exact (congrArg String.Pos.Raw.byteIdx hn).symm
  · rintro ⟨xs, ys, hs, rfl⟩
    refine ⟨String.ofList xs, String.ofList ys, ?_, ?_⟩
    · rw [← String.ofList_append, ← hs, String.ofList_toList]
    · rw [String.rawEndPos, utf8ByteSize_eq, String.toList_ofList]

/-! ### Agreement -/

/-- Two lists agree in as many bytes as they have in common at the front. -/
theorem le_agreement_iff :
    ∀ {as bs : List UInt8} {n : Nat}, n ≤ agreement as bs ↔
      n ≤ as.length ∧ n ≤ bs.length ∧ as.take n = bs.take n
  | _, _, 0 => by simp
  | [], bs, n + 1 => by simp [agreement]
  | a :: as, [], n + 1 => by simp [agreement]
  | a :: as, b :: bs, n + 1 => by
    rw [agreement, List.take_succ_cons, List.take_succ_cons, List.cons.injEq]
    by_cases hab : a = b
    · rw [if_pos hab, Nat.succ_le_succ_iff, le_agreement_iff]
      simp [hab]
    · rw [if_neg hab]
      simp [hab]

/-- The greatest good number up to a bound is the one that no other good number up to the bound exceeds. -/
theorem findGreatest_eq {good : Nat → Prop} [DecidablePred good] {bound n : Nat} (hn : n ≤ bound)
    (hgood : good n) (hmax : ∀ m, m ≤ bound → good m → m ≤ n) : Nat.findGreatest good bound = n :=
  Nat.findGreatest_eq_iff.mpr
    ⟨hn, fun _ => hgood, fun m hm hbound hgoodm => absurd (hmax m hbound hgoodm) (Nat.not_le_of_lt hm)⟩

variable {old new : String}

/-- From the front, texts agree up to their common prefix. -/
theorem findGreatest_front (old new : String) :
    Nat.findGreatest
        (fun n => (⟨n⟩ : String.Pos.Raw).IsValid old ∧ (⟨n⟩ : String.Pos.Raw).IsValid new)
        (agreement (bytes old) (bytes new)) =
      sizeOf (commonPrefix old.toList new.toList) := by
  obtain ⟨restOld, hold⟩ := commonPrefix_isPrefix_left old.toList new.toList
  obtain ⟨restNew, hnew⟩ := commonPrefix_isPrefix_right old.toList new.toList
  refine findGreatest_eq (le_agreement_iff.mpr ⟨?_, ?_, ?_⟩)
    ⟨isValid_iff_exists_split.mpr ⟨_, restOld, hold.symm, rfl⟩,
      isValid_iff_exists_split.mpr ⟨_, restNew, hnew.symm, rfl⟩⟩ ?_
  · rw [length_bytes]
    exact sizeOf_le_of_sublist (commonPrefix_isPrefix_left _ _).sublist
  · rw [length_bytes]
    exact sizeOf_le_of_sublist (commonPrefix_isPrefix_right _ _).sublist
  · rw [take_bytes hold.symm, take_bytes hnew.symm]
  · rintro n hn ⟨hvalidOld, hvalidNew⟩
    obtain ⟨xs, moreOld, hxs, rfl⟩ := isValid_iff_exists_split.mp hvalidOld
    obtain ⟨ys, moreNew, hys, hsize⟩ := isValid_iff_exists_split.mp hvalidNew
    -- what stands before the boundary in the two texts has the same bytes, so it is the same
    obtain ⟨-, -, htake⟩ := le_agreement_iff.mp hn
    rw [take_bytes hxs, ← hsize, take_bytes hys] at htake
    obtain rfl := encode_injective htake
    exact sizeOf_le_of_sublist (isPrefix_commonPrefix ⟨_, hxs.symm⟩ ⟨_, hys.symm⟩).sublist

/-- The bytes of a suffix, from the back. -/
theorem take_reverse_bytes {s : String} {ys : List Char} (h : ys <:+ s.toList) :
    (bytes s).reverse.take (sizeOf ys) = (encode ys).reverse := by
  obtain ⟨xs, hxs⟩ := h
  rw [bytes_eq_encode, ← hxs, encode_append, List.reverse_append, List.take_left']
  rw [List.length_reverse, length_encode]

theorem isValid_back_iff {s : String} {n : Nat} (hn : n ≤ (bytes s).length) :
    (⟨(bytes s).length - n⟩ : String.Pos.Raw).IsValid s ↔ ∃ ys, ys <:+ s.toList ∧ sizeOf ys = n := by
  rw [isValid_iff_exists_split]
  rw [length_bytes] at hn ⊢
  constructor
  · rintro ⟨xs, ys, hs, hsize⟩
    rw [hs, sizeOf_append] at hn hsize
    exact ⟨ys, ⟨xs, hs.symm⟩, by omega⟩
  · rintro ⟨ys, ⟨xs, hs⟩, rfl⟩
    refine ⟨xs, ys, hs.symm, ?_⟩
    rw [← hs, sizeOf_append]
    omega

/-- From the back, as far as texts go behind a common head, they agree up to the common suffix of what is there. -/
theorem findGreatest_back {head restOld restNew : List Char} (hold : old.toList = head ++ restOld)
    (hnew : new.toList = head ++ restNew) {room : Nat}
    (hroom : room = min (bytes old).length (bytes new).length - sizeOf head) :
    Nat.findGreatest
        (fun n => (⟨(bytes old).length - n⟩ : String.Pos.Raw).IsValid old ∧
          (⟨(bytes new).length - n⟩ : String.Pos.Raw).IsValid new)
        (agreement ((bytes old).reverse.take room) ((bytes new).reverse.take room)) =
      sizeOf (commonSuffix restOld restNew) := by
  have htailOld := commonSuffix_isSuffix_left restOld restNew
  have htailNew := commonSuffix_isSuffix_right restOld restNew
  have hrestOld : restOld <:+ old.toList := ⟨head, hold.symm⟩
  have hrestNew : restNew <:+ new.toList := ⟨head, hnew.symm⟩
  have hlengthOld : (bytes old).length = sizeOf head + sizeOf restOld := by
    rw [length_bytes, hold, sizeOf_append]
  have hlengthNew : (bytes new).length = sizeOf head + sizeOf restNew := by
    rw [length_bytes, hnew, sizeOf_append]
  have hkeptOld := sizeOf_le_of_sublist htailOld.sublist
  have hkeptNew := sizeOf_le_of_sublist htailNew.sublist
  have hkept : sizeOf (commonSuffix restOld restNew) ≤ room := by omega
  refine findGreatest_eq (le_agreement_iff.mpr ⟨?_, ?_, ?_⟩)
    ⟨(isValid_back_iff (by omega)).mpr ⟨_, htailOld.trans hrestOld, rfl⟩,
      (isValid_back_iff (by omega)).mpr ⟨_, htailNew.trans hrestNew, rfl⟩⟩ ?_
  · rw [List.length_take, List.length_reverse]
    omega
  · rw [List.length_take, List.length_reverse]
    omega
  · rw [List.take_take, List.take_take, Nat.min_eq_left hkept,
      take_reverse_bytes (htailOld.trans hrestOld), take_reverse_bytes (htailNew.trans hrestNew)]
  · rintro n hn ⟨hvalidOld, hvalidNew⟩
    obtain ⟨hlength, -, htake⟩ := le_agreement_iff.mp hn
    rw [List.length_take, List.length_reverse] at hlength
    obtain ⟨xs, hxs, rfl⟩ := (isValid_back_iff (by omega)).mp hvalidOld
    obtain ⟨ys, hys, hsize⟩ := (isValid_back_iff (by omega)).mp hvalidNew
    -- what stands behind the boundary in the two texts has the same bytes, so it is the same
    rw [List.take_take, List.take_take, Nat.min_eq_left (by omega), take_reverse_bytes hxs, ← hsize,
      take_reverse_bytes hys, List.reverse_inj] at htake
    obtain rfl := encode_injective htake
    -- it starts behind the common head, as it has no more bytes than there is room for
    exact sizeOf_le_of_sublist (isSuffix_commonSuffix (suffix_of_sizeOf_le hxs hrestOld (by omega))
      (suffix_of_sizeOf_le hys hrestNew (by omega))).sublist

end Text

/-- The edit found in bytes is the one found in characters. -/
theorem byteEdit_eq_textEdit (old new : String) : byteEdit old new = textEdit old new := by
  by_cases h : old = new
  · rw [byteEdit, textEdit, if_pos h, if_pos h]
  · have hold := (List.prefix_iff_eq_append.mp (Text.commonPrefix_isPrefix_left old.toList new.toList)).symm
    have hnew := (List.prefix_iff_eq_append.mp (Text.commonPrefix_isPrefix_right old.toList new.toList)).symm
    have hback := Text.findGreatest_back hold hnew rfl
    rw [byteEdit, textEdit, if_neg h, if_neg h]
    simp only [Text.findGreatest_front, hback]
    rw [Text.length_bytes, Text.length_bytes]

end CodeGraph
