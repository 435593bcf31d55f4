import CodeGraph.Json.Record
import CodeGraph.Proofs.Json.Reading

/-!
# Records read back

`Reads` is what is proved of every reader: from the JSON that was written for a value it gives that
value back, exactly where the counts in it fit into sixty-four bits. The counts of a record are those
of its parts, one after the other, so that `ite_fits` puts a record together from its parts.
-/

namespace CodeGraph

/-- All of some counts fit into sixty-four bits. -/
def Fits (counts : List Nat) : Prop := ∀ n ∈ counts, n < UInt64.size

instance (counts : List Nat) : Decidable (Fits counts) :=
  inferInstanceAs (Decidable (∀ n ∈ counts, n < UInt64.size))

theorem fits_nil : Fits [] := fun _ hn => nomatch hn

theorem fits_append {ns ms : List Nat} : Fits (ns ++ ms) ↔ Fits ns ∧ Fits ms := by
  constructor
  · intro h
    exact ⟨fun n hn => h n (List.mem_append_left ms hn), fun n hn => h n (List.mem_append_right ns hn)⟩
  · rintro ⟨hns, hms⟩ n hn
    rcases List.mem_append.mp hn with hn | hn
    · exact hns n hn
    · exact hms n hn

/-- All numbers of a JSON value are counts that fit. -/
def Json.AllFit (j : Json) : Prop := ∀ n ∈ j.numbers, ∃ k < UInt64.size, n = .natural k

namespace Json

mutual

/-- A value with the members of every object in the order of their keys, as generic values have them. -/
def sorted : Json → Json
  | .array items => .array (sortedAll items)
  | .object members => .object (sortedMembers (sortedOfMembers members))
  | j => j

/-- Some values with their members in order. -/
def sortedAll : List Json → List Json
  | [] => []
  | x :: xs => sorted x :: sortedAll xs

/-- The members of an object, the values of each with their members in order. -/
def sortedOfMembers : List (String × Json) → List (String × Json)
  | [] => []
  | (key, x) :: ms => (key, sorted x) :: sortedOfMembers ms

end

end Json

/-- A reader gives back a value from a JSON value with some counts, exactly where these fit. -/
structure Reads {α : Type} (read : Document → Option α) (j : Json) (counts : List Nat) (x : α) :
    Prop where
  numbers : j.numbers = counts.map .natural
  value : read (Document.ofJson j) = if Fits counts then some x else none

variable {α β : Type}

theorem Reads.onlyNaturals {read : Document → Option α} {j : Json} {counts : List Nat} {x : α}
    (h : Reads read j counts x) : j.OnlyNaturals := by
  intro n hn
  rw [h.numbers] at hn
  obtain ⟨k, -, rfl⟩ := List.mem_map.mp hn
  exact ⟨k, rfl⟩

theorem Reads.allFit_iff {read : Document → Option α} {j : Json} {counts : List Nat} {x : α}
    (h : Reads read j counts x) : j.AllFit ↔ Fits counts := by
  rw [Json.AllFit, h.numbers, List.forall_mem_map]
  refine forall₂_congr fun n _ => ⟨?_, fun hn => ⟨n, hn, rfl⟩⟩
  rintro ⟨k, hk, hsame⟩
  rwa [JsonNumber.natural.inj hsame]

theorem Reads.map {read : Document → Option α} {j : Json} {counts : List Nat} {x : α}
    (h : Reads read j counts x) (f : α → β) :
    Reads (fun d => (read d).map f) j counts (f x) where
  numbers := h.numbers
  value := by
    rw [h.value]
    by_cases hfits : Fits counts
    · rw [if_pos hfits, if_pos hfits, Option.map_some]
    · rw [if_neg hfits, if_neg hfits, Option.map_none]

/-- One part after another: what is read next counts only where the first part fits. -/
theorem bind_ite_some (p : Prop) [Decidable p] (x : α) (next : α → Option β) :
    ((if p then some x else none) >>= next) = if p then next x else none := by
  by_cases hp : p
  · rw [if_pos hp, if_pos hp]
    rfl
  · rw [if_neg hp, if_neg hp]
    rfl

theorem ite_fits (ns ms : List Nat) (x : Option α) :
    (if Fits ns then if Fits ms then x else none else none) =
      if Fits (ns ++ ms) then x else none := by
  by_cases hns : Fits ns
  · rw [if_pos hns]
    by_cases hms : Fits ms
    · rw [if_pos hms, if_pos (fits_append.mpr ⟨hns, hms⟩)]
    · rw [if_neg hms, if_neg fun h => hms (fits_append.mp h).2]
  · rw [if_neg hns, if_neg fun h => hns (fits_append.mp h).1]

namespace Document

/-! ### Strings, counts and lists -/

theorem reads_text (s : String) : Reads text? (.string s) [] s where
  numbers := rfl
  value := by rw [ofJson_string, text?, if_pos fits_nil]

theorem reads_count (n : Nat) : Reads count? (.nat n) [n] n where
  numbers := rfl
  value := by
    obtain ⟨hsmall, hlarge⟩ := Json.value?_literal n
    rw [ofJson_nat, count?, natural?]
    by_cases hn : n < UInt64.size
    · have hfits : Fits [n] := fun m hm => List.mem_singleton.mp hm ▸ hn
      rw [hsmall hn, if_pos hfits]
      exact if_pos hn
    · have hfits : ¬ Fits [n] := fun h => hn (h n (List.mem_singleton.mpr rfl))
      rw [if_neg hfits]
      split
      · next k hk => exact absurd hk (hlarge hn k)
      · rfl

theorem reads_name {ofName? : String → Option α} {s : String} {x : α} (h : ofName? s = some x) :
    Reads (name? ofName?) (.string s) [] x where
  numbers := rfl
  value := by rw [ofJson_string, name?, h, if_pos fits_nil]

theorem reads_looseName {ofName? : String → Option α} {s : String} {x : α}
    (h : ofName? s = some x) : Reads (looseName? ofName?) (.string s) [] x where
  numbers := rfl
  value := by rw [ofJson_string, looseName?, name?, h, if_pos fits_nil]; intros; contradiction

theorem each?_cons (read : Document → Option α) (d : Document) (ds : List Document) :
    each? read (d :: ds) = (read d >>= fun x => each? read ds >>= fun xs => some (x :: xs)) := by
  rw [each?]
  cases read d with
  | none => rfl
  | some x => cases each? read ds <;> rfl

theorem each?_map {read : Document → Option α} {write : α → Json} {counts : α → List Nat} :
    ∀ xs : List α, (∀ x ∈ xs, Reads read (write x) (counts x) x) →
      each? read ((xs.map write).map ofJson) =
        if Fits (xs.flatMap counts) then some xs else none
  | [], _ => (if_pos fits_nil).symm
  | x :: xs, h => by
    have hx := (h x List.mem_cons_self).value
    have hxs := each?_map xs fun y hy => h y (List.mem_cons_of_mem x hy)
    rw [List.map_cons, List.map_cons, each?_cons, hx, hxs, bind_ite_some, bind_ite_some, ite_fits,
      List.flatMap_cons]

/-- An array is read where each of its items is. -/
theorem reads_list {read : Document → Option α} {write : α → Json} {counts : α → List Nat}
    (xs : List α) (h : ∀ x ∈ xs, Reads read (write x) (counts x) x) :
    Reads (list? read) (.array (xs.map write)) (xs.flatMap counts) xs where
  numbers := by
    rw [Json.numbers_array, List.map_flatMap]
    induction xs with
    | nil => rfl
    | cons x xs ih =>
      rw [List.map_cons, List.flatMap_cons, List.flatMap_cons, (h x List.mem_cons_self).numbers,
        ih fun y hy => h y (List.mem_cons_of_mem x hy)]
  value := by rw [ofJson_array, list?, each?_map xs h]

/-- A list that may be null is read where it is not. -/
theorem reads_nullable {read : Document → Option α} {items : List Json} {counts : List Nat} {x : α}
    (h : Reads read (.array items) counts x) :
    Reads (Slot.nullable read) (.array items) counts (some x) :=
  ⟨h.numbers, (h.map some).value⟩

/-! ### The parts of an object -/

variable {members : List (Option String × Document)}

theorem filter_key_eq_nil {name : String} (h : some name ∉ members.map (·.1)) :
    members.filter (·.1 == some name) = [] := by
  refine List.filter_eq_nil_iff.mpr fun m hm hkey => h ?_
  rw [← eq_of_beq hkey]
  exact List.mem_map_of_mem hm

theorem filter_key_eq_singleton {name : String} {d : Document} :
    ∀ {members : List (Option String × Document)}, (members.map (·.1)).Nodup →
      (some name, d) ∈ members → members.filter (·.1 == some name) = [(some name, d)]
  | m :: ms, hnodup, hmem => by
    rw [List.map_cons] at hnodup
    obtain ⟨hm, hms⟩ := List.nodup_cons.mp hnodup
    rcases List.mem_cons.mp hmem with rfl | hmem
    · rw [List.filter_cons_of_pos (by exact beq_self_eq_true _), filter_key_eq_nil hm]
    · have hne : ¬ (m.1 == some name) = true := by
        intro hkey
        rw [eq_of_beq hkey] at hm
        exact hm (List.mem_map_of_mem (f := (·.1)) hmem)
      rw [List.filter_cons_of_neg (by exact hne), filter_key_eq_singleton hms hmem]

theorem memberSlot?_of_not_mem {name : String} (h : some name ∉ members.map (·.1)) :
    memberSlot? members name = some .absent := by
  rw [memberSlot?, filter_key_eq_nil h]

theorem memberSlot?_of_mem {name : String} {d : Document} (hnodup : (members.map (·.1)).Nodup)
    (hmem : (some name, d) ∈ members) : memberSlot? members name = some (.given d) := by
  rw [memberSlot?, filter_key_eq_singleton hnodup hmem]

theorem memberSlots?_map (members : List (Option String × Document)) (name : β → String)
    (slot : β → Slot) : ∀ xs : List β, (∀ x ∈ xs, memberSlot? members (name x) = some (slot x)) →
      memberSlots? members (xs.map name) = some (xs.map slot)
  | [], _ => rfl
  | x :: xs, h => by
    rw [List.map_cons, memberSlots?, h x List.mem_cons_self,
      memberSlots?_map members name slot xs fun y hy => h y (List.mem_cons_of_mem x hy), List.map_cons]

theorem memberSlots?_append {names names' : List String} {slots slots' : List Slot}
    (h : memberSlots? members names = some slots)
    (h' : memberSlots? members names' = some slots') :
    memberSlots? members (names ++ names') = some (slots ++ slots') := by
  induction names generalizing slots with
  | nil =>
    obtain rfl : [] = slots := by simpa [memberSlots?] using h
    exact h'
  | cons name names ih =>
    rw [memberSlots?] at h
    split at h
    · next s ss hs hss =>
      obtain rfl : s :: ss = slots := Option.some.inj h
      rw [List.cons_append, memberSlots?, hs, ih hss, List.cons_append]
    · exact absurd h (by simp)

/-- An object whose members are the first parts of a record, in order, gives these parts; the others
are absent. -/
theorem slots?_ofJson {parts : List (String × Json)} (missing : List String) {names : List String}
    (hnames : names = parts.map (·.1) ++ missing) (hnodup : names.Nodup) :
    (ofJson (.object parts)).slots? names =
      some (parts.map (fun m => .given (ofJson m.2)) ++ missing.map fun _ => .absent) := by
  subst hnames
  obtain ⟨hkeys, -, hapart⟩ := List.nodup_append.mp hnodup
  have hall : (parts.map fun m => (some m.1, ofJson m.2)).all (·.1.isSome) = true := by
    rw [List.all_map]
    exact List.all_eq_true.mpr fun _ _ => rfl
  have hcast : (parts.map fun m => (some m.1, ofJson m.2)).map (·.1) =
      (parts.map (·.1)).map some := by
    rw [List.map_map, List.map_map]
    rfl
  rw [ofJson_object, slots?, if_pos hall]
  refine memberSlots?_append (memberSlots?_map _ _ _ parts fun m hm => ?_) ?_
  · refine memberSlot?_of_mem ?_ (List.mem_map_of_mem (f := fun m => (some m.1, ofJson m.2)) hm)
    rw [hcast]
    exact List.Pairwise.map some (fun a b hab heq => hab (Option.some.inj heq)) hkeys
  · have habsent := memberSlots?_map (parts.map fun m => (some m.1, ofJson m.2)) id
      (fun _ => .absent) missing fun name hname => memberSlot?_of_not_mem ?_
    · rwa [List.map_id] at habsent
    · rw [hcast]
      intro hmem
      obtain ⟨key, hkey, heq⟩ := List.mem_map.mp hmem
      exact hapart key hkey name hname (Option.some.inj heq)

/-! ### Records told apart by a part -/

mutual

/-- A document in which all numbers are counts that fit has the value that was written, with the members of its objects
in order. -/
theorem value?_ofJson : ∀ j : Json, j.AllFit → (ofJson j).value? = some j.sorted
  | .null, _ => rfl
  | .bool _, _ => rfl
  | .number n, h => by
    obtain ⟨k, hk, rfl⟩ := h n (by simp [Json.numbers])
    rw [ofJson, ofNumber, value?, (Json.value?_literal k).1 hk]
    rfl
  | .string _, _ => rfl
  | .array items, h => by
    rw [ofJson, value?, valuesOf?_ofJson items h]
    rfl
  | .object members, h => by
    rw [ofJson, value?, membersOf?_ofJson members h]
    rfl

theorem valuesOf?_ofJson :
    ∀ xs : List Json, (Json.array xs).AllFit → valuesOf? (ofJsonAll xs) = some (Json.sortedAll xs)
  | [], _ => rfl
  | x :: xs, h => by
    rw [Json.AllFit, Json.numbers, Json.numbersAll] at h
    have hx := value?_ofJson x fun n hn => h n (List.mem_append_left _ hn)
    have hxs := valuesOf?_ofJson xs fun n hn => h n (List.mem_append_right _ hn)
    rw [ofJsonAll, valuesOf?, hx, hxs]
    rfl

theorem membersOf?_ofJson :
    ∀ ms : List (String × Json), (Json.object ms).AllFit →
      membersOf? (ofJsonMembers ms) = some (Json.sortedOfMembers ms)
  | [], _ => rfl
  | (key, x) :: ms, h => by
    rw [Json.AllFit, Json.numbers, Json.numbersOfMembers] at h
    have hx := value?_ofJson x fun n hn => h n (List.mem_append_left _ hn)
    have hms := membersOf?_ofJson ms fun n hn => h n (List.mem_append_right _ hn)
    simp only [ofJsonMembers, membersOf?, hx, hms, Json.sortedOfMembers]

end

theorem tagged?_ofJson {tag t : String} {parts : List (String × Json)}
    (htag : tag ∉ parts.map (·.1)) :
    tagged? tag (ofJson (.object ((tag, .string t) :: parts))) =
      if (ofJson (.object ((tag, .string t) :: parts))).value?.isSome then
        some (t, ofJson (.object parts))
      else none := by
  have hkeys : some tag ∉ (parts.map fun m => (some m.1, ofJson m.2)).map (·.1) := by
    intro hmem
    rw [List.map_map] at hmem
    obtain ⟨m, hm, heq⟩ := List.mem_map.mp hmem
    exact htag (Option.some.inj heq ▸ List.mem_map_of_mem (f := (·.1)) hm)
  have hothers : (parts.map fun m => (some m.1, ofJson m.2)).filter (·.1 != some tag) =
      parts.map fun m => (some m.1, ofJson m.2) := by
    refine List.filter_eq_self.mpr fun m hm => bne_iff_ne.mpr fun heq => hkeys ?_
    rw [← heq]
    exact List.mem_map_of_mem hm
  unfold tagged?
  by_cases hvalue : (ofJson (.object ((tag, .string t) :: parts))).value?.isSome = true
  · rw [if_pos hvalue, if_neg (by simpa using Option.isSome_iff_ne_none.mp hvalue), ofJson_object,
      List.map_cons, ofJson_string]
    simp only
    rw [List.filter_cons_of_pos (by exact beq_self_eq_true _), filter_key_eq_nil hkeys,
      List.filter_cons_of_neg (by simp), hothers, ofJson_object]
  · rw [if_neg hvalue, if_pos (by simpa using hvalue)]

/-- A record that is told apart by its first part is read as the rest of it is. -/
theorem reads_tagged {tag t : String} {parts : List (String × Json)} {counts : List Nat} {x : α}
    (next : String → Document → Option α) (htag : tag ∉ parts.map (·.1))
    (h : Reads (next t) (.object parts) counts x) :
    Reads (fun d =>
        match d.tagged? tag with
        | none => none
        | some (status, rest) => next status rest)
      (.object ((tag, .string t) :: parts)) counts x := by
  have hnumbers : (Json.object ((tag, .string t) :: parts)).numbers = counts.map .natural := by
    rw [Json.numbers_object, List.flatMap_cons, ← h.numbers, Json.numbers_object]
    rfl
  refine ⟨hnumbers, ?_⟩
  -- the tag is taken off only where the whole record has a generic value; where a count does not fit,
  -- the rest is refused in any case
  by_cases hfits : Fits counts
  · have hvalue := value?_ofJson (.object ((tag, .string t) :: parts)) fun n hn => by
      rw [hnumbers] at hn
      obtain ⟨k, hk, rfl⟩ := List.mem_map.mp hn
      exact ⟨k, hfits k hk, rfl⟩
    rw [tagged?_ofJson htag, hvalue, if_pos Option.isSome_some]
    exact h.value
  · rw [tagged?_ofJson htag, if_neg hfits]
    split
    · next hnone => rfl
    · next hsome =>
      split at hsome
      · obtain ⟨rfl, rfl⟩ := Prod.mk.inj (Option.some.inj hsome)
        rw [h.value, if_neg hfits]
      · exact absurd hsome (by simp)

/-! ### Levels -/

theorem levels_lt_of_mem_array {d : Document} {ds : List Document} (h : d ∈ ds) :
    d.levels < (array ds).levels := by
  rw [levels]
  induction ds with
  | nil => exact absurd h (List.not_mem_nil)
  | cons e ds ih =>
    rw [levelsAll]
    rcases List.mem_cons.mp h with rfl | h
    · omega
    · have := ih h
      omega

theorem levels_lt_of_mem_object {key : Option String} {d : Document}
    {ms : List (Option String × Document)} (h : (key, d) ∈ ms) :
    d.levels < (object ms).levels := by
  rw [levels]
  induction ms with
  | nil => exact absurd h (List.not_mem_nil)
  | cons m ms ih =>
    obtain ⟨k, e⟩ := m
    rw [levelsOfMembers]
    rcases List.mem_cons.mp h with heq | h
    · obtain ⟨-, rfl⟩ := Prod.mk.inj heq
      omega
    · have := ih h
      omega

end Document

/-! ### Texts -/

/-- A value that is not written as a number is read back from its text in every layout, with white
space around it, as far as its counts fit. A text that goes on is refused. -/
theorem Codec.read?_text {c : Codec α} {x y : α} {counts : List Nat}
    (h : Reads c.decode (c.encode x) counts y) (hnumber : ∀ n, c.encode x ≠ .number n)
    (l : Json.Layout) (lead tail : List Char) (hlead : ∀ ch ∈ lead, Json.isSpace ch = true) :
    c.read? (String.ofList (lead ++ (c.encode x).write l [] ++ tail)) =
      if tail.all Json.isSpace then if Fits counts then some y else none else none := by
  rw [Codec.read?, Json.read?_write l h.onlyNaturals hnumber hlead]
  by_cases htail : tail.all Json.isSpace = true
  · rw [if_pos htail, if_pos htail, Option.bind_some, h.value]
  · rw [if_neg htail, if_neg htail, Option.bind_none]

/-- The generic value of a text is the value that was written, with its members in order. -/
theorem Json.parse?_compact {j : Json} (hfits : j.AllFit) (hnumber : ∀ n, j ≠ .number n) :
    parse? j.compact = some j.sorted := by
  have hnaturals : j.OnlyNaturals := fun n hn => by
    obtain ⟨k, -, hk⟩ := hfits n hn
    exact ⟨k, hk⟩
  have hread := @Json.read?_write .compact j hnaturals hnumber [] [] (by simp)
  rw [List.nil_append, List.append_nil, if_pos (by rfl)] at hread
  rw [parse?, compact, hread, Option.bind_some, Document.value?_ofJson j hfits]

/-- What `Codec.write` writes is read back as far as its counts fit. -/
theorem Codec.read?_write {c : Codec α} {x y : α} {counts : List Nat}
    (h : Reads c.decode (c.encode x) counts y) (hnumber : ∀ n, c.encode x ≠ .number n) :
    c.read? (c.write x) = if Fits counts then some y else none := by
  have htext := Codec.read?_text h hnumber .compact [] [] (by simp)
  rwa [List.nil_append, List.append_nil] at htext

/-- Nothing else is read back. -/
theorem Codec.eq_of_read?_write {c : Codec α} {x y z : α} {counts : List Nat}
    (h : Reads c.decode (c.encode x) counts y) (hnumber : ∀ n, c.encode x ≠ .number n)
    (hread : c.read? (c.write x) = some z) : z = y := by
  rw [Codec.read?_write h hnumber] at hread
  split at hread
  · exact (Option.some.inj hread).symm
  · exact absurd hread (by simp)

end CodeGraph
