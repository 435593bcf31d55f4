import CodeGraph.Cache.Kind
import CodeGraph.Digest.Blake3
import CodeGraph.Fault
import CodeGraph.Json.Record

/-!
# The store of results

A `ResultStore` holds payloads under a digest, a language and a kind. A key has at most one row, and
a row is never changed: what is put under a key that has a row already is dropped. `find` looks up a
digest alone, and answers with the oldest row of any language.
-/

namespace CodeGraph

/-- What a stored result is found by. Languages and kinds are names, for a store may hold rows of
others. -/
structure StoreKey where
  digest : String
  language : String
  kind : String
deriving DecidableEq, Repr

/-- The key of a result. -/
def StoreKey.of (digest : String) (language : Language) (kind : ResultKind) : StoreKey :=
  ⟨digest, language.name, kind.name⟩

/-- The key of the result of one kind for a source. -/
def StoreKey.ofSource (source : String) (language : Language) (kind : ResultKind) : StoreKey :=
  .of (Blake3.textDigest source) language kind

/-- A stored result. -/
structure StoreRow where
  key : StoreKey
  payload : String
  /-- When the row was written, in seconds. -/
  createdAt : Int
deriving DecidableEq, Repr

namespace StoreRow

/-- Whether a row was written before another; rows of one time are in the order of their
languages. -/
def isBefore (a b : StoreRow) : Bool :=
  a.createdAt < b.createdAt || (a.createdAt == b.createdAt && a.key.language < b.key.language)

/-- Whether a row holds a result of a kind for a digest. -/
def matchesDigest (digest : String) (kind : ResultKind) (row : StoreRow) : Bool :=
  row.key.digest == digest && row.key.kind == kind.name

end StoreRow

/-- The stored results, newest first. -/
structure ResultStore where
  rows : List StoreRow
  /-- A key has at most one row. -/
  distinct : (rows.map (·.key)).Nodup

namespace ResultStore

/-- The store without rows. -/
def empty : ResultStore := ⟨[], List.Pairwise.nil⟩

instance : EmptyCollection ResultStore := ⟨empty⟩

instance : Inhabited ResultStore := ⟨empty⟩

variable (s : ResultStore)

/-- The row of a key. -/
def row? (key : StoreKey) : Option StoreRow := s.rows.find? (·.key = key)

/-- The payload of a key. -/
def get? (key : StoreKey) : Option String := (s.row? key).map (·.payload)

theorem not_mem_keys_of_row?_eq_none {s : ResultStore} {key : StoreKey} (h : s.row? key = none) :
    key ∉ s.rows.map (·.key) := by
  intro hmem
  obtain ⟨row, hrow, rfl⟩ := List.mem_map.mp hmem
  simpa using List.find?_eq_none.mp h row hrow

/-- Add a row, unless its key has one. -/
def add (row : StoreRow) : ResultStore :=
  match h : s.row? row.key with
  | some _ => s
  | none => ⟨row :: s.rows, List.nodup_cons.mpr ⟨not_mem_keys_of_row?_eq_none h, s.distinct⟩⟩

/-- The store of some rows; of rows with one key, the first. -/
def ofRows (rows : List StoreRow) : ResultStore := rows.foldl add empty

/-- Put a payload under a key at a time, unless the key has one; the second part of the result
tells whether it was written. -/
def put (key : StoreKey) (payload : String) (now : Int) : ResultStore × Bool :=
  (s.add ⟨key, payload, now⟩, (s.row? key).isNone)

/-- The earlier of a row and the earliest of some others. -/
def earlier (row : StoreRow) : Option StoreRow → StoreRow
  | none => row
  | some other => if other.isBefore row then other else row

/-- The earliest of some rows. -/
def earliest? (rows : List StoreRow) : Option StoreRow :=
  rows.foldr (fun row found => some (earlier row found)) none

/-- The earliest row of a kind for a digest. -/
def oldest? (digest : String) (kind : ResultKind) : Option StoreRow :=
  earliest? (s.rows.filter (·.matchesDigest digest kind))

/-- The earliest result of a kind for a digest, with its language. A row whose language has no
known name is a fault. -/
def find (digest : String) (kind : ResultKind) : Except Fault (Option (Language × String)) :=
  match s.oldest? digest kind with
  | none => .ok none
  | some row =>
    match Language.ofTag? row.key.language with
    | none => .error (.unsupportedLanguage row.key.language)
    | some language => .ok (some (language, row.payload))

/-- The number of rows. -/
def count : Nat := s.rows.length

/-- The number of rows of a kind. -/
def countKind (kind : ResultKind) : Nat := s.rows.countP (·.key.kind == kind.name)

/-- The store without any row, and how many there were. -/
def clear : ResultStore × Nat := (empty, s.count)

/-- The value of a payload. -/
def read {α : Type} (codec : Codec α) (payload : String) : Except Fault α :=
  match codec.read? payload with
  | some x => .ok x
  | none => .error .badPayload

/-- The value of a payload, where there is one. -/
def readOption {α : Type} (codec : Codec α) : Option String → Except Fault (Option α)
  | none => .ok none
  | some payload => (read codec payload).map some

end ResultStore

/-- How many results of each kind there are. -/
structure StoreStats where
  trees : Nat
  graphs : Nat
  outlines : Nat
deriving DecidableEq, Repr

/-- How many results of each kind a store has. -/
def ResultStore.stats (s : ResultStore) : StoreStats :=
  ⟨s.countKind .tree, s.countKind .graph, s.countKind .outline⟩

/-- The counts, one to a line. -/
def StoreStats.text (s : StoreStats) : String :=
  "Cache Statistics:\n  ASTs: " ++ s.trees.repr ++ "\n  Graphs: " ++ s.graphs.repr ++
    "\n  Analyses: " ++ s.outlines.repr ++ "\n"

end CodeGraph
