import CodeGraph.Cache.Store

/-!
# Stores in files

A store is kept in a file: one byte that no text holds, so that no source is mistaken for a store, and
the rows as JSON. A file of at most one byte holds nothing yet.
-/

namespace CodeGraph

namespace StoreRow

/-- An integer. -/
def timeJson (t : Int) : Json :=
  match t with
  | .ofNat n => .number (.natural n)
  | .negSucc n => .number (.negative (n + 1))

/-- The integer of a document. -/
def time? : Document → Option Int
  | .number n =>
    match n.value? with
    | some (.natural k) => some k
    | some (.negative k) => some (-k)
    | _ => none
  | _ => none

/-- A row is a record. -/
def codec : Codec StoreRow where
  encode r :=
    .object [("hash", .string r.key.digest), ("language", .string r.key.language),
      ("kind", .string r.key.kind), ("payload", .string r.payload),
      ("created_at", timeJson r.createdAt)]
  decode d :=
    match d.slots? ["hash", "language", "kind", "payload", "created_at"] with
    | some [digest, language, kind, payload, createdAt] => do
      let digest ← digest.required Document.text?
      let language ← language.required Document.text?
      let kind ← kind.required Document.text?
      let payload ← payload.required Document.text?
      let createdAt ← createdAt.required time?
      return ⟨⟨digest, language, kind⟩, payload, createdAt⟩
    | _ => none

end StoreRow

namespace ResultStore

/-- The byte that a store starts with. -/
def mark : UInt8 := 0xff

/-- The file of a store. -/
def toFile (s : ResultStore) : ByteArray :=
  ⟨#[mark]⟩ ++ (Json.array (s.rows.reverse.map StoreRow.codec.encode)).compact.toUTF8

/-- The store of a text. -/
def ofText? (text : String) : Option ResultStore :=
  ((Json.read? text).bind (Document.list? StoreRow.codec.decode)).map ofRows

end ResultStore

/-- What a file is to someone who looks for a store. -/
inductive StoreFile where
  /-- There is nothing in it yet. -/
  | blank
  | store (s : ResultStore)
  /-- Something else is in it. -/
  | other

namespace StoreFile

/-- Whether a file is too short to hold anything. -/
def isBlank (file : ByteArray) : Bool := file.size ≤ 1

/-- What some bytes are. -/
def ofBytes (file : ByteArray) : StoreFile :=
  if isBlank file then blank
  else if file.data.toList.head? = some ResultStore.mark then
    match (String.fromUTF8? (file.extract 1 file.size)).bind ResultStore.ofText? with
    | some s => store s
    | none => other
  else other

end StoreFile

end CodeGraph
