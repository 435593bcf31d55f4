import CodeGraph.Toml.Value

/-!
# TOML tables

A document is a list of statements, which are carried out one after the other on a tree of tables.
Headers and dotted keys make the tables on their way. Nothing is ever given a second value, and a
table can be added to only in the way it came about.
-/

namespace CodeGraph.Toml

/-- The entries of a table, the first one first. -/
abbrev Entries := List (String × Value)

/-- A table with how it came about. -/
structure Table where
  style : TableStyle
  entries : Entries

/-- Whether the way of a header or of a dotted key may lead through a table. -/
def TableStyle.isOpen (style : TableStyle) (isDotted : Bool) : Bool :=
  match style with
  | .closed => false
  | .headed => !isDotted
  | .passed | .dotted => true

/-- Change the table at the end of a path, or make it. The path of a dotted key makes dotted tables,
and that of a header tables that were only passed. -/
def Table.modify (isDotted : Bool) (f : Table → Option Table) :
    List String → Table → Option Table
  | [], t => f t
  | key :: path, t =>
    match lookup? key t.entries with
    | none =>
      (modify isDotted f path ⟨if isDotted then .dotted else .passed, []⟩).map fun inner =>
        { t with entries := t.entries ++ [(key, .table inner.style inner.entries)] }
    | some (.table style entries) =>
      if style.isOpen isDotted then
        (modify isDotted f path ⟨style, entries⟩).map fun inner =>
          { t with entries := replace key (.table inner.style inner.entries) t.entries }
      else none
    | some (.tables elements) =>
      match elements.getLast? with
      | none => none
      | some last =>
        (modify isDotted f path ⟨.headed, last⟩).map fun inner =>
          { t with
            entries := replace key (.tables (elements.dropLast ++ [inner.entries])) t.entries }
    | some _ => none

/-- Add a new entry. -/
def Table.add (key : String) (value : Value) (t : Table) : Option Table :=
  match lookup? key t.entries with
  | none => some { t with entries := t.entries ++ [(key, value)] }
  | some _ => none

/-- Add a value under a path of keys. A dotted key adds only to dotted tables. -/
def Table.addAt (path : List String) (value : Value) (t : Table) : Option Table :=
  match path.getLast? with
  | none => none
  | some key =>
    let way := path.dropLast
    t.modify true (fun t =>
      if way.isEmpty ∨ t.style = .dotted then t.add key value else none) way

/-- Open the table of a header: a new one, or one that was only passed so far. -/
def Table.openTable (key : String) (t : Table) : Option Table :=
  match lookup? key t.entries with
  | none => t.add key (.table .headed [])
  | some (.table .passed entries) =>
    some { t with entries := replace key (.table .headed entries) t.entries }
  | some _ => none

/-- Open one more table of a header in double brackets. -/
def Table.openElement (key : String) (t : Table) : Option Table :=
  match lookup? key t.entries with
  | none => t.add key (.tables [[]])
  | some (.tables elements) =>
    some { t with entries := replace key (.tables (elements ++ [[]])) t.entries }
  | some _ => none

/-- A table between braces. -/
def Table.ofPairs (pairs : List (List String × Value)) : Option Entries :=
  (pairs.foldl (fun t p => t.bind (Table.addAt p.1 p.2)) (some ⟨.headed, []⟩)).map Table.entries

/-- One statement of a document. -/
inductive Statement where
  /-- A header in single brackets, or in double ones. -/
  | header (path : List String) (isElement : Bool)
  | entry (path : List String) (value : Value)

/-- A document as far as it is carried out: its tables, and the path of the newest header. -/
structure Progress where
  root : Table
  path : List String

/-- The document before its first statement. -/
def Progress.start : Progress := ⟨⟨.headed, []⟩, []⟩

/-- Carry out one statement. -/
def Progress.step (p : Progress) : Statement → Option Progress
  | .header path isElement =>
    match path.getLast? with
    | none => none
    | some key =>
      (p.root.modify false (if isElement then Table.openElement key else Table.openTable key)
        path.dropLast).map fun root => ⟨root, path⟩
  | .entry path value =>
    (p.root.modify false (Table.addAt path value) p.path).map fun root => ⟨root, p.path⟩

/-- The entries of a document of some statements. -/
def entriesOf? (statements : List Statement) : Option Entries :=
  (statements.foldl (fun p s => p.bind (·.step s)) (some Progress.start)).map (·.root.entries)

end CodeGraph.Toml
