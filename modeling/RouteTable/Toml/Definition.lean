import RouteTable.Toml.Value

namespace RouteTable.Toml

inductive TableOrigin where
  | implied
  | dotted
  | defined
deriving DecidableEq, Repr

/-- A table may be implied by the header of one below it, built by dotted keys, or defined by a header of its own, and
each of these may be done only to tables that are not there yet or were merely implied. -/
inductive Item where
  | value (value : Value)
  | table (origin : TableOrigin) (entries : List (Text × Item))
  /-- A table for each header of the array; the last one is still open. -/
  | tables (closed : List (List (Text × Item))) (last : List (Text × Item))

abbrev Entries := List (Text × Item)

namespace Entries

def alter? (key : Text) (f : Option Item → Option Item) : Entries → Option Entries
  | [] => (f none).map fun item => [(key, item)]
  | (k, item) :: entries =>
    if k = key then (f (some item)).map fun item => (k, item) :: entries
    else (alter? key f entries).map ((k, item) :: ·)

def find? (key : Text) : Entries → Option Item
  | [] => none
  | (k, item) :: entries => if k = key then some item else find? key entries

def remove (key : Text) (entries : Entries) : Entries := entries.filter fun e => e.1 != key

/-- Acts on the table at the end of a header's path; tables on the way that are missing are implied. -/
def inHeader? (act : Entries → Option Entries) : (path : List Text) → Entries → Option Entries
  | [], entries => act entries
  | key :: path, entries =>
    entries.alter? key fun
      | none => (inHeader? act path []).map (.table .implied)
      | some (.table origin inner) => (inHeader? act path inner).map (.table origin)
      | some (.tables closed last) => (inHeader? act path last).map (.tables closed)
      | some (.value _) => none

def assign? (key : Text) (value : Value) : (path : List Text) → Entries → Option Entries
  | [], entries =>
    entries.alter? key fun
      | none => some (.value value)
      | some _ => none
  | step :: path, entries =>
    entries.alter? step fun
      | none => (assign? key value path []).map (.table .dotted)
      | some (.table .dotted inner) => (assign? key value path inner).map (.table .dotted)
      | some (.table .implied inner) =>
        if path.isEmpty then none else (assign? key value path inner).map (.table .implied)
      | some (.tables closed last) =>
        if path.isEmpty then none else (assign? key value path last).map (.tables closed)
      | some (.table .defined _) => none
      | some (.value _) => none

/-- The header of a table: it moves behind the others, with what lower headers put into it. -/
def define? (key : Text) (entries : Entries) : Option Entries :=
  match entries.find? key with
  | none => some (entries ++ [(key, .table .defined [])])
  | some (.table .implied inner) => some (entries.remove key ++ [(key, .table .defined inner)])
  | some _ => none

def append? (key : Text) (entries : Entries) : Option Entries :=
  entries.alter? key fun
    | none => some (.tables [] [])
    | some (.tables closed last) => some (.tables (closed ++ [last]) [])
    | some _ => none

end Entries

namespace Item

mutual

def toValue : Item → Value
  | value v => v
  | table _ entries => .table (entriesToTable entries)
  | tables closed last => .array (tablesToValues closed ++ [.table (entriesToTable last)])

def entriesToTable : List (Text × Item) → Table
  | [] => []
  | (key, item) :: entries => (key, toValue item) :: entriesToTable entries

def tablesToValues : List (List (Text × Item)) → List Value
  | [] => []
  | entries :: rest => .table (entriesToTable entries) :: tablesToValues rest

end

end Item

inductive Statement where
  | assignment (path : List Text) (key : Text) (value : Value)
  | header (path : List Text) (key : Text)
  | arrayHeader (path : List Text) (key : Text)

structure Definition where
  entries : Entries
  current : List Text

namespace Definition

def empty : Definition := ⟨[], []⟩

def step? (d : Definition) : Statement → Option Definition
  | .assignment path key value => do
    pure { d with entries := ← d.entries.inHeader? (Entries.assign? key value path) d.current }
  | .header path key => do
    pure ⟨← d.entries.inHeader? (Entries.define? key) path, path ++ [key]⟩
  | .arrayHeader path key => do
    pure ⟨← d.entries.inHeader? (Entries.append? key) path, path ++ [key]⟩

def table? (statements : List Statement) : Option Table := do
  let d ← statements.foldlM step? empty
  pure (Item.entriesToTable d.entries)

end Definition

end RouteTable.Toml
