import RouteTable.Toml.Definition
import RouteTable.Toml.Scalar

namespace RouteTable.Toml.Document

open Reader Scalar

/-- Keys have fewer parts than this, and arrays and inline tables are nested less deep. -/
def depthLimit : Nat := 80

def isBareKeyChar (c : Char) : Bool := c.isAlphanum || c == '-' || c == '_'

def bareKey : Reader Text := stretch isBareKeyChar

def keyPart : Reader Text := do
  blanks
  let part ← basicString <|> literalString <|> bareKey
  blanks
  pure part

def key : Reader (List Text × Text) := do
  let parts ← separated keyPart (exactly '.')
  if depthLimit ≤ parts.length then failure
  match parts.getLast? with
  | some last => pure (parts.dropLast, last)
  | none => failure

def gap : Reader Unit := do
  let _ ← many (charWhere isBlank *> pure () <|> lineBreak <|> comment)

def arrayOf (item : Reader Value) : Reader Value := do
  exactly '['
  let items ← maybe (do
    let items ← separated (do gap; let v ← item; gap; pure v) (exactly ',')
    let _ ← maybe (exactly ',')
    pure items)
  gap
  exactly ']'
  pure (.array (items.getD []))

def assignmentOf (item : Reader Value) : Reader (List Text × Text × Value) := do
  let (path, last) ← key
  exactly '='
  blanks
  let v ← item
  blanks
  pure (path, last, v)

/-- Pairs define a table as lines do, but no later line adds to it. -/
def inlineTableOf (item : Reader Value) : Reader Value := do
  exactly '\x7b'
  let pairs ← maybe (separated (assignmentOf item) (exactly ','))
  blanks
  exactly '\x7d'
  let entries ← (pairs.getD []).foldlM
    (fun entries (path, last, v) => Entries.assign? last v path entries) ([] : Entries)
  pure (.table (Item.entriesToTable entries))

def scalar : Reader Value :=
  (.string <$> string) <|> (.datetime <$> datetime) <|> (.float <$> float) <|>
    (.integer <$> integer) <|> (.boolean <$> boolean)

def value : (depth : Nat) → Reader Value
  | 0 => scalar
  | depth + 1 => arrayOf (value depth) <|> inlineTableOf (value depth) <|> scalar

def lineEnd : Reader Unit := lineBreak <|> atEnd

def restOfLine : Reader Unit := do
  blanks
  let _ ← maybe comment
  lineEnd

def assignment : Reader Statement := do
  let (path, last, v) ← assignmentOf (value (depthLimit - 1))
  restOfLine
  pure (.assignment path last v)

def header : Reader Statement := do
  exactly '['
  let (path, last) ← key
  exactly ']'
  restOfLine
  pure (.header path last)

def arrayHeader : Reader Statement := do
  word ['[', '[']
  let (path, last) ← key
  word [']', ']']
  restOfLine
  pure (.arrayHeader path last)

def line : Reader (Option Statement) := do
  blanks
  (some <$> (arrayHeader <|> header <|> assignment)) <|> (do
    let _ ← maybe comment
    lineEnd
    pure none)

def statements : Reader (List Statement) := do
  let _ ← maybe (exactly '\uFEFF')
  let lines ← many line
  atEnd
  pure (lines.filterMap id)

/-- The table that a document defines; `none` where the text is no document. -/
def read? (text : Text) : Option Table := do
  let (ss, _) ← statements text
  Definition.table? ss

end RouteTable.Toml.Document
