import RouteTable.Config
import RouteTable.Text.Quoted
import RouteTable.Toml.Document

namespace RouteTable

inductive ConfigError where
  | notToml
  | wrongType (found wanted : Text)
deriving DecidableEq, Repr

def ConfigError.message : ConfigError → Text
  | notToml => "invalid document".toList
  | wrongType found wanted =>
    "invalid type: ".toList ++ found ++ ", expected ".toList ++ wanted

namespace Toml.Value

/-- Messages show a number with the fewest digits, a tie going up, and without an exponent. -/
def realText : Real → Text
  | .finite x => (x.shortest .up).positional
  | .infinite true => "-inf".toList
  | .infinite false => "inf".toList
  | .notANumber => "NaN".toList

def shown : Value → Text
  | string s => "string ".toList ++ Text.quoted s
  | integer n => "integer `".toList ++ Text.ofInt n ++ "`".toList
  | float x => "floating point `".toList ++ realText x ++ "`".toList
  | boolean b => (if b then "boolean `true`" else "boolean `false`").toList
  | datetime _ => "map".toList
  | array _ => "sequence".toList
  | table _ => "map".toList

def mismatch {α : Type} (v : Value) (wanted : String) : Except ConfigError α :=
  .error (.wrongType v.shown wanted.toList)

def asText : Value → Except ConfigError Text
  | string s => .ok s
  | v => v.mismatch "a string"

def entries? : Value → Option Table
  | table entries => some entries
  | datetime d => some [(Datetime.memberKey, .string d.text)]
  | _ => none

end Toml.Value

open Toml

namespace Routing

def pagesDirKey : Text := "pages_dir".toList
def extensionKey : Text := "extension".toList
def outputDirKey : Text := "output_dir".toList
def outputFileKey : Text := "output_file".toList

def set (routing : Routing) (key : Text) (v : Value) : Except ConfigError Routing := do
  if key = pagesDirKey then pure { routing with pagesDir := ← v.asText }
  else if key = extensionKey then pure { routing with extension := ← v.asText }
  else if key = outputDirKey then pure { routing with outputDir := some (← v.asText) }
  else if key = outputFileKey then pure { routing with outputFile := ← v.asText }
  else pure routing

/-- A table of settings, or an array of the first ones in this order. -/
def read (v : Value) : Except ConfigError Routing :=
  match v with
  | .array items =>
    ([pagesDirKey, extensionKey, outputDirKey, outputFileKey].zip items).foldlM
      (fun routing e => routing.set e.1 e.2) defaults
  | v =>
    match v.entries? with
    | some entries => entries.foldlM (fun routing e => routing.set e.1 e.2) defaults
    | none => v.mismatch "struct RoutingConfig"

end Routing

namespace MixinSet

def readFields (v : Value) : Except ConfigError Fields :=
  match v.entries? with
  | some entries => .ok (Value.entriesToJson entries)
  | none => v.mismatch "a map"

def read (v : Value) : Except ConfigError MixinSet :=
  match v.entries? with
  | some entries =>
    entries.foldlM (fun set e => do pure (Dict.insert e.1 (← readFields e.2) set)) []
  | none => v.mismatch "a map"

end MixinSet

namespace Config

/-- Of two entries of the wrong type the first one in the document is reported. -/
def ofTable (table : Table) : Except ConfigError Config :=
  table.foldlM (fun config e => do
    if e.1 = "routing".toList then pure { config with routing := ← Routing.read e.2 }
    else if e.1 = "mixin".toList then pure { config with mixins := ← MixinSet.read e.2 }
    else pure config) defaults

def read (text : Text) : Except ConfigError Config :=
  if text.all Text.isBlank then .ok defaults
  else match Document.read? text with
    | some table => ofTable table
    | none => .error .notToml

end Config

end RouteTable
