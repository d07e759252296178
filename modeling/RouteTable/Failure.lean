import RouteTable.Config.Reader

namespace RouteTable

inductive Failure where
  | unreadableConfig (path : Text)
  | invalidConfig (path : Text) (cause : ConfigError)
  | noPagesFolder (path : Text)
  | invalidPattern (pattern : Text)
  | noOutputFolder (path : Text)
  | unwritableTable (path : Text)
  /-- The disk was full: only `kept` is there of the table. -/
  | cutTable (path kept : Text)
  | noRuntime (cause : Text)
  | noWatcher (fault : Text)
  | unwatchable (folder cause : Text)
deriving DecidableEq, Repr

namespace Failure

def message : Failure → Text
  | unreadableConfig path => "Failed to read config file: ".toList ++ Text.quoted path
  | invalidConfig path _ => "Failed to parse config file: ".toList ++ Text.quoted path
  | noPagesFolder path => "Pages directory not found: ".toList ++ Text.quoted path
  | invalidPattern pattern => "Invalid page pattern: ".toList ++ pattern
  | noOutputFolder path => "Failed to create output directory: ".toList ++ Text.quoted path
  | unwritableTable path => "Failed to write route table: ".toList ++ Text.quoted path
  | cutTable path _ => "Failed to write route table: ".toList ++ Text.quoted path
  | noRuntime _ => "Failed to start async runtime".toList
  | noWatcher fault => fault
  | unwatchable folder _ => "Failed to watch ".toList ++ Text.quoted folder

def cause? : Failure → Option Text
  | invalidConfig _ cause => some cause.message
  | noRuntime cause => some cause
  | unwatchable _ cause => some cause
  | _ => none

def report (failure : Failure) : Text :=
  "Error: ".toList ++ failure.message ++ ['\n'] ++
    match failure.cause? with
    | some cause => "\nCaused by:\n    ".toList ++ cause ++ ['\n']
    | none => []

def inline (failure : Failure) : Text :=
  failure.message ++ (failure.cause?.map fun cause => ':' :: ' ' :: cause).getD []

end Failure

end RouteTable
