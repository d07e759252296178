import RouteTable.Config

namespace RouteTable

inductive Action where
  | build
  | watch
  | inspect
deriving DecidableEq, Repr

def Action.ofName? (s : Text) : Option Action :=
  if s = "build".toList then some .build
  else if s = "watch".toList then some .watch
  else if s = "inspect".toList then some .inspect
  else none

structure Overrides where
  pagesDir : Option Text
  outputDir : Option Text
  outputFile : Option Text
  extension : Option Text
deriving DecidableEq, Repr

structure Invocation where
  action : Action
  configPath : Text
  overrides : Overrides
deriving DecidableEq, Repr

def Overrides.apply (overrides : Overrides) (config : Config) : Config :=
  { config with
    routing :=
      { pagesDir := overrides.pagesDir.getD config.routing.pagesDir
        extension := overrides.extension.getD config.routing.extension
        outputDir := overrides.outputDir <|> config.routing.outputDir
        outputFile := overrides.outputFile.getD config.routing.outputFile } }

namespace CommandLine

inductive Flag where
  | config
  | verbose
  | help
  | version
  | pagesDir
  | outputDir
  | outputFile
  | extension
deriving DecidableEq, Repr

namespace Flag

def name : Flag → Text
  | config => "config".toList
  | verbose => "verbose".toList
  | help => "help".toList
  | version => "version".toList
  | pagesDir => "pages-dir".toList
  | outputDir => "output-dir".toList
  | outputFile => "output-file".toList
  | extension => "extension".toList

def letter? : Flag → Option Char
  | config => some 'c'
  | verbose => some 'v'
  | help => some 'h'
  | version => some 'V'
  | extension => some 'e'
  | _ => none

def takesValue : Flag → Bool
  | verbose => false
  | help => false
  | version => false
  | _ => true

def general : List Flag := [config, verbose, help, version]

def ofCommand : List Flag := [config, verbose, help, pagesDir, outputDir, outputFile, extension]

end Flag

inductive UsageError where
  | unexpected (argument : Text)
  | missingValue (flag : Flag)
  | needlessValue (flag : Flag)
  | repeated (flag : Flag)
  | noCommand
deriving DecidableEq, Repr

inductive Halt where
  | usage (error : UsageError)
  | version
  | help
deriving DecidableEq, Repr

def UsageError.message : UsageError → Text
  | unexpected argument => "unexpected argument ".toList ++ argument
  | missingValue flag => "a value is required for --".toList ++ flag.name
  | needlessValue flag => "no value is allowed for --".toList ++ flag.name
  | repeated flag => "given more than once: --".toList ++ flag.name
  | noCommand => "a command is required: build, watch or inspect".toList

inductive Argument where
  | terminator
  | long (name : Text) (value : Option Text)
  | cluster (letters : Text)
  | plain

/-- A hyphen alone is a plain argument. -/
def Argument.of (s : Text) : Argument :=
  match s with
  | ['-', '-'] => terminator
  | '-' :: '-' :: rest =>
    match rest.dropWhile (· != '=') with
    | _ :: value => long (rest.takeWhile (· != '=')) (some value)
    | [] => long rest none
  | '-' :: c :: rest => cluster (c :: rest)
  | _ => plain

abbrev Given := List (Flag × Text)

def give (given : Given) (flag : Flag) (value : Text) : Except Halt Given :=
  if flag = .help then .error .help
  else if flag = .version then .error .version
  else if given.any (·.1 = flag) then .error (.usage (.repeated flag))
  else if flag = .config ∧ value = [] then .error (.usage (.missingValue flag))
  else .ok ((flag, value) :: given)

/-- The last letter of a cluster may leave its value to the next argument. -/
def readCluster (flags : List Flag) (argument : Text) :
    Given → Text → Except Halt (Given × Option Flag)
  | given, [] => .ok (given, none)
  | given, c :: letters =>
    match flags.find? (·.letter? = some c) with
    | none => .error (.usage (.unexpected argument))
    | some flag =>
      if flag.takesValue then
        match letters with
        | [] => .ok (given, some flag)
        | '=' :: value => (give given flag value).map fun given => (given, none)
        | value => (give given flag value).map fun given => (given, none)
      else give given flag [] >>= fun given => readCluster flags argument given letters

def readFlag (flags : List Flag) (given : Given) (argument : Text) :
    Argument → Except Halt (Given × Option Flag)
  | .long name value =>
    match flags.find? (·.name = name) with
    | none => .error (.usage (.unexpected argument))
    | some flag =>
      match flag.takesValue, value with
      | true, some value => (give given flag value).map fun given => (given, none)
      | true, none => .ok (given, some flag)
      | false, some _ => .error (.usage (.needlessValue flag))
      | false, none => (give given flag []).map fun given => (given, none)
  | .cluster letters => readCluster flags argument given letters
  | .terminator => .ok (given, none)
  | .plain => .error (.usage (.unexpected argument))

def isValue (argument : Text) : Bool :=
  match Argument.of argument with
  | .plain => true
  | _ => false

def isHelp (argument : Text) (arguments : List Text) : Bool :=
  argument == Flag.help.name &&
    match arguments with
    | [] => true
    | [topic] => (Action.ofName? topic).isSome || topic == Flag.help.name
    | _ => false

def readFlags (flags : List Flag) (commandDue : Bool) :
    Given → List Text → Except Halt (Given × Option (Action × List Text))
  | given, [] => .ok (given, none)
  | given, argument :: arguments =>
    match Argument.of argument with
    | .terminator =>
      match arguments with
      | [] => .ok (given, none)
      | extra :: _ => .error (.usage (.unexpected extra))
    | .plain =>
      if commandDue then
        match Action.ofName? argument with
        | some action => .ok (given, some (action, arguments))
        | none =>
          .error (if isHelp argument arguments then .help else .usage (.unexpected argument))
      else .error (.usage (.unexpected argument))
    | shape =>
      match readFlag flags given argument shape with
      | .error halt => .error halt
      | .ok (given, none) => readFlags flags commandDue given arguments
      | .ok (given, some flag) =>
        match arguments with
        | [] => .error (.usage (.missingValue flag))
        | value :: arguments =>
          if isValue value then
            give given flag value >>= fun given => readFlags flags commandDue given arguments
          else .error (.usage (.missingValue flag))

def defaultConfigPath : Text := "pageroute.toml".toList

def invocation (action : Action) (general ofCommand : Given) : Invocation :=
  { action
    configPath := (ofCommand.lookup .config <|> general.lookup .config).getD defaultConfigPath
    overrides :=
      ⟨ofCommand.lookup .pagesDir, ofCommand.lookup .outputDir, ofCommand.lookup .outputFile,
        ofCommand.lookup .extension⟩ }

def read (arguments : List Text) : Except Halt Invocation := do
  match ← readFlags Flag.general true [] arguments with
  | (_, none) => .error (.usage .noCommand)
  | (general, some (action, rest)) =>
    let (ofCommand, _) ← readFlags Flag.ofCommand false [] rest
    pure (invocation action general ofCommand)

end CommandLine

end RouteTable
