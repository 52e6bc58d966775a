import HartFloat.Backend
import HartFloat.Operation

/-!
# Command-line arguments

Options come first, then the name of a command and what belongs to it. Arguments are read from left
to right; the first that is wrong, or that asks for the version, ends the reading.
-/
namespace HartFloat.CommandLine

inductive Command
  | exec (op : Operation) (values : List String)
  | decode (words : List String)
  | scan (path : String)
  deriving DecidableEq

structure Options where
  backend : Option Backend := none
  verbose : Bool := false
  dumpRegisters : Bool := false
  deriving DecidableEq

inductive UsageError
  | unexpected (argument : String)
  | repeated (option : String)
  | missing (what : String)
  | unknownBackend (name : String)
  | unknownOperation (name : String)
  deriving DecidableEq

/-- Why no command is run. -/
inductive Stop
  | version
  | usage (error : UsageError)
  deriving DecidableEq

def UsageError.message : UsageError → String
  | unexpected a => "unexpected argument '" ++ a ++ "'"
  | repeated o => "option '" ++ o ++ "' is given twice"
  | missing w => "missing " ++ w
  | unknownBackend s => Backend.unknownName s
  | unknownOperation s => Operation.unknownName s

inductive Switch
  | verbose
  | dumpRegisters
  | version
  deriving DecidableEq

namespace Switch

def ofLetter? : Char → Option Switch
  | 'v' => some verbose
  | 'V' => some version
  | _ => none

def ofName? : String → Option Switch
  | "--verbose" => some verbose
  | "--dump-regs" => some dumpRegisters
  | "--version" => some version
  | _ => none

end Switch

/-- Whether the argument looks like an option. A lone hyphen does not. -/
def isOption (a : String) : Bool := a.toList.head? == some '-' && a != "-"

def endOfOptions : String := "--"

namespace Options

/-- The options with a backend chosen by its name. -/
def choose (o : Options) (name : String) : Except Stop Options :=
  match o.backend, Backend.ofName? name with
  | some _, _ => .error (.usage (.repeated "--backend"))
  | none, some b => .ok { o with backend := some b }
  | none, none => .error (.usage (.unknownBackend name))

def turnOn (o : Options) : Switch → Except Stop Options
  | .version => .error .version
  | .verbose =>
    if o.verbose then .error (.usage (.repeated "--verbose")) else .ok { o with verbose := true }
  | .dumpRegisters =>
    if o.dumpRegisters then .error (.usage (.repeated "--dump-regs"))
    else .ok { o with dumpRegisters := true }

def turnOnLetters (argument : String) : Options → List Char → Except Stop Options
  | o, [] => .ok o
  | o, c :: cs =>
    match Switch.ofLetter? c with
    | none => .error (.usage (.unexpected argument))
    | some s => do turnOnLetters argument (← o.turnOn s) cs

def take (o : Options) (a : String) : Except Stop Options :=
  match Switch.ofName? a, a.toList with
  | some s, _ => o.turnOn s
  | none, '-' :: '-' :: cs =>
    if "backend=".toList.isPrefixOf cs then o.choose (String.ofList (cs.drop 8))
    else .error (.usage (.unexpected a))
  | none, '-' :: c :: cs => turnOnLetters a o (c :: cs)
  | none, _ => .error (.usage (.unexpected a))

end Options

def positionals : List String → Except Stop (List String)
  | [] => .ok []
  | a :: rest =>
    if a = endOfOptions then .ok rest
    else if isOption a then .error (.usage (.unexpected a))
    else (a :: ·) <$> positionals rest

namespace Command

def execOf (name : String) (values : List String) : Except Stop Command :=
  match Operation.ofName? name with
  | some op => .ok (.exec op values)
  | none => .error (.usage (.unknownOperation name))

/-- The values of an operation may look like options; a mark before the first is left out. -/
def ofExecArguments : List String → Except Stop Command
  | [] => .error (.usage (.missing "operation"))
  | a :: rest =>
    if a = endOfOptions then
      match rest with
      | [] => .error (.usage (.missing "operation"))
      | name :: values => execOf name values
    else if isOption a then .error (.usage (.unexpected a))
    else execOf a (if rest.head? = some endOfOptions then rest.drop 1 else rest)

def ofDecodeArguments (args : List String) : Except Stop Command := do
  match ← positionals args with
  | [] => throw (.usage (.missing "instruction word"))
  | words => return .decode words

def ofScanArguments (args : List String) : Except Stop Command := do
  match ← positionals args with
  | [] => throw (.usage (.missing "file"))
  | [path] => return .scan path
  | _ :: a :: _ => throw (.usage (.unexpected a))

def ofArguments? (name : String) (args : List String) : Option (Except Stop Command) :=
  match name with
  | "exec" => some (ofExecArguments args)
  | "decode" => some (ofDecodeArguments args)
  | "scan" => some (ofScanArguments args)
  | _ => none

end Command

def parseAfter (o : Options) : List String → Except Stop (Options × Command)
  | [] => .error (.usage (.missing "command"))
  | ["--backend"] => .error (.usage (.missing "backend"))
  | "--backend" :: name :: rest => do
    if isOption name then throw (.usage (.missing "backend"))
    parseAfter (← o.choose name) rest
  | a :: rest =>
    match Command.ofArguments? a rest with
    | some command => command.map (o, ·)
    | none => do parseAfter (← o.take a) rest

def parse (args : List String) : Except Stop (Options × Command) := parseAfter {} args

end HartFloat.CommandLine
