import HartFloat.Backend.Host
import HartFloat.CommandLine.Arguments
import HartFloat.CommandLine.Session

/-!
# The command line

What the program answers to its arguments: an exit code and two texts. From outside it needs the
contents of the file that is inspected, and the NaNs of the machine it runs on.
-/
namespace HartFloat.CommandLine

/-- What a run leaves behind. -/
structure Response where
  code : Nat
  output : String := ""
  errors : String := ""
  deriving DecidableEq

def version : String := "rv32f_runtime_cli 0.1.0"

def usage : String :=
  "usage: rv32f_runtime_cli [--backend NAME] [--verbose] [--dump-regs] [--version] COMMAND\n"
    ++ "commands: exec OP VALUES.., decode WORDS.., scan FILE\n"

def errorLine (message : String) : String := "error: " ++ message ++ "\n"

def Command.session {σ : Type} (P : Primitives σ) (R : Elf.Reader) (listing : Bool)
    (read : String → Except ReadError Elf.Bytes) : Command → Session σ Unit
  | .exec op values => Session.exec P op values listing
  | .decode words => Session.decode P words listing
  | .scan path => Session.scan R (read path)

/-- Runs a session on a fresh emulator. -/
def finish {σ : Type} (start : σ) (session : Session σ Unit) : Response :=
  match Emulator.create default start with
  | .error e => { code := 1, errors := errorLine e.message }
  | .ok emulator =>
    match session.run { emulator } with
    | (.ok (), console) => { code := 0, output := console.printed }
    | (.error e, console) =>
      { code := 1, output := console.printed, errors := errorLine e.message }

/-- Answers the arguments, given the NaNs of the machine, a reader of object files and the contents
of files. -/
def respond {σ : Type} (nan : Backend.Host.NaNChoice σ) (start : σ) (R : Elf.Reader)
    (read : String → Except ReadError Elf.Bytes) (args : List String) : Response :=
  match parse args with
  | .error .version => { code := 0, output := version ++ "\n" }
  | .error (.usage e) => { code := 2, errors := errorLine e.message ++ usage }
  | .ok (o, command) =>
    match o.backend.getD .soft with
    | .soft => finish ∅ (command.session Backend.Soft.primitives R o.dumpRegisters read)
    | .host => finish start (command.session (Backend.Host.primitives nan) R o.dumpRegisters read)

def inspectedFile? (args : List String) : Option String :=
  match parse args with
  | .ok (_, .scan path) => some path
  | _ => none

end HartFloat.CommandLine
