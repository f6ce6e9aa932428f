import StubGen.Command.Check
import StubGen.CommandLine.Arguments

/-!
# The command line

Runs what the arguments ask for. The exit code is zero after success, one after a command
that failed, and two when the arguments could not be understood.
-/

namespace StubGen

namespace CommandLine

/-- What is printed when the version is asked for. -/
def versionText : String := "scribe 0.1.0"

/-- What is printed when help is asked for. -/
def helpText : String :=
  "Greeting source generators for C# projects\n\n" ++
    "Usage: scribe [OPTIONS] <COMMAND>\n\n" ++
    "Commands:\n" ++
    "  generate  Run the generators and write their output\n" ++
    "  check     Report syntax errors and list what would be generated\n" ++
    "  help      Print this message or the help of the given subcommand(s)\n\n" ++
    "Options:\n" ++
    "  -v, --verbose  Log what the driver and generators are doing\n" ++
    "  -h, --help     Print help\n" ++
    "  -V, --version  Print version"

/-- The action that a request stands for. -/
def perform (parser : Parser) (digest : Digest) : Request → Command Unit
  | .generate options => do
    let _ ← Command.generate parser digest options
  | .check path => do
    let _ ← Command.check parser path

/-- Runs an action to its end. A failure is told to the user. -/
def runAction (action : Command Unit) (w : World) : World × UInt32 :=
  match action.run w with
  | .ok () w' => (w', 0)
  | .error e w' => ({ w' with notices := w'.notices ++ "Error: " ++ e.message ++ "\n" }, 1)

/-- Runs the program with the given arguments. -/
def run (parser : Parser) (digest : Digest) (arguments : List String) (w : World) :
    World × UInt32 :=
  match Request.ofArguments arguments with
  | .ok request => runAction (perform parser digest request) w
  | .error .help => ({ w with output := w.output ++ helpText ++ "\n" }, 0)
  | .error .version => ({ w with output := w.output ++ versionText ++ "\n" }, 0)
  | .error (.fault e) =>
    let notice :=
      match e.message? with
      | some message => "error: " ++ message
      | none => helpText
    ({ w with notices := w.notices ++ notice ++ "\n" }, 2)

end CommandLine

end StubGen
