import Stencil.CommandLine.Arguments
import Stencil.DataFile
import Stencil.Define
import Stencil.Diagnostic
import Stencil.Render
import Stencil.Template.Compile

/-!
# The command

Renders one template file: loads the data files, applies the defines, reads and compiles
the template, opens the output, and renders.  Nothing is written before the template has
compiled.  The command runs on any host, such as the file system or a directory in memory.
-/

namespace Stencil

/-- What the command needs of its surroundings.  Opening an output empties it; writing to
it may fail for a reason that the host words. -/
structure Host (m : Type → Type) where
  readFile : Bytes → m (Option Bytes)
  readInput : m Bytes
  openFile : Bytes → m Bool
  writeFile : Bytes → Bytes → m (Except String Unit)
  writeOutput : Bytes → m Unit

inductive CommandError where
  | data (error : DataError)
  | define (error : DefineError)
  | unreadableTemplate (name : Bytes)
  | unwritableOutput (name : Bytes)
  | incompleteOutput (cause : String)
  deriving DecidableEq, Repr

namespace CommandError

def texts : CommandError → List String
  | data (.unsupported key file e) => [(DataError.unsupported key file e).text, e.message]
  | data e => [e.text]
  | define (.unassigned key e) => [(DefineError.unassigned key e).text, e.message]
  | define e => [e.text]
  | unreadableTemplate name => ["Failed to read template " ++ Utf8.lossyText name]
  | unwritableOutput name => ["Failed to create output file " ++ Utf8.lossyText name]
  | incompleteOutput cause => ["Failed to write output", cause]

/-- Whether the host alone knows the cause. -/
def isExternal : CommandError → Bool
  | data (.unreadable _) => true
  | data (.unparsable _) => true
  | unreadableTemplate _ => true
  | unwritableOutput _ => true
  | _ => false

def text (e : CommandError) : String :=
  "mtc: " ++ ": ".intercalate e.texts

end CommandError

inductive Complaint where
  | misuse
  | error (error : CommandError)
  | diagnostic (diagnostic : Diagnostic)

abbrev Ending := Option Complaint

namespace CommandLine

def exitCode (ending : Ending) : Nat :=
  if ending.isSome then 1 else 0

def versionText : String :=
  "mtc 0.1.0\n"

def helpLines : List String :=
  ["Render a template file",
    "",
    "Usage: mtc [OPTIONS] <TEMPLATE>",
    "",
    "Arguments:",
    "  <TEMPLATE>  Template file ('-' for stdin)",
    "",
    "Options:",
    "  -D, --define <KEY=VALUE>  Define a namespace value (KEY=VALUE, KEY may be a path like a.b[2])",
    "  -d, --data <FILE>         Load namespace values from a JSON or YAML file",
    "  -o, --output <OUTPUT>     Write output to FILE ('-' for stdout) [default: -]",
    "  -h, --help                Print help",
    "  -V, --version             Print version"]

def helpText : String :=
  String.join (helpLines.map fun line => line ++ "\n")

variable {m : Type → Type} [Monad m] [Formats] [Addressing]

def loadAll (host : Host m) (ns : Dict Value) :
    List Bytes → m (Except CommandError (Dict Value))
  | [] => pure (.ok ns)
  | name :: rest => do
    let content ← host.readFile name
    match DataFile.load ns ⟨name, content⟩ with
    | (ns, .ok ()) => loadAll host ns rest
    | (_, .error e) => pure (.error (.data e))

def defineAll (ns : Dict Value) : List Bytes → Except CommandError (Dict Value)
  | [] => .ok ns
  | define :: rest =>
    match Define.apply ns define with
    | (ns, .ok ()) => defineAll ns rest
    | (_, .error e) => .error (.define e)

/-- The name of the template in diagnostics, and its source. -/
def readTemplate (host : Host m) (name : Bytes) : m (Option (String × Bytes)) := do
  if name = Arguments.standard then
    let source ← host.readInput
    pure (some ("<stdin>", source))
  else
    let content ← host.readFile name
    pure (content.map fun source => (Utf8.lossyText name, source))

/-- Writes to the standard output, which takes everything. -/
def writeStandard (host : Host m) (bytes : Bytes) : m (Except String Unit) := do
  host.writeOutput bytes
  pure (.ok ())

/-- Opens the output and returns what writes to it, unless it cannot be opened. -/
def openOutput (host : Host m) (name : Bytes) :
    m (Option (Bytes → m (Except String Unit))) := do
  if name = Arguments.standard then
    pure (some (writeStandard host))
  else
    let opened ← host.openFile name
    pure (if opened then some (host.writeFile name) else none)

/-- Renders a compiled template to the output.  What was rendered before a failure is
written, and a failure to write it counts first. -/
def renderOut (host : Host m) (output : Bytes) (ns : Dict Value) (name : String)
    (source : Bytes) (template : Template) : m Ending := do
  match ← openOutput host output with
  | none => pure (some (.error (.unwritableOutput output)))
  | some write =>
    let (stream, outcome) := template.renderTo Stream.sink {} ns
    match ← write stream.taken, outcome with
    | .error cause, _ => pure (some (.error (.incompleteOutput cause)))
    | .ok (), .ok () => pure none
    | .ok (), .error e => pure (some (.diagnostic (.ofRenderError name source e)))

def runInvocation (host : Host m) (invocation : Invocation) : m Ending := do
  match ← loadAll host .empty invocation.data with
  | .error e => pure (some (.error e))
  | .ok ns =>
    match defineAll ns invocation.defines with
    | .error e => pure (some (.error e))
    | .ok ns =>
      match ← readTemplate host invocation.template with
      | none => pure (some (.error (.unreadableTemplate invocation.template)))
      | some (name, source) =>
        match Template.compile source with
        | .error e => pure (some (.diagnostic (.ofCompileError name source e)))
        | .ok template => renderOut host invocation.output ns name source template

def run (host : Host m) (arguments : List Bytes) : m Ending := do
  match Arguments.parse arguments with
  | .misuse => pure (some .misuse)
  | .help => do
    host.writeOutput (Bytes.ofText helpText)
    pure none
  | .version => do
    host.writeOutput (Bytes.ofText versionText)
    pure none
  | .run invocation => runInvocation host invocation

end CommandLine
end Stencil
