import Stencil.Bytes.Utf8

/-!
# Arguments

The arguments of the command: options with a value, in several spellings and in any order,
and the name of one template.  The first argument that is out of order decides, as does a
request for help or for the version.
-/

namespace Stencil

/-- What to render, with what, and where to. -/
structure Invocation where
  data : List Bytes
  defines : List Bytes
  output : Bytes
  template : Bytes
  deriving DecidableEq, Repr

inductive Request where
  | run (invocation : Invocation)
  | help
  | version
  | misuse
  deriving DecidableEq, Repr

namespace Arguments

def standard : Bytes := [Byte.dash]

inductive ValueOption where
  | define
  | data
  | output
  deriving DecidableEq, Repr

structure Collected where
  data : List Bytes := []
  defines : List Bytes := []
  output : Option Bytes := none
  template : Option Bytes := none

namespace Collected

/-- With the value of an option: a data file has a name, and the output, which is text, is
given at most once. -/
def add (c : Collected) (name : ValueOption) (value : Bytes) : Option Collected :=
  match name with
  | .define => some { c with defines := c.defines ++ [value] }
  | .data => if value.isEmpty then none else some { c with data := c.data ++ [value] }
  | .output =>
    if c.output.isSome ∨ !Utf8.isValid value then none
    else some { c with output := some value }

/-- With the template, which is text and is given once. -/
def addTemplate (c : Collected) (name : Bytes) : Option Collected :=
  if c.template.isSome ∨ !Utf8.isValid name then none
  else some { c with template := some name }

def finish (c : Collected) : Request :=
  match c.template with
  | none => .misuse
  | some template => .run ⟨c.data, c.defines, c.output.getD standard, template⟩

end Collected

def longOption? (name : Bytes) : Option ValueOption :=
  if name = Bytes.ofText "define" then some .define
  else if name = Bytes.ofText "data" then some .data
  else if name = Bytes.ofText "output" then some .output
  else none

def shortOption? (letter : UInt8) : Option ValueOption :=
  if letter = 0x44 then some .define
  else if letter = 0x64 then some .data
  else if letter = 0x6F then some .output
  else none

/-- What a single argument is, before options are considered ended. -/
inductive Shape where
  | terminator
  | help
  | version
  | option (name : ValueOption) (value : Option Bytes)
  | positional
  | unknown
  deriving DecidableEq, Repr

def longShape (text : Bytes) : Shape :=
  let (name, value) := match Bytes.cutAt Byte.equals text with
    | some (name, value) => (name, some value)
    | none => (text, none)
  match longOption? name with
  | some option => .option option value
  | none =>
    if value.isSome then .unknown
    else if name = Bytes.ofText "help" then .help
    else if name = Bytes.ofText "version" then .version
    else .unknown

/-- A value may follow its letter at once or behind an equals sign. -/
def shortShape (letter : UInt8) (rest : Bytes) : Shape :=
  match shortOption? letter with
  | some option =>
    match rest with
    | [] => .option option none
    | b :: more => .option option (some (if b = Byte.equals then more else b :: more))
  | none =>
    if letter = 0x68 then .help
    else if letter = 0x56 then .version
    else .unknown

def shape : Bytes → Shape
  | [] => .positional
  | a :: rest =>
    if a ≠ Byte.dash then .positional
    else match rest with
      | [] => .positional
      | b :: more =>
        if b = Byte.dash then (if more.isEmpty then .terminator else longShape more)
        else shortShape b more

/-- Whether an argument may be the value of the option before it. -/
def isValue (argument : Bytes) : Bool :=
  argument = standard || argument.head? != some Byte.dash

def collectTemplates (c : Collected) : List Bytes → Request
  | [] => c.finish
  | name :: rest =>
    match c.addTemplate name with
    | some c => collectTemplates c rest
    | none => .misuse

def collect (c : Collected) : List Bytes → Request
  | [] => c.finish
  | argument :: rest =>
    match shape argument with
    | .terminator => collectTemplates c rest
    | .help => .help
    | .version => .version
    | .unknown => .misuse
    | .positional =>
      match c.addTemplate argument with
      | some c => collect c rest
      | none => .misuse
    | .option name (some value) =>
      match c.add name value with
      | some c => collect c rest
      | none => .misuse
    | .option name none =>
      match rest with
      | [] => .misuse
      | value :: rest =>
        if isValue value then
          match c.add name value with
          | some c => collect c rest
          | none => .misuse
        else .misuse

def parse (arguments : List Bytes) : Request :=
  collect {} arguments

end Arguments
end Stencil
