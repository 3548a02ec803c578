import Stencil.Document.Conversion

/-!
# Data files

A data file holds one JSON or YAML document, by the extension of its name.  The
members of its top-level object become entries of a namespace, each replacing an
earlier entry of its name; the first one without a counterpart ends the loading.  How
the two formats are read is left open.
-/

namespace Stencil

/-- The document that a text stands for in each format, unless it stands for none. -/
class Formats where
  json : Bytes → Option Document
  yaml : Bytes → Option Document

/-- The name of a data file and what it holds, unless there is no such file. -/
structure DataFile where
  name : Bytes
  content : Option Bytes

inductive DataError where
  | unreadable (file : Bytes)
  | unparsable (file : Bytes)
  | notAnObject (file : Bytes)
  | unsupported (key file : Bytes) (error : ValueError)
  deriving DecidableEq, Repr

namespace DataError

def text : DataError → String
  | unreadable file => "Failed to read data file " ++ Utf8.lossyText file
  | unparsable file => "Failed to parse data file " ++ Utf8.lossyText file
  | notAnObject file => "Data file " ++ Utf8.lossyText file ++ " must contain an object"
  | unsupported key file _ =>
    "Unsupported value for \"" ++ Utf8.lossyText key ++ "\" in " ++ Utf8.lossyText file

end DataError

namespace DataFile

/-!
# Formats
-/

def slash : UInt8 := 0x2F

def components (name : Bytes) : List Bytes :=
  (name.splitOn slash).filter fun part => !part.isEmpty && part != [Byte.dot]

/-- What follows the last dot of the last component, unless nothing
stands before that dot. -/
def extension? (name : Bytes) : Option Bytes :=
  match (components name).getLast? with
  | none => none
  | some base =>
    let reversed := base.reverse
    let stem := (reversed.dropWhile (· != Byte.dot)).drop 1
    if base = [Byte.dot, Byte.dot] ∨ stem.isEmpty then none
    else some (reversed.takeWhile (· != Byte.dot)).reverse

def isYaml (name : Bytes) : Bool :=
  match extension? name with
  | none => false
  | some e =>
    let lower := e.map Byte.toLower
    lower == Bytes.ofText "yaml" || lower == Bytes.ofText "yml"

/-!
# Loading
-/

variable [Formats]

def read (file : DataFile) : Except DataError Document :=
  match file.content with
  | none => .error (.unreadable file.name)
  | some content =>
    if !Utf8.isValid content then .error (.unreadable file.name)
    else
      match if isYaml file.name then Formats.yaml content else Formats.json content with
      | some document => .ok document
      | none => .error (.unparsable file.name)

/-- The namespace after members have been stored in it up to the first
that has no counterpart. -/
def storeMembers (file : Bytes) (ns : Dict Value) :
    List (Bytes × Document) → Dict Value × Except DataError Unit
  | [] => (ns, .ok ())
  | (key, member) :: rest =>
    match member.toValue with
    | .ok v => storeMembers file (ns.replace key v) rest
    | .error e => (ns, .error (.unsupported key file e))

def store (file : Bytes) (ns : Dict Value) : Document → Dict Value × Except DataError Unit
  | .object members => storeMembers file ns members.entries
  | _ => (ns, .error (.notAnObject file))

def load (ns : Dict Value) (file : DataFile) : Dict Value × Except DataError Unit :=
  match file.read with
  | .ok document => store file.name ns document
  | .error e => (ns, .error e)

end DataFile
end Stencil
