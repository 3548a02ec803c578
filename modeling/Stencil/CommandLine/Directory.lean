import Stencil.CommandLine
import Stencil.Standard

/-!
# A directory in memory

A host whose files are a dictionary of names and contents.  A name may have the form of a
relative path; its directories are those of the files.  Around the directory there are the
usual directories of a system with a few devices, the standard streams, and a place for
temporary files, where files can be created as well.
-/

namespace Stencil

/-- The files, those among the temporary files around the directory, what is left of the
standard input, and what was written to the standard streams. -/
structure Directory where
  files : Dict Bytes := {}
  temporary : Dict Bytes := {}
  input : Bytes := []
  output : Bytes := []
  errors : Bytes := []

namespace Directory

def componentBound : Nat := 255

def pathBound : Nat := 4095

/-!
# Places

A place is given by its components from the root of the system on.
-/

abbrev Location := List Bytes

def joined (parts : List Bytes) : Bytes :=
  List.intercalate [DataFile.slash] parts

def location (path : String) : Location :=
  (Bytes.ofText path).splitOn DataFile.slash

/-- Where temporary files are. -/
def scratch : Location := location "tmp"

/-- The directory itself lies among the temporary files, under a name
that no path contains. -/
def home : Location := scratch ++ [[]]

def systemDirectories : List Location :=
  [] :: ["bin", "dev", "dev/fd", "etc", "home", "proc", "proc/self", "proc/self/cwd",
    "proc/self/fd", "proc/self/root", "root", "run", "sys", "tmp", "usr", "usr/bin",
    "usr/lib", "var", "var/tmp"].map location

/-- Directories under a second name, and the places that they are. -/
def aliases : List (Location × Location) :=
  [(location "dev/fd", location "proc/self/fd"), (location "proc/self/cwd", home),
    (location "proc/self/root", [])]

/-- The components of a place below the directory. -/
def below? (place : Location) : Option (List Bytes) :=
  if home.isPrefixOf place then some (place.drop home.length) else none

def hasDirectory (d : Directory) (name : Bytes) : Bool :=
  d.files.keys.any fun key => (name ++ [DataFile.slash]).isPrefixOf key

def isDirectory (d : Directory) (place : Location) : Bool :=
  match below? place with
  | some [] => true
  | some parts => d.hasDirectory (joined parts)
  | none => systemDirectories.contains place

def here : Bytes := [Byte.dot]

def above : Bytes := [Byte.dot, Byte.dot]

/-- The directory that a component leads to from another one; nothing is above the
root. -/
def enter (d : Directory) (place : Location) (part : Bytes) : Option Location :=
  if part.isEmpty ∨ part = here then some place
  else if part = above then some place.dropLast
  else
    let next := place ++ [part]
    if d.isDirectory next then some ((aliases.lookup next).getD next) else none

/-!
# Targets
-/

inductive Place where
  | inside (name : Bytes)
  | temporary (name : Bytes)

/-- What a path that may be opened denotes. -/
inductive Target where
  | file (place : Place)
  /-- A device that takes what is written and that nothing is read from. -/
  | unread
  | nullDevice
  | fullDevice
  | standardInput
  | standardOutput
  | standardError

def devices : List (Location × Target) :=
  [("dev/null", .nullDevice), ("dev/zero", .unread), ("dev/random", .unread),
    ("dev/urandom", .unread), ("dev/full", .fullDevice), ("dev/stdin", .standardInput),
    ("dev/stdout", .standardOutput), ("dev/stderr", .standardError),
    ("proc/self/fd/0", .standardInput), ("proc/self/fd/1", .standardOutput),
    ("proc/self/fd/2", .standardError)].map fun e => (location e.1, e.2)

/-- What `last` denotes in the directory at `place`. -/
def target? (d : Directory) (place : Location) (last : Bytes) : Option Target :=
  let full := place ++ [last]
  if d.isDirectory full then none
  else
    match below? full with
    | some parts => some (.file (.inside (joined parts)))
    | none => if place = scratch then some (.file (.temporary last)) else devices.lookup full

/-- What a path denotes, unless that is a directory or there is no directory for it. -/
def resolve (d : Directory) (path : Bytes) : Option Target :=
  let parts := path.splitOn DataFile.slash
  let last := parts.getLast?.getD []
  let start := if path.head? = some DataFile.slash then [] else home
  if last.isEmpty ∨ last = here ∨ last = above then none
  else if pathBound < path.length ∨ componentBound < last.length then none
  else (parts.dropLast.foldlM d.enter start).bind (d.target? · last)

/-!
# The host
-/

def content? (d : Directory) : Place → Option Bytes
  | .inside name => d.files.get? name
  | .temporary name => d.temporary.get? name

def hold (d : Directory) (place : Place) (bytes : Bytes) : Directory :=
  match place with
  | .inside name => { d with files := d.files.put name bytes }
  | .temporary name => { d with temporary := d.temporary.put name bytes }

def readInput : StateM Directory Bytes := do
  let d ← get
  set { d with input := [] }
  pure d.input

def readFile (path : Bytes) : StateM Directory (Option Bytes) := do
  let d ← get
  match d.resolve path with
  | some (.file place) => pure (d.content? place)
  | some .nullDevice => pure (some [])
  | some .standardInput => do
    let input ← readInput
    pure (some input)
  | _ => pure none

def openFile (path : Bytes) : StateM Directory Bool := do
  let d ← get
  match d.resolve path with
  | some (.file place) => do
    set (d.hold place [])
    pure true
  | some _ => pure true
  | none => pure false

def writeOutput (bytes : Bytes) : StateM Directory Unit :=
  modify fun d => { d with output := d.output ++ bytes }

def outOfSpace : String :=
  "No space left on device (os error 28)"

def writeFile (path : Bytes) (bytes : Bytes) : StateM Directory (Except String Unit) := do
  let d ← get
  match d.resolve path with
  | some (.file place) => do
    set (d.hold place ((d.content? place).getD [] ++ bytes))
    pure (.ok ())
  | some .fullDevice => pure (if bytes.isEmpty then .ok () else .error outOfSpace)
  | some .standardOutput => do
    writeOutput bytes
    pure (.ok ())
  | some .standardError => do
    set { d with errors := d.errors ++ bytes }
    pure (.ok ())
  | _ => pure (.ok ())

def host : Host (StateM Directory) :=
  { readFile, readInput, openFile, writeFile, writeOutput }

def run (d : Directory) (arguments : List Bytes) : Ending × Directory :=
  (CommandLine.run host arguments).run d

end Directory
end Stencil
