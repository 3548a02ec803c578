import Stencil.CommandLine
import Stencil.Standard

/-!
# Entry point

Runs the command on the file system and the standard streams.
-/

namespace Stencil
namespace Main

def toByteArray (bytes : Bytes) : ByteArray :=
  ⟨bytes.toArray⟩

def ofByteArray (bytes : ByteArray) : Bytes :=
  bytes.data.toList

def fileName (name : Bytes) : String :=
  Utf8.lossyText name

def readFile (name : Bytes) : IO (Option Bytes) := do
  try
    let content ← IO.FS.readBinFile (fileName name)
    pure (some (ofByteArray content))
  catch _ => pure none

partial def readAll (stream : IO.FS.Stream) (sofar : ByteArray) : IO ByteArray := do
  let chunk ← stream.read 65536
  if chunk.isEmpty then pure sofar else readAll stream (sofar ++ chunk)

def openFile (name : Bytes) : IO Bool := do
  try
    IO.FS.writeBinFile (fileName name) ByteArray.empty
    pure true
  catch _ => pure false

def writeFile (name bytes : Bytes) : IO (Except String Unit) := do
  try
    IO.FS.writeBinFile (fileName name) (toByteArray bytes)
    pure (.ok ())
  catch e => pure (.error (toString e))

def host : Host IO where
  readFile := readFile
  readInput := do
    let stream ← IO.getStdin
    let content ← readAll stream ByteArray.empty
    pure (ofByteArray content)
  openFile := openFile
  writeFile := writeFile
  writeOutput bytes := do
    let stream ← IO.getStdout
    stream.write (toByteArray bytes)
    stream.flush

def complaintText : Complaint → String
  | .misuse => "error: invalid arguments\n\n" ++ CommandLine.helpText
  | .error e => e.text ++ "\n"
  | .diagnostic d => d.render

end Main
end Stencil

def main (arguments : List String) : IO UInt32 := do
  let ending ← Stencil.CommandLine.run Stencil.Main.host (arguments.map Stencil.Bytes.ofText)
  match ending with
  | some complaint => IO.eprint (Stencil.Main.complaintText complaint)
  | none => pure ()
  pure (Stencil.CommandLine.exitCode ending).toUInt32
