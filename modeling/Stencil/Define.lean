import Stencil.Path.Assign

/-!
# Defines

A define `KEY=VALUE` stores a string at a path.  It is split at its first equals sign; the
key is text, the value any bytes.
-/

namespace Stencil

inductive DefineError where
  | malformed (define : Bytes)
  | keyTooLong
  | keyNotText
  | unassigned (key : Path) (error : PathError)
  deriving DecidableEq, Repr

namespace DefineError

def text : DefineError → String
  | malformed define =>
    "Invalid define \"" ++ Utf8.lossyText define ++ "\" (expected KEY=VALUE)"
  | keyTooLong => "Define key too long"
  | keyNotText => "Invalid define key (not UTF-8)"
  | unassigned key _ => "Failed to define " ++ Utf8.lossyText key

end DefineError

namespace Define

/-- Keys are shorter than this many bytes. -/
def keyBound : Nat := 256

def parse (define : Bytes) : Except DefineError (Path × Bytes) :=
  match Bytes.cutAt Byte.equals define with
  | none => .error (.malformed define)
  | some (key, value) =>
    if key.isEmpty ∨ value.isEmpty then .error (.malformed define)
    else if keyBound ≤ key.length then .error .keyTooLong
    else if !Utf8.isValid key then .error .keyNotText
    else .ok (key, value)

def apply (ns : Dict Value) (define : Bytes) : Dict Value × Except DefineError Unit :=
  match parse define with
  | .error e => (ns, .error e)
  | .ok (key, value) =>
    let (changed, outcome) := assign ns key (.string value)
    (changed, outcome.mapError fun u => .unassigned key u.error)

end Define
end Stencil
