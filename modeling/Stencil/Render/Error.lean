import Stencil.Path.Error
import Stencil.Template

/-!
# Render errors

The reasons for which rendering stops, each with the span of the node that failed.
-/

namespace Stencil

/-- The directive for which a path was looked up. -/
inductive Lookup where
  | condition
  | iterable
  | substitution
  deriving DecidableEq, Repr

def Lookup.text : Lookup → String
  | condition => "\"if\" directive"
  | iterable => "\"for\" directive"
  | substitution => "variable substitution"

/-- A sink refuses a chunk with a reason in `ε`. -/
inductive RenderFault (ε : Type) where
  | lookup (purpose : Lookup) (error : PathError)
  | notIterable (path : Path)
  | loopVariableMissing
  | write (refusal : ε)
  deriving DecidableEq, Repr

namespace RenderFault

variable {ε : Type}

def text [ToString ε] : RenderFault ε → String
  | lookup purpose error => "Error in " ++ purpose.text ++ ": " ++ error.message
  | notIterable path =>
    "Error in \"for\": could not get iterator from object " ++ Utf8.lossyText path
  | loopVariableMissing => "Loop variable missing"
  | write refusal => "write error: " ++ toString refusal

end RenderFault

structure RenderError (ε : Type) where
  fault : RenderFault ε
  span : Span
  deriving DecidableEq, Repr

namespace RenderError

variable {ε : Type}

def line (e : RenderError ε) : Nat :=
  e.span.line

def message [ToString ε] (e : RenderError ε) : String :=
  e.fault.text ++ " at line " ++ toString e.line

end RenderError
end Stencil
