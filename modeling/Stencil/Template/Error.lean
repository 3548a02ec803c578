import Stencil.Template

/-!
# Compile errors

The reasons for which a source is no template.  An error carries the span of the directive
at fault and the line at which it was noticed, which differs from the span's line only for
a block that is never closed.
-/

namespace Stencil

inductive BlockKind where
  | cond
  | loop
  deriving DecidableEq, Repr

namespace BlockKind

def word : BlockKind → String
  | cond => "if"
  | loop => "for"

end BlockKind

/-- The directives that belong to an open block. -/
inductive Continuation where
  | otherwise
  | endCond
  | endLoop
  deriving DecidableEq, Repr

namespace Continuation

def word : Continuation → String
  | otherwise => "else"
  | endCond => "endif"
  | endLoop => "endfor"

def block : Continuation → BlockKind
  | otherwise => .cond
  | endCond => .cond
  | endLoop => .loop

end Continuation

inductive CompileFault where
  | unterminatedDirective
  | newlineInDirective
  | emptyDirective
  | invalidDirective
  | invalidLoopSyntax
  | outsideOfBlock (directive : Continuation)
  | elseInsideElse
  | unclosedBlock (kind : BlockKind) (line : Nat)
  deriving DecidableEq, Repr

namespace CompileFault

def quoted (word : String) : String :=
  "\"" ++ word ++ "\""

def text : CompileFault → String
  | unterminatedDirective => "Unterminated directive"
  | newlineInDirective => "Newline in directive"
  | emptyDirective => "Empty directive"
  | invalidDirective => "Invalid directive"
  | invalidLoopSyntax => "Invalid \"for\" syntax"
  | outsideOfBlock directive =>
    quoted directive.word ++ " directive outside of " ++ quoted directive.block.word
  | elseInsideElse => "\"else\" inside \"else\""
  | unclosedBlock kind line =>
    "Unclosed " ++ quoted kind.word ++ " block, begun at line " ++ toString line

end CompileFault

structure CompileError where
  fault : CompileFault
  line : Nat
  span : Span
  deriving DecidableEq, Repr

namespace CompileError

/-- A fault noticed on the line of its span. -/
def inside (span : Span) (fault : CompileFault) : CompileError :=
  ⟨fault, span.line, span⟩

def message (e : CompileError) : String :=
  e.fault.text ++ " at line " ++ toString e.line

end CompileError
end Stencil
