import Stencil.Bytes.Utf8
import Stencil.Template.Error

/-!
# Directives

What stands between double braces: a comment, a run of opening braces that stands for
itself, a path to substitute, or a word that opens, continues or closes a block.
-/

namespace Stencil

/-- The parts before and after the first occurrence of `mark`. -/
def Bytes.cutAround (mark : Bytes) : Bytes → Option (Bytes × Bytes)
  | [] => none
  | b :: rest =>
    if mark.isPrefixOf (b :: rest) then some ([], (b :: rest).drop mark.length)
    else (cutAround mark rest).map fun parts => (b :: parts.1, parts.2)

inductive Directive where
  | comment
  | escape (braces : Bytes)
  | subst (path : Path)
  | openCond (condition : Path)
  | openLoop (var : Bytes) (iterable : Path)
  | continuation (word : Continuation)
  deriving DecidableEq, Repr

namespace Directive

def ifWord : Bytes := Bytes.ofText "if"

def forWord : Bytes := Bytes.ofText "for"

def inMark : Bytes := Bytes.ofText " in "

def isPathByte (b : UInt8) : Bool :=
  Byte.isLetter b || Byte.isDigit b || b == Byte.dot || b == Byte.underscore ||
    b == Byte.openBracket || b == Byte.closeBracket

def isVariable (var : Bytes) : Bool :=
  !var.isEmpty && var.all fun b =>
    b != Byte.space && b != Byte.dot && b != Byte.openBracket && b != Byte.closeBracket

def loopHead? (expression : Bytes) : Option (Bytes × Path) :=
  match Bytes.cutAround inMark expression with
  | some (var, iterable) =>
    if isVariable var && !iterable.isEmpty && !iterable.contains Byte.space then
      some (var, iterable)
    else none
  | none => none

def ofWord (word : Bytes) : Except CompileFault Directive :=
  if word = Bytes.ofText "else" then .ok (.continuation .otherwise)
  else if word = Bytes.ofText "endif" then .ok (.continuation .endCond)
  else if word = Bytes.ofText "endfor" then .ok (.continuation .endLoop)
  else if word = ifWord ∨ word = forWord then .error .invalidDirective
  else if word.all (· == Byte.openBrace) then .ok (.escape word)
  else if word.all isPathByte then .ok (.subst word)
  else .error .invalidDirective

def ofExpression (word expression : Bytes) : Except CompileFault Directive :=
  if expression.isEmpty ∨ expression.head? = some Byte.space then .error .invalidDirective
  else if word = ifWord then .ok (.openCond expression)
  else if word = forWord then
    match loopHead? expression with
    | some (var, iterable) => .ok (.openLoop var iterable)
    | none => .error .invalidLoopSyntax
  else .error .invalidDirective

/-- Reads the content of a directive, which is not empty.  Only
comments need not be text. -/
def read (content : Bytes) : Except CompileFault Directive :=
  if content.head? = some Byte.hash then .ok .comment
  else if !Utf8.isValid content then .error .invalidDirective
  else
    match Bytes.cutAt Byte.space content with
    | some (word, expression) => ofExpression word expression
    | none => ofWord content

end Directive
end Stencil
