import Stencil.Path.Assign
import Stencil.Path.Lookup
import Stencil.Render
import Stencil.Template.Compile
import Stencil.Value.Equality
import Stencil.Value.Order

/-!
# Workspaces

A workspace holds values in named variables and runs commands on them.  A value that a
command stores is moved out of its variable, and moved back when the command refuses it.
The variable that a command is directed at holds afterwards what the command has left,
whether it failed or not.
-/

namespace Stencil

/-- A value to store: given with the command, or moved out of a variable. -/
inductive Operand where
  | given (v : Value)
  | moved (name : Bytes)

/-- What to do with the variable that a command is directed at. -/
inductive Command where
  | bind (v : Value)
  | copy (target : Bytes)
  | drop
  | dump
  | inspect
  | asInt
  | asBytes
  | asArray
  | asDict
  | addInt (addend : Int64)
  | iterate
  | renderInto (size : Nat)
  | compare (other : Bytes)
  | sameOrder (other : Bytes)
  | equal (other : Bytes)
  | append (operand : Operand)
  | prepend (operand : Operand)
  | set (index : Nat) (operand : Operand)
  | pop (target : Option Bytes)
  | pull (target : Option Bytes)
  | first
  | last
  | item (index : Nat)
  | overwriteItem (index : Nat) (v : Value)
  | elements
  | insert (key : Bytes) (operand : Operand)
  | replace (key : Bytes) (operand : Operand)
  | entry (key : Bytes)
  | overwriteEntry (key : Bytes) (v : Value)
  | remove (key : Bytes) (target : Option Bytes)
  | delete (key : Bytes)
  | lookup (path : Path)
  | assign (path : Path) (operand : Operand)
  | comparePaths (a b : Path)
  | render (source : Bytes)

inductive Reply where
  | done
  | value (v : Value)
  | member (v : Option Value)
  | entry (v : Option Value) (present : Bool)
  | overwritten (present : Bool)
  | int (n : Int64)
  | bytes (bytes : Bytes)
  | extent (length : Nat)
  | truth (holds : Bool)
  | ordering (ordering : Ordering)
  | inspection (kind : Kind) (isNone truthy : Bool) (display escaped : Bytes)
  | iteration (hint : Nat × Option Nat) (length : Nat) (entries : List (Key × Value))
      (exhausted : Bool)
  | window (window : Window)
  | elements (items : List Value)
  | comparison (sameOrder equal : Bool)

inductive Failure where
  | unset (name : Bytes)
  | value (error : ValueError)
  | rejected (rejected : Rejected)
  | path (error : PathError)
  | unassigned (unassigned : Unassigned)
  | compile (error : CompileError)
  | render (error : RenderError Refusal)

structure Workspace where
  vars : Dict Value := {}

namespace Workspace

variable [Addressing]

abbrev Outcome := Workspace × Except Failure Reply

def get (w : Workspace) (name : Bytes) : Except Failure Value :=
  match w.vars.get? name with
  | some v => .ok v
  | none => .error (.unset name)

def bind (w : Workspace) (name : Bytes) (v : Value) : Workspace :=
  ⟨w.vars.put name v⟩

def unset (w : Workspace) (name : Bytes) : Workspace :=
  ⟨w.vars.remove name⟩

/-- The value of an operand, and the workspace without the variable
that it was moved from. -/
def take (w : Workspace) : Operand → Except Failure (Value × Workspace)
  | .given v => .ok (v, w)
  | .moved name => (w.get name).map (·, w.unset name)

def giveBack (w : Workspace) (v : Value) : Operand → Workspace
  | .given _ => w
  | .moved name => w.bind name v

/-!
# Kinds of commands
-/

/-- A command that changes the variable `on`, which holds afterwards
what the change has left. -/
def changing (w : Workspace) (on : Bytes) (change : Value × Except ValueError Unit)
    : Outcome :=
  (w.bind on change.1, (change.2.map fun _ => .done).mapError .value)

/-- A command that stores an operand in the variable `on`. -/
def storing (w : Workspace) (on : Bytes) (operand : Operand)
    (attempt : Value → Value × Except Rejected Unit) : Outcome :=
  match w.take operand with
  | .error failure => (w, .error failure)
  | .ok (v, rest) =>
    let (left, outcome) := attempt v
    let rest := rest.bind on left
    match outcome with
    | .ok () => (rest, .ok .done)
    | .error rejected => (rest.giveBack rejected.value operand, .error (.rejected rejected))

def removing (w : Workspace) (on : Bytes) (target : Option Bytes)
    (removal : Option (Value × Value)) : Outcome :=
  match removal with
  | none => (w, .ok (.member none))
  | some (v, rest) =>
    let w := w.bind on rest
    match target with
    | some name => (w.bind name v, .ok (.member (some v)))
    | none => (w, .ok (.member (some v)))

def valueFailure {α : Type} (result : Except ValueError α) : Except Failure α :=
  result.mapError .value

def onItems (w : Workspace) (v : Value) (next : List Value → Outcome) : Outcome :=
  match v.asItems with
  | .ok items => next items
  | .error e => (w, .error (.value e))

def onDict (w : Workspace) (v : Value) (next : Dict Value → Outcome) : Outcome :=
  match v.asDict with
  | .ok d => next d
  | .error e => (w, .error (.value e))

/-!
# Single commands
-/

def inspection (v : Value) : Reply :=
  let escaped := match v with
    | .string bytes => Escape.encode bytes
    | _ => []
  .inspection v.kind v.isNone v.isTruthy v.display escaped

def iteration (i : Iteration) : Reply :=
  let (entries, spent) := i.drain
  .iteration i.sizeHint i.length entries spent.next?.isNone

/-- Compares the variables `a` and `b`, each standing at a place of its own. -/
def order (a b : Bytes) (v w : Value) : Ordering :=
  Value.compareAt id (.reached a []) (.reached b []) v w

/-- Compares two values below the variable `on`. -/
def comparePaths (on : Bytes) (d : Dict Value) (a b : Path) : Except Failure Reply := do
  let v ← (Stencil.lookup d a).mapError .path
  let w ← (Stencil.lookup d b).mapError .path
  let ordering := Value.compareAt id (.reached on a.read.steps) (.reached on b.read.steps) v w
  .ok (.comparison (ordering == .eq) (v.same w))

def rendering (d : Dict Value) (source : Bytes) : Except Failure Reply := do
  let template ← (Template.compile source).mapError .compile
  let output ← (template.render d).mapError .render
  .ok (.bytes output)

/-- Stores an operand at a path below the variable `on`. -/
def assigning (w : Workspace) (on : Bytes) (d : Dict Value) (path : Path) (operand : Operand) :
    Outcome :=
  match w.take operand with
  | .error failure => (w, .error failure)
  | .ok (v, rest) =>
    let (changed, outcome) := Stencil.assign d path v
    let rest := rest.bind on (.dict changed)
    match outcome with
    | .ok () => (rest, .ok .done)
    | .error unassigned =>
      (rest.giveBack unassigned.value operand, .error (.unassigned unassigned))

/-- Runs a command on the value `v` of the variable `on`. -/
def runOn (w : Workspace) (on : Bytes) (v : Value) : Command → Outcome
  | .bind u => (w.bind on u, .ok .done)
  | .copy target => (w.bind target v, .ok .done)
  | .drop => (w.unset on, .ok .done)
  | .dump => (w, .ok (.value v))
  | .inspect => (w, .ok (inspection v))
  | .asInt => (w, (valueFailure v.asInt).map .int)
  | .asBytes => (w, (valueFailure v.asBytes).map .bytes)
  | .asArray => (w, (valueFailure v.asItems).map fun items => .extent items.length)
  | .asDict => (w, (valueFailure v.asDict).map fun d => .extent d.size)
  | .addInt addend => w.changing on (v.addInt addend)
  | .iterate => (w, (valueFailure v.iterate).map iteration)
  | .renderInto size => (w, .ok (.window (v.renderInto (List.replicate size 0))))
  | .compare other => (w, (w.get other).map fun u => .ordering (order on other v u))
  | .sameOrder other => (w, (w.get other).map fun u => .truth (order on other v u == .eq))
  | .equal other => (w, (w.get other).map fun u => .truth (v.same u))
  | .append operand =>
    w.onItems v fun items => w.storing on operand fun u => (Items.append items u).map .array id
  | .prepend operand =>
    w.onItems v fun items => w.storing on operand fun u =>
      (Items.prepend items u).map .array id
  | .set index operand =>
    w.onItems v fun items => w.storing on operand fun u =>
      (Items.set items index u).map .array id
  | .pop target =>
    w.onItems v fun items =>
      w.removing on target ((Items.pop items).map fun r => (r.1, .array r.2))
  | .pull target =>
    w.onItems v fun items =>
      w.removing on target ((Items.pull items).map fun r => (r.1, .array r.2))
  | .first => w.onItems v fun items => (w, .ok (.member items.head?))
  | .last => w.onItems v fun items => (w, .ok (.member items.getLast?))
  | .item index => w.onItems v fun items => (w, .ok (.member items[index]?))
  | .overwriteItem index u =>
    w.onItems v fun items =>
      (w.bind on (.array (items.set index u)), .ok (.overwritten (index < items.length)))
  | .elements => w.onItems v fun items => (w, .ok (.elements items))
  | .insert key operand =>
    w.onDict v fun d => w.storing on operand fun u => (d.insert key u).map .dict id
  | .replace key operand =>
    w.onDict v fun d => w.storing on operand fun u => (.dict (d.replace key u), .ok ())
  | .entry key => w.onDict v fun d => (w, .ok (.entry (d.get? key) (d.contains key)))
  | .overwriteEntry key u =>
    w.onDict v fun d =>
      (w.bind on (.dict (d.update key u)), .ok (.overwritten (d.contains key)))
  | .remove key target =>
    w.onDict v fun d =>
      w.removing on target ((d.get? key).map fun u => (u, .dict (d.remove key)))
  | .delete key =>
    w.onDict v fun d => w.changing on ((d.delete key).map .dict id)
  | .lookup path =>
    w.onDict v fun d => (w, ((Stencil.lookup d path).mapError .path).map .value)
  | .assign path operand => w.onDict v fun d => w.assigning on d path operand
  | .comparePaths a b => w.onDict v fun d => (w, comparePaths on d a b)
  | .render source => w.onDict v fun d => (w, rendering d source)

/-- Runs a command on the variable `on`, which only `bind` and `drop` may find unset. -/
def run (w : Workspace) (on : Bytes) (command : Command) : Outcome :=
  match w.get on, command with
  | .ok v, command => w.runOn on v command
  | .error _, .bind v => (w.bind on v, .ok .done)
  | .error _, .drop => (w, .ok .done)
  | .error failure, _ => (w, .error failure)

end Workspace
end Stencil
