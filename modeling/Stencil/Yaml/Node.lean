import Stencil.Yaml.Token

/-!
# Nodes

The tree of nodes that a list of tokens spells.  Anchors are numbered as they are
met, each name by the number of names known before; an alias stands for the last node
that was given its number.
-/

namespace Stencil
namespace Yaml

inductive Node where
  | alias (anchor : Nat)
  | scalar (tag : Option Bytes) (plain : Bool) (text : List Char)
  | sequence (tag : Option Bytes) (items : List Node)
  | mapping (tag : Option Bytes) (pairs : List (Node × Node))

namespace Node

/-- What an omitted node stands for. -/
def omitted : Node :=
  .scalar none true []

mutual

def events : Node → Nat
  | .alias _ => 1
  | .scalar _ _ _ => 1
  | .sequence _ items => 2 + eventsOfItems items
  | .mapping _ pairs => 2 + eventsOfPairs pairs

def eventsOfItems : List Node → Nat
  | [] => 0
  | item :: rest => events item + eventsOfItems rest

def eventsOfPairs : List (Node × Node) → Nat
  | [] => 0
  | (key, value) :: rest => events key + events value + eventsOfPairs rest

end

end Node

/-- An anchored node with its number and how many anchors were met before it. -/
structure Anchored where
  number : Nat
  serial : Nat
  node : Node

/-- The tokens still to read and the names met so far. -/
structure Reader where
  tokens : List Token
  handles : List (List Char × Bytes) := []
  anchors : List (List Char × Nat) := []
  serial : Nat := 0
  anchored : List Anchored := []

namespace Reader

def next? (r : Reader) : Option Token :=
  r.tokens.head?

def skip (r : Reader) : Reader :=
  { r with tokens := r.tokens.drop 1 }

def nameAnchor (r : Reader) (name : List Char) : Reader :=
  let others := r.anchors.filter (·.1 != name)
  { r with anchors := (name, r.anchors.length) :: others, serial := r.serial + 1 }

/-- Of two nodes with one number the one that starts later counts. -/
def store (r : Reader) (a : Anchored) : Reader :=
  if r.anchored.any fun b => b.number == a.number && a.serial < b.serial then r
  else { r with anchored := a :: r.anchored.filter (·.number != a.number) }

/-- Keeps the node of an anchor that was numbered in `start`. -/
def keep (r start : Reader) (name : Option (List Char)) (node : Node) : Reader :=
  match name with
  | none => r
  | some name =>
    match start.anchors.lookup name with
    | some number => r.store ⟨number, start.serial, node⟩
    | none => r

def target? (r : Reader) (number : Nat) : Option Node :=
  (r.anchored.find? (·.number == number)).map (·.node)

/-!
# Properties
-/

def tagText (r : Reader) (handle : List Char) (suffix : Bytes) : Option Bytes :=
  if handle.isEmpty then some suffix else (r.handles.lookup handle).map (· ++ suffix)

def properties (r : Reader) :
    Option (Option (List Char) × Option Bytes × Reader) :=
  match r.tokens with
  | .anchor name :: .tag handle suffix :: _ =>
    (r.tagText handle suffix).map fun tag => (some name, some tag, r.skip.skip)
  | .tag handle suffix :: .anchor name :: _ =>
    (r.tagText handle suffix).map fun tag => (some name, some tag, r.skip.skip)
  | .anchor name :: _ => some (some name, none, r.skip)
  | .tag handle suffix :: _ =>
    (r.tagText handle suffix).map fun tag => (none, some tag, r.skip)
  | _ => some (none, none, r)

/-!
# Nodes and collections
-/

def endsBlockEntry : Option Token → Bool
  | some .blockEntry => true
  | some .blockEnd => true
  | _ => false

def endsBlockMember : Option Token → Bool
  | some .key => true
  | some .value => true
  | some .blockEnd => true
  | _ => false

def endsIndentlessEntry (token : Option Token) : Bool :=
  token == some .blockEntry || endsBlockMember token

def endsFlowMember (close : Token) (token : Option Token) : Bool :=
  token == some .flowEntry || token == some close

mutual

/-- One node.  Outside of flow collections it may be a block; as a member of a block
mapping it may be a sequence without indentation. -/
def node : Nat → Bool → Bool → Reader → Option (Node × Reader)
  | 0, _, _, _ => none
  | fuel + 1, inBlock, indentless, r =>
    match r.tokens with
    | .alias name :: _ => (r.anchors.lookup name).map fun number => (.alias number, r.skip)
    | _ => do
      let (anchor, tag, r) ← r.properties
      let start := match anchor with
        | some name => r.nameAnchor name
        | none => r
      let (node, r) ← content fuel inBlock indentless (anchor.isSome || tag.isSome) tag start
      some (node, r.keep start anchor node)

/-- The node behind its properties, of which there are some if it may be omitted. -/
def content : Nat → Bool → Bool → Bool → Option Bytes → Reader → Option (Node × Reader)
  | 0, _, _, _, _, _ => none
  | fuel + 1, inBlock, indentless, omissible, tag, r =>
    match r.next? with
    | some (.scalar plain text) => some (.scalar tag plain text, r.skip)
    | some .flowSequenceStart =>
      (flowItems fuel true r.skip).map fun (items, r) => (.sequence tag items, r)
    | some .flowMappingStart =>
      (flowPairs fuel true r.skip).map fun (pairs, r) => (.mapping tag pairs, r)
    | token =>
      if indentless ∧ token = some .blockEntry then
        (indentlessItems fuel r).map fun (items, r) => (.sequence tag items, r)
      else if inBlock ∧ token = some .blockSequenceStart then
        (blockItems fuel r.skip).map fun (items, r) => (.sequence tag items, r)
      else if inBlock ∧ token = some .blockMappingStart then
        (blockPairs fuel r.skip).map fun (pairs, r) => (.mapping tag pairs, r)
      else if omissible then some (.scalar tag true [], r)
      else none

def blockItems : Nat → Reader → Option (List Node × Reader)
  | 0, _ => none
  | fuel + 1, r =>
    match r.next? with
    | some .blockEntry => do
      let r := r.skip
      let (item, r) ←
        if endsBlockEntry r.next? then some (.omitted, r) else node fuel true false r
      let (rest, r) ← blockItems fuel r
      some (item :: rest, r)
    | some .blockEnd => some ([], r.skip)
    | _ => none

def indentlessItems : Nat → Reader → Option (List Node × Reader)
  | 0, _ => none
  | fuel + 1, r =>
    match r.next? with
    | some .blockEntry => do
      let r := r.skip
      let (item, r) ←
        if endsIndentlessEntry r.next? then some (.omitted, r) else node fuel true false r
      let (rest, r) ← indentlessItems fuel r
      some (item :: rest, r)
    | _ => some ([], r)

def blockPairs : Nat → Reader → Option (List (Node × Node) × Reader)
  | 0, _ => none
  | fuel + 1, r =>
    match r.next? with
    | some .blockEnd => some ([], r.skip)
    | some .key => do
      let (key, r) ← blockMember fuel r.skip
      let (value, r) ←
        if r.next? = some .value then blockMember fuel r.skip else some (.omitted, r)
      let (rest, r) ← blockPairs fuel r
      some ((key, value) :: rest, r)
    | _ => none

def blockMember : Nat → Reader → Option (Node × Reader)
  | 0, _ => none
  | fuel + 1, r =>
    if endsBlockMember r.next? then some (.omitted, r) else node fuel true true r

/-- The items of a flow sequence; a key starts a mapping of one pair. -/
def flowItems : Nat → Bool → Reader → Option (List Node × Reader)
  | 0, _, _ => none
  | fuel + 1, first, r => do
    if r.next? = some .flowSequenceEnd then some ([], r.skip)
    else
      let r ←
        if first then some r
        else if r.next? = some .flowEntry then some r.skip
        else none
      if r.next? = some .flowSequenceEnd then some ([], r.skip)
      else
        let (item, r) ←
          if r.next? = some .key then flowPair fuel r.skip else node fuel false false r
        let (rest, r) ← flowItems fuel false r
        some (item :: rest, r)

/-- A mapping of one pair in a flow sequence.  The token at which its key
is omitted is passed. -/
def flowPair : Nat → Reader → Option (Node × Reader)
  | 0, _ => none
  | fuel + 1, r => do
    let (key, r) ←
      if r.next? = some .value ∨ endsFlowMember .flowSequenceEnd r.next? then
        some (.omitted, r.skip)
      else node fuel false false r
    let (value, r) ← flowValue fuel .flowSequenceEnd r
    some (.mapping none [(key, value)], r)

/-- The value of a pair in a flow collection, which may be omitted
together with its colon. -/
def flowValue : Nat → Token → Reader → Option (Node × Reader)
  | 0, _, _ => none
  | fuel + 1, close, r =>
    if r.next? = some .value then
      let r := r.skip
      if endsFlowMember close r.next? then some (.omitted, r) else node fuel false false r
    else some (.omitted, r)

/-- The pairs of a flow mapping; a node that is not marked as a key has no value. -/
def flowPairs : Nat → Bool → Reader → Option (List (Node × Node) × Reader)
  | 0, _, _ => none
  | fuel + 1, first, r => do
    if r.next? = some .flowMappingEnd then some ([], r.skip)
    else
      let r ←
        if first then some r
        else if r.next? = some .flowEntry then some r.skip
        else none
      if r.next? = some .flowMappingEnd then some ([], r.skip)
      else
        let (pair, r) ←
          if r.next? = some .key then flowKeyed fuel r.skip
          else (node fuel false false r).map fun (key, r) => ((key, .omitted), r)
        let (rest, r) ← flowPairs fuel false r
        some (pair :: rest, r)

def flowKeyed : Nat → Reader → Option ((Node × Node) × Reader)
  | 0, _ => none
  | fuel + 1, r => do
    let (key, r) ←
      if r.next? = some .value ∨ endsFlowMember .flowMappingEnd r.next? then some (.omitted, r)
      else node fuel false false r
    let (value, r) ← flowValue fuel .flowMappingEnd r
    some ((key, value), r)

end

/-!
# Documents
-/

/-- Reads the directives of a document up to its start. -/
def directives : Bool → List (List Char × Bytes) → List Token →
    Option (List (List Char × Bytes) × List Token)
  | seen, handles, .versionDirective major minor :: rest =>
    if seen ∨ major ≠ 1 ∨ (minor ≠ 1 ∧ minor ≠ 2) then none else directives true handles rest
  | seen, handles, .tagDirective handle lead :: rest =>
    if (handles.lookup handle).isSome then none
    else directives seen ((handle, lead) :: handles) rest
  | _, handles, .documentStart :: rest => some (handles, rest)
  | _, _, _ => none

def defaultHandles : List (List Char × Bytes) :=
  [(['!'], Bytes.ofText "!"), (['!', '!'], Bytes.ofText "tag:yaml.org,2002:")]

def endsDocument : Option Token → Bool
  | none => true
  | some .documentStart => true
  | some .documentEnd => true
  | some (.versionDirective _ _) => true
  | some (.tagDirective _ _) => true
  | _ => false

def document (fuel : Nat) (tokens : List Token) : Option (Node × Reader) :=
  match tokens with
  | .versionDirective _ _ :: _ | .tagDirective _ _ :: _ | .documentStart :: _ => do
    let (handles, rest) ← directives false [] tokens
    let r : Reader := { tokens := rest, handles := handles ++ defaultHandles }
    if endsDocument r.next? then some (.omitted, r) else node fuel true false r
  | _ => node fuel true false { tokens, handles := defaultHandles }

end Reader

/-- The one document of a list of tokens with its anchored nodes; there is none in an
empty list, and the omitted node stands for it. -/
def Node.ofTokens? (tokens : List Token) : Option (Node × Reader) := do
  if tokens.isEmpty then some (.omitted, { tokens })
  else
    let (root, r) ← Reader.document (4 * tokens.length + 4) tokens
    if (r.tokens.dropWhile (· == .documentEnd)).isEmpty then some (root, r) else none

end Yaml
end Stencil
