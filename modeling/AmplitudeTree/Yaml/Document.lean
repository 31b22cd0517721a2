import AmplitudeTree.Yaml.Node

/-!
# Documents

A document has a root and anchored nodes.  Its aliases are resolved when it is complete, so an alias
stands for the last node that took the slot of its anchor, be it before or after the alias or around
it.
-/

namespace AmplitudeTree.Yaml

structure Document where
  root : Node
  anchors : Node.Anchors

namespace Document

open Yaml.Node

/-! ## Aliases -/

/-- The node that an alias stands for; any other node stands for itself.  An anchored
node is not an alias. -/
def resolve? (d : Document) : Node → Option Node
  | .alias slot => d.anchors.find? slot
  | node => some node

/-! ## Reading -/

def usualHandles : List (String × Tag) :=
  [("!", .ofString "!"), ("!!", .ofString "tag:yaml.org,2002:")]

/-- Reads the directives of a document, and tells whether there are any.  A directive
must not occur twice. -/
def readDirectives (fuel : Nat) (versioned : Bool) (handles : List (String × Tag)) :
    Reader (Bool × List (String × Tag)) :=
  match fuel with
  | 0 => failure
  | fuel + 1 => do
      match ← peek with
      | some (.versionDirective major minor) =>
          skip
          if versioned || major != 1 || !(minor == 1 || minor == 2) then failure
          readDirectives fuel true handles
      | some (.tagDirective handle expansion) =>
          skip
          if (handles.lookup handle).isSome then failure
          readDirectives fuel versioned (handles ++ [(handle, expansion)])
      | _ => return (versioned || !handles.isEmpty, handles)

def dropDocumentEnds (tokens : List Token) : List Token :=
  tokens.dropWhile fun t => match t with
    | .documentEnd => true
    | _ => false

/-- Whether the content of a document that starts with a marker is missing before this token. -/
def startsDocument : Option Token → Bool
  | none | some (.versionDirective ..) | some (.tagDirective ..) | some .documentStart
  | some .documentEnd => true
  | _ => false

/-- Reads the root of a document and everything after it, which can only be the document's end. -/
def readRoot (fuel : Nat) : Reader Node := do
  if (← peek).isNone then return .missing
  let (directed, handles) ← readDirectives fuel false []
  modify fun r => { r with handles := handles ++ usualHandles }
  let marked ← skipIf fun t => match t with
    | .documentStart => true
    | _ => false
  if directed && !marked then failure
  let root ←
    if marked && startsDocument (← peek) then pure .missing
    else readNode true false fuel
  if (dropDocumentEnds (← get).tokens).isEmpty then return root else failure

/-- The only document in a text.  At most four steps go by from one token to the next,
so the fuel suffices. -/
def ofText? (text : String) : Option Document := do
  let tokens ← tokens? text
  let (root, reading) ← (readRoot (4 * tokens.length + 4)).run ⟨tokens, .empty, []⟩
  return ⟨root, reading.anchors⟩

end Document

end AmplitudeTree.Yaml
