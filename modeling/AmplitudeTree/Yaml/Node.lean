import AmplitudeTree.Yaml.Layout

/-!
# Nodes

A YAML document is a tree of scalars, sequences, mappings and aliases, which stand for nodes with
anchors.  A node is read from the tokens at the start; the reading keeps the anchors.
-/

namespace AmplitudeTree.Yaml

inductive Node where
  /-- A scalar with its tag, if it has one. -/
  | scalar (style : ScalarStyle) (tag : Option Tag) (text : String)
  | sequence (items : List Node)
  | mapping (entries : List (Node × Node))
  /-- An alias of the anchored node in a slot. -/
  | alias (slot : Nat)
deriving Inhabited

namespace Node

def missing : Node := .scalar .plain none ""

/-- The anchors of a document.  A name's slot is the number of names known when it was met, so a
name that is used again shares its slot with the next new one. -/
structure Anchors where
  slots : List (String × Nat)
  /-- The anchored nodes with their slots, in the order in which they start.  A node counts as
  missing until it is complete. -/
  nodes : Array (Nat × Node)

namespace Anchors

def empty : Anchors := ⟨[], #[]⟩

/-- Gives an anchor to a node that is not complete yet. -/
def declare (a : Anchors) (name : String) : Anchors :=
  let slot := a.slots.length
  ⟨(name, slot) :: a.slots.filter (·.1 != name), a.nodes.push (slot, missing)⟩

def complete (a : Anchors) (number : Nat) (node : Node) : Anchors :=
  { a with nodes := a.nodes.modify number fun (slot, _) => (slot, node) }

/-- The node in a slot, which is the one that took it last. -/
def find? (a : Anchors) (slot : Nat) : Option Node := a.nodes.toList.reverse.lookup slot

end Anchors

structure Reading where
  tokens : List Token
  anchors : Anchors
  handles : List (String × Tag)

/-- Reads a part of a document, unless its tokens are not in order. -/
abbrev Reader := StateT Reading Option

def peek : Reader (Option Token) := do return (← get).tokens.head?

def skip : Reader Unit := modify fun r => { r with tokens := r.tokens.drop 1 }

def skipIf (test : Token → Bool) : Reader Bool := do
  let found := (← peek).any test
  if found then skip
  return found

/-! ## Properties -/

structure Properties where
  /-- The number of the anchored node. -/
  anchor : Option Nat
  tag : Option Tag

def readAnchor? : Reader (Option Nat) := do
  match ← peek with
  | some (.anchor name) =>
      skip
      let number := (← get).anchors.nodes.size
      modify fun r => { r with anchors := r.anchors.declare name }
      return some number
  | _ => return none

def readTag? : Reader (Option Tag) := do
  match ← peek with
  | some (.tag ⟨handle, suffix⟩) =>
      skip
      if handle.isEmpty then return some suffix
      match (← get).handles.lookup handle with
      | some expansion => return some (expansion ++ suffix)
      | none => failure
  | _ => return none

def readProperties : Reader Properties := do
  match ← readAnchor? with
  | some anchor => return ⟨some anchor, ← readTag?⟩
  | none =>
      let tag ← readTag?
      return ⟨← readAnchor?, tag⟩

/-! ## Tests -/

def isKey : Token → Bool
  | .key => true
  | _ => false

def isValue : Token → Bool
  | .value => true
  | _ => false

def isBlockEntry : Token → Bool
  | .blockEntry => true
  | _ => false

def isBlockEnd : Token → Bool
  | .blockEnd => true
  | _ => false

def isFlowEntry : Token → Bool
  | .flowEntry => true
  | _ => false

def isSequenceEnd : Token → Bool
  | .flowSequenceEnd => true
  | _ => false

def isMappingEnd : Token → Bool
  | .flowMappingEnd => true
  | _ => false

/-! ## Collections -/

mutual

/-- Reads a node.  Only in a block can it be a block collection; `indentless` lets its entries start
in the column of the mapping around it. -/
def readNode (inBlock indentless : Bool) : (fuel : Nat) → Reader Node
  | 0 => failure
  | fuel + 1 => do
      match ← peek with
      | some (.alias name) =>
          skip
          return .alias (← (← get).anchors.slots.lookup name)
      | _ =>
          let properties ← readProperties
          let node ← readContent inBlock indentless properties fuel
          if let some number := properties.anchor then
            modify fun r => { r with anchors := r.anchors.complete number node }
          return node

/-- Reads what follows the properties of a node.  After properties it may be missing. -/
def readContent (inBlock indentless : Bool) (properties : Properties) :
    (fuel : Nat) → Reader Node
  | 0 => failure
  | fuel + 1 => do
      match ← peek, inBlock, indentless with
      | some .blockEntry, _, true => return .sequence (← readIndentless fuel)
      | some (.scalar style text), _, _ =>
          skip
          return .scalar style properties.tag text
      | some .flowSequenceStart, _, _ =>
          skip
          return .sequence (← readFlowItems true fuel)
      | some .flowMappingStart, _, _ =>
          skip
          return .mapping (← readFlowEntries true fuel)
      | some .blockSequenceStart, true, _ =>
          skip
          return .sequence (← readBlockItems fuel)
      | some .blockMappingStart, true, _ =>
          skip
          return .mapping (← readBlockEntries fuel)
      | _, _, _ =>
          if properties.anchor.isSome || properties.tag.isSome then
            return .scalar .plain properties.tag ""
          else failure

def readUnless (test : Token → Bool) (inBlock indentless : Bool) : (fuel : Nat) → Reader Node
  | 0 => failure
  | fuel + 1 => do
      if (← peek).any test then return missing
      else readNode inBlock indentless fuel

def readBlockItems : (fuel : Nat) → Reader (List Node)
  | 0 => failure
  | fuel + 1 => do
      if ← skipIf isBlockEntry then
        let item ← readUnless (fun t => isBlockEntry t || isBlockEnd t) true false fuel
        return item :: (← readBlockItems fuel)
      else if ← skipIf isBlockEnd then return []
      else failure

/-- Reads the entries of a sequence that has the column of the mapping that it belongs to. -/
def readIndentless : (fuel : Nat) → Reader (List Node)
  | 0 => failure
  | fuel + 1 => do
      if ← skipIf isBlockEntry then
        let ends (t : Token) : Bool := isBlockEntry t || isKey t || isValue t || isBlockEnd t
        let item ← readUnless ends true false fuel
        return item :: (← readIndentless fuel)
      else return []

def readBlockEntries : (fuel : Nat) → Reader (List (Node × Node))
  | 0 => failure
  | fuel + 1 => do
      let ends (t : Token) : Bool := isKey t || isValue t || isBlockEnd t
      if ← skipIf isKey then
        let key ← readUnless ends true true fuel
        let value ←
          if ← skipIf isValue then readUnless ends true true fuel else pure missing
        return (key, value) :: (← readBlockEntries fuel)
      else if ← skipIf isBlockEnd then return []
      else failure

/-- Reads the entries of a flow sequence.  An entry with an indicator of a key is a mapping. -/
def readFlowItems (first : Bool) : (fuel : Nat) → Reader (List Node)
  | 0 => failure
  | fuel + 1 => do
      if ← skipIf isSequenceEnd then return []
      if !first then
        if !(← skipIf isFlowEntry) then failure
        if ← skipIf isSequenceEnd then return []
      let item ← if ← skipIf isKey then readPair fuel else readNode false false fuel
      return item :: (← readFlowItems false fuel)

/-- Reads the one entry of a mapping within a flow sequence; where its key is missing,
a token is dropped. -/
def readPair : (fuel : Nat) → Reader Node
  | 0 => failure
  | fuel + 1 => do
      let ends (t : Token) : Bool := isFlowEntry t || isSequenceEnd t
      let key ←
        if ← skipIf (fun t => isValue t || ends t) then pure missing
        else readNode false false fuel
      let value ←
        if ← skipIf isValue then readUnless ends false false fuel else pure missing
      return .mapping [(key, value)]

/-- Reads the entries of a flow mapping.  The value of an entry without an indicator is missing. -/
def readFlowEntries (first : Bool) : (fuel : Nat) → Reader (List (Node × Node))
  | 0 => failure
  | fuel + 1 => do
      if ← skipIf isMappingEnd then return []
      if !first then
        if !(← skipIf isFlowEntry) then failure
        if ← skipIf isMappingEnd then return []
      let ends (t : Token) : Bool := isFlowEntry t || isMappingEnd t
      let entry ←
        if ← skipIf isKey then
          let key ← readUnless (fun t => isValue t || ends t) false false fuel
          let value ←
            if ← skipIf isValue then readUnless ends false false fuel else pure missing
          pure (key, value)
        else
          pure (← readNode false false fuel, missing)
      return entry :: (← readFlowEntries false fuel)

end

end Node

end AmplitudeTree.Yaml
