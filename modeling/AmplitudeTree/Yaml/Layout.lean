import AmplitudeTree.Yaml.Token

/-!
# The layout of documents

Outside of flow collections the structure of a document is that of its lines: a line that is
indented further starts a collection, and a line that is indented less ends those that are indented
further.  A mapping may also start at a key without an indicator.  Such a key is recognized by the
colon after it, and the tokens for the mapping and the key are then put in before it.
-/

namespace AmplitudeTree.Yaml

structure PossibleKey where
  /-- The number of tokens before it. -/
  position : Nat
  place : Located
  /-- Whether nothing but a key can stand here. -/
  required : Bool

structure Layout where
  tokens : Array Token
  /-- The column of the innermost block collection, `-1` outside of all. -/
  indent : Int
  /-- The columns of the enclosing block collections, the inner ones first. -/
  outerIndents : List Int
  /-- Whether a key without an indicator may stand here. -/
  keyAllowed : Bool
  /-- The possible key in the innermost flow collection or, outside of all, in the block. -/
  possibleKey : Option PossibleKey
  /-- The possible keys of the enclosing levels, the inner ones first. -/
  outerKeys : List (Option PossibleKey)

namespace Layout

def start : Layout := ⟨#[], -1, [], true, none, []⟩

def inFlow (x : Layout) : Bool := !x.outerKeys.isEmpty

def push (x : Layout) (token : Token) : Layout := { x with tokens := x.tokens.push token }

def insertAt (x : Layout) (position : Nat) (token : Token) : Layout :=
  { x with tokens :=
      x.tokens.extract 0 position ++ #[token] ++ x.tokens.extract position x.tokens.size }

/-! ## Indentation -/

/-- The layout after a block collection starts at `column`, its token put in after the first
`position` tokens. -/
def roll (x : Layout) (column : Nat) (position : Nat) (token : Token) : Layout :=
  if x.inFlow || column ≤ x.indent then x
  else
    { x with indent := column, outerIndents := x.indent :: x.outerIndents }.insertAt position token

/-- The layout after the given block collections to the right of `column` end. -/
def unrollTo (column : Int) (indent : Int) : (outer : List Int) → Layout → Layout
  | [], x => { x with indent := indent, outerIndents := [] }
  | next :: outer, x =>
      if column < indent then unrollTo column next outer (x.push .blockEnd)
      else { x with indent := indent, outerIndents := next :: outer }

def unroll (x : Layout) (column : Int) : Layout :=
  if x.inFlow then x else unrollTo column x.indent x.outerIndents x

/-! ## Keys without an indicator -/

/-- How many bytes a key without an indicator may have. -/
def keyLimit : Nat := 1024

/-- The key, unless the place `here` is in another line or too far away.  Fails if
the key is required. -/
def PossibleKey.at (here : Located) (key : PossibleKey) : Option (Option PossibleKey) :=
  if key.place.line < here.line || key.place.index + keyLimit < here.index then
    if key.required then none else some none
  else some (some key)

def dropStale (x : Layout) (here : Located) : Option Layout := do
  let fresh (key : Option PossibleKey) : Option (Option PossibleKey) :=
    match key with
    | some key => PossibleKey.at here key
    | none => some none
  return { x with
    possibleKey := ← fresh x.possibleKey
    outerKeys := ← x.outerKeys.mapM fresh }

def dropKey (x : Layout) : Option Layout :=
  if x.possibleKey.any (·.required) then none else some { x with possibleKey := none }

/-- The layout with the token that starts at `here` as a possible key, if a key may stand there. -/
def markKey (x : Layout) (here : Located) : Option Layout := do
  if !x.keyAllowed then return x
  let required := !x.inFlow && x.indent == here.column
  return { ← x.dropKey with possibleKey := some ⟨x.tokens.size, here, required⟩ }

/-! ## Tokens -/

/-- Adds a token that may be a key or the beginning of one; after it a key cannot start. -/
def addNode (x : Layout) (here : Located) (token : Token) : Option Layout := do
  return { ← x.markKey here with keyAllowed := false }.push token

def openFlow (x : Layout) (here : Located) (token : Token) : Option Layout := do
  let x ← x.markKey here
  return { x with
    possibleKey := none, outerKeys := x.possibleKey :: x.outerKeys, keyAllowed := true }.push token

def closeFlow (x : Layout) (token : Token) : Option Layout := do
  let x ← x.dropKey
  let x := match x.outerKeys with
    | [] => x
    | key :: outer => { x with possibleKey := key, outerKeys := outer }
  return { x with keyAllowed := false }.push token

def addFlowEntry (x : Layout) : Option Layout := do
  return { ← x.dropKey with keyAllowed := true }.push .flowEntry

/-- Starts a block collection at `here`, where a key must be allowed. -/
def rollHere (x : Layout) (here : Located) (token : Token) : Option Layout :=
  if x.inFlow then some x
  else if x.keyAllowed then some (x.roll here.column x.tokens.size token)
  else none

def addBlockEntry (x : Layout) (here : Located) : Option Layout := do
  let x ← (← x.rollHere here .blockSequenceStart).dropKey
  return { x with keyAllowed := true }.push .blockEntry

def addKey (x : Layout) (here : Located) : Option Layout := do
  let x ← (← x.rollHere here .blockMappingStart).dropKey
  return { x with keyAllowed := !x.inFlow }.push .key

/-- Adds the colon before a value; without a possible key, the key has an
indicator or is missing. -/
def addValue (x : Layout) (here : Located) : Option Layout := do
  match x.possibleKey with
  | some key =>
      let x := x.insertAt key.position .key
      let x := x.roll key.place.column key.position .blockMappingStart
      return { x with possibleKey := none, keyAllowed := false }.push .value
  | none =>
      let x ← x.rollHere here .blockMappingStart
      return { x with keyAllowed := !x.inFlow }.push .value

def close (x : Layout) : Option Layout := do
  return { ← (x.unroll (-1)).dropKey with keyAllowed := false }

def startsPlain (inFlow : Bool) (c : Char) (rest : Source) : Bool :=
  let indicators := ['-', '?', ':', ',', '[', ']', '\x7b', '\x7d', '#', '&', '*', '!', '|', '>',
    '\'', '"', '%', '@', '\x60']
  !(isBlank c || isBreak c || indicators.contains c) ||
    (c == '-' && !(rest.peek? 0).any isBlank) ||
    (!inFlow && (c == '?' || c == ':') && !rest.atGap)

/-- Adds the plain scalar that starts with `c`.  After a scalar that ends with a
line, a key may start. -/
def addPlain (x : Layout) (c : Located) (rest : Source) : Option (Layout × Source) := do
  let x ← x.markKey c
  let (text, rest) ← readPlain x.inFlow (x.indent + 1) .empty (c :: rest)
  return ({ x with keyAllowed := text.gap.hasBreak }.push
    (.scalar .plain (String.ofList text.words)), rest)

def addBlockScalar (x : Layout) (style : ScalarStyle) (rest : Source) :
    Option (Layout × Source) := do
  let x ← x.dropKey
  let (text, rest) ← readBlock (style == .literal) x.indent rest
  return ({ x with keyAllowed := true }.push (.scalar style (String.ofList text)), rest)

def addToken (x : Layout) (c : Located) (rest : Source) : Option (Layout × Source) := do
  let source : Source := c :: rest
  let indicates := x.inFlow || rest.atGap
  if c.column == 0 && c.char == '%' then
    let x ← x.close
    let (token, rest) ← readDirective rest
    return (x.push token, rest)
  else if source.atMarker '-' then return ((← x.close).push .documentStart, rest.drop 2)
  else if source.atMarker '.' then return ((← x.close).push .documentEnd, rest.drop 2)
  else
    match c.char with
    | '[' => return (← x.openFlow c .flowSequenceStart, rest)
    | '\x7b' => return (← x.openFlow c .flowMappingStart, rest)
    | ']' => return (← x.closeFlow .flowSequenceEnd, rest)
    | '\x7d' => return (← x.closeFlow .flowMappingEnd, rest)
    | ',' => return (← x.addFlowEntry, rest)
    | '*' =>
        let (name, rest) ← readAnchor rest
        return (← x.addNode c (.alias name), rest)
    | '&' =>
        let (name, rest) ← readAnchor rest
        return (← x.addNode c (.anchor name), rest)
    | '!' =>
        let (name, rest) ← readTag x.inFlow source
        return (← x.addNode c (.tag name), rest)
    | '\'' =>
        let (text, rest) ← readSingleQuoted .empty rest
        return (← x.addNode c (.scalar .quoted (String.ofList text)), rest)
    | '"' =>
        let (text, rest) ← readDoubleQuoted .empty .none rest
        return (← x.addNode c (.scalar .quoted (String.ofList text)), rest)
    | char =>
        if char == '-' && rest.atGap then return (← x.addBlockEntry c, rest)
        else if char == '?' && indicates then return (← x.addKey c, rest)
        else if char == ':' && indicates then return (← x.addValue c, rest)
        else if char == '|' && !x.inFlow then x.addBlockScalar .literal rest
        else if char == '>' && !x.inFlow then x.addBlockScalar .folded rest
        else if startsPlain x.inFlow char rest then x.addPlain c rest
        else none

/-- Divides the rest of a document into tokens, each of which takes at least one
character of the `fuel`. -/
def run : (fuel : Nat) → Layout → Source → Option (Array Token)
  | 0, _, _ => none
  | fuel + 1, x, source => do
      let (keyAllowed, source) := source.dropGap x.inFlow false x.keyAllowed
      let x := { x with keyAllowed := keyAllowed }
      match source with
      | [] => return (← x.close).tokens
      | c :: rest =>
          let x ← x.dropStale c
          let (x, rest) ← (x.unroll c.column).addToken c rest
          run fuel x rest

end Layout

/-- The tokens of a document, unless a fault shows without regard to their order. -/
def tokens? (text : String) : Option (List Token) := do
  let source ← Source.ofText? text
  return (← Layout.start.run (source.length + 1) source).toList

end AmplitudeTree.Yaml
