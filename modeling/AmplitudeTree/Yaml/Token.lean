import AmplitudeTree.Yaml.Text

/-!
# Tokens

The tokens of a YAML document, and the reading of those that are words: anchors, tags and
directives.
-/

namespace AmplitudeTree.Yaml

inductive ScalarStyle where
  | plain
  | quoted
  | literal
  | folded
deriving DecidableEq

/-- A tag: its bytes, which need not encode characters.  None of them is zero. -/
abbrev Tag := List UInt8

def Tag.ofString (text : String) : Tag := text.toUTF8.toList

/-- A tag as it is written: a handle, which may be empty, and the rest. -/
structure TagName where
  handle : String
  suffix : Tag

inductive Token where
  | versionDirective (major minor : Nat)
  | tagDirective (handle : String) (expansion : Tag)
  | documentStart
  | documentEnd
  | blockSequenceStart
  | blockMappingStart
  | blockEnd
  | flowSequenceStart
  | flowSequenceEnd
  | flowMappingStart
  | flowMappingEnd
  | blockEntry
  | flowEntry
  | key
  | value
  | alias (name : String)
  | anchor (name : String)
  | tag (name : TagName)
  | scalar (style : ScalarStyle) (text : String)
deriving Inhabited

/-! ## Anchors -/

def endsAnchor (c : Char) : Bool :=
  ['?', ':', ',', ']', '\x7d', '%', '@', '\x60'].contains c

def readAnchor (s : Source) : Option (String × Source) :=
  let (name, rest) := s.spanWhile isWordChar
  if name.isEmpty || !(rest.atGap || rest.startsWithOrEnds endsAnchor) then none
  else some (String.ofList name, rest)

/-! ## Tags -/

def isTagChar (verbatim : Bool) (c : Char) : Bool :=
  isWordChar c || [';', '/', '?', ':', '@', '&', '=', '+', '$', '.', '%', '!', '~', '*', '\'', '(',
    ')'].contains c || (verbatim && [',', '[', ']'].contains c)

def encodedSize? (byte : UInt8) : Option Nat :=
  if byte < 0x80 then some 1
  else if byte < 0xC0 then none
  else if byte < 0xE0 then some 2
  else if byte < 0xF0 then some 3
  else if byte < 0xF8 then some 4
  else none

def continuesEncoding (byte : UInt8) : Bool := 0x80 ≤ byte && byte < 0xC0

/-- The bytes that the characters of a tag stand for; `missing` more are to follow for the character
that has begun. -/
def tagBytes? (missing : Nat) : List Char → Option (List UInt8)
  | [] => if missing == 0 then some [] else none
  | '%' :: a :: b :: rest => do
      let byte := ((← hexDigit? a) * 16 + (← hexDigit? b)).toUInt8
      let size ←
        if missing == 0 then encodedSize? byte
        else if continuesEncoding byte then some missing
        else none
      return byte :: (← tagBytes? (size - 1) rest)
  | '%' :: _ => none
  | c :: rest => do
      if missing != 0 then none
      return c.toNat.toUInt8 :: (← tagBytes? 0 rest)

/-- The part of a tag at the start and what follows; nothing from a zero byte on counts. -/
def readTagPart (verbatim : Bool) (s : Source) : Option (Tag × Source) := do
  let (chars, rest) := s.spanWhile (isTagChar verbatim)
  let bytes ← tagBytes? 0 chars
  return (bytes.takeWhile (· != 0), rest)

def requireTagPart (verbatim : Bool) (s : Source) : Option (Tag × Source) :=
  if (s.peek? 0).any (isTagChar verbatim) then readTagPart verbatim s else none

/-- A tag handle at the start: an exclamation mark, perhaps with a word and another one. -/
def readTagHandle (s : Source) : Option (List Char × Source) :=
  match s with
  | ⟨'!', _, _, _⟩ :: rest =>
      let (word, rest) := Source.spanWhile rest isWordChar
      match rest with
      | ⟨'!', _, _, _⟩ :: rest => some ('!' :: (word ++ ['!']), rest)
      | _ => some ('!' :: word, rest)
  | _ => none

def readTagName (s : Source) : Option (TagName × Source) := do
  if s.peek? 1 == some '<' then
    let (tag, rest) ← requireTagPart true (s.drop 2)
    match rest with
    | ⟨'>', _, _, _⟩ :: rest => return (⟨"", tag⟩, rest)
    | _ => none
  else
    let (handle, rest) ← readTagHandle s
    if handle.length > 1 && handle.getLast? == some '!' then
      let (suffix, rest) ← requireTagPart false rest
      return (⟨String.ofList handle, suffix⟩, rest)
    else
      let (suffix, rest) ← readTagPart false rest
      let suffix := Tag.ofString (String.ofList (handle.drop 1)) ++ suffix
      return (if suffix.isEmpty then ⟨"", Tag.ofString "!"⟩ else ⟨"!", suffix⟩, rest)

def readTag (inFlow : Bool) (s : Source) : Option (TagName × Source) := do
  let (tag, rest) ← readTagName s
  if rest.atGap || (inFlow && rest.peek? 0 == some ',') then some (tag, rest) else none

/-! ## Directives -/

/-- A number of at most nine digits at the start, and what follows it. -/
def readVersionNumber (s : Source) : Option (Nat × Source) :=
  let (digits, rest) := s.spanWhile Char.isDigit
  if digits.isEmpty || 9 < digits.length then none
  else some (digits.foldl (fun n c => n * 10 + (c.toNat - '0'.toNat)) 0, rest)

def readVersion (s : Source) : Option (Token × Source) := do
  let (major, rest) ← readVersionNumber s.dropBlanks
  match rest with
  | ⟨'.', _, _, _⟩ :: rest =>
      let (minor, rest) ← readVersionNumber rest
      return (.versionDirective major minor, rest)
  | _ => none

def readTagExpansion (s : Source) : Option (Token × Source) := do
  let (handle, rest) ← readTagHandle s.dropBlanks
  if handle.getLast? != some '!' then none
  if !rest.startsWithOrEnds isBlank || rest.isEmpty then none
  let (expansion, rest) ← requireTagPart true rest.dropBlanks
  if !rest.atGap then none
  return (.tagDirective (String.ofList handle) expansion, rest)

def readDirective (s : Source) : Option (Token × Source) := do
  let (name, rest) := s.spanWhile isWordChar
  if !rest.atGap then none
  let (token, rest) ← match String.ofList name with
    | "YAML" => readVersion rest
    | "TAG" => readTagExpansion rest
    | _ => none
  return (token, ← rest.nextLine?)

end AmplitudeTree.Yaml
