/-!
# Located characters

The text of a YAML document is a list of characters, each with its place.  A line break is one
character here, however it is written, so the places tell all that the layout of a document depends
on.
-/

namespace AmplitudeTree.Yaml

structure Located where
  char : Char
  /-- The number of bytes before it in the document. -/
  index : Nat
  line : Nat
  /-- The number of characters before it in its line. -/
  column : Nat

abbrev Source := List Located

/-! ## Classes of characters -/

/-- The line separator and the paragraph separator, which are kept where other breaks are folded. -/
def isSeparator (c : Char) : Bool := c == '\u2028' || c == '\u2029'

def isBreak (c : Char) : Bool := c == '\n' || isSeparator c

def isBlank (c : Char) : Bool := c == ' ' || c == '\t'

def isWordChar (c : Char) : Bool := c.isAlphanum || c == '_' || c == '-'

/-- The mark for the order of bytes, which may start a line. -/
def isByteOrderMark (c : Char) : Bool := c == '\ufeff'

def isAdmissible (c : Char) : Bool :=
  let code := c.toNat
  c == '\t' || c == '\n' || c == '\r' || (' ' ≤ c && c ≤ '~') || code == 0x85 ||
    (0xA0 ≤ code && code ≤ 0xFFFD) || 0x10000 ≤ code

namespace Source

/-! ## Locating -/

def locate (index line column : Nat) : List Char → Source
  | [] => []
  | '\r' :: '\n' :: rest => ⟨'\n', index, line, column⟩ :: locate (index + 2) (line + 1) 0 rest
  | c :: rest =>
      let next := index + c.utf8Size
      if c == '\n' || c == '\r' || c == '\u0085' then
        ⟨'\n', index, line, column⟩ :: locate next (line + 1) 0 rest
      else if isSeparator c then ⟨c, index, line, column⟩ :: locate next (line + 1) 0 rest
      else ⟨c, index, line, column⟩ :: locate next line (column + 1) rest

/-- The located characters of a document.  A document with an inadmissible character has none. -/
def ofText? (text : String) : Option Source :=
  let chars := text.toList
  if chars.all isAdmissible then some (locate 0 0 0 chars) else none

/-! ## Looking ahead -/

def peek? (s : Source) (n : Nat) : Option Char := s[n]?.map (·.char)

def startsWithOrEnds (s : Source) (test : Char → Bool) : Bool :=
  match s with
  | [] => true
  | c :: _ => test c.char

def atGap (s : Source) : Bool := s.startsWithOrEnds fun c => isBlank c || isBreak c

def atLineEnd (s : Source) : Bool := s.startsWithOrEnds isBreak

/-- Whether a line starts here with three times the character `c` and then a gap. -/
def atMarker (s : Source) (c : Char) : Bool :=
  match s with
  | x :: y :: z :: rest =>
      x.column == 0 && x.char == c && y.char == c && z.char == c && Source.atGap rest
  | _ => false

def atDocumentMarker (s : Source) : Bool := s.atMarker '-' || s.atMarker '.'

/-! ## Skipping -/

def spanWhile (s : Source) (test : Char → Bool) : List Char × Source :=
  ((s.takeWhile fun c => test c.char).map (·.char), s.dropWhile fun c => test c.char)

def dropBlanks (s : Source) : Source := s.dropWhile fun c => isBlank c.char

def dropComment (s : Source) : Source :=
  if s.peek? 0 == some '#' then s.dropWhile fun c => !isBreak c.char else s

/-- The next line, when nothing but blanks and a comment is left of this one. -/
def nextLine? (s : Source) : Option Source :=
  let rest := s.dropBlanks.dropComment
  if rest.atLineEnd then some (rest.drop 1) else none

/-- Drops the blanks, comments and line breaks at the start, and tells whether a key may stand
there.  Where one may, a tab is not skipped, as it would indent the key. -/
def dropGap (inFlow : Bool) (inComment keyAllowed : Bool) : Source → Bool × Source
  | [] => (keyAllowed, [])
  | c :: rest =>
      if isBreak c.char then dropGap inFlow false (keyAllowed || !inFlow) rest
      else if inComment then dropGap inFlow true keyAllowed rest
      else if c.char == ' ' || (c.char == '\t' && (inFlow || !keyAllowed)) then
        dropGap inFlow false keyAllowed rest
      else if c.char == '#' then dropGap inFlow true keyAllowed rest
      else if c.column == 0 && isByteOrderMark c.char then dropGap inFlow false keyAllowed rest
      else (keyAllowed, c :: rest)

end Source

end AmplitudeTree.Yaml
