import AmplitudeTree.Yaml.Source

/-!
# Texts of scalars

The text of a scalar runs over several lines.  Where it is folded, a single line break stands for a
space, and of several line breaks the first is dropped.  Plain, quoted and block scalars differ in
where they end and in what they fold.
-/

namespace AmplitudeTree.Yaml

/-! ## Folding -/

/-- What stands between two words of a folded text. -/
inductive Gap where
  /-- Blanks on one line. -/
  | blanks (chars : List Char)
  /-- Line breaks; the first one is missing if it is escaped. -/
  | breaks (first : Option Char) (more : List Char)

namespace Gap

def none : Gap := .blanks []

def hasBreak : Gap → Bool
  | .blanks _ => false
  | .breaks .. => true

/-- The gap followed by a blank or by a line break.  Blanks next to a line break do not count. -/
def add : Gap → Char → Gap
  | .blanks chars, c => if isBreak c then .breaks (some c) [] else .blanks (chars ++ [c])
  | .breaks first more, c => if isBreak c then .breaks first (more ++ [c]) else .breaks first more

def text : Gap → List Char
  | .blanks chars => chars
  | .breaks (some '\n') [] => [' ']
  | .breaks (some '\n') more => more
  | .breaks (some separator) more => separator :: more
  | .breaks .none more => more

end Gap

/-- A folded text that is being read: its words, and the gap after the last of them. -/
structure Folded where
  words : List Char
  gap : Gap

namespace Folded

def empty : Folded := ⟨[], .none⟩

def text (f : Folded) : List Char := f.words ++ f.gap.text

def append (f : Folded) (chars : List Char) : Folded := ⟨f.text ++ chars, .none⟩

def add (f : Folded) (c : Char) : Folded :=
  if isBlank c || isBreak c then ⟨f.words, f.gap.add c⟩ else f.append [c]

end Folded

/-! ## Quoted scalars -/

/-- The text of a scalar in single quotes and what follows; a quote in the text is written twice. -/
def readSingleQuoted (f : Folded) : Source → Option (List Char × Source)
  | [] => none
  | ⟨'\'', _, _, _⟩ :: ⟨'\'', _, _, _⟩ :: rest => readSingleQuoted (f.append ['\'']) rest
  | ⟨'\'', _, _, _⟩ :: rest => some (f.text, rest)
  | c :: rest =>
      if Source.atDocumentMarker (c :: rest) then none else readSingleQuoted (f.add c.char) rest

def escaped? : Char → Option Char
  | '0' => some '\x00'
  | 'a' => some '\x07'
  | 'b' => some '\x08'
  | 't' | '\t' => some '\t'
  | 'n' => some '\n'
  | 'v' => some '\x0b'
  | 'f' => some '\x0c'
  | 'r' => some '\r'
  | 'e' => some '\x1b'
  | ' ' => some ' '
  | '"' => some '"'
  | '/' => some '/'
  | '\\' => some '\\'
  | 'N' => some '\u0085'
  | '_' => some '\u00a0'
  | 'L' => some '\u2028'
  | 'P' => some '\u2029'
  | _ => none

/-- The number of hexadecimal digits of an escape that gives a code point. -/
def escapeDigits : Char → Nat
  | 'x' => 2
  | 'u' => 4
  | 'U' => 8
  | _ => 0

def hexDigit? (c : Char) : Option Nat :=
  if '0' ≤ c && c ≤ '9' then some (c.toNat - '0'.toNat)
  else if 'a' ≤ c && c ≤ 'f' then some (c.toNat - 'a'.toNat + 10)
  else if 'A' ≤ c && c ≤ 'F' then some (c.toNat - 'A'.toNat + 10)
  else none

def charOfCode? (code : Nat) : Option Char :=
  if h : code.isValidChar then some (Char.ofNatAux code h) else none

inductive Escape where
  /-- None. -/
  | none
  /-- The backslash has been read. -/
  | opened
  /-- So many hexadecimal digits are left, and the digits before stand for the value. -/
  | digits (left value : Nat)

/-- The text of a scalar in double quotes and what follows; a line break after a
backslash is dropped. -/
def readDoubleQuoted (f : Folded) : Escape → Source → Option (List Char × Source)
  | _, [] => none
  | .digits left value, c :: rest => do
      let value := value * 16 + (← hexDigit? c.char)
      if left ≤ 1 then readDoubleQuoted (f.append [← charOfCode? value]) .none rest
      else readDoubleQuoted f (.digits (left - 1) value) rest
  | .opened, c :: rest =>
      let digits := escapeDigits c.char
      if digits != 0 then readDoubleQuoted f (.digits digits 0) rest
      else if isBreak c.char then readDoubleQuoted ⟨f.text, .breaks none []⟩ .none rest
      else do readDoubleQuoted (f.append [← escaped? c.char]) .none rest
  | .none, c :: rest =>
      if Source.atDocumentMarker (c :: rest) then none
      else if c.char == '"' then some (f.text, rest)
      else if c.char == '\\' then readDoubleQuoted f .opened rest
      else readDoubleQuoted (f.add c.char) .none rest

/-! ## Plain scalars -/

def isFlowIndicator (c : Char) : Bool := [',', '[', ']', '\x7b', '\x7d'].contains c

/-- The text of a plain scalar and what follows.  It ends before a comment, an indicator, a document
marker or, in a block, a line indented by fewer than `indent` columns. -/
def readPlain (inFlow : Bool) (indent : Int) (f : Folded) : Source → Option (Folded × Source)
  | [] => some (f, [])
  | c :: rest =>
      let newLine := f.gap.hasBreak
      let afterGap := newLine || !f.gap.text.isEmpty
      let dedented := newLine && c.column < indent
      if isBreak c.char then readPlain inFlow indent (f.add c.char) rest
      else if isBlank c.char then
        if dedented && c.char == '\t' then none else readPlain inFlow indent (f.add c.char) rest
      else if (dedented && !inFlow) || Source.atDocumentMarker (c :: rest) ||
          (afterGap && c.char == '#') then
        some (f, c :: rest)
      else if inFlow && c.char == ':' && (Source.peek? rest 0).any fun d =>
          d == '?' || isFlowIndicator d then
        none
      else if (c.char == ':' && Source.atGap rest) || (inFlow && isFlowIndicator c.char) then
        some (f, c :: rest)
      else readPlain inFlow indent (f.add c.char) rest

/-! ## Block scalars -/

inductive Chomping where
  /-- All are dropped. -/
  | strip
  /-- The first is kept. -/
  | clip
  /-- All are kept. -/
  | keep

structure BlockHeader where
  chomping : Chomping
  /-- The given indentation, relative to that of the parent. -/
  increment : Option Nat

namespace BlockHeader

def readChomping (s : Source) : Option Chomping × Source :=
  match s with
  | ⟨'+', _, _, _⟩ :: rest => (some .keep, rest)
  | ⟨'-', _, _, _⟩ :: rest => (some .strip, rest)
  | _ => (none, s)

def readIncrement (s : Source) : Option (Option Nat × Source) :=
  match s with
  | [] => some (none, s)
  | c :: rest =>
      if c.char == '0' then none
      else if c.char.isDigit then some (some (c.char.toNat - '0'.toNat), rest)
      else some (none, s)

def read (s : Source) : Option (BlockHeader × Source) := do
  let (before, s) := readChomping s
  let (increment, s) ← readIncrement s
  let (after, s) := if before.isNone && increment.isSome then readChomping s else (none, s)
  return (⟨(before.or after).getD .clip, increment⟩, ← s.nextLine?)

end BlockHeader

structure BlockText where
  text : List Char
  /-- The break of the last line with text. -/
  lastBreak : List Char
  /-- The breaks of the empty lines after that. -/
  emptyBreaks : List Char
  /-- Whether the last line with text starts with a blank. -/
  indented : Bool
  /-- The column at which lines start, once it is known. -/
  indent : Option Nat
  /-- The greatest column at which an empty line ended. -/
  widest : Nat

namespace BlockText

/-- In a folded scalar, the break between two lines of which none is indented stands for a space. -/
def startLine (literal : Bool) (b : BlockText) (first : Char) : BlockText :=
  let folds := !literal && b.lastBreak == ['\n'] && !b.indented && !isBlank first
  let joint :=
    if !folds then b.lastBreak ++ b.emptyBreaks
    else if b.emptyBreaks.isEmpty then [' ']
    else b.emptyBreaks
  { b with text := b.text ++ joint, lastBreak := [], emptyBreaks := [], indented := isBlank first }

def chomped (b : BlockText) : Chomping → List Char
  | .strip => b.text
  | .clip => b.text ++ b.lastBreak
  | .keep => b.text ++ b.lastBreak ++ b.emptyBreaks

/-- The lines of a block scalar and what follows.  `inMargin` tells whether the line has only had
spaces of its indentation, which is at least `least`. -/
def read (literal : Bool) (least : Nat) (inMargin : Bool) (b : BlockText) :
    Source → Option (BlockText × Source)
  | [] => some (b, [])
  | c :: rest =>
      let b := if inMargin then { b with widest := max b.widest c.column } else b
      let left := inMargin && b.indent.all fun indent => c.column < indent
      if !inMargin then
        if isBreak c.char then read literal least true { b with lastBreak := [c.char] } rest
        else read literal least false { b with text := b.text ++ [c.char] } rest
      else if left && c.char == ' ' then read literal least true b rest
      else if left && c.char == '\t' then none
      else if isBreak c.char then
        read literal least true { b with emptyBreaks := b.emptyBreaks ++ [c.char] } rest
      else
        let indent := b.indent.getD (max b.widest least)
        let b := { b with indent := some indent }
        if c.column != indent then some (b, c :: rest)
        else
          let b := b.startLine literal c.char
          read literal least false { b with text := b.text ++ [c.char] } rest

end BlockText

/-- The text of a block scalar and what follows; `parent` is the indentation around it. -/
def readBlock (literal : Bool) (parent : Int) (s : Source) : Option (List Char × Source) := do
  let (header, s) ← BlockHeader.read s
  let indent := header.increment.map fun n => (max parent 0).toNat + n
  let least := max (parent + 1).toNat 1
  let (b, s) ← BlockText.read literal least true ⟨[], [], [], false, indent, 0⟩ s
  return (b.chomped header.chomping, s)

end AmplitudeTree.Yaml
