/-!
# The visible part of a text

Text from the command line may hold control characters and whole control sequences for a terminal.
Where such a text is quoted in an error, both are left out: a sequence from its escape character
to its end, and every control character but tabs, form feeds and line ends. Two control characters,
`CAN` and `SUB`, cut a sequence short.

A tab, form feed or line end inside a sequence is shown, and so is the text behind it. The next
other control character takes the sequence up again, and a character outside ASCII ends it.
-/

namespace ReversePolish.Text

/-- The part of a control sequence that has been read. -/
inductive Sequence where
  /-- There is no sequence. -/
  | closed
  /-- The escape character. -/
  | escape
  /-- An escape sequence with intermediate characters. -/
  | intermediate
  /-- A control sequence, which starts with `ESC [`. -/
  | control
  /-- An operating system command, which starts with `ESC ]`. -/
  | command
  /-- A device control string, which starts with `ESC P`. -/
  | device
  /-- A device control string with parameters. -/
  | deviceParameters
  /-- A device control string with intermediate characters. -/
  | deviceIntermediates
  /-- The contents of any other string. -/
  | contents
  deriving DecidableEq

def isWithin (first last c : Char) : Bool := first ≤ c && c ≤ last

/-- The string terminator as a single byte. -/
def terminatorByte : UInt8 := 0x9c

namespace Sequence

/-- The sequence with one more character. -/
def read (s : Sequence) (c : Char) : Sequence :=
  if c = '\x1b' then .escape
  else if c = '\x18' || c = '\x1a' then .closed
  else match s with
  | .closed => .closed
  | .escape =>
    if c = '[' then .control
    else if c = ']' then .command
    else if c = 'P' then .device
    else if c = 'X' || c = '^' || c = '_' then .contents
    else if isWithin ' ' '/' c then .intermediate
    else if isWithin '0' '~' c then .closed
    else .escape
  | .intermediate => if isWithin '0' '~' c then .closed else .intermediate
  | .control => if isWithin '@' '~' c then .closed else .control
  | .command => if c = '\x07' then .closed else .command
  | .device =>
    if isWithin ' ' '/' c then .deviceIntermediates
    else if isWithin '0' '?' c then .deviceParameters
    else if isWithin '@' '~' c then .contents
    else .device
  | .deviceParameters =>
    if isWithin ' ' '/' c then .deviceIntermediates
    else if isWithin '<' '~' c then .contents
    else .deviceParameters
  | .deviceIntermediates => if isWithin '0' '~' c then .contents else .deviceIntermediates
  | .contents =>
    if (String.utf8EncodeChar c).contains terminatorByte then .closed else .contents

/-- Whether control characters act as usual inside the sequence. -/
def letsControlsAct : Sequence → Bool
  | .escape | .intermediate | .control => true
  | _ => false

end Sequence

/-- The control characters that are shown: tab, line feed, form feed and carriage return. -/
def isLayout (c : Char) : Bool := c == '\t' || c == '\n' || c == '\x0c' || c == '\r'

/-- Whether the character is shown where there is no sequence. -/
def isShown (c : Char) : Bool := isLayout c || (' ' ≤ c && c != '\x7f')

/-- The sequence that is open, and whether text is shown: always where none is open, and behind a
tab, form feed or line end inside one. -/
structure Visibility where
  sequence : Sequence
  shows : Bool
  deriving DecidableEq

namespace Visibility

/-- The visibility of text after a character that is not shown. -/
def ofSequence (s : Sequence) : Visibility := ⟨s, s == .closed⟩

/-- Read one character: whether it is shown, and the visibility of the text after it. -/
def read (v : Visibility) (c : Char) : Bool × Visibility :=
  if v.shows then
    if isShown c then (true, if c ≤ '\x7f' then v else ofSequence .closed)
    else (false, ofSequence (v.sequence.read c))
  else if v.sequence.letsControlsAct && isLayout c then (true, { v with shows := true })
  else (false, ofSequence (v.sequence.read c))

def select (v : Visibility) : List Char → List Char
  | [] => []
  | c :: rest =>
    let (shown, after) := v.read c
    if shown then c :: after.select rest else after.select rest

end Visibility

/-- The text without control characters and control sequences. -/
def visible (text : String) : String :=
  String.ofList ((Visibility.ofSequence .closed).select text.toList)

end ReversePolish.Text
