import ReversePolish.Operator

/-!
# Command line arguments

Arguments are read from left to right. Flags come first; the first argument that is no flag is a
token, and from there on every argument is a token as it stands. A `--` before the tokens marks
where they start and is not one of them. Short flags may share a hyphen.

Reading stops at the first thing that cannot be accepted: a request for help, a flag given twice,
or a value given to a flag.
-/

namespace ReversePolish

/-- The flags, by their long names. -/
inductive Flag where
  | interactive
  | loose
  | help
  deriving DecidableEq

namespace Flag

/-- The name after the two hyphens. -/
def name : Flag → String
  | .interactive => "interactive"
  | .loose => "loose"
  | .help => "help"

/-- The flag as it is written in full. -/
def written (flag : Flag) : String := "--" ++ flag.name

/-- The letter after a single hyphen, for the flags that have one. -/
def letter? : Flag → Option Char
  | .interactive => some 'i'
  | .loose => none
  | .help => some 'h'

def all : List Flag := [.interactive, .loose, .help]

def ofName? (name : List Char) : Option Flag := all.find? (fun flag => flag.name.toList == name)

def ofLetter? (letter : Char) : Option Flag :=
  all.find? (fun flag => flag.letter? == some letter)

end Flag

/-- What was read from the command line. -/
structure Arguments where
  interactive : Bool
  loose : Bool
  tokens : List String
  deriving DecidableEq

/-- Why the arguments are not accepted. A request for help is answered in full only if it was
written in full. -/
inductive Refusal where
  | help (full : Bool)
  | repeated (flag : Flag)
  | unexpectedValue (flag : Flag) (value : String)
  deriving DecidableEq

namespace Arguments

/-- What one argument before the tokens is taken for. -/
inductive Reading where
  | separator
  | long (flag : Flag)
  | letters (flags : List Flag)
  | valued (flag : Flag) (value : String)
  | token
  deriving DecidableEq

/-- The reading of what follows two hyphens. A value is all that follows the first `=`, even if
that is nothing. -/
def readLong (text : List Char) : Reading :=
  if text = [] then .separator
  else match Flag.ofName? (text.takeWhile (· != '=')), text.dropWhile (· != '=') with
    | some flag, [] => .long flag
    | some flag, _ :: value => .valued flag (String.ofList value)
    | none, _ => .token

/-- The reading of what follows a single hyphen: letters of flags and nothing else. -/
def readLetters (text : List Char) : Reading :=
  if text = [] then .token
  else match text.mapM Flag.ofLetter? with
    | some flags => .letters flags
    | none => .token

/-- The reading of an argument before the tokens. -/
def read (argument : String) : Reading :=
  match argument.toList with
  | '-' :: '-' :: text => readLong text
  | '-' :: text => readLetters text
  | _ => .token

/-- Take note of a flag; `full` says whether it was written in full. -/
def note (seen : Arguments) (full : Bool) : Flag → Except Refusal Arguments
  | .interactive =>
    if seen.interactive then .error (.repeated .interactive)
    else .ok { seen with interactive := true }
  | .loose =>
    if seen.loose then .error (.repeated .loose) else .ok { seen with loose := true }
  | .help => .error (.help full)

/-- Take note of the flags that share a hyphen, in order. -/
def noteAll (seen : Arguments) : List Flag → Except Refusal Arguments
  | [] => .ok seen
  | flag :: flags =>
    match seen.note false flag with
    | .ok seen => seen.noteAll flags
    | .error refusal => .error refusal

/-- Read the arguments that follow the flags seen so far. -/
def parseAfter (seen : Arguments) : List String → Except Refusal Arguments
  | [] => .ok seen
  | argument :: rest =>
    match read argument with
    | .separator => .ok { seen with tokens := rest }
    | .token => .ok { seen with tokens := argument :: rest }
    | .valued flag value => .error (.unexpectedValue flag value)
    | .long flag =>
      match seen.note true flag with
      | .ok seen => seen.parseAfter rest
      | .error refusal => .error refusal
    | .letters flags =>
      match seen.noteAll flags with
      | .ok seen => seen.parseAfter rest
      | .error refusal => .error refusal

def parse (arguments : List String) : Except Refusal Arguments :=
  parseAfter ⟨false, false, []⟩ arguments

/-- The matching that the flags ask for. -/
def matching (a : Arguments) : Matching := if a.loose then .loose else .exact

/-- Every spelling of a flag. None of them may be among the tokens. -/
def reserved : List String := ["-i", "--interactive", "--loose", "-h", "--help"]

/-- The first token that is spelled like a flag. -/
def strayFlag? (a : Arguments) : Option String := a.tokens.find? reserved.contains

end Arguments

end ReversePolish
