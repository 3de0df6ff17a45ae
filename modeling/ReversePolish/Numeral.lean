import ReversePolish.Cursor.Basic

/-!
# Recognising a numeral

A numeral is an optional sign, digits with at most one point among or beside them and at least one
digit, and optionally an exponent: `e` or `E`, an optional sign and at least one digit. Only the
digits of ASCII count. A mark without an exponent's digits is left unread, and a text is a numeral
only if all of it is read, apart from the spaces, tabs and line ends around it.
-/

namespace ReversePolish.Numeral

def digits : List Char := ['0', '1', '2', '3', '4', '5', '6', '7', '8', '9']

def signs : List Char := ['+', '-']

/-- The two letters that announce an exponent. -/
def exponentMarks : List Char := ['e', 'E']

/-- The characters that may surround a numeral. -/
def padding : List Char := [' ', '\n', '\r', '\t']

/-- The text without the padding at both ends. -/
def trim (text : List Char) : List Char :=
  ((text.dropWhile padding.contains).reverse.dropWhile padding.contains).reverse

def readSign (k : Cursor) : Cursor := (k.acceptAny signs).2

/-- Read digits with at most one point; at least one digit is needed. -/
def readMantissa? (k : Cursor) : Option Cursor :=
  let (hasWhole, afterWhole) := k.skipAll digits
  match afterWhole.accept '.' with
  | (some _, afterPoint) =>
    let (hasFraction, afterFraction) := afterPoint.skipAll digits
    if hasWhole || hasFraction then some afterFraction else none
  | (none, _) => if hasWhole then some afterWhole else none

/-- Read an exponent if there is a whole one; otherwise stay. -/
def readExponent (k : Cursor) : Cursor :=
  match k.acceptAny exponentMarks with
  | (some _, afterMark) =>
    let (hasDigits, afterDigits) := (readSign afterMark).skipAll digits
    if hasDigits then afterDigits else afterDigits.rewind k.offset
  | (none, _) => k

/-- Read a whole text as a numeral. -/
def read? (text : List Char) : Option (List Char) := do
  let afterMantissa ← readMantissa? (readSign (Cursor.ofList text))
  let afterExponent := readExponent afterMantissa
  if afterExponent.exhausted then some afterExponent.view else none

/-- The numeral in a token: the token without the padding around it, if that is a numeral. -/
def scan? (token : String) : Option String :=
  (read? (trim token.toList)).map String.ofList

end ReversePolish.Numeral
