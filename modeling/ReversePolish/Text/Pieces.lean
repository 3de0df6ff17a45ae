import ReversePolish.Text.Blank

/-!
# Cutting text into pieces and words

Text is cut in two ways. An expression is cut at every single space, so that an empty text, a space
at an end and a doubled space all yield empty pieces. A line of a session is cut into words at any
run of blank characters, and no word is empty.
-/

namespace ReversePolish.Text

/-- The pieces between single spaces; at least one, possibly empty. -/
def pieces (text : String) : List String :=
  (text.toList.splitOn ' ').map String.ofList

/-- The pieces with single spaces between them. -/
def spaced (pieces : List String) : String := " ".intercalate pieces

/-- The words between runs of blank characters; none is empty. -/
def words (text : String) : List String :=
  ((text.toList.splitOnP isBlank).filter (!·.isEmpty)).map String.ofList

/-- Whether a text has nothing but blank characters. -/
def isBlankLine (text : String) : Bool := text.toList.all isBlank

end ReversePolish.Text
