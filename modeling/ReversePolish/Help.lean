/-!
# Help texts

The two help texts: a summary, and a full text in which every argument has lines of its own.
-/

namespace ReversePolish.Help

/-- The name under which the program is run. -/
def program : String := "rpncalc"

def usage : String := "Usage: " ++ program ++ " [OPTIONS] [TOKENS]..."

/-- What the program is. -/
def about : String := "Reverse Polish Notation (RPN) calculator"

def aboutTokens : String := "Operands and operators, eg: 5 1 2 + 4 * + 3 -"

def aboutInteractive : String := "Enter terms one at a time at a prompt"

def aboutLoose : String :=
  "Match any token containing an operator symbol, eg: \"x+y\" adds. " ++
    "Like all flags it goes before the tokens"

def operators : List String :=
  ["Supported operators are:",
    " - \"+\" (Addition)",
    " - \"-\" (Subtraction)",
    " - \"*\" (Multiplication)",
    " - \"/\" (Division)"]

/-- Lines as text; every line has an end. -/
def unlines (lines : List String) : String := String.join (lines.map (· ++ "\n"))

def summary : String :=
  unlines ([about,
    "",
    usage,
    "",
    "Arguments:",
    "  [TOKENS]...  " ++ aboutTokens,
    "",
    "Options:",
    "  -i, --interactive  " ++ aboutInteractive,
    "      --loose        " ++ aboutLoose,
    "  -h, --help         Print help (see more with '--help')",
    ""] ++ operators)

def full : String :=
  unlines ([about,
    "",
    "Provide a space-separated list of operands and operators on the command",
    "line to perform a calculation.",
    "",
    usage,
    "",
    "Arguments:",
    "  [TOKENS]...",
    "          " ++ aboutTokens,
    "",
    "Options:",
    "  -i, --interactive",
    "          " ++ aboutInteractive,
    "",
    "      --loose",
    "          " ++ aboutLoose,
    "",
    "  -h, --help",
    "          Print help (see a summary with '-h')",
    ""] ++ operators)

end ReversePolish.Help
