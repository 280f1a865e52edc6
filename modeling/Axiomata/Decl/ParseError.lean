import Axiomata.Token.Lexer

/-! # Why a declaration cannot be read -/

namespace Axiomata

/-- What should have stood at a place. -/
inductive Expectation where
  | word
  | exactly (text : String)
  | symbol (text : String)
  | keyword
  | name
  | clause
  | typeName
  | bodyToken
  | declaration
deriving DecidableEq, Repr

def Expectation.message : Expectation → String
  | .word => "expected word"
  | .exactly text => "expected '" ++ text ++ "'"
  | .symbol text => "expected symbol '" ++ text ++ "'"
  | .keyword => "expected keyword"
  | .name => "expected name"
  | .clause => "expected '#diff', '-|' or '|-'"
  | .typeName => "expected at least one type name"
  | .bodyToken => "unexpected token in term body"
  | .declaration => "expected declaration"

inductive ParseError where
  | unexpected (wanted : Expectation) (found : Token)
  | endOfInput
deriving DecidableEq, Repr

namespace ParseError

/-- The excerpt of the place. -/
def place (s : Source) : ParseError → String
  | .unexpected _ found => s.excerpt found.span
  | .endOfInput => s.endOfInput

def render (s : Source) : ParseError → String
  | .unexpected wanted found =>
    "parse error: " ++ wanted.message ++ " at " ++ place s (.unexpected wanted found)
  | .endOfInput => "unexpected end of input at " ++ place s .endOfInput

end ParseError

end Axiomata
