import Axiomata.Source.Basic

/-!
# Tokens

A token keeps its text apart from its span, so that what depends on the text alone can be told from
what depends on the layout.
-/

namespace Axiomata

inductive TokenKind where
  | keyword
  | word
  | separator
  | comment
deriving DecidableEq, Repr, Inhabited

def TokenKind.label : TokenKind → String
  | .keyword => "Keyword"
  | .word => "Word"
  | .separator => "Separator"
  | .comment => "Comment"

/-- The four kinds of declaration. -/
inductive DeclKind where
  | type
  | term
  | postulate
  | thm
deriving DecidableEq, Repr

/-- The keyword that opens a group of distinct names. It never names a symbol. -/
def distinctKeyword : String := "#diff"

/-- The keyword in front of hypotheses. -/
def hypothesisKeyword : String := "-|"

/-- The keyword in front of conclusions. -/
def conclusionKeyword : String := "|-"

/-- The words that are keywords. Those of declarations are written all in lower or all in upper
case. -/
def isKeyword (text : String) : Bool :=
  ["type", "term", "axiom", "thm", "TYPE", "TERM", "AXIOM", "THM", hypothesisKeyword,
    conclusionKeyword].contains text || text == distinctKeyword

/-- The letters from `A` to `Z` in lower case, and all else as it is. -/
def lowercase (text : String) : String := .ofList (text.toList.map Char.toLower)

namespace DeclKind

def keyword : DeclKind → String
  | .type => "type"
  | .term => "term"
  | .postulate => "axiom"
  | .thm => "thm"

/-- The kind of declaration that a keyword opens, in whatever case its letters are. -/
def ofText? (text : String) : Option DeclKind :=
  [.type, .term, .postulate, .thm].find? (·.keyword == lowercase text)

end DeclKind

structure Token where
  kind : TokenKind
  text : String
  span : Span
deriving DecidableEq, Repr, Inhabited

namespace Token

variable (t : Token)

def isWord : Bool := t.kind == .word

def isComment : Bool := t.kind == .comment

def isKeyword : Bool := t.kind == .keyword

/-- A separator with the given text. -/
def isSymbol (text : String) : Bool := t.kind == .separator && t.text == text

/-- The kind of declaration that the token opens. -/
def declKind? : Option DeclKind := if t.isKeyword then DeclKind.ofText? t.text else none

/-- A word, or the keyword of a distinctness group, which is turned down later by name. -/
def isName : Bool := t.isWord || (t.isKeyword && t.text == distinctKeyword)

def render (s : Source) : String := t.kind.label ++ " " ++ t.text ++ "\n" ++ s.excerpt t.span

end Token

end Axiomata
