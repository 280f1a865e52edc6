import Axiomata.Token.Basic

/-!
# From text to tokens

Blanks, which are the characters with the Unicode property `White_Space`, are skipped. A comment is
recognised only where a token may start: inside a word, slashes are ordinary characters. A block
comment that is never closed is no comment, so its first characters are those of a word.
-/

namespace Axiomata.Lexer

open Text

/-- The ranges of code points with the property `White_Space`, both ends included. -/
def blankRanges : List (Nat × Nat) :=
  [(0x09, 0x0d), (0x20, 0x20), (0x85, 0x85), (0xa0, 0xa0), (0x1680, 0x1680), (0x2000, 0x200a),
    (0x2028, 0x2029), (0x202f, 0x202f), (0x205f, 0x205f), (0x3000, 0x3000)]

def isBlank (c : Char) : Bool :=
  blankRanges.any fun r => r.1 ≤ c.toNat && c.toNat ≤ r.2

@[simp] theorem isBlank_newline : isBlank '\n' = true := by decide

def isSeparator (c : Char) : Bool :=
  c == '(' || c == ')' || c == '\x7b' || c == '\x7d' || c == ','

def isWordChar (c : Char) : Bool := !isBlank c && !isSeparator c

/-- Splits behind the first `*/`. -/
def closeBlock : List Char → Option (List Char × List Char)
  | [] => none
  | '*' :: '/' :: cs => some (['*', '/'], cs)
  | c :: cs => (closeBlock cs).map fun (body, rest) => (c :: body, rest)

/-- The comment at the head of a text and what follows it. -/
def comment? : List Char → Option (List Char × List Char)
  | '/' :: '/' :: cs =>
    some ('/' :: '/' :: cs.takeWhile (· != '\n'), cs.dropWhile (· != '\n'))
  | '/' :: '*' :: cs => (closeBlock cs).map fun (body, rest) => ('/' :: '*' :: body, rest)
  | _ => none

def wordKind (text : String) : TokenKind := if isKeyword text then .keyword else .word

/-- The kind and text of the token at the head of a text that starts with no blank, and what
follows it. -/
def lexeme (c : Char) (cs : List Char) : TokenKind × List Char × List Char :=
  match comment? (c :: cs) with
  | some (text, rest) => (.comment, text, rest)
  | none =>
    if isSeparator c then (.separator, [c], cs)
    else
      let text := c :: cs.takeWhile isWordChar
      (wordKind (.ofList text), text, cs.dropWhile isWordChar)

/-- A block comment and what follows it are the whole text. -/
theorem closeBlock_append {cs body rest : List Char} (h : closeBlock cs = some (body, rest)) :
    body ++ rest = cs := by
  fun_induction closeBlock cs generalizing body with
  | case1 => simp at h
  | case2 cs => simp at h; simp [← h.1, ← h.2]
  | case3 c cs hne ih =>
    obtain ⟨⟨b, r⟩, hb, heq⟩ := Option.map_eq_some_iff.1 h
    simp only [Prod.mk.injEq] at heq
    obtain ⟨rfl, rfl⟩ := heq
    simp [ih hb]

/-- A comment and what follows it are the whole text. -/
theorem comment?_append {cs text rest : List Char} (h : comment? cs = some (text, rest)) :
    text ++ rest = cs := by
  unfold comment? at h
  split at h
  · simp at h
    simp [← h.1, ← h.2]
  · obtain ⟨⟨b, r⟩, hb, heq⟩ := Option.map_eq_some_iff.1 h
    simp only [Prod.mk.injEq] at heq
    obtain ⟨rfl, rfl⟩ := heq
    simp [closeBlock_append hb]
  · simp at h

/-- A comment has characters, those that open it. -/
theorem comment?_ne_nil {cs text rest : List Char} (h : comment? cs = some (text, rest)) :
    text ≠ [] := by
  unfold comment? at h
  split at h
  · simp at h
    simp [← h.1]
  · obtain ⟨⟨b, r⟩, -, heq⟩ := Option.map_eq_some_iff.1 h
    simp only [Prod.mk.injEq] at heq
    simp [← heq.1]
  · simp at h

/-- Nothing is lost or moved. -/
theorem lexeme_append (c : Char) (cs : List Char) :
    (lexeme c cs).2.1 ++ (lexeme c cs).2.2 = c :: cs := by
  unfold lexeme
  split
  next h => exact comment?_append h
  next => split <;> simp

/-- A token has characters. -/
theorem lexeme_ne_nil (c : Char) (cs : List Char) : (lexeme c cs).2.1 ≠ [] := by
  unfold lexeme
  split
  next h => exact comment?_ne_nil h
  next => split <;> simp

/-- A token leaves less than there was, so the tokens of a text can be cut one after the other. -/
theorem lexeme_rest_lt (c : Char) (cs : List Char) :
    (lexeme c cs).2.2.length < (c :: cs).length := by
  have happ := congrArg List.length (lexeme_append c cs)
  have hpos := List.length_pos_iff.2 (lexeme_ne_nil c cs)
  rw [List.length_append] at happ
  omega

/-- The tokens of a text whose first character has the given offset. -/
def tokensFrom (offset : Nat) : List Char → List Token
  | [] => []
  | c :: cs =>
    if isBlank c then tokensFrom (offset + c.utf8Size) cs
    else
      let stop := offset + byteSize (lexeme c cs).2.1
      ⟨(lexeme c cs).1, .ofList (lexeme c cs).2.1, ⟨offset, stop⟩⟩ ::
        tokensFrom stop (lexeme c cs).2.2
termination_by cs => cs.length
decreasing_by
  · simp
  · exact lexeme_rest_lt c cs

end Axiomata.Lexer

namespace Axiomata.Source

/-- All tokens, comments included. -/
def tokens (s : Source) : List Token := Lexer.tokensFrom 0 s.chars

/-- The tokens that declarations are read from. -/
def significant (s : Source) : List Token := s.tokens.filter (!·.isComment)

/-- The excerpt of the last character, if the source has anything to read at all. -/
def endOfInput (s : Source) : String :=
  if s.significant.isEmpty then "end of input" else s.excerpt s.lastSpan

end Axiomata.Source
