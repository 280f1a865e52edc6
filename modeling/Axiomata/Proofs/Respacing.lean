import Axiomata.Proofs.Relexing

/-!
# Tokens written below each other

All tokens of a text, comments included, can be written with one newline between two of them, and are
cut again as they were. A token depends on what follows it in two ways (`Lexer.Lexeme.respace`): where
its own characters end, for which a newline is as good as whatever was there, and whether an end of
comment comes later, for a word that starts like a block comment. No end of comment is made by putting
tokens below each other (`Lexer.closes_of_closes_stack`).
-/

namespace Axiomata

/-- The text of tokens that are written below each other. -/
def Token.stack (ts : List Token) : List Char := ['\n'].intercalate (ts.map fun t => t.text.toList)

@[simp] theorem Token.stack_nil : stack [] = [] := rfl

/-- What stands behind the first of some tokens that are written below each other. -/
def Token.below : List Token → List Char
  | [] => []
  | t :: ts => '\n' :: stack (t :: ts)

/-- The first token stands on a line of its own, with the others below it. -/
theorem Token.stack_cons (t : Token) (ts : List Token) :
    stack (t :: ts) = t.text.toList ++ below ts := by
  cases ts with
  | nil => simp [stack, below]
  | cons u us => simp [stack, below, List.intercalate_cons_cons]

/-- What stands below a token starts with a line break. -/
theorem Token.head?_below {ts : List Token} : ∀ c ∈ (below ts).head?, c = '\n' := by
  intro c hc
  cases ts with
  | nil => cases hc
  | cons t ts => exact (Option.some.inj hc).symm

namespace Lexer

open Text

/-! ## What follows a token -/

/-- A word ends at a line break. -/
theorem endsWord_of_newline {cs : List Char} (h : ∀ c ∈ cs.head?, c = '\n') : EndsWord cs := by
  intro c hc
  rw [h c hc]
  decide

/-- A line break has no part in closing a block comment. -/
theorem closes_newline_iff {cs : List Char} : Closes ('\n' :: cs) ↔ Closes cs := by
  simp [closes_cons_iff]

/-- A token stays the same in front of another text that starts on a new line, unless that text brings
an end of comment. -/
theorem Lexeme.respace {kind : TokenKind} {text rest rest' : List Char} (h : Lexeme kind text rest)
    (hhead : ∀ c ∈ rest'.head?, c = '\n') (hclose : Closes rest' → Closes rest) :
    Lexeme kind text rest' := by
  cases h with
  | lineComment hbody _ => exact .lineComment hbody hhead
  | blockComment _ hbody => exact .blockComment rest' hbody
  | separator _ hc => exact .separator rest' hc
  | word hne hword hrest hline hblock =>
    have hends := endsWord_of_newline hhead
    refine .word hne hword hends hline fun hopen => ?_
    -- Neither the word nor what followed it closes the comment that it seems to open.
    have hunclosed := hblock hopen
    obtain ⟨more, rfl⟩ := hopen
    simp only [List.cons_append, List.nil_append, List.drop_succ_cons, List.drop_zero] at hunclosed ⊢
    rw [closes_append_iff hends]
    rw [closes_append_iff hrest] at hunclosed
    exact fun h => hunclosed (h.imp_right hclose)

/-! ## Putting tokens below each other -/

/-- Neither do those in front of the tokens below. -/
theorem closes_below_iff {ts : List Token} : Closes (Token.below ts) ↔ Closes (Token.stack ts) := by
  cases ts with
  | nil => rfl
  | cons t ts => exact closes_newline_iff

/-- The tokens of a text hold no end of comment that the text does not hold. -/
theorem closes_of_closes_stack (offset : Nat) (cs : List Char) :
    Closes (Token.stack (tokensFrom offset cs)) → Closes cs := by
  induction offset, cs using lexeme_induction with
  | nil offset => simp [tokensFrom]
  | blank offset c cs hc ih =>
    rw [tokensFrom_of_isBlank hc]
    exact fun h => (ih h).append_left [c]
  | lexeme offset kind text rest hhead ih =>
    intro h
    rw [tokensFrom_of_lexeme hhead, Token.stack_cons, tokenAt, String.toList_ofList,
      closes_append_iff (endsWord_of_newline Token.head?_below), closes_below_iff] at h
    exact h.elim (·.append_right rest) fun h => (ih h).append_left text

/-- The newline between two tokens is skipped. -/
theorem exists_tokensFrom_below (offset : Nat) (ts : List Token) :
    ∃ offset', tokensFrom offset (Token.below ts) = tokensFrom offset' (Token.stack ts) := by
  cases ts with
  | nil => exact ⟨offset, rfl⟩
  | cons t ts => exact ⟨_, tokensFrom_of_isBlank isBlank_newline⟩

/-- By induction on the characters. With each token on a line of its own, the same lexemes are
found. -/
theorem map_tokensFrom_stack (offset offset' : Nat) (cs : List Char) :
    (tokensFrom offset' (Token.stack (tokensFrom offset cs))).map (fun t => (t.kind, t.text)) =
      (tokensFrom offset cs).map fun t => (t.kind, t.text) := by
  induction offset, cs using lexeme_induction generalizing offset' with
  | nil offset => simp [tokensFrom]
  | blank offset c cs hc ih =>
    rw [tokensFrom_of_isBlank hc]
    exact ih offset'
  | lexeme offset kind text rest hhead ih =>
    rw [tokensFrom_of_lexeme hhead, Token.stack_cons, tokenAt, String.toList_ofList]
    have hbelow := hhead.respace Token.head?_below
      fun h => closes_of_closes_stack (offset + byteSize text) rest (closes_below_iff.mp h)
    obtain ⟨next, hnext⟩ := exists_tokensFrom_below (offset' + byteSize text)
      (tokensFrom (offset + byteSize text) rest)
    rw [tokensFrom_of_lexeme hbelow, hnext, List.map_cons, List.map_cons, ih, tokenAt]

end Lexer

/-- The tokens of a text, comments included, are those of the text in which each of them starts on a
line of its own. -/
theorem Source.tokens_respaced (s : Source) (name : String) :
    (Source.ofText name ("\n".intercalate (s.tokens.map Token.text))).tokens.map
        (fun t => (t.kind, t.text)) =
      s.tokens.map fun t => (t.kind, t.text) := by
  have hchars : ("\n".intercalate (s.tokens.map Token.text)).toList = Token.stack s.tokens := by
    rw [String.toList_intercalate, List.map_map]
    rfl
  rw [tokens, chars_ofText, hchars]
  exact Lexer.map_tokensFrom_stack 0 0 s.chars

end Axiomata
