import Axiomata.Token.Lexer
import Mathlib.Data.List.TakeWhile

/-!
# The pattern of tokens

Tokens and the blanks between them are described by a pattern with four alternatives:

```text
space      \s+
comment    //[^\n]*  |  /\*(?s:.*?)\*/
separator  [(){},]
word       [^\s(){},]+
```

A pattern may match the beginning of a text in many ways. They are listed in an order of preference
(`Pattern.splits`): the first alternative before the second, more repetitions before fewer, or the
other way round where the pattern asks for as few as possible. The first of them is the match. The
lexer goes over the characters without any list of this kind, and always takes the match
(`tokensFrom_eq_firstMatch`).
-/

namespace Axiomata.Lexer

open Text

/-! ## Patterns and what they match -/

inductive Pattern where
  /-- One character of a class. -/
  | one (p : Char → Bool)
  /-- Any number of characters of a class, as many as possible. -/
  | many (p : Char → Bool)
  /-- Any number of characters of a class, as few as possible. -/
  | few (p : Char → Bool)
  /-- One pattern behind another. -/
  | seq (first second : Pattern)
  /-- One of two patterns, the first if possible. -/
  | alt (first second : Pattern)

/-- A text in two pieces: what a pattern matches, and what follows. -/
abbrev Split := List Char × List Char

/-- A character in front of what is matched. -/
def Split.push (c : Char) (x : Split) : Split := (c :: x.1, x.2)

namespace Pattern

def exactly (c : Char) : Pattern := .one (· == c)

/-- One or more characters of a class, as many as possible. -/
def several (p : Char → Bool) : Pattern := .seq (.one p) (.many p)

/-- The characters of a class at the head of a text, or fewer of them, down to none. -/
def most (p : Char → Bool) : List Char → List Split
  | [] => [([], [])]
  | c :: cs => if p c then (most p cs).map (Split.push c) ++ [([], c :: cs)] else [([], c :: cs)]

/-- No characters, or more of those of a class at the head of a text, up to all of them. -/
def least (p : Char → Bool) : List Char → List Split
  | [] => [([], [])]
  | c :: cs => ([], c :: cs) :: if p c then (least p cs).map (Split.push c) else []

/-- The ways in which a pattern matches the beginning of a text, the preferred ones first. -/
def splits : Pattern → List Char → List Split
  | .one _, [] => []
  | .one p, c :: cs => if p c then [([c], cs)] else []
  | .many p, cs => most p cs
  | .few p, cs => least p cs
  | .seq r s, cs => (r.splits cs).flatMap fun x => (s.splits x.2).map fun y => (x.1 ++ y.1, y.2)
  | .alt r s, cs => r.splits cs ++ s.splits cs

/-- What a pattern matches at the beginning of a text. -/
def match? (r : Pattern) (cs : List Char) : Option Split := (r.splits cs).head?

end Pattern

/-- What the tokens of a text and the blanks between them are. -/
inductive Piece where
  | space
  | comment
  | separator
  | word
deriving DecidableEq, Repr

namespace Piece

def pattern : Piece → Pattern
  | .space => .several isBlank
  | .comment =>
    .alt (.seq (.exactly '/') (.seq (.exactly '/') (.many (· != '\n'))))
      (.seq (.exactly '/') (.seq (.exactly '*')
        (.seq (.few fun _ => true) (.seq (.exactly '*') (.exactly '/')))))
  | .separator => .one isSeparator
  | .word => .several isWordChar

/-- The kind of the token with the given text, if it is one. -/
def kind? (text : List Char) : Piece → Option TokenKind
  | .space => none
  | .comment => some .comment
  | .separator => some .separator
  | .word => some (wordKind (.ofList text))

end Piece

/-- The first alternative that matches the beginning of a text, and its match. -/
def firstMatch (cs : List Char) : Option (Piece × Split) :=
  [.space, .comment, .separator, .word].findSome? fun a : Piece =>
    (a.pattern.match? cs).map fun x => (a, x)

/-! ## The match of each alternative -/

namespace Pattern

variable (p : Char → Bool) (r s : Pattern) (c : Char) (cs : List Char)

/-- Most characters of a class are all of them. -/
theorem head?_most : (most p cs).head? = some (cs.takeWhile p, cs.dropWhile p) := by
  induction cs with
  | nil => rfl
  | cons c cs ih =>
    rw [most]
    by_cases hc : p c
    · rw [if_pos hc, List.head?_append, List.head?_map, ih]
      simp [Split.push, hc]
    · simp [hc]

/-- The second alternative is taken where the first does not match. -/
theorem match?_alt : (alt r s).match? cs = (r.match? cs).or (s.match? cs) := by
  rw [match?, splits, List.head?_append]
  rfl

theorem match?_one_cons : (one p).match? (c :: cs) = if p c then some ([c], cs) else none := by
  rw [match?, splits]
  split <;> rfl

/-- There is one way to match a character. -/
theorem match?_seq_one_cons :
    (seq (one p) s).match? (c :: cs) = if p c then (s.match? cs).map (Split.push c) else none := by
  rw [match?, splits, splits]
  split
  · rw [List.flatMap_singleton, List.head?_map]
    rfl
  · rfl

theorem match?_seq_exactly_cons (d : Char) :
    (seq (exactly d) s).match? (c :: cs) =
      if c = d then (s.match? cs).map (Split.push c) else none := by
  rw [exactly, match?_seq_one_cons]
  simp

/-- As many characters of a class as possible are all that stand at the head of the text. -/
theorem match?_many : (many p).match? cs = some (cs.takeWhile p, cs.dropWhile p) :=
  head?_most p cs

/-- One or more characters of a class are all that stand at the head, if the first is one. -/
theorem match?_several_cons : (several p).match? (c :: cs) =
    if p c then some (c :: cs.takeWhile p, cs.dropWhile p) else none := by
  rw [several, match?_seq_one_cons, match?_many]
  rfl

/-- As few characters as possible in front of the end of a comment are those in front of the first. -/
theorem match?_few_close :
    (seq (few fun _ => true) (seq (exactly '*') (exactly '/'))).match? cs = closeBlock cs := by
  rw [match?, splits]
  show ((least _ cs).flatMap _).head? = _
  fun_induction closeBlock cs with
  | case1 => rfl
  | case2 cs => rfl
  | case3 c cs hne ih =>
    have hnone : (seq (exactly '*') (exactly '/')).splits (c :: cs) = [] := by
      rw [exactly, splits, splits]
      split
      next hc =>
        cases cs with
        | nil => rfl
        | cons d cs =>
          have hd : d ≠ '/' := fun hd => hne cs (beq_iff_eq.mp hc) (by rw [hd])
          simp [exactly, splits, hd]
      next => rfl
    rw [← ih, least, if_pos rfl, List.flatMap_cons, hnone, List.map_nil, List.nil_append,
      List.flatMap_map, ← List.head?_map, List.map_flatMap]
    simp [Split.push, Function.comp_def]

end Pattern

namespace Piece

open Pattern

/-- The first end of a comment is found by going over the characters. -/
theorem match?_comment (cs : List Char) : comment.pattern.match? cs = comment? cs := by
  rw [pattern, match?_alt]
  fun_cases comment? cs with
  | case1 cs => simp [match?_seq_exactly_cons, match?_many, Split.push]
  | case2 cs =>
    simp [match?_seq_exactly_cons, match?_few_close, Function.comp_def, Split.push]
  | case3 cs hline hblock =>
    match cs with
    | [] => rfl
    | [c] =>
      simp only [match?_seq_exactly_cons]
      split <;> rfl
    | c :: d :: cs =>
      simp only [match?_seq_exactly_cons]
      by_cases hc : c = '/'
      · subst hc
        have hslash : d ≠ '/' := by
          rintro rfl
          exact hline cs rfl
        have hstar : d ≠ '*' := by
          rintro rfl
          exact hblock cs rfl
        simp [hslash, hstar]
      · simp [hc]

end Piece

open Piece Pattern

/-- Blanks are taken all at once. -/
theorem firstMatch_of_isBlank {c : Char} (hc : isBlank c) (cs : List Char) :
    firstMatch (c :: cs) = some (.space, c :: cs.takeWhile isBlank, cs.dropWhile isBlank) := by
  rw [firstMatch, List.findSome?_cons, pattern, match?_several_cons, if_pos hc]
  rfl

/-- At a character that is no blank, the lexer takes the match of the first alternative, and the kind
of token that goes with it. -/
theorem firstMatch_of_not_isBlank {c : Char} (hc : isBlank c = false) (cs : List Char) :
    ∃ a : Piece, firstMatch (c :: cs) = some (a, (lexeme c cs).2) ∧
      a.kind? (lexeme c cs).2.1 = some (lexeme c cs).1 := by
  have hspace : space.pattern.match? (c :: cs) = none := by
    rw [pattern, match?_several_cons, hc]
    rfl
  rw [firstMatch, List.findSome?_cons, hspace, List.findSome?_cons, match?_comment, lexeme]
  cases hcomment : comment? (c :: cs) with
  | some x => exact ⟨.comment, rfl, rfl⟩
  | none =>
    rw [List.findSome?_cons, pattern, match?_one_cons]
    cases hsep : isSeparator c with
    | true => exact ⟨.separator, rfl, rfl⟩
    | false =>
      have hword : isWordChar c := by simp [isWordChar, hc, hsep]
      refine ⟨.word, ?_, rfl⟩
      simp [pattern, match?_several_cons, hword]

/-- Some alternative matches at every character. -/
theorem firstMatch_eq_none_iff {cs : List Char} : firstMatch cs = none ↔ cs = [] := by
  constructor
  · intro h
    cases cs with
    | nil => rfl
    | cons c cs =>
      cases hc : isBlank c with
      | true => cases (firstMatch_of_isBlank hc cs).symm.trans h
      | false =>
        obtain ⟨a, ha, -⟩ := firstMatch_of_not_isBlank hc cs
        cases ha.symm.trans h
  · rintro rfl
    rfl

/-! ## Whole texts -/

/-- Blanks can be skipped one by one. -/
theorem tokensFrom_blanks {blanks : List Char} (h : ∀ c ∈ blanks, isBlank c) (offset : Nat)
    (rest : List Char) :
    tokensFrom offset (blanks ++ rest) = tokensFrom (offset + byteSize blanks) rest := by
  induction blanks generalizing offset with
  | nil => rfl
  | cons c blanks ih =>
    rw [List.forall_mem_cons] at h
    rw [List.cons_append, tokensFrom, if_pos h.1, ih h.2, byteSize_cons, Nat.add_assoc]

/-- The tokens of a text are found by taking the match of the first alternative over and over. Blanks
are skipped, and anything else is a token of the kind that goes with the alternative. -/
theorem tokensFrom_eq_firstMatch (offset : Nat) (cs : List Char) :
    tokensFrom offset cs =
      match firstMatch cs with
      | none => []
      | some (a, text, rest) =>
        let stop := offset + byteSize text
        ((a.kind? text).map fun kind => ⟨kind, .ofList text, ⟨offset, stop⟩⟩).toList ++
          tokensFrom stop rest := by
  cases cs with
  | nil => rw [firstMatch_eq_none_iff.mpr rfl, tokensFrom]
  | cons c cs =>
    cases hc : isBlank c with
    | true =>
      rw [firstMatch_of_isBlank hc]
      have hblanks : ∀ d ∈ c :: cs.takeWhile isBlank, isBlank d :=
        List.forall_mem_cons.mpr ⟨hc, fun d hd => List.mem_takeWhile_imp hd⟩
      have hskip := tokensFrom_blanks hblanks offset (cs.dropWhile isBlank)
      rwa [List.cons_append, List.takeWhile_append_dropWhile] at hskip
    | false =>
      obtain ⟨a, hmatch, hkind⟩ := firstMatch_of_not_isBlank hc cs
      rw [hmatch, tokensFrom, hc]
      simp [hkind]

end Axiomata.Lexer
