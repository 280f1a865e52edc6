import Axiomata.Token.Lexer
import Mathlib.Data.List.TakeWhile

/-!
# A text is cut into tokens in one way

What a token can be is said without regard to how tokens are found (`Lexer.Lexeme`): a comment, a
separator or a whole word, given the characters behind it. A list of tokens decomposes a text if its
spans follow each other, only blanks are left between them and each token is a lexeme at its place
(`Lexer.Decomposes`). Every text has one such list, which is that of the lexer
(`Lexer.decomposes_iff`).

The kinds of lexemes look alike at their beginnings, and whether `/*` opens a comment or a word depends
on text that may be far behind it. They exclude each other all the same: at most one lexeme can stand
at the head of a text (`Lexer.lexeme_eq_iff`).
-/

namespace Axiomata

/-- A byte that belongs to a span. -/
def Span.Covers (s : Span) (byte : Nat) : Prop := s.start ≤ byte ∧ byte < s.stop

namespace Lexer

open Text

/-! ## Lexemes -/

/-- The end of a block comment occurs in the text. -/
def Closes (cs : List Char) : Prop := ['*', '/'] <:+: cs

/-- A text that a word ends in front of: its end, a blank or a separator. -/
def EndsWord (cs : List Char) : Prop := ∀ c ∈ cs.head?, isWordChar c = false

/-- The kind and the characters of a token, in front of given characters. -/
inductive Lexeme : TokenKind → List Char → List Char → Prop
  /-- Runs to the end of its line. -/
  | lineComment {body rest : List Char} (hbody : '\n' ∉ body) (hrest : ∀ c ∈ rest.head?, c = '\n') :
    Lexeme .comment ('/' :: '/' :: body) rest
  /-- Runs to the first `*/` behind its opening. -/
  | blockComment {body : List Char} (rest : List Char) (hbody : ¬ Closes (body ++ ['*'])) :
    Lexeme .comment ('/' :: '*' :: (body ++ ['*', '/'])) rest
  | separator {c : Char} (rest : List Char) (hc : isSeparator c) : Lexeme .separator [c] rest
  /-- Runs to the next blank or separator. It may look like a block comment that is never closed. -/
  | word {text rest : List Char} (hne : text ≠ []) (hword : ∀ c ∈ text, isWordChar c)
    (hrest : EndsWord rest) (hline : ¬ ['/', '/'] <+: text)
    (hblock : ['/', '*'] <+: text → ¬ Closes ((text ++ rest).drop 2)) :
    Lexeme (if isKeyword (.ofList text) then .keyword else .word) text rest

/-- No token starts with a blank. -/
theorem Lexeme.exists_cons {kind : TokenKind} {text rest : List Char} (h : Lexeme kind text rest) :
    ∃ c cs, text = c :: cs ∧ isBlank c = false := by
  cases h with
  | lineComment => exact ⟨'/', _, rfl, by decide⟩
  | blockComment => exact ⟨'/', _, rfl, by decide⟩
  | @separator c rest hc =>
    refine ⟨c, [], rfl, ?_⟩
    simp only [isSeparator, Bool.or_eq_true, beq_iff_eq] at hc
    rcases hc with (((rfl | rfl) | rfl) | rfl) | rfl <;> decide
  | word hne hword =>
    obtain ⟨c, cs, rfl⟩ := List.exists_cons_of_ne_nil hne
    have hc := hword c List.mem_cons_self
    simp only [isWordChar, Bool.and_eq_true, Bool.not_eq_true'] at hc
    exact ⟨c, cs, rfl, hc.1⟩

/-- No lexeme is empty. -/
theorem Lexeme.byteSize_pos {kind : TokenKind} {text rest : List Char} (h : Lexeme kind text rest) :
    0 < byteSize text := by
  obtain ⟨c, cs, rfl, -⟩ := h.exists_cons
  exact Nat.add_pos_left c.utf8Size_pos _

/-! ## Comments -/

/-- A block comment is closed here or later. -/
theorem closes_cons_iff {c : Char} {cs : List Char} :
    Closes (c :: cs) ↔ (c = '*' ∧ ∃ rest, cs = '/' :: rest) ∨ Closes cs := by
  rw [Closes, Closes, List.infix_cons_iff]
  refine or_congr_left ⟨?_, ?_⟩
  · rintro ⟨rest, h⟩
    simp only [List.cons_append, List.nil_append, List.cons.injEq] at h
    exact ⟨h.1.symm, rest, h.2.symm⟩
  · rintro ⟨rfl, rest, rfl⟩
    exact ⟨rest, rfl⟩

theorem not_closes_nil : ¬ Closes [] := by simp [Closes]

/-- The search for the end of a block comment fails only if there is none. -/
theorem closeBlock_eq_none_iff {cs : List Char} : closeBlock cs = none ↔ ¬ Closes cs := by
  fun_induction closeBlock cs with
  | case1 => simp [not_closes_nil]
  | case2 cs => simp [closes_cons_iff]
  | case3 c cs hne ih =>
    rw [Option.map_eq_none_iff, ih, closes_cons_iff, not_or, iff_and_self]
    rintro - ⟨rfl, rest, rfl⟩
    exact hne rest rfl rfl

/-- Behind a text that does not close a block comment, the next two characters may. -/
theorem closeBlock_append_close {body : List Char} (h : ¬ Closes (body ++ ['*'])) (rest : List Char) :
    closeBlock (body ++ '*' :: '/' :: rest) = some (body ++ ['*', '/'], rest) := by
  induction body with
  | nil => rfl
  | cons c body ih =>
    rw [List.cons_append, closes_cons_iff, not_or] at h
    have hne : ∀ cs, c = '*' → body ++ '*' :: '/' :: rest = '/' :: cs → False := by
      rintro cs rfl hcs
      refine h.1 ⟨rfl, ?_⟩
      cases body with
      | nil => simp at hcs
      | cons d body =>
        rw [List.cons_append, List.cons.injEq] at hcs
        exact ⟨body ++ ['*'], by rw [hcs.1, List.cons_append]⟩
    rw [List.cons_append, closeBlock, ih h.2]
    · rfl
    · exact hne

/-- The search for the end of a block comment stops at the first one. -/
theorem closeBlock_eq_some {cs text rest : List Char} (h : closeBlock cs = some (text, rest)) :
    ∃ body, ¬ Closes (body ++ ['*']) ∧ text = body ++ ['*', '/'] := by
  fun_induction closeBlock cs generalizing text with
  | case1 => simp at h
  | case2 cs =>
    cases h
    exact ⟨[], by simp [closes_cons_iff, not_closes_nil], rfl⟩
  | case3 c cs hne ih =>
    obtain ⟨⟨text, rest⟩, hclose, heq⟩ := Option.map_eq_some_iff.mp h
    cases heq
    obtain ⟨body, hbody, rfl⟩ := ih hclose
    refine ⟨c :: body, ?_, rfl⟩
    rw [List.cons_append, closes_cons_iff, not_or]
    refine ⟨?_, hbody⟩
    rintro ⟨rfl, more, hmore⟩
    -- What follows the star starts with a slash, so the comment was closed before.
    have happ := closeBlock_append hclose
    cases body with
    | nil => simp at hmore
    | cons d body =>
      rw [List.cons_append, List.cons.injEq] at hmore
      obtain ⟨rfl, -⟩ := hmore
      exact hne _ rfl happ.symm

/-- The comment in front of a text is the only one that can be there. -/
theorem comment?_eq_some_iff {cs text rest : List Char} :
    comment? cs = some (text, rest) ↔ text ++ rest = cs ∧ Lexeme .comment text rest := by
  constructor
  · intro h
    refine ⟨comment?_append h, ?_⟩
    unfold comment? at h
    split at h
    · rename_i cs
      cases h
      refine .lineComment (fun hmem => ?_) fun c hc => ?_
      · simpa using List.mem_takeWhile_imp hmem
      · have hhead := List.head?_dropWhile_not (· != '\n') cs
        rw [hc] at hhead
        simpa using hhead
    · obtain ⟨⟨text, rest⟩, hclose, heq⟩ := Option.map_eq_some_iff.mp h
      cases heq
      obtain ⟨body, hbody, rfl⟩ := closeBlock_eq_some hclose
      exact .blockComment rest hbody
    · cases h
  · rintro ⟨rfl, h⟩
    generalize hkind : TokenKind.comment = kind at h
    cases h with
    | @lineComment body rest hbody hrest =>
      have hpos : ∀ c ∈ body, (c != '\n') = true := by
        intro c hc
        exact bne_iff_ne.mpr fun heq => hbody (heq ▸ hc)
      have hstop : rest.takeWhile (· != '\n') = [] ∧ rest.dropWhile (· != '\n') = rest := by
        cases rest with
        | nil => exact ⟨rfl, rfl⟩
        | cons c rest => simp [hrest c rfl]
      simp only [comment?, List.cons_append, List.takeWhile_append_of_pos hpos,
        List.dropWhile_append_of_pos hpos, hstop, List.append_nil]
    | @blockComment body rest hbody =>
      have hclose := closeBlock_append_close hbody rest
      simp [comment?, hclose]
    | separator => cases hkind
    | word => split at hkind <;> cases hkind

/-- There is no comment in front of a text that starts none or that starts a block comment without
an end. -/
theorem comment?_eq_none_iff {cs : List Char} :
    comment? cs = none ↔
      ¬ ['/', '/'] <+: cs ∧ (['/', '*'] <+: cs → ¬ Closes (cs.drop 2)) := by
  unfold comment?
  split
  · simp
  · rename_i cs
    simp [closeBlock_eq_none_iff]
  · rename_i hline hblock
    simp only [true_iff]
    refine ⟨?_, ?_⟩
    · rintro ⟨more, rfl⟩
      exact hline more rfl
    · rintro ⟨more, rfl⟩
      exact absurd rfl (hblock more)

/-! ## One lexeme at a place -/

/-- The characters of a word are all that stand in front of its end. -/
theorem takeWhile_isWordChar {text rest : List Char} (hword : ∀ c ∈ text, isWordChar c)
    (hrest : EndsWord rest) :
    (text ++ rest).takeWhile isWordChar = text ∧ (text ++ rest).dropWhile isWordChar = rest := by
  rw [List.takeWhile_append_of_pos hword, List.dropWhile_append_of_pos hword]
  cases rest with
  | nil => simp
  | cons c rest => simp [hrest c rfl]

/-- Two characters that can be in a word and start a text start the word in front of that text. -/
theorem prefix_of_prefix_append {a b : Char} {text rest : List Char} (hb : isWordChar b)
    (hne : text ≠ []) (hrest : EndsWord rest) (h : [a, b] <+: text ++ rest) : [a, b] <+: text := by
  obtain ⟨c, text, rfl⟩ := List.exists_cons_of_ne_nil hne
  rw [List.cons_append, List.cons_prefix_cons] at h
  rw [List.cons_prefix_cons]
  refine ⟨h.1, ?_⟩
  cases text with
  | nil =>
    obtain ⟨more, rfl⟩ := h.2
    have hstop := hrest b rfl
    rw [hb] at hstop
    cases hstop
  | cons d text => simpa using h.2

/-- A word is not taken for a comment. -/
theorem comment?_of_word {text rest : List Char} (hne : text ≠ []) (hrest : EndsWord rest)
    (hline : ¬ ['/', '/'] <+: text) (hblock : ['/', '*'] <+: text → ¬ Closes ((text ++ rest).drop 2)) :
    comment? (text ++ rest) = none := by
  rw [comment?_eq_none_iff]
  constructor
  · exact fun h => hline (prefix_of_prefix_append (by decide) hne hrest h)
  · exact fun h => hblock (prefix_of_prefix_append (by decide) hne hrest h)

/-- The lexer finds the one lexeme at the head of a text that starts with no blank. -/
theorem lexeme_eq_iff {c : Char} {cs : List Char} (hc : isBlank c = false) {kind : TokenKind}
    {text rest : List Char} :
    lexeme c cs = (kind, text, rest) ↔ text ++ rest = c :: cs ∧ Lexeme kind text rest := by
  constructor
  · intro h
    have happ := lexeme_append c cs
    rw [h] at happ
    refine ⟨happ, ?_⟩
    unfold lexeme at h
    split at h
    next hcomment =>
      cases h
      exact (comment?_eq_some_iff.mp hcomment).2
    next hcomment =>
      split at h
      next hsep =>
        cases h
        exact .separator _ hsep
      next hsep =>
        cases h
        have hchar : isWordChar c := by simp [isWordChar, hc, hsep]
        obtain ⟨hline, hblock⟩ := comment?_eq_none_iff.mp hcomment
        rw [← happ] at hline hblock
        refine .word (by simp) ?_ ?_ (fun h => hline (h.trans (List.prefix_append _ _)))
          fun h => hblock (h.trans (List.prefix_append _ _))
        · exact List.forall_mem_cons.mpr ⟨hchar, fun x hx => List.mem_takeWhile_imp hx⟩
        · intro x hx
          have hhead := List.head?_dropWhile_not isWordChar cs
          rw [hx] at hhead
          simpa using hhead
  · rintro ⟨happ, h⟩
    unfold lexeme
    cases h with
    | lineComment hbody hrest => rw [comment?_eq_some_iff.mpr ⟨happ, .lineComment hbody hrest⟩]
    | blockComment rest hbody => rw [comment?_eq_some_iff.mpr ⟨happ, .blockComment rest hbody⟩]
    | separator rest hsep =>
      cases happ
      have hnone : comment? (c :: rest) = none := by
        have hslash : c ≠ '/' := by
          rintro rfl
          exact absurd hsep (by decide)
        rw [comment?_eq_none_iff, List.cons_prefix_cons, List.cons_prefix_cons]
        exact ⟨fun h => hslash h.1.symm, fun h => absurd h.1.symm hslash⟩
      simp [hnone, hsep]
    | word hne hword hrest hline hblock =>
      rw [← happ, comment?_of_word hne hrest hline hblock]
      obtain ⟨d, text, rfl⟩ := List.exists_cons_of_ne_nil hne
      cases happ
      rw [List.forall_mem_cons] at hword
      have hsep : isSeparator c = false := by
        have hchar := hword.1
        simp only [isWordChar, Bool.and_eq_true, Bool.not_eq_true'] at hchar
        exact hchar.2
      obtain ⟨htake, hdrop⟩ := takeWhile_isWordChar hword.2 hrest
      simp [hsep, htake, hdrop, wordKind]

/-- A lexeme that does not start with a blank is the one that the lexer finds. -/
theorem Lexeme.lexeme_eq {kind : TokenKind} {c : Char} {cs rest : List Char}
    (h : Lexeme kind (c :: cs) rest) (hc : isBlank c = false) :
    lexeme c (cs ++ rest) = (kind, c :: cs, rest) :=
  (lexeme_eq_iff hc).mpr ⟨rfl, h⟩

/-! ## Decompositions -/

/-- The tokens of a text whose first character has the given offset. -/
structure Decomposes (offset : Nat) (cs : List Char) (ts : List Token) : Prop where
  nonempty : ∀ t ∈ ts, t.span.start < t.span.stop
  ordered : ts.Pairwise fun t u => t.span.stop ≤ u.span.start
  /-- A token begins and ends between characters, and is one of the lexemes. -/
  lexeme : ∀ t ∈ ts, ∃ before text after, cs = before ++ (text ++ after) ∧ t.text = .ofList text ∧
    t.span = ⟨offset + byteSize before, offset + byteSize (before ++ text)⟩ ∧
    Lexeme t.kind text after
  /-- A byte outside of all tokens is one of a blank. -/
  blank : ∀ before c after, cs = before ++ c :: after → ∀ i < c.utf8Size,
    (∀ t ∈ ts, ¬ t.span.Covers (offset + byteSize before + i)) → isBlank c

section

variable {offset : Nat} {c : Char} {cs : List Char} {ts : List Token}

theorem decomposes_nil_iff : Decomposes offset [] ts ↔ ts = [] := by
  constructor
  · intro h
    cases ts with
    | nil => rfl
    | cons t ts =>
      obtain ⟨before, text, after, hcs, -, -, hlexeme⟩ := h.lexeme t List.mem_cons_self
      obtain ⟨c, cs, rfl, -⟩ := hlexeme.exists_cons
      simp at hcs
  · rintro rfl
    exact ⟨by simp, .nil, by simp, by simp⟩

/-- A blank in front changes nothing but the offset. -/
theorem decomposes_blank_iff (hc : isBlank c) :
    Decomposes offset (c :: cs) ts ↔ Decomposes (offset + c.utf8Size) cs ts := by
  constructor
  · intro h
    refine ⟨h.nonempty, h.ordered, fun t ht => ?_, ?_⟩
    · obtain ⟨before, text, after, hcs, htext, hspan, hlexeme⟩ := h.lexeme t ht
      cases before with
      | nil =>
        obtain ⟨d, text, rfl, hd⟩ := hlexeme.exists_cons
        cases hcs
        rw [hc] at hd
        cases hd
      | cons d before =>
        cases hcs
        exact ⟨before, text, after, rfl, htext, by simp [hspan, Nat.add_assoc], hlexeme⟩
    · rintro before d after rfl i hi hout
      refine h.blank (c :: before) d after rfl i hi ?_
      simpa [Nat.add_assoc] using hout
  · intro h
    refine ⟨h.nonempty, h.ordered, fun t ht => ?_, ?_⟩
    · obtain ⟨before, text, after, rfl, htext, hspan, hlexeme⟩ := h.lexeme t ht
      exact ⟨c :: before, text, after, rfl, htext, by simp [hspan, Nat.add_assoc], hlexeme⟩
    · intro before d after hcs i hi hout
      cases before with
      | nil =>
        cases hcs
        exact hc
      | cons b before =>
        cases hcs
        exact h.blank before d after rfl i hi (by simpa [Nat.add_assoc] using hout)

/-- Tokens start behind the start of the text. -/
theorem Decomposes.le_start (h : Decomposes offset cs ts) {t : Token} (ht : t ∈ ts) :
    offset ≤ t.span.start := by
  obtain ⟨before, _, _, -, -, hspan, -⟩ := h.lexeme t ht
  rw [hspan]
  exact Nat.le_add_right offset _

variable {kind : TokenKind} {text rest : List Char}

/-- The token whose lexeme stands at the head of a text. -/
def tokenAt (offset : Nat) (kind : TokenKind) (text : List Char) : Token :=
  ⟨kind, .ofList text, ⟨offset, offset + byteSize text⟩⟩

/-- The first character of a lexeme belongs to a token, which can only be the lexeme. -/
theorem Decomposes.head_mem (h : Decomposes offset (text ++ rest) ts) (hhead : Lexeme kind text rest) :
    tokenAt offset kind text ∈ ts := by
  obtain ⟨c, cs, rfl, hc⟩ := hhead.exists_cons
  obtain ⟨t, ht, hstart, hstop⟩ : ∃ t ∈ ts, t.span.Covers offset := by
    by_contra hout
    have hblank := h.blank [] c (cs ++ rest) rfl 0 c.utf8Size_pos
      fun t ht hcovers => hout ⟨t, ht, hcovers⟩
    rw [hc] at hblank
    cases hblank
  obtain ⟨before, text, after, hcs, htext, hspan, hlexeme⟩ := h.lexeme t ht
  have hbefore : before = [] := by
    rw [← byteSize_eq_zero_iff]
    rw [hspan] at hstart
    simp only at hstart
    omega
  subst hbefore
  rw [List.cons_append, List.nil_append] at hcs
  have hunique := ((lexeme_eq_iff hc).mpr ⟨hcs.symm, hlexeme⟩).symm.trans (hhead.lexeme_eq hc)
  rw [Prod.mk.injEq, Prod.mk.injEq] at hunique
  obtain ⟨hkind, rfl, -⟩ := hunique
  have htoken : t = tokenAt offset kind (c :: cs) := by
    cases t
    cases hkind
    cases htext
    cases hspan
    rfl
  exact htoken ▸ ht

/-- Nothing can stand in front of the lexeme at the head of a text. -/
theorem Decomposes.exists_cons (h : Decomposes offset (text ++ rest) ts)
    (hhead : Lexeme kind text rest) : ∃ us, ts = tokenAt offset kind text :: us := by
  have hmem := h.head_mem hhead
  cases ts with
  | nil => cases hmem
  | cons u us =>
    rcases List.mem_cons.mp hmem with rfl | hlater
    · exact ⟨us, rfl⟩
    · have hlt := h.nonempty u List.mem_cons_self
      have hle := h.le_start (List.mem_cons_self (a := u))
      have hge := (List.pairwise_cons.mp h.ordered).1 _ hlater
      simp only [tokenAt] at hge
      omega

/-- Without its first token, a decomposition is one of what is left of the text. -/
theorem Decomposes.tail {us : List Token}
    (h : Decomposes offset (text ++ rest) (tokenAt offset kind text :: us)) :
    Decomposes (offset + byteSize text) rest us := by
  obtain ⟨hstart, hordered⟩ := List.pairwise_cons.mp h.ordered
  refine ⟨fun t ht => h.nonempty t (List.mem_cons_of_mem _ ht), hordered, fun t ht => ?_, ?_⟩
  · obtain ⟨before, word, after, hcs, htext, hspan, hlexeme⟩ :=
      h.lexeme t (List.mem_cons_of_mem _ ht)
    have hle : byteSize text ≤ byteSize before := by
      have hge := hstart t ht
      rw [hspan] at hge
      simpa [tokenAt] using hge
    obtain ⟨between, rfl, rfl⟩ := exists_append_of_byteSize_le hcs hle
    exact ⟨between, word, after, rfl, htext, by simp [hspan, Nat.add_assoc], hlexeme⟩
  · rintro before c after rfl i hi hout
    refine h.blank (text ++ before) c after (by simp) i hi (List.forall_mem_cons.mpr ⟨?_, ?_⟩)
    · rintro ⟨-, hstop⟩
      simp only [tokenAt, byteSize_append] at hstop
      omega
    · simpa [Nat.add_assoc] using hout

/-- A decomposition may be extended by a lexeme in front of it. -/
theorem Decomposes.cons {us : List Token} (hhead : Lexeme kind text rest)
    (h : Decomposes (offset + byteSize text) rest us) :
    Decomposes offset (text ++ rest) (tokenAt offset kind text :: us) := by
  refine ⟨List.forall_mem_cons.mpr ⟨?_, h.nonempty⟩,
    List.pairwise_cons.mpr ⟨fun t ht => h.le_start ht, h.ordered⟩,
    List.forall_mem_cons.mpr ⟨?_, fun t ht => ?_⟩, ?_⟩
  · exact Nat.lt_add_of_pos_right hhead.byteSize_pos
  · exact ⟨[], text, rest, rfl, rfl, rfl, hhead⟩
  · obtain ⟨before, word, after, rfl, htext, hspan, hlexeme⟩ := h.lexeme t ht
    exact ⟨text ++ before, word, after, by simp, htext, by simp [hspan, Nat.add_assoc], hlexeme⟩
  · intro before c after hcs i hi hout
    rw [List.forall_mem_cons] at hout
    -- The bytes of the lexeme itself are covered, so the character stands behind it.
    have hle : byteSize text ≤ byteSize before := by
      by_contra hlt
      obtain ⟨between, hbetween, hafter⟩ := exists_append_of_byteSize_le hcs.symm (by omega)
      cases between with
      | nil => simp [hbetween] at hlt
      | cons d between =>
        cases hafter
        refine hout.1 ⟨by simp only [tokenAt]; omega, ?_⟩
        simp only [tokenAt, hbetween, byteSize_append, byteSize_cons]
        omega
    obtain ⟨between, rfl, rfl⟩ := exists_append_of_byteSize_le hcs hle
    exact h.blank between c after rfl i hi (by simpa [Nat.add_assoc] using hout.2)

/-- The decompositions of a text that starts with a lexeme all start with its token. -/
theorem decomposes_lexeme_iff (hhead : Lexeme kind text rest) :
    Decomposes offset (text ++ rest) ts ↔
      ∃ us, ts = tokenAt offset kind text :: us ∧ Decomposes (offset + byteSize text) rest us := by
  constructor
  · intro h
    obtain ⟨us, rfl⟩ := h.exists_cons hhead
    exact ⟨us, rfl, h.tail⟩
  · rintro ⟨us, rfl, h⟩
    exact h.cons hhead

/-- A lexeme at the head of a text is its first token. -/
theorem tokensFrom_of_lexeme (h : Lexeme kind text rest) :
    tokensFrom offset (text ++ rest) =
      tokenAt offset kind text :: tokensFrom (offset + byteSize text) rest := by
  obtain ⟨c, cs, rfl, hc⟩ := h.exists_cons
  rw [List.cons_append, tokensFrom]
  simp [hc, h.lexeme_eq hc, tokenAt]

/-- The lexer skips a blank. -/
theorem tokensFrom_of_isBlank (hc : isBlank c) :
    tokensFrom offset (c :: cs) = tokensFrom (offset + c.utf8Size) cs := by
  rw [tokensFrom, if_pos hc]

/-- A text is empty, or starts with a blank or with a lexeme. -/
theorem lexeme_induction {motive : Nat → List Char → Prop} (nil : ∀ offset, motive offset [])
    (blank : ∀ offset c cs, isBlank c → motive (offset + c.utf8Size) cs → motive offset (c :: cs))
    (lexeme : ∀ offset kind text rest, Lexeme kind text rest →
      motive (offset + byteSize text) rest → motive offset (text ++ rest))
    (offset : Nat) (cs : List Char) : motive offset cs := by
  fun_induction tokensFrom offset cs with
  | case1 offset => exact nil offset
  | case2 offset c cs hc ih => exact blank offset c cs hc ih
  | case3 offset c cs hc stop ih =>
    obtain ⟨happ, hhead⟩ := (lexeme_eq_iff (by simpa using hc)).mp
      (rfl : Lexer.lexeme c cs = (_, _, _))
    rw [← happ]
    exact lexeme offset _ _ _ hhead ih

/-- Every text is decomposed by the tokens of the lexer, and by no others. -/
theorem decomposes_iff : Decomposes offset cs ts ↔ ts = tokensFrom offset cs := by
  induction offset, cs using lexeme_induction generalizing ts with
  | nil offset => rw [decomposes_nil_iff, tokensFrom]
  | blank offset c cs hc ih =>
    rw [decomposes_blank_iff hc, tokensFrom_of_isBlank hc]
    exact ih
  | lexeme offset kind text rest hhead ih =>
    rw [decomposes_lexeme_iff hhead, tokensFrom_of_lexeme hhead]
    constructor
    · rintro ⟨us, rfl, hus⟩
      rw [ih.mp hus]
    · rintro rfl
      exact ⟨_, rfl, ih.mpr rfl⟩

end

end Lexer

/-- The tokens of a source decompose it. -/
theorem Source.decomposes_tokens (s : Source) : Lexer.Decomposes 0 s.chars s.tokens :=
  Lexer.decomposes_iff.mpr rfl

/-- Where a token stands in the text. -/
theorem Source.exists_lexeme {s : Source} {t : Token} (ht : t ∈ s.tokens) :
    ∃ before after, s.chars = before ++ (t.text.toList ++ after) ∧
      t.span = ⟨Text.byteSize before, Text.byteSize (before ++ t.text.toList)⟩ ∧
      Lexer.Lexeme t.kind t.text.toList after := by
  obtain ⟨before, text, after, hchars, htext, hspan, hlexeme⟩ := s.decomposes_tokens.lexeme t ht
  rw [htext, String.toList_ofList]
  exact ⟨before, after, hchars, by simpa using hspan, hlexeme⟩

/-- Tokens are non-empty, follow each other and leave out nothing but blanks, and each is a comment, a
separator or a whole word. No other list of tokens is like that. -/
theorem Source.decomposes_iff_tokens (s : Source) (ts : List Token) :
    Lexer.Decomposes 0 s.chars ts ↔ ts = s.tokens :=
  Lexer.decomposes_iff

end Axiomata
