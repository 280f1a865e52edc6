import Axiomata.Proofs.Decomposition
import Axiomata.Proofs.Relocation

/-!
# Tokens written one behind the other

Words and separators that are written without blanks are cut as they were put together, as long as no
two words meet and none of them becomes part of a comment. A word may start like a block comment, so
what matters is whether some word behind it holds an end of comment (`Lexer.Legible`). Words that were
cut from a text, taken in their order, are legible (`Lexer.Decomposes.legible`), and separators between
them make no new end of comment (`Lexer.Spaced.lexed`).
-/

namespace Axiomata

/-- The text of tokens that are written one behind the other. -/
def Token.chars (ts : List Token) : List Char := ts.flatMap fun t => t.text.toList

@[simp] theorem Token.chars_nil : chars [] = [] := rfl

@[simp] theorem Token.chars_cons (t : Token) (ts : List Token) :
    chars (t :: ts) = t.text.toList ++ chars ts := rfl

namespace Lexer

/-! ## Ends of comments -/

/-- A block comment stays closed whatever follows. -/
theorem Closes.append_right {cs : List Char} (h : Closes cs) (ds : List Char) : Closes (cs ++ ds) :=
  h.trans (List.prefix_append cs ds).isInfix

/-- What closes a block comment does so further on. -/
theorem Closes.append_left {ds : List Char} (h : Closes ds) (cs : List Char) : Closes (cs ++ ds) :=
  h.trans (List.suffix_append cs ds).isInfix

/-- An end of comment does not go past the end of a word. -/
theorem closes_append_iff {cs ds : List Char} (hds : EndsWord ds) :
    Closes (cs ++ ds) ↔ Closes cs ∨ Closes ds := by
  refine ⟨fun h => ?_, fun h => h.elim (·.append_right ds) (·.append_left cs)⟩
  induction cs with
  | nil => exact .inr h
  | cons c cs ih =>
    rw [List.cons_append, closes_cons_iff] at h
    rw [closes_cons_iff]
    rcases h with ⟨rfl, rest, hrest⟩ | h
    · cases cs with
      | nil =>
        have hslash := hds '/' (by rw [List.nil_append] at hrest; simp [hrest])
        exact absurd hslash (by decide)
      | cons d cs =>
        rw [List.cons_append, List.cons.injEq] at hrest
        exact .inl (.inl ⟨rfl, cs, by rw [hrest.1]⟩)
    · exact (ih h).imp_left .inr

/-! ## Words -/

/-- A word is what is neither a keyword nor a comment, up to a character that does not belong to it.
-/
theorem lexeme_word_iff {text rest : List Char} :
    Lexeme .word text rest ↔
      isKeyword (.ofList text) = false ∧ text ≠ [] ∧ (∀ c ∈ text, isWordChar c) ∧ EndsWord rest ∧
        ¬ ['/', '/'] <+: text ∧ (['/', '*'] <+: text → ¬ Closes ((text ++ rest).drop 2)) := by
  constructor
  · intro h
    generalize hkind : TokenKind.word = kind at h
    cases h with
    | lineComment => cases hkind
    | blockComment => cases hkind
    | separator => cases hkind
    | word hne hword hrest hline hblock =>
      refine ⟨?_, hne, hword, hrest, hline, hblock⟩
      split at hkind
      · cases hkind
      · exact Bool.eq_false_iff.mpr ‹_›
  · rintro ⟨hkey, hne, hword, hrest, hline, hblock⟩
    have h := Lexeme.word hne hword hrest hline hblock
    rwa [hkey] at h

/-- Words in the order of a text. Each of them is a word by itself, and one that opens a comment has
none behind it that would close the comment. -/
structure Legible (ws : List Token) : Prop where
  word : ∀ w ∈ ws, Lexeme .word w.text.toList []
  unclosed : ws.Pairwise fun v w => ['/', '*'] <+: v.text.toList → ¬ Closes w.text.toList

/-- The separators between words are of one character, and no word follows another. -/
inductive Spaced : List Token → Prop
  | nil : Spaced []
  | separator {c : Char} {t : Token} {ts : List Token} (hc : isSeparator c)
    (hkind : t.kind = .separator) (htext : t.text.toList = [c]) (hts : Spaced ts) : Spaced (t :: ts)
  | word {t : Token} {ts : List Token} (ht : t.isWord) (hnext : Reader.seesWord ts = false)
    (hts : Spaced ts) : Spaced (t :: ts)

/-- Each token is a lexeme in front of those that follow. -/
inductive Lexed : List Token → Prop
  | nil : Lexed []
  | cons {t : Token} {ts : List Token} (ht : Lexeme t.kind t.text.toList (Token.chars ts))
    (hts : Lexed ts) : Lexed (t :: ts)

/-- Nothing but the places of tokens is lost by writing them. -/
theorem Lexed.tokensFrom_chars {ts : List Token} (h : Lexed ts) (offset : Nat) (span : Span) :
    (tokensFrom offset (Token.chars ts)).map (Token.relocate fun _ => span) =
      ts.map (Token.relocate fun _ => span) := by
  induction h generalizing offset with
  | nil => simp [tokensFrom]
  | cons ht _ ih =>
    rw [Token.chars_cons, tokensFrom_of_lexeme ht, List.map_cons, List.map_cons, ih]
    simp [Token.relocate, tokenAt]

namespace Spaced

variable {ts : List Token}

/-- A word ends in front of spaced tokens that do not start with another. -/
theorem endsWord (h : Spaced ts) (hnext : Reader.seesWord ts = false) :
    EndsWord (Token.chars ts) := by
  intro x hx
  cases h with
  | nil => cases hx
  | separator hc _ htext _ =>
    rw [Token.chars_cons, htext] at hx
    cases hx
    simp [isWordChar, hc]
  | word ht _ _ =>
    rw [Reader.seesWord, List.head?_cons, Option.any_some, ht] at hnext
    cases hnext

/-- An end of comment among the tokens is part of a word. -/
theorem exists_closes (h : Spaced ts) (hclose : Closes (Token.chars ts)) :
    ∃ w ∈ ts.filter Token.isWord, Closes w.text.toList := by
  induction h with
  | nil => exact absurd hclose not_closes_nil
  | @separator c t ts hc hkind htext _ ih =>
    have hstar : c ≠ '*' := by
      rintro rfl
      exact absurd hc (by decide)
    rw [Token.chars_cons, htext, List.singleton_append, closes_cons_iff] at hclose
    obtain ⟨w, hw, hclose⟩ := ih (hclose.resolve_left fun h => hstar h.1)
    exact ⟨w, (List.sublist_cons_self t ts).filter _ |>.subset hw, hclose⟩
  | @word t ts ht hnext hts ih =>
    rw [List.filter_cons_of_pos ht]
    rcases (closes_append_iff (hts.endsWord hnext)).mp hclose with hclose | hclose
    · exact ⟨t, List.mem_cons_self, hclose⟩
    · obtain ⟨w, hw, hclose⟩ := ih hclose
      exact ⟨w, List.mem_cons_of_mem t hw, hclose⟩

/-- Legible words with separators between them can be written without blanks. -/
theorem lexed (h : Spaced ts) (hws : Legible (ts.filter Token.isWord)) : Lexed ts := by
  induction h with
  | nil => exact .nil
  | @separator c t ts hc hkind htext _ ih =>
    have hword : t.isWord = false := by simp [Token.isWord, hkind]
    rw [List.filter_cons_of_neg (by simp [hword])] at hws
    refine .cons ?_ (ih hws)
    rw [hkind, htext]
    exact .separator _ hc
  | @word t ts ht hnext hts ih =>
    rw [List.filter_cons_of_pos ht] at hws
    obtain ⟨hlexeme, hlater⟩ := List.forall_mem_cons.mp hws.word
    obtain ⟨hunclosed, hpairs⟩ := List.pairwise_cons.mp hws.unclosed
    refine .cons ?_ (ih ⟨hlater, hpairs⟩)
    have hends := hts.endsWord hnext
    obtain ⟨hkey, hne, hword, -, hline, hblock⟩ := lexeme_word_iff.mp hlexeme
    rw [beq_iff_eq.mp ht]
    refine lexeme_word_iff.mpr ⟨hkey, hne, hword, hends, hline, fun hopen hclose => ?_⟩
    -- The end of the comment is in this word or in one behind it, and both are ruled out.
    obtain ⟨more, hmore⟩ := id hopen
    have hown := hblock hopen
    simp only [← hmore, List.append_nil, List.cons_append, List.nil_append, List.drop_succ_cons,
      List.drop_zero] at hown hclose
    rcases (closes_append_iff hends).mp hclose with hclose | hclose
    · exact hown hclose
    · obtain ⟨w, hw, hclose⟩ := hts.exists_closes hclose
      exact hunclosed w hw hopen hclose

end Spaced

/-- What a word was followed by in a text holds no end of the comment that it may seem to open. -/
theorem Decomposes.legible {cs : List Char} {ts ws : List Token} (h : Decomposes 0 cs ts)
    (hws : ws.Sublist ts) (hword : ∀ w ∈ ws, w.isWord) : Legible ws := by
  have hlexeme : ∀ w ∈ ws, ∃ before after, cs = before ++ (w.text.toList ++ after) ∧
      w.span = ⟨Text.byteSize before, Text.byteSize (before ++ w.text.toList)⟩ ∧
      Lexeme .word w.text.toList after := by
    intro w hw
    obtain ⟨before, text, after, hcs, htext, hspan, hlexeme⟩ := h.lexeme w (hws.subset hw)
    have hkind : w.kind = .word := beq_iff_eq.mp (hword w hw)
    rw [htext, String.toList_ofList]
    exact ⟨before, after, hcs, by simpa using hspan, hkind ▸ hlexeme⟩
  have hunclosed {text after : List Char} (hlexeme : Lexeme .word text after) {more : List Char}
      (hmore : ['/', '*'] ++ more = text) : ¬ Closes (more ++ after) := by
    have hblock := (lexeme_word_iff.mp hlexeme).2.2.2.2.2 ⟨more, hmore⟩
    simpa [← hmore] using hblock
  constructor
  · intro w hw
    obtain ⟨before, after, -, -, hlex⟩ := hlexeme w hw
    obtain ⟨hkey, hne, hchars, -, hline, -⟩ := lexeme_word_iff.mp hlex
    refine lexeme_word_iff.mpr ⟨hkey, hne, hchars, by simp [EndsWord], hline, ?_⟩
    rintro ⟨more, hmore⟩ hclose
    refine hunclosed hlex hmore (Closes.append_right ?_ after)
    simpa [← hmore] using hclose
  · refine (h.ordered.sublist hws).imp_of_mem fun {v w} hv hw hle => ?_
    obtain ⟨before, after, hcs, hspan, hlex⟩ := hlexeme v hv
    obtain ⟨before', after', hcs', hspan', -⟩ := hlexeme w hw
    rw [hspan, hspan'] at hle
    rw [hcs, ← List.append_assoc] at hcs'
    obtain ⟨between, -, rfl⟩ := Text.exists_append_of_byteSize_le hcs' hle
    rintro ⟨more, hmore⟩ hclose
    exact hunclosed hlex hmore (((hclose.append_right after').append_left between).append_left more)

end Lexer

end Axiomata
