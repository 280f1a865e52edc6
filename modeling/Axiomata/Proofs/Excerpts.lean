import Axiomata.Proofs.Positions

/-!
# Excerpts show the right text

Lines are cut at two entries of the line table, and positions are found by searching it. They fit
together: the line of a position is made of what stands between the newlines around it
(`Source.line_eq`, `Text.lineAfter_append`), and the column counts the characters of that line in
front of it. So the carets of an excerpt stand under the characters of the token.
-/

namespace Axiomata

/-! ## Lines -/

namespace Text

/-- There is one more line than there are newlines, and the newlines between the lines are all that
they lack. -/
theorem intercalate_lineAfter (cs : List Char) :
    ['\n'].intercalate ((List.range (cs.count '\n' + 1)).map fun n => lineAfter n cs) = cs := by
  have hlines : (List.range (cs.count '\n' + 1)).map (fun n => lineAfter n cs) =
      cs.splitOn '\n' := by
    refine List.ext_getElem (by simp [length_splitOn_newline]) fun n _ hn => ?_
    simp [lineAfter_eq_splitOn, hn]
  rw [hlines, List.intercalate_splitOn]

/-- A line ends in front of its line break. -/
theorem newline_notMem_lineAfter (n : Nat) (cs : List Char) : '\n' ∉ lineAfter n cs := by
  fun_induction lineAfter n cs with
  | case1 cs =>
    intro hmem
    exact absurd (List.mem_takeWhile_imp hmem) (by decide)
  | case2 => exact List.not_mem_nil
  | case3 n cs ih => exact ih
  | case4 n c cs _ ih => exact ih

end Text

/-- Comments apart, a token stands on one line. -/
theorem Lexer.Lexeme.newline_notMem {kind : TokenKind} {text rest : List Char}
    (h : Lexeme kind text rest) (hkind : kind ≠ .comment) : '\n' ∉ text := by
  cases h with
  | lineComment => exact absurd rfl hkind
  | blockComment => exact absurd rfl hkind
  | separator rest hc =>
    rw [List.mem_singleton]
    rintro rfl
    exact absurd hc (by decide)
  | word _ hword =>
    intro hmem
    exact absurd (hword '\n' hmem) (by decide)

namespace Source

open Text

variable {s : Source}

/-- The text of a token is what stands at its span. -/
theorem slice_of_mem_tokens {t : Token} (ht : t ∈ s.tokens) : s.slice t.span = t.text := by
  obtain ⟨before, after, hchars, hspan, -⟩ := exists_lexeme ht
  rw [slice, hspan, hchars, charsBetween_append, String.ofList_toList]

/-- So there is something to underline. -/
theorem length_pos_of_mem_tokens {t : Token} (ht : t ∈ s.tokens) : 0 < t.text.length := by
  obtain ⟨_, _, -, -, hlexeme⟩ := exists_lexeme ht
  obtain ⟨c, cs, htext, -⟩ := hlexeme.exists_cons
  rw [← String.length_toList, htext]
  exact Nat.succ_pos _

/-- A token and what stands in front of it and behind it on the line on which it begins. -/
theorem exists_line_eq {t : Token} (ht : t ∈ s.tokens) (hcomment : t.isComment = false) :
    ∃ front back : String, s.line (s.position t.span.start).line = front ++ t.text ++ back ∧
      (s.position t.span.start).column = front.length + 1 := by
  obtain ⟨before, after, hchars, hspan, hlexeme⟩ := exists_lexeme ht
  have htext : ∀ c ∈ t.text.toList, (c != '\n') = true := by
    intro c hc
    refine bne_iff_ne.mpr ?_
    rintro rfl
    exact hlexeme.newline_notMem (by simpa [Token.isComment] using hcomment) hc
  have hposition : s.position t.span.start = .behind before := by
    rw [hspan, position_byteSize hchars]
  refine ⟨.ofList (before.rtakeWhile (· != '\n')), .ofList (after.takeWhile (· != '\n')), ?_, ?_⟩
  · rw [hposition, Position.behind_eq, line_eq, hchars, lineAfter_append,
      List.takeWhile_append_of_pos htext, String.ofList_append, String.ofList_append,
      String.ofList_toList, String.append_assoc]
  · rw [hposition, Position.behind_eq, String.length_ofList]

theorem newline_notMem_line (s : Source) (n : Nat) : '\n' ∉ (s.line n).toList := by
  cases n with
  | zero => simp [line]
  | succ n =>
    rw [line_eq, String.toList_ofList]
    exact newline_notMem_lineAfter n s.chars

/-- The lines of a source, with line breaks between them, are its text. -/
theorem lines_eq (s : Source) :
    "\n".intercalate ((List.range (s.chars.count '\n' + 1)).map fun n => s.line (n + 1)) =
      .ofList s.chars := by
  have hline : (String.toList ∘ fun n => s.line (n + 1)) = fun n => lineAfter n s.chars := by
    funext n
    simp [line_eq]
  rw [← String.toList_inj, String.toList_ofList, String.toList_intercalate, List.map_map, hline]
  exact intercalate_lineAfter s.chars

/-- The lines of a source, with newlines between them, are its text. A token other than a comment
stands on the line on which it begins from its column on, so the carets below that line are under the
characters of the token and under no others. -/
theorem excerpts_underline_tokens (s : Source) :
    "\n".intercalate ((List.range (s.chars.count '\n' + 1)).map fun n => s.line (n + 1)) =
        .ofList s.chars ∧
      ∀ t ∈ s.tokens, t.isComment = false →
        let p := s.position t.span.start
        ∃ front back : String, s.line p.line = front ++ t.text ++ back ∧
          '\n' ∉ (s.line p.line).toList ∧ p.column = front.length + 1 ∧
          s.excerpt t.span =
            s.name ++ ":" ++ toString p.line ++ ":" ++ toString p.column ++ "\n\n" ++
            (front ++ t.text ++ back) ++ "\n" ++
            String.ofList (List.replicate front.length ' ') ++
            String.ofList (List.replicate t.text.length '^') ++ "\n" := by
  refine ⟨s.lines_eq, ?_⟩
  intro t ht hcomment p
  obtain ⟨front, back, hline, hcolumn⟩ := exists_line_eq ht hcomment
  refine ⟨front, back, hline, s.newline_notMem_line p.line, hcolumn, ?_⟩
  have hcarets : max 1 t.text.length = t.text.length :=
    Nat.max_eq_right (length_pos_of_mem_tokens ht)
  have hspaces : p.column - 1 = front.length := by
    rw [hcolumn, Nat.add_sub_cancel]
  simp only [excerpt, slice_of_mem_tokens ht, hcarets]
  rw [hline, hspaces]

/-- A word on the last line of a comment, with characters of several bytes in front of it and in it,
and a carriage return behind it. -/
theorem excerpts_underline_tokens_behind_comment :
    let s := Source.ofText "note" "/*\n∃*/ ∀x,y\r"
    let t : Token := ⟨.word, "∀x", ⟨9, 13⟩⟩
    t ∈ s.tokens ∧ t.isComment = false ∧
      (∃ front back : String, s.line 2 = front ++ "∀x" ++ back ∧ front.length = 4) ∧
      s.excerpt t.span = "note:2:5\n\n∃*/ ∀x,y\r\n    ^^\n" := by
  intro s t
  have ht : t ∈ s.tokens := by decide +kernel
  have hposition : s.position 9 = ⟨2, 5⟩ := by decide +kernel
  obtain ⟨front, back, hline, -, hcolumn, -⟩ := s.excerpts_underline_tokens.2 t ht rfl
  rw [hposition] at hline hcolumn
  exact ⟨ht, rfl, ⟨front, back, hline, Nat.succ.inj hcolumn.symm⟩, by decide +kernel⟩

end Source

end Axiomata
