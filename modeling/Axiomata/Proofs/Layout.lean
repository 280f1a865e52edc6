import Axiomata.Proofs.Decomposition
import Axiomata.Proofs.Lines
import Axiomata.Proofs.Relocation
import Mathlib.Data.List.Nodup

/-!
# Layout does not matter

Two texts with the same tokens, but for comments and for where the tokens stand, are read and compiled
alike. When each token is moved to its place in the list of tokens, the two lists become one, so all
that is made from them agrees up to these places. What is left is the order of faults, which are sorted
by lines and columns: the position of a token grows with its place in the list, however lines are
broken and whatever characters are in between (`Source.extent_le`).
-/

namespace Axiomata

/-! ## Positions grow -/

namespace Position

theorem le_refl (p : Position) : p.le p := by simp [le]

/-- Any two positions are in order, one way or the other. -/
theorem le_of_not_le {p q : Position} (h : q.le p = false) : p.le q := by
  simp only [le, Bool.or_eq_false_iff, Bool.and_eq_false_iff, decide_eq_false_iff_not,
    beq_eq_false_iff_ne, Bool.or_eq_true, Bool.and_eq_true, decide_eq_true_eq, beq_iff_eq] at h ⊢
  omega

/-- A character leads behind all positions up to the one in front of it. -/
theorem next_not_le {p q : Position} (h : p.le q) (c : Char) : (q.next c).le p = false := by
  rw [next]
  split <;>
  · simp only [le, Bool.or_eq_false_iff, Bool.and_eq_false_iff, decide_eq_false_iff_not,
      beq_eq_false_iff_ne, Bool.or_eq_true, Bool.and_eq_true, decide_eq_true_eq,
      beq_iff_eq] at h ⊢
    omega

/-- Going on by some characters leads to a later position. -/
theorem foldl_next_not_le {p q : Position} (h : p.le q) {cs : List Char} (hcs : cs ≠ []) :
    (cs.foldl next q).le p = false := by
  induction cs generalizing q with
  | nil => exact absurd rfl hcs
  | cons c cs ih =>
    have hnext := next_not_le h c
    rw [List.foldl_cons]
    cases cs with
    | nil => exact hnext
    | cons d cs => exact ih (le_of_not_le hnext) (List.cons_ne_nil d cs)

end Position

/-- An extent that begins earlier comes first. -/
theorem Extent.le_of_start {x y : Extent} (h : y.start.le x.start = false) :
    x.le y ∧ y.le x = false := by
  have hne : x.start ≠ y.start := by
    intro heq
    rw [heq, Position.le_refl] at h
    cases h
  rw [le, le, if_neg hne, if_neg hne.symm]
  exact ⟨Position.le_of_not_le h, h⟩

namespace Source

open Text

variable {s : Source}

/-- Of two places between characters, the later one has the later position. -/
theorem position_not_le {before after cs ds : List Char} (hbefore : s.chars = before ++ cs)
    (hafter : s.chars = after ++ ds) (h : byteSize before < byteSize after) :
    (s.position (byteSize after)).le (s.position (byteSize before)) = false := by
  obtain ⟨between, rfl, rfl⟩ :=
    exists_append_of_byteSize_le (hbefore.symm.trans hafter) (Nat.le_of_lt h)
  have hbetween : between ≠ [] := by
    rintro rfl
    simp at h
  rw [position_byteSize hafter, position_byteSize hbefore, Position.behind_append]
  exact Position.foldl_next_not_le (Position.le_refl _) hbetween

/-! ## The order of tokens -/

/-- A token starts between two characters. -/
theorem exists_start {t : Token} (ht : t ∈ s.tokens) :
    ∃ before after, s.chars = before ++ after ∧ t.span.start = byteSize before := by
  obtain ⟨before, after, hchars, hspan, -⟩ := exists_lexeme ht
  exact ⟨before, t.text.toList ++ after, hchars, by rw [hspan]⟩

/-- Of two tokens, the one that starts later has the later extent. -/
theorem extent_le_of_start_lt {t u : Token} (ht : t ∈ s.tokens) (hu : u ∈ s.tokens)
    (h : t.span.start < u.span.start) :
    (s.extent t.span).le (s.extent u.span) ∧ (s.extent u.span).le (s.extent t.span) = false := by
  obtain ⟨before, _, hbefore, ht⟩ := exists_start ht
  obtain ⟨after, _, hafter, hu⟩ := exists_start hu
  rw [ht, hu] at h
  refine Extent.le_of_start ?_
  simp only [extent, ht, hu]
  exact position_not_le hbefore hafter h

theorem significant_sublist (s : Source) : s.significant.Sublist s.tokens := List.filter_sublist

/-- Tokens come in the order in which they start, also without the comments. -/
theorem pairwise_start_significant (s : Source) :
    s.significant.Pairwise fun t u => t.span.start < u.span.start := by
  refine List.Pairwise.sublist s.significant_sublist ?_
  refine s.decomposes_tokens.ordered.imp_of_mem fun {t u} ht _ hle => ?_
  exact Nat.lt_of_lt_of_le (s.decomposes_tokens.nonempty t ht) hle

/-- Therefore no token comes twice. -/
theorem nodup_significant (s : Source) : s.significant.Nodup :=
  s.pairwise_start_significant.imp fun {t u} hlt heq => by simp [heq] at hlt

/-- Extents are in the order of the tokens. -/
theorem extent_le {t u : Token} (ht : t ∈ s.significant) (hu : u ∈ s.significant) :
    (s.extent t.span).le (s.extent u.span) =
      decide (s.significant.idxOf t ≤ s.significant.idxOf u) := by
  have hlt := List.pairwise_iff_getElem.mp s.pairwise_start_significant
  have hmem := s.significant_sublist.subset
  obtain ⟨i, hi, rfl⟩ := List.mem_iff_getElem.mp ht
  obtain ⟨j, hj, rfl⟩ := List.mem_iff_getElem.mp hu
  rw [s.nodup_significant.idxOf_getElem, s.nodup_significant.idxOf_getElem]
  rcases Nat.lt_trichotomy i j with h | rfl | h
  · rw [(extent_le_of_start_lt (hmem ht) (hmem hu) (hlt i j hi hj h)).1]
    exact (decide_eq_true (Nat.le_of_lt h)).symm
  · simp [Extent.le, Position.le_refl]
  · rw [(extent_le_of_start_lt (hmem hu) (hmem ht) (hlt j i hj hi h)).2]
    exact (decide_eq_false (Nat.not_le_of_lt h)).symm

/-! ## Texts with the same tokens -/

/-- What declarations are read from, wherever it stands. -/
def spelling (s : Source) : List (TokenKind × String) := s.significant.map fun t => (t.kind, t.text)

/-- Counts tokens in place of bytes. -/
def ordinal (s : Source) (t : Token) : Span :=
  ⟨s.significant.idxOf t, s.significant.idxOf t + 1⟩

variable {s' : Source}

/-- Moved to their places in the list, the tokens of the two texts are the same. -/
theorem map_relocate_ordinal (h : s.spelling = s'.spelling) :
    s.significant.map (Token.relocate s.ordinal) = s'.significant.map (Token.relocate s'.ordinal) := by
  refine List.ext_getElem (by simpa [spelling] using congrArg List.length h) fun i hi hi' => ?_
  rw [List.length_map] at hi hi'
  have hcontent : (s.significant[i].kind, s.significant[i].text) =
      (s'.significant[i].kind, s'.significant[i].text) := by
    have hget : s.spelling[i]? = s'.spelling[i]? := by rw [h]
    simpa [spelling, hi, hi'] using hget
  rw [Prod.mk.injEq] at hcontent
  rw [List.getElem_map, List.getElem_map, Token.relocate, Token.relocate, ordinal, ordinal,
    s.nodup_significant.idxOf_getElem, s'.nodup_significant.idxOf_getElem, hcontent.1, hcontent.2]

/-- Sources of the same spelling are read alike, but for where the tokens stand. -/
theorem outline_relocate_ordinal (h : s.spelling = s'.spelling) :
    s.outline.relocate s.ordinal = s'.outline.relocate s'.ordinal := by
  rw [outline, outline, ← Outline.ofTokens_relocate, ← Outline.ofTokens_relocate,
    map_relocate_ordinal h]

end Source

/-- A fault and which of the tokens it is found at. -/
def Diagnostic.numbered (s : Source) (d : Diagnostic) : Fault × Nat :=
  (d.fault, s.significant.idxOf d.token)

namespace Source

variable {s s' : Source}

/-- Faults are found at tokens of the source. -/
theorem token_mem_of_fault {deps : List Table} {d : Diagnostic}
    (h : d ∈ (s.compile deps).faults) : d.token ∈ s.significant :=
  Outline.token_mem_of_fault (Diagnostic.mem_sort.mp h)

/-- The faults of a file are sorted by the tokens that they are found at. -/
theorem map_numbered_faults (s : Source) (deps : List Table) :
    (s.compile deps).faults.map (Diagnostic.numbered s) =
      (((Elaboration.start deps).run s.outline.decls).faults.map (Diagnostic.numbered s)).mergeSort
        fun a b => decide (a.2 ≤ b.2) := by
  rw [compile, Diagnostic.sort_eq_mergeSort]
  refine List.map_mergeSort fun a ha b hb => ?_
  exact extent_le (Outline.token_mem_of_fault ha) (Outline.token_mem_of_fault hb)

/-- Elaboration finds the same faults in the same order. -/
theorem run_of_spelling_eq (h : s.spelling = s'.spelling) (deps : List Table) :
    let e := (Elaboration.start deps).run s.outline.decls
    let e' := (Elaboration.start deps).run s'.outline.decls
    e.scope = e'.scope ∧
      e.faults.map (Diagnostic.numbered s) = e'.faults.map (Diagnostic.numbered s') := by
  intro e e'
  have hstart (f : Token → Span) : Elaboration.Matches f (.start deps) (.start deps) := ⟨rfl, rfl⟩
  have hmoved := (hstart s.ordinal).run s.outline.decls
  have hmoved' := (hstart s'.ordinal).run s'.outline.decls
  have hdecls : s.outline.decls.map (Decl.relocate s.ordinal) =
      s'.outline.decls.map (Decl.relocate s'.ordinal) :=
    congrArg Outline.decls (outline_relocate_ordinal h)
  rw [hdecls] at hmoved
  refine ⟨hmoved.scope.symm.trans hmoved'.scope, ?_⟩
  have hfaults := congrArg (List.map fun d => (d.fault, d.token.span.start))
    (hmoved.faults.symm.trans hmoved'.faults)
  rwa [List.map_map, List.map_map] at hfaults

/-- Two files with the same tokens but for comments, under any names and however laid out: the same
declarations and parse errors, made from the same tokens by their places in the list, the same table,
and the same faults in the same order. -/
theorem compile_of_spelling_eq (h : s.spelling = s'.spelling) (deps : List Table) :
    (s.compile deps).outline.relocate s.ordinal = (s'.compile deps).outline.relocate s'.ordinal ∧
      (s.compile deps).table = (s'.compile deps).table ∧
      (s.compile deps).faults.map (Diagnostic.numbered s) =
        (s'.compile deps).faults.map (Diagnostic.numbered s') ∧
      ∀ d ∈ (s.compile deps).faults, d.token ∈ s.significant := by
  obtain ⟨hscope, hfaults⟩ := run_of_spelling_eq h deps
  refine ⟨outline_relocate_ordinal h, congrArg Scope.table hscope, ?_, fun d => token_mem_of_fault⟩
  rw [map_numbered_faults, map_numbered_faults, hfaults]

/-- In the first text both faults are on one line, in the second one they are on different lines and
behind characters of several bytes. -/
theorem compile_of_spelling_eq_commented :
    let s := Source.ofText "flat" "type P P axiom r(Q a) \x7b |- a \x7d"
    let s' := Source.ofText "tall" "/* ∀ */type P // ∃\n  P\n/**/axiom r\n(Q\na)\x7b|- a\x7d"
    s.spelling = s'.spelling ∧ (s.compile []).faults.length = 2 ∧
      (s.compile []).faults.map (Diagnostic.numbered s) =
        (s'.compile []).faults.map (Diagnostic.numbered s') := by
  intro s s'
  have hspelling : s.spelling = s'.spelling := by decide +kernel
  have hlength : ((Elaboration.start []).run s.outline.decls).faults.length = 2 := by decide +kernel
  refine ⟨hspelling, ?_, (compile_of_spelling_eq hspelling []).2.2.1⟩
  rw [compile, Diagnostic.length_sort]
  exact hlength

end Source

end Axiomata
