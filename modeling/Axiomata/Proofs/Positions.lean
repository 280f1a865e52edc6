import Axiomata.Proofs.Layout
import Mathlib.Data.Prod.Lex
import Mathlib.Data.Set.Function

/-!
# Positions count newlines and characters

An offset stands for the characters in front of the last boundary that it reaches
(`Text.isGreatest_roundDown`). Its line counts the newlines among them, its column the characters
behind the last newline (`Position.behind_eq`). From one boundary to the next the position grows, so
boundaries have different positions, and what is sorted by lines and columns is sorted by offsets
(`Source.extent_key_le_iff`).
-/

namespace Axiomata

/-! ## Lines and columns -/

namespace Position

/-- Line and column, to be compared from left to right. -/
def key (p : Position) : ℕ ×ₗ ℕ := toLex (p.line, p.column)

/-- Positions with the same key are the same. -/
theorem key_injective : Function.Injective key := by
  rintro ⟨l, c⟩ ⟨l', c'⟩ h
  simpa [key] using h

/-- Positions are in order if their keys are. -/
theorem le_iff_key_le {p q : Position} : p.le q ↔ p.key ≤ q.key := by
  simp [le, key, Prod.Lex.toLex_le_toLex]

end Position

/-- Lines and columns of the beginning and of the end, to be compared from left to right. -/
def Extent.key (x : Extent) : ℕ ×ₗ ℕ ×ₗ ℕ ×ₗ ℕ :=
  toLex (x.start.line, toLex (x.start.column, toLex (x.stop.line, x.stop.column)))

/-- Extents are ordered by their starts, and by their ends if they start at the same position. -/
theorem Extent.key_le_iff {x y : Extent} :
    x.key ≤ y.key ↔ x.start.key < y.start.key ∨ x.start = y.start ∧ x.stop.key ≤ y.stop.key := by
  rw [← Position.key_injective.eq_iff]
  simp only [key, Position.key, Prod.Lex.toLex_le_toLex, Prod.Lex.toLex_lt_toLex, toLex_inj,
    Prod.mk.injEq]
  tauto

/-- Extents are in order if their keys are. -/
theorem Extent.le_iff_key_le {x y : Extent} : x.le y ↔ x.key ≤ y.key := by
  rw [key_le_iff, le]
  split
  next h => simp [h, Position.le_iff_key_le]
  next h =>
    have hne : x.start.key ≠ y.start.key := Position.key_injective.ne h
    simp [h, Position.le_iff_key_le, le_iff_lt_or_eq, hne]

/-- Both ends, to be compared from left to right. -/
def Span.key (span : Span) : ℕ ×ₗ ℕ := toLex (span.start, span.stop)

namespace Source

open Text

variable {s : Source}

/-- From one boundary to the next, the position grows. -/
theorem strictMonoOn_position (s : Source) :
    StrictMonoOn (fun n => (s.position n).key) {n | Boundary s.chars n} := by
  rintro m ⟨before, _, hbefore, rfl⟩ n ⟨after, _, hafter, rfl⟩ h
  rw [← not_le, ← Position.le_iff_key_le, position_not_le hbefore hafter h]
  exact Bool.false_ne_true

/-- Different places between characters have different positions. -/
theorem injOn_position (s : Source) : Set.InjOn s.position {n | Boundary s.chars n} :=
  fun _ hm _ hn h => s.strictMonoOn_position.injOn hm hn (congrArg Position.key h)

/-! ## Sorting -/

/-- Spans are ordered by lines and columns as they are by offsets. -/
theorem extent_key_le_iff {a b : Span} (ha : Boundary s.chars a.start ∧ Boundary s.chars a.stop)
    (hb : Boundary s.chars b.start ∧ Boundary s.chars b.stop) :
    (s.extent a).key ≤ (s.extent b).key ↔ a.key ≤ b.key := by
  have hlt := s.strictMonoOn_position.lt_iff_lt ha.1 hb.1
  have heq := s.injOn_position.eq_iff ha.1 hb.1
  have hle := s.strictMonoOn_position.le_iff_le ha.2 hb.2
  rw [Extent.key_le_iff, Span.key, Span.key, Prod.Lex.toLex_le_toLex]
  exact or_congr hlt (and_congr heq hle)

/-- Tokens start and end between characters. -/
theorem boundary_of_mem_tokens {t : Token} (ht : t ∈ s.tokens) :
    Boundary s.chars t.span.start ∧ Boundary s.chars t.span.stop := by
  obtain ⟨before, after, hchars, hspan, -⟩ := exists_lexeme ht
  rw [hspan]
  exact ⟨⟨before, _, hchars, rfl⟩, ⟨before ++ t.text.toList, after, by simp [hchars], rfl⟩⟩

/-- What is found at tokens is sorted by lines and columns as it is by offsets. -/
theorem mergeSort_extent {α : Type} {xs : List α} {token : α → Token}
    (h : ∀ x ∈ xs, token x ∈ s.tokens) :
    (xs.mergeSort fun x y => decide ((s.extent (token x).span).key ≤ (s.extent (token y).span).key)) =
      xs.mergeSort fun x y => decide ((token x).span.key ≤ (token y).span.key) := by
  have hle : ∀ x ∈ xs, ∀ y ∈ xs,
      decide ((s.extent (token x).span).key ≤ (s.extent (token y).span).key) =
        decide ((token x).span.key ≤ (token y).span.key) := by
    intro x hx y hy
    rw [decide_eq_decide]
    exact extent_key_le_iff (boundary_of_mem_tokens (h x hx)) (boundary_of_mem_tokens (h y hy))
  simpa using List.map_mergeSort (f := id) hle

/-- An offset has the position behind the characters in front of it, once it is cut down to the
length and to the last boundary: one more than the newlines among them, and one more than the
characters behind the last newline, which are cut out at boundaries. A later boundary has a later position, so no two have the same,
and tokens and what is found at them are sorted by lines and columns as they are by bytes. -/
theorem positions_follow_offsets (s : Source) :
    (∀ offset, ∃ before after, s.chars = before ++ after ∧
      IsGreatest {n | Boundary s.chars n ∧ n ≤ min offset s.size} (byteSize before) ∧
      s.lead? (byteSize before) = some (before.rtakeWhile (· != '\n')) ∧
      s.position offset =
        ⟨before.count '\n' + 1, (before.rtakeWhile (· != '\n')).length + 1⟩) ∧
    StrictMonoOn (fun n => (s.position n).key) {n | Boundary s.chars n} ∧
    Set.InjOn s.position {n | Boundary s.chars n} ∧
    (∀ ts : List Token, ts ⊆ s.tokens →
      (ts.mergeSort fun t u => decide ((s.extent t.span).key ≤ (s.extent u.span).key)) =
        ts.mergeSort fun t u => decide (t.span.key ≤ u.span.key)) ∧
    ∀ ds : List Diagnostic, (∀ d ∈ ds, d.token ∈ s.tokens) →
      Diagnostic.sort s ds =
        ds.mergeSort fun d e => decide (d.token.span.key ≤ e.token.span.key) := by
  refine ⟨fun offset => ?_, s.strictMonoOn_position, s.injOn_position,
    fun ts hts => mergeSort_extent fun t ht => hts ht, fun ds hds => ?_⟩
  · have hgreatest := isGreatest_roundDown s.chars (min offset s.size)
    obtain ⟨before, after, hchars, hbefore⟩ := hgreatest.1.1
    refine ⟨before, after, hchars, hbefore ▸ hgreatest, lead?_eq hchars, ?_⟩
    rw [position_eq hchars hbefore.symm, Position.behind_eq]
  · rw [Diagnostic.sort_eq_mergeSort, ← mergeSort_extent hds]
    congr 1
    funext d e
    rw [Bool.eq_iff_iff, Extent.le_iff_key_le, decide_eq_true_iff]
    rfl

/-- Offsets inside of a character and behind the end, the two ends of a newline, and faults in the
reverse order of their tokens. -/
theorem positions_follow_offsets_wide_character :
    let s := Source.ofText "wide" "a∀\nb c"
    let ds : List Diagnostic := s.tokens.reverse.map (Diagnostic.mk .nameTaken)
    s.position 3 = s.position 1 ∧ s.position 9 = ⟨2, 4⟩ ∧
      (s.position 4).key < (s.position 5).key ∧ s.position 4 ≠ s.position 5 ∧
      ds.map (·.token.span.start) = [7, 5, 0] ∧
      Diagnostic.sort s ds =
        ds.mergeSort fun d e => decide (d.token.span.key ≤ e.token.span.key) := by
  intro s ds
  obtain ⟨-, hgrows, hinj, -, hsort⟩ := s.positions_follow_offsets
  have hend : Boundary s.chars 4 := ⟨['a', '∀'], ['\n', 'b', ' ', 'c'], by decide, by decide⟩
  have hnext : Boundary s.chars 5 := ⟨['a', '∀', '\n'], ['b', ' ', 'c'], by decide, by decide⟩
  have hds : ∀ d ∈ ds, d.token ∈ s.tokens := by
    intro d hd
    obtain ⟨t, ht, rfl⟩ := List.mem_map.mp hd
    exact List.mem_reverse.mp ht
  refine ⟨by decide +kernel, by decide +kernel, hgrows hend hnext (by decide), fun h => ?_,
    by decide +kernel, hsort ds hds⟩
  exact absurd (hinj hend hnext h) (by decide)

end Source

end Axiomata
