import Axiomata.Source.Basic
import Mathlib.Data.List.DropRight
import Mathlib.Order.Bounds.Basic

/-!
# The line table counts newlines

Positions and lines are taken from the table of line starts. Here they are shown to be what one gets
by going over the text: the line of an offset counts the newlines in front of it and its column the
characters behind the last of them (`Source.position_eq`), and a line is what follows that many
newlines, up to the next (`Source.line_eq`). All rests on one fact about the table: a line starts at or
before a place if and only if there are no more newlines in front of it than in front of that place
(`Text.ListsLines.le_iff`).
-/

namespace Axiomata

namespace Text

variable {cs before after : List Char}

/-! ## Boundaries -/

/-- An offset between two characters, or at one of the ends. -/
def Boundary (cs : List Char) (offset : Nat) : Prop :=
  ∃ before after, cs = before ++ after ∧ byteSize before = offset

/-- What can be dropped from a text is one of its beginnings. -/
theorem exists_of_dropBytes {offset : Nat} (h : dropBytes offset cs = some after) :
    ∃ before, cs = before ++ after ∧ byteSize before = offset := by
  fun_induction dropBytes offset cs with
  | case1 cs => exact ⟨[], by simpa using h, rfl⟩
  | case2 => cases h
  | case3 offset c cs hle ih =>
    obtain ⟨before, rfl, hsize⟩ := ih h
    exact ⟨c :: before, rfl, by rw [byteSize_cons]; omega⟩
  | case4 => cases h

/-- What can be dropped at an offset tells whether it is a boundary. -/
theorem isBoundary_iff {offset : Nat} : isBoundary cs offset ↔ Boundary cs offset := by
  rw [isBoundary, Option.isSome_iff_exists]
  constructor
  · rintro ⟨after, h⟩
    obtain ⟨before, hcs, hsize⟩ := exists_of_dropBytes h
    exact ⟨before, after, hcs, hsize⟩
  · rintro ⟨before, after, rfl, rfl⟩
    exact ⟨after, dropBytes_byteSize_append before after⟩

/-- Going down from an offset, the first boundary is the greatest that the offset reaches. -/
theorem isGreatest_roundDown (cs : List Char) (offset : Nat) :
    IsGreatest {n | Boundary cs n ∧ n ≤ offset} (roundDown cs offset) := by
  induction offset with
  | zero => exact ⟨⟨⟨[], cs, rfl, rfl⟩, Nat.le_refl 0⟩, fun n hn => hn.2⟩
  | succ offset ih =>
    rw [roundDown]
    split
    next h => exact ⟨⟨isBoundary_iff.mp h, Nat.le_refl _⟩, fun n hn => hn.2⟩
    next h =>
      refine ⟨⟨ih.1.1, Nat.le_succ_of_le ih.1.2⟩, ?_⟩
      rintro n ⟨hn, hle⟩
      have hne : n ≠ offset + 1 := by
        rintro rfl
        exact h (isBoundary_iff.mpr hn)
      exact ih.2 ⟨hn, by omega⟩

/-- A boundary is not moved. -/
theorem roundDown_byteSize (before after : List Char) :
    roundDown (before ++ after) (byteSize before) = byteSize before :=
  (isGreatest_roundDown _ _).unique
    ⟨⟨⟨before, after, rfl, rfl⟩, Nat.le_refl _⟩, fun _ hn => hn.2⟩

/-! ## Lines of a text -/

/-- The line that follows a number of newlines, without its own newline, empty if the text has fewer
newlines. -/
def lineAfter : Nat → List Char → List Char
  | 0, cs => cs.takeWhile (· != '\n')
  | _ + 1, [] => []
  | n + 1, c :: cs => if c = '\n' then lineAfter n cs else lineAfter (n + 1) cs

/-- Lines are what newlines separate. -/
theorem lineAfter_eq_splitOn (n : Nat) (cs : List Char) :
    lineAfter n cs = (cs.splitOn '\n').getD n [] := by
  induction cs generalizing n with
  | nil => cases n <;> simp [lineAfter]
  | cons c cs ih =>
    obtain ⟨first, rest, hsplit⟩ := List.exists_cons_of_ne_nil (List.splitOn_ne_nil '\n' cs)
    have hcons : (c :: cs).splitOn '\n' =
        if c = '\n' then [] :: cs.splitOn '\n' else (cs.splitOn '\n').modifyHead (c :: ·) := by
      simp [List.splitOn, List.splitOnP_cons_eq_if_modifyHead]
    have hfirst := ih 0
    rw [hcons]
    by_cases h : c = '\n'
    · cases n with
      | zero => simp [lineAfter, h]
      | succ n => simp [lineAfter, h, ih n]
    · cases n with
      | zero =>
        simp only [lineAfter, hsplit] at hfirst ⊢
        simp [h, hfirst]
      | succ n =>
        rw [lineAfter, if_neg h, ih (n + 1), hsplit]
        simp [h]

/-- There is one more line than there are newlines. -/
theorem length_splitOn_newline (cs : List Char) :
    (cs.splitOn '\n').length = cs.count '\n' + 1 := by
  induction cs with
  | nil => rfl
  | cons c cs ih =>
    rw [List.splitOn, List.splitOnP_cons_eq_if_modifyHead, List.count_cons]
    rw [List.splitOn] at ih
    split <;> simp [ih]

/-- A line that a text does not have is empty. -/
theorem lineAfter_eq_nil {n : Nat} (h : cs.count '\n' < n) : lineAfter n cs = [] := by
  have hlength : (cs.splitOn '\n').length ≤ n := by
    rw [length_splitOn_newline]
    exact h
  rw [lineAfter_eq_splitOn, List.getD_eq_getElem?_getD, List.getElem?_eq_none hlength,
    Option.getD_none]

/-- Behind a newline the lines are counted anew. -/
theorem lineAfter_newline (before after : List Char) :
    lineAfter (before.count '\n' + 1) (before ++ '\n' :: after) =
      after.takeWhile (· != '\n') := by
  induction before with
  | nil => simp [lineAfter]
  | cons c before ih =>
    by_cases hc : c = '\n'
    · rw [hc, List.count_cons_self, List.cons_append, lineAfter, if_pos rfl, ih]
    · rw [List.count_cons_of_ne hc, List.cons_append, lineAfter, if_neg hc, ih]

/-- The line of a place in the text, with what stands in front of the place and behind it. -/
theorem lineAfter_append (before after : List Char) :
    lineAfter (before.count '\n') (before ++ after) =
      before.rtakeWhile (· != '\n') ++ after.takeWhile (· != '\n') := by
  -- From the end, a character is part of the line unless it is the newline that the line follows.
  induction before using List.reverseRecOn generalizing after with
  | nil => simp [lineAfter]
  | append_singleton before c ih =>
    rw [List.append_assoc, List.singleton_append, List.rtakeWhile_concat, List.count_append]
    by_cases hc : c = '\n'
    · subst hc
      simp [lineAfter_newline]
    · have hline := ih (c :: after)
      rw [List.takeWhile_cons_of_pos (by simpa using hc)] at hline
      simpa [hc] using hline

/-! ## Bisection -/

/-- Each entry of a table is smaller than those behind it. -/
def Ascending (table : Array Nat) : Prop :=
  ∀ ⦃i j m n : Nat⦄, table[i]? = some m → table[j]? = some n → i < j → m < n

/-- How many entries of a table come up to a key, given the place of the key. -/
def Place.bound : Place → Nat
  | .found i => i + 1
  | .missing i => i

/-- As long as what is left out on either side is smaller or greater than the key, bisection finds how
far the table comes up to the key. -/
theorem le_iff_lt_bound_searchFrom {table : Array Nat} {key lo hi : Nat} (h : hi ≤ table.size)
    (htable : Ascending table) (hle : lo ≤ hi)
    (hlo : ∀ i n, table[i]? = some n → i < lo → n < key)
    (hhi : ∀ i n, table[i]? = some n → hi ≤ i → key < n) {i n : Nat} (hn : table[i]? = some n) :
    n ≤ key ↔ i < (searchFrom table key lo hi h).bound := by
  fun_induction searchFrom table key lo hi h with
  | case1 lo hi h hlt mid hmid heq =>
    have hget : table[mid]? = some key := by rw [Array.getElem?_eq_getElem hmid, heq]
    rw [Place.bound]
    rcases Nat.lt_trichotomy i mid with h | rfl | h
    · have := htable hn hget h
      omega
    · rw [hget, Option.some.injEq] at hn
      omega
    · have := htable hget hn h
      omega
  | case2 lo hi h hlt mid hmid hne hsmall ih =>
    have hget := Array.getElem?_eq_getElem hmid
    refine ih (by omega) (fun j m hm hj => ?_) hhi
    rcases Nat.lt_or_eq_of_le (Nat.le_of_lt_succ hj) with hj | rfl
    · exact Nat.lt_trans (htable hm hget hj) hsmall
    · rw [hget, Option.some.injEq] at hm
      omega
  | case3 lo hi h hlt mid hmid hne hlarge ih =>
    have hget := Array.getElem?_eq_getElem hmid
    refine ih (by omega) hlo (fun j m hm hj => ?_)
    rcases Nat.lt_or_eq_of_le hj with hj | rfl
    · have := htable hget hm hj
      omega
    · rw [hget, Option.some.injEq] at hm
      omega
  | case4 lo hi h hlt =>
    rw [Place.bound]
    rcases Nat.lt_or_ge i lo with hi | hi
    · have := hlo i n hn hi
      omega
    · have := hhi i n hn (by omega)
      omega

/-- A search does not leave the interval that it starts with. -/
theorem bound_searchFrom_le {table : Array Nat} {key lo hi : Nat} (h : hi ≤ table.size)
    (hle : lo ≤ hi) : (searchFrom table key lo hi h).bound ≤ hi := by
  fun_induction searchFrom table key lo hi h with
  | case1 lo hi h hlt mid =>
    rw [Place.bound]
    omega
  | case2 lo hi h hlt mid _ _ _ ih => exact ih (by omega)
  | case3 lo hi h hlt mid _ _ _ ih => exact Nat.le_trans (ih (by omega)) (by omega)
  | case4 lo hi h hlt => exact hle

/-- Bisection finds how many entries of an ascending table come up to a key. -/
theorem le_iff_lt_bound_search {table : Array Nat} (htable : Ascending table) {key i n : Nat}
    (hn : table[i]? = some n) : n ≤ key ↔ i < (search table key).bound := by
  refine le_iff_lt_bound_searchFrom (Nat.le_refl _) htable (Nat.zero_le _) ?_ ?_ hn
  · intro j m _ hj
    exact absurd hj (Nat.not_lt_zero j)
  · intro j m hm hj
    exact absurd (Array.getElem?_eq_some_iff.mp hm).1 (Nat.not_lt_of_le hj)

/-! ## Line starts -/

/-- The rest of a line is followed by a newline or by nothing. -/
theorem exists_takeWhile_append (after : List Char) :
    (after.takeWhile (· != '\n')).count '\n' = 0 ∧
      (after = after.takeWhile (· != '\n') ∨
        ∃ rest, after = after.takeWhile (· != '\n') ++ '\n' :: rest) := by
  induction after with
  | nil => exact ⟨rfl, .inl rfl⟩
  | cons c after ih =>
    by_cases hc : c = '\n'
    · exact ⟨by simp [hc], .inr ⟨after, by simp [hc]⟩⟩
    · rw [List.takeWhile_cons_of_pos (by simpa using hc), List.count_cons_of_ne hc]
      refine ⟨ih.1, ih.2.imp (congrArg (c :: ·)) ?_⟩
      rintro ⟨rest, hrest⟩
      exact ⟨rest, congrArg (c :: ·) hrest⟩

/-- Lines start behind any number of newlines that the text has. -/
theorem exists_startsLine {n : Nat} (h : n ≤ cs.count '\n') :
    ∃ before after, cs = before ++ after ∧ StartsLine before ∧ before.count '\n' = n := by
  induction cs using List.reverseRecOn with
  | nil => exact ⟨[], [], rfl, .inl rfl, (Nat.le_zero.mp h).symm⟩
  | append_singleton cs c ih =>
    rcases Nat.lt_or_ge (cs.count '\n') n with hlt | hle
    · have hc : c = '\n' := by
        by_contra hc
        rw [List.count_append, List.count_singleton, if_neg (by simpa using hc)] at h
        omega
      refine ⟨cs ++ [c], [], by simp, .inr (by simp [hc]), ?_⟩
      rw [hc] at h ⊢
      rw [List.count_append, List.count_singleton_self] at h ⊢
      omega
    · obtain ⟨before, after, rfl, hline, hcount⟩ := ih hle
      exact ⟨before, after ++ [c], by simp, hline, hcount⟩

/-- A line starts at or before a place if and only if no more newlines are in front of it. -/
theorem StartsLine.byteSize_le_iff {start rest : List Char} (hstart : StartsLine start)
    (h : start ++ rest = before ++ after) :
    byteSize start ≤ byteSize before ↔ start.count '\n' ≤ before.count '\n' := by
  constructor
  · intro hle
    obtain ⟨between, rfl, -⟩ := exists_append_of_byteSize_le h hle
    rw [List.count_append]
    exact Nat.le_add_right _ _
  · intro hle
    by_contra hlt
    obtain ⟨between, rfl, -⟩ := exists_append_of_byteSize_le h.symm (Nat.le_of_not_le hlt)
    -- What is between the place and the start of a line behind it ends with a newline.
    have hne : between ≠ [] := by
      rintro rfl
      simp at hlt
    have hlast : (before ++ between).getLast? = some '\n' := by
      rcases hstart with hnil | hlast
      · exact absurd (List.append_eq_nil_iff.mp hnil).2 hne
      · exact hlast
    rw [List.getLast?_append_of_ne_nil _ hne] at hlast
    have hpos : 0 < between.count '\n' := List.count_pos_iff.mpr (List.mem_of_getLast? hlast)
    rw [List.count_append] at hle
    omega

/-- A place is preceded by the lines in front of its own and by what its own has in front of it. -/
theorem exists_lines_append (before : List Char) :
    ∃ lines, before = lines ++ before.rtakeWhile (· != '\n') ∧ StartsLine lines ∧
      lines.count '\n' = before.count '\n' := by
  have heq : before.rdropWhile (· != '\n') ++ before.rtakeWhile (· != '\n') = before :=
    List.rdropWhile_append_rtakeWhile
  have hnone : (before.rtakeWhile (· != '\n')).count '\n' = 0 := by
    rw [List.count_eq_zero]
    intro hmem
    exact absurd (List.mem_rtakeWhile_imp hmem) (by decide)
  refine ⟨before.rdropWhile (· != '\n'), heq.symm, ?_, ?_⟩
  · by_cases h : before.rdropWhile (· != '\n') = []
    · exact .inl h
    · have hlast := List.rdropWhile_last_not (· != '\n') before h
      exact .inr (by simpa [List.getLast?_eq_some_getLast h] using hlast)
  · rw [← congrArg (List.count '\n') heq, List.count_append, hnone, Nat.add_zero]

/-- Where a line starts, nothing of it stands in front. -/
theorem StartsLine.rtakeWhile_eq_nil (h : StartsLine before) :
    before.rtakeWhile (· != '\n') = [] := by
  rw [List.rtakeWhile_eq_nil_iff]
  intro hne
  rcases h with rfl | hlast
  · exact absurd rfl hne
  · simpa [List.getLast?_eq_some_getLast hne] using hlast

namespace ListsLines

variable {starts : Array Nat} (h : ListsLines starts cs)

include h

/-- Every entry of the table is the offset of a place where a line starts. -/
theorem exists_of_getElem? {n offset : Nat} (hn : starts[n]? = some offset) :
    ∃ before after, cs = before ++ after ∧ StartsLine before ∧ before.count '\n' = n ∧
      byteSize before = offset := by
  have hlt : n < starts.size := (Array.getElem?_eq_some_iff.mp hn).1
  rw [h.size_eq] at hlt
  obtain ⟨before, after, hcs, hline, rfl⟩ := exists_startsLine (Nat.le_of_lt_succ hlt)
  have hget := h.get_eq hcs hline
  rw [hn, Option.some.injEq] at hget
  exact ⟨before, after, hcs, hline, rfl, hget.symm⟩

/-- Lines start at or before a place as long as no more newlines are in front of them. -/
theorem le_iff (hcs : cs = before ++ after) {n offset : Nat} (hn : starts[n]? = some offset) :
    offset ≤ byteSize before ↔ n ≤ before.count '\n' := by
  obtain ⟨start, rest, hstart, hline, rfl, rfl⟩ := h.exists_of_getElem? hn
  exact hline.byteSize_le_iff (hstart.symm.trans hcs)

/-- Line starts are listed in increasing order. -/
theorem ascending : Ascending starts := by
  intro i j m n hm hn hij
  obtain ⟨before, after, hcs, -, hcount, rfl⟩ := h.exists_of_getElem? hm
  by_contra hle
  have hji := (h.le_iff hcs hn).mp (Nat.le_of_not_lt hle)
  omega

/-- The bound of a search for a place is one more than the newlines in front of it. -/
theorem bound_search (hcs : cs = before ++ after) :
    (search starts (byteSize before)).bound = before.count '\n' + 1 := by
  have hiff : ∀ n < starts.size,
      n < (search starts (byteSize before)).bound ↔ n ≤ before.count '\n' := by
    intro n hn
    have hget := Array.getElem?_eq_getElem hn
    exact (le_iff_lt_bound_search h.ascending hget).symm.trans (h.le_iff hcs hget)
  have hbound : (search starts (byteSize before)).bound ≤ starts.size :=
    bound_searchFrom_le (Nat.le_refl _) (Nat.zero_le _)
  have hcount : before.count '\n' < starts.size := by
    rw [h.size_eq, hcs, List.count_append]
    omega
  have hreached := (hiff _ hcount).mpr (Nat.le_refl _)
  have hlast := hiff ((search starts (byteSize before)).bound - 1) (by omega)
  omega

end ListsLines

/-- The first byte of a character is found at the offset of the character. -/
theorem byteAt?_append (before after : List Char) (c : Char) :
    byteAt? (byteSize before) (before ++ c :: after) = (String.utf8EncodeChar c)[0]? := by
  induction before with
  | nil => simp [byteAt?, c.utf8Size_pos]
  | cons d before ih => simp [byteAt?, ih]

end Text

/-! ## Positions -/

namespace Position

def start : Position := ⟨1, 1⟩

/-- The position behind a character. -/
def next (p : Position) (c : Char) : Position :=
  if c = '\n' then ⟨p.line + 1, 1⟩ else ⟨p.line, p.column + 1⟩

/-- The position behind a text. -/
def behind (cs : List Char) : Position := cs.foldl next start

theorem behind_append (cs ds : List Char) : behind (cs ++ ds) = ds.foldl next (behind cs) :=
  List.foldl_append

/-- One more than the newlines, and one more than the characters behind the last of them. -/
theorem behind_eq (cs : List Char) :
    behind cs = ⟨cs.count '\n' + 1, (cs.rtakeWhile (· != '\n')).length + 1⟩ := by
  induction cs using List.reverseRecOn with
  | nil => rfl
  | append_singleton cs c ih =>
    rw [behind_append, ih, List.rtakeWhile_concat, List.count_append]
    by_cases hc : c = '\n'
    · simp [next, hc]
    · simp [next, hc]

end Position

namespace Source

open Text

variable {s : Source} {before after : List Char}

/-- The table has the offset at which a line starts. -/
theorem getD_starts (h : s.chars = before ++ after) (hline : StartsLine before) :
    s.starts.getD (before.count '\n') 0 = byteSize before := by
  rw [Array.getD_eq_getD_getElem?, s.lists.get_eq h hline, Option.getD_some]

/-- The table leads to the line of a place. -/
theorem lineIndex_eq (h : s.chars = before ++ after) :
    s.lineIndex (byteSize before) = before.count '\n' := by
  have hbound := s.lists.bound_search h
  rw [lineIndex]
  split <;>
  · simp only [*, Place.bound] at hbound
    omega

/-- The characters in front of a place on its line are cut out of the text at two boundaries. -/
theorem lead?_eq (h : s.chars = before ++ after) :
    s.lead? (byteSize before) = some (before.rtakeWhile (· != '\n')) := by
  obtain ⟨lines, hbefore, hline, hcount⟩ := exists_lines_append before
  have hchars : s.chars = lines ++ (before.rtakeWhile (· != '\n') ++ after) := by
    rw [h, ← List.append_assoc, ← hbefore]
  rw [lead?, lineIndex_eq h, ← hcount, getD_starts hchars hline, hchars, congrArg byteSize hbefore,
    charsBetween?_append]

/-- What the table says about an offset is found by going over the text in front of it. -/
theorem position_eq {offset : Nat} (h : s.chars = before ++ after)
    (hoffset : roundDown s.chars (min offset s.size) = byteSize before) :
    s.position offset = .behind before := by
  rw [position, hoffset, lineIndex_eq h, lead?_eq h, Position.behind_eq, Option.getD_some]

/-- A boundary has the position behind the text in front of it. -/
theorem position_byteSize (h : s.chars = before ++ after) :
    s.position (byteSize before) = .behind before := by
  refine position_eq h ?_
  have hle : byteSize before ≤ s.size := by simp [size, h]
  rw [Nat.min_eq_left hle, h, roundDown_byteSize]

/-! ## Lines -/

/-- A line ends in front of the next newline, or with the text. -/
theorem lineStop_eq (h : s.chars = before ++ after) :
    s.lineStop (before.count '\n' + 1) (byteSize before) =
      byteSize (before ++ after.takeWhile (· != '\n')) := by
  obtain ⟨hnone, hafter | ⟨rest, hafter⟩⟩ := exists_takeWhile_append after
  · have hlast : s.starts[before.count '\n' + 1]? = none := by
      rw [Array.getElem?_eq_none_iff, s.lists.size_eq, h, List.count_append, hafter, hnone,
        Nat.add_zero]
    rw [lineStop, hlast, ← hafter, size, h]
  · -- The next line starts behind the newline, one byte further.
    generalize after.takeWhile (· != '\n') = text at hnone hafter ⊢
    have hchars : s.chars = (before ++ text) ++ '\n' :: rest := by rw [h, hafter, List.append_assoc]
    have hsize : byteSize (before ++ text ++ ['\n']) = byteSize (before ++ text) + 1 :=
      byteSize_append _ _
    have hnext : s.starts[before.count '\n' + 1]? = some (byteSize (before ++ text) + 1) := by
      have hget := s.lists.get_eq
        (show s.chars = (before ++ text ++ ['\n']) ++ rest by simp [hchars]) (.inr (by simp))
      rwa [hsize, List.count_append, List.count_append, hnone, Nat.add_zero,
        List.count_singleton_self] at hget
    have hbyte : byteAt? (byteSize (before ++ text)) s.chars = some '\n'.toUInt8 := by
      rw [hchars, byteAt?_append]
      rfl
    have hlt : byteSize before < byteSize (before ++ text) + 1 := by
      rw [byteSize_append]
      omega
    simp only [lineStop, hnext, Nat.add_sub_cancel, hbyte, hlt, and_self, if_true]

/-- What the table says about a line is found by going over the text. -/
theorem line_eq (s : Source) (n : Nat) : s.line (n + 1) = .ofList (lineAfter n s.chars) := by
  rw [line, s.lists.size_eq]
  rcases Nat.lt_or_ge (s.chars.count '\n') n with hlt | hle
  · rw [if_pos (.inr (by omega)), lineAfter_eq_nil hlt]
  · rw [if_neg (by omega), Nat.add_sub_cancel]
    obtain ⟨before, after, h, hline, rfl⟩ := exists_startsLine hle
    have hchars : s.chars =
        before ++ (after.takeWhile (· != '\n') ++ after.dropWhile (· != '\n')) := by
      rw [h, List.takeWhile_append_dropWhile]
    simp only [getD_starts h hline, lineStop_eq h]
    rw [congrArg (charsBetween _ _) hchars, charsBetween_append, h, lineAfter_append,
      hline.rtakeWhile_eq_nil, List.nil_append]

end Source

end Axiomata
