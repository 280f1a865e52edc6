import Axiomata.Text.Bytes

/-!
# Where lines start

A text has a line behind its beginning and one behind each newline. The offsets of these places are
collected once, in one pass over the text (`Text.scanLines`), and are then found by bisection
(`Text.search`).
-/

namespace Axiomata.Text

/-- A line starts behind this much of a text. -/
def StartsLine (before : List Char) : Prop := before = [] ∨ before.getLast? = some '\n'

/-- A table with the offset of each place where a line starts, at the number of newlines in front of
that place. -/
structure ListsLines (starts : Array Nat) (cs : List Char) : Prop where
  size_eq : starts.size = cs.count '\n' + 1
  get_eq {before after : List Char} (h : cs = before ++ after) (hline : StartsLine before) :
    starts[before.count '\n']? = some (byteSize before)

/-! ## Collecting -/

/-- How far a text has been gone through, and where lines have started so far. -/
structure LineScan where
  offset : Nat := 0
  starts : Array Nat := #[0]

/-- Goes past a character. -/
def LineScan.step (scan : LineScan) (c : Char) : LineScan :=
  let offset := scan.offset + c.utf8Size
  { offset, starts := if c = '\n' then scan.starts.push offset else scan.starts }

/-- Where the lines of a text start. -/
def scanLines (cs : List Char) : Array Nat := (cs.foldl LineScan.step {}).starts

/-- A scan that has gone through a text. -/
structure LineScan.Covers (scan : LineScan) (cs : List Char) : Prop where
  offset_eq : scan.offset = byteSize cs
  lists : ListsLines scan.starts cs

/-- Before any character, one line has started. -/
theorem LineScan.covers_nil : Covers {} [] where
  offset_eq := rfl
  lists := by
    refine ⟨rfl, ?_⟩
    intro before after h _
    obtain ⟨rfl, rfl⟩ := List.append_eq_nil_iff.mp h.symm
    rfl

/-- The line starts of a longer text are those of the shorter one, and the new end behind a
newline. -/
theorem LineScan.Covers.step {scan : LineScan} {cs : List Char} (h : scan.Covers cs) (c : Char) :
    (scan.step c).Covers (cs ++ [c]) := by
  have hoffset : scan.offset + c.utf8Size = byteSize (cs ++ [c]) := by
    simp [h.offset_eq]
  refine ⟨hoffset, ?_, ?_⟩
  · by_cases hc : c = '\n'
    · simp [LineScan.step, hc, h.lists.size_eq]
    · simp [LineScan.step, hc, h.lists.size_eq]
  · intro before after heq hline
    rcases List.eq_nil_or_concat after with rfl | ⟨after, d, rfl⟩
    · -- The place is the new end, where a line starts only if the character is a newline.
      rw [List.append_nil] at heq
      subst heq
      have hc : c = '\n' := by simpa [StartsLine] using hline
      have hcount : (cs ++ [c]).count '\n' = scan.starts.size := by
        simp [hc, h.lists.size_eq]
      rw [hcount, ← hoffset]
      simp [LineScan.step, hc]
    · rw [List.concat_eq_append, ← List.append_assoc] at heq
      have hold := h.lists.get_eq (List.append_inj' heq rfl).1 hline
      have hlt := (Array.getElem?_eq_some_iff.mp hold).1
      by_cases hc : c = '\n'
      · simpa [LineScan.step, hc, Array.getElem?_push, Nat.ne_of_lt hlt] using hold
      · simpa [LineScan.step, hc] using hold

/-- By going past one character after the other, a scan covers the whole text. -/
theorem LineScan.Covers.foldl {scan : LineScan} {cs : List Char} (h : scan.Covers cs)
    (ds : List Char) : (ds.foldl LineScan.step scan).Covers (cs ++ ds) := by
  induction ds generalizing scan cs with
  | nil => simpa using h
  | cons d ds ih => simpa using ih (h.step d)

/-- The table that is collected lists the lines of the text. -/
theorem listsLines_scanLines (cs : List Char) : ListsLines (scanLines cs) cs :=
  (LineScan.covers_nil.foldl cs).lists

/-! ## Finding -/

/-- Where a key is in an increasing table, or where it would have to be put. -/
inductive Place where
  | found (i : Nat)
  | missing (i : Nat)
deriving DecidableEq, Repr

/-- Looks for a key from `lo` up to `hi` by bisection. -/
def searchFrom (table : Array Nat) (key lo hi : Nat) (h : hi ≤ table.size) : Place :=
  if hlt : lo < hi then
    let mid := (lo + hi) / 2
    have hmid : mid < table.size := by omega
    if table[mid] = key then .found mid
    else if table[mid] < key then searchFrom table key (mid + 1) hi h
    else searchFrom table key lo mid (by omega)
  else .missing lo
termination_by hi - lo

def search (table : Array Nat) (key : Nat) : Place := searchFrom table key 0 table.size (Nat.le_refl _)

end Axiomata.Text
