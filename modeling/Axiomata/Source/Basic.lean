import Axiomata.Source.LineTable

/-!
# Source texts

A source is a named text. A span is a range of byte offsets into it, and a position is a line and a
column, both counted from one. Lines end at a newline and at nothing else; columns count characters.
-/

namespace Axiomata

/-- A range of byte offsets, `stop` excluded. -/
structure Span where
  start : Nat
  stop : Nat
deriving DecidableEq, Repr, Inhabited

structure Position where
  line : Nat
  column : Nat
deriving DecidableEq, Repr, Inhabited

/-- Earlier lines come first, then smaller columns. -/
def Position.le (p q : Position) : Bool :=
  p.line < q.line || (p.line == q.line && p.column ≤ q.column)

/-- Where a span begins and ends. -/
structure Extent where
  start : Position
  stop : Position
deriving DecidableEq, Repr, Inhabited

/-- What begins earlier comes first, then what ends earlier. -/
def Extent.le (x y : Extent) : Bool :=
  if x.start = y.start then x.stop.le y.stop else x.start.le y.start

/-- A named text with the offsets at which its lines start. -/
structure Source where
  name : String
  chars : List Char
  starts : Array Nat
  lists : Text.ListsLines starts chars
deriving DecidableEq, Repr

namespace Source

def ofText (name text : String) : Source where
  name
  chars := text.toList
  starts := Text.scanLines text.toList
  lists := Text.listsLines_scanLines text.toList

@[simp] theorem chars_ofText (name text : String) : (ofText name text).chars = text.toList := rfl

instance : Inhabited Source := ⟨ofText "" ""⟩

variable (s : Source)

def size : Nat := Text.byteSize s.chars

/-- The line of an offset, counted from zero. -/
def lineIndex (offset : Nat) : Nat :=
  match Text.search s.starts offset with
  | .found i => i
  | .missing i => i - 1

/-- What stands in front of an offset on its line. -/
def lead? (offset : Nat) : Option (List Char) :=
  Text.charsBetween? (s.starts.getD (s.lineIndex offset) 0) offset s.chars

/-- An offset past the end counts as the end, and one inside a character as its beginning. -/
def position (offset : Nat) : Position :=
  let offset := Text.roundDown s.chars (min offset s.size)
  ⟨s.lineIndex offset + 1, ((s.lead? offset).getD []).length + 1⟩

def extent (span : Span) : Extent := ⟨s.position span.start, s.position span.stop⟩

/-- Where the text of a line ends: in front of its newline, or with the source if it is the last
line. -/
def lineStop (n start : Nat) : Nat :=
  match s.starts[n]? with
  | some next =>
    if start < next ∧ Text.byteAt? (next - 1) s.chars = some '\n'.toUInt8 then next - 1 else next
  | none => s.size

/-- The text of a line without its newline, empty for a line that the source does not have. -/
def line (n : Nat) : String :=
  if n = 0 ∨ s.starts.size < n then ""
  else
    let start := s.starts.getD (n - 1) 0
    .ofList (Text.charsBetween start (s.lineStop n start) s.chars)

/-- The text of a span, empty unless both ends fall between two characters of the source. -/
def slice (span : Span) : String :=
  .ofList (Text.charsBetween span.start span.stop s.chars)

/-- The span of the last character, empty if there is none. -/
def lastSpan : Span := ⟨Text.byteSize s.chars.dropLast, s.size⟩

/-- Name, line and column, then the line on which the span begins, then a caret under each character
of the span, and at least one. -/
def excerpt (span : Span) : String :=
  let p := s.position span.start
  let carets := max 1 (s.slice span).length
  s.name ++ ":" ++ toString p.line ++ ":" ++ toString p.column ++ "\n\n" ++
    s.line p.line ++ "\n" ++
    String.ofList (List.replicate (p.column - 1) ' ') ++
    String.ofList (List.replicate carets '^') ++ "\n"

end Source

end Axiomata
