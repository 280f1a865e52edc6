/-!
# Byte offsets into a list of characters

Offsets into a text count the bytes of its UTF-8 encoding.
-/

namespace Axiomata.Text

/-- The length of the UTF-8 encoding. -/
def byteSize (cs : List Char) : Nat := cs.foldr (fun c size => c.utf8Size + size) 0

@[simp] theorem byteSize_nil : byteSize [] = 0 := rfl

@[simp] theorem byteSize_cons (c : Char) (cs : List Char) :
    byteSize (c :: cs) = c.utf8Size + byteSize cs := rfl

/-- Bytes add up. -/
@[simp] theorem byteSize_append (cs ds : List Char) :
    byteSize (cs ++ ds) = byteSize cs + byteSize ds := by
  induction cs with
  | nil => simp
  | cons c cs ih => simp [ih, Nat.add_assoc]

/-- Every character takes at least one byte. -/
theorem byteSize_eq_zero_iff {cs : List Char} : byteSize cs = 0 ↔ cs = [] := by
  cases cs with
  | nil => simp
  | cons c cs =>
    have := c.utf8Size_pos
    simp
    omega

/-- Of two ways to cut a text, the one with the longer beginning cuts the end of the other. -/
theorem exists_append_of_byteSize_le {text rest before after : List Char}
    (h : text ++ rest = before ++ after) (hle : byteSize text ≤ byteSize before) :
    ∃ between, before = text ++ between ∧ rest = between ++ after := by
  obtain h | ⟨between, rfl, rfl⟩ := List.append_eq_append_iff.mp h
  · exact h
  · have hzero : byteSize between = 0 := by
      rw [byteSize_append] at hle
      omega
    rw [byteSize_eq_zero_iff] at hzero
    subst hzero
    exact ⟨[], by simp, by simp⟩

/-- What follows an offset, unless the offset is past the end or inside a character. -/
def dropBytes : Nat → List Char → Option (List Char)
  | 0, cs => some cs
  | _ + 1, [] => none
  | offset + 1, c :: cs =>
    if c.utf8Size ≤ offset + 1 then dropBytes (offset + 1 - c.utf8Size) cs else none

/-- What precedes an offset, unless the offset is past the end or inside a character. -/
def takeBytes : Nat → List Char → Option (List Char)
  | 0, _ => some []
  | _ + 1, [] => none
  | offset + 1, c :: cs =>
    if c.utf8Size ≤ offset + 1 then (takeBytes (offset + 1 - c.utf8Size) cs).map (c :: ·) else none

/-- Dropping the bytes of a beginning leaves the rest. -/
@[simp] theorem dropBytes_byteSize_append (cs ds : List Char) :
    dropBytes (byteSize cs) (cs ++ ds) = some ds := by
  induction cs with
  | nil => simp [dropBytes]
  | cons c cs ih =>
    obtain ⟨n, hn⟩ := Nat.exists_eq_add_one.2 (Nat.add_pos_left c.utf8Size_pos (byteSize cs))
    rw [byteSize_cons, List.cons_append, hn, dropBytes, ← hn]
    simp [ih]

/-- Taking the bytes of a beginning gives that beginning. -/
@[simp] theorem takeBytes_byteSize_append (cs ds : List Char) :
    takeBytes (byteSize cs) (cs ++ ds) = some cs := by
  induction cs with
  | nil => simp [takeBytes]
  | cons c cs ih =>
    obtain ⟨n, hn⟩ := Nat.exists_eq_add_one.2 (Nat.add_pos_left c.utf8Size_pos (byteSize cs))
    rw [byteSize_cons, List.cons_append, hn, takeBytes, ← hn]
    simp [ih]

/-- The characters from one offset up to another, unless either is past the end or inside a character
or they are in the wrong order. -/
def charsBetween? (start stop : Nat) (cs : List Char) : Option (List Char) :=
  if start ≤ stop then (dropBytes start cs).bind (takeBytes (stop - start)) else none

/-- The characters from one offset up to another, none where they cannot be told. -/
def charsBetween (start stop : Nat) (cs : List Char) : List Char := (charsBetween? start stop cs).getD []

/-- Between two boundaries a text can be cut. -/
@[simp] theorem charsBetween?_append (cs ds es : List Char) :
    charsBetween? (byteSize cs) (byteSize (cs ++ ds)) (cs ++ (ds ++ es)) = some ds := by
  simp [charsBetween?]

@[simp] theorem charsBetween_append (cs ds es : List Char) :
    charsBetween (byteSize cs) (byteSize (cs ++ ds)) (cs ++ (ds ++ es)) = ds := by
  rw [charsBetween, charsBetween?_append, Option.getD_some]

/-- Whether an offset falls between two characters or on one of the ends. -/
def isBoundary (cs : List Char) (offset : Nat) : Bool := (dropBytes offset cs).isSome

/-- The last boundary that an offset reaches. -/
def roundDown (cs : List Char) : Nat → Nat
  | 0 => 0
  | offset + 1 => if isBoundary cs (offset + 1) then offset + 1 else roundDown cs offset

/-- The byte at an offset. -/
def byteAt? : Nat → List Char → Option UInt8
  | _, [] => none
  | offset, c :: cs =>
    if offset < c.utf8Size then (String.utf8EncodeChar c)[offset]?
    else byteAt? (offset - c.utf8Size) cs

end Axiomata.Text
