import Axiomata.Ordered

/-!
# Terms

A term is a variable, a hole or a constructor applied to terms. It is shown by the template of its
constructor, which is free text. The canonical text names the constructor instead and is what terms
are compared by.
-/

namespace Axiomata

/-- A parameter: its type, then its name. -/
structure Param where
  type : String
  name : String
deriving DecidableEq, Repr, Inhabited

/-- A piece of a template: text, or the place of an argument. -/
inductive Fragment where
  | text (s : String)
  | arg (index : Nat)
deriving DecidableEq, Repr

namespace Fragment

/-- Puts a word behind a template. A word that names a parameter is the place of the first parameter
of that name; any other runs together with the text in front of it. -/
def extend (names : List String) (template : List Fragment) (word : String) : List Fragment :=
  match names.idxOf? word with
  | some i => template ++ [.arg i]
  | none =>
    match template.getLast? with
    | some (.text s) => template.dropLast ++ [.text (s ++ word)]
    | _ => template ++ [.text word]

/-- The template of a body, word by word. -/
def ofBody (names words : List String) : List Fragment := words.foldl (extend names) []

/-- Fills the places with texts. -/
def expand (args : List String) : List Fragment → String
  | [] => ""
  | .text s :: rest => s ++ expand args rest
  | .arg i :: rest => args.getD i "" ++ expand args rest

end Fragment

/-- A constructor of terms. -/
structure Ctor where
  name : String
  type : String
  params : List Param
  template : List Fragment
deriving DecidableEq, Repr, Inhabited

def Ctor.arity (c : Ctor) : Nat := c.params.length

inductive Term where
  /-- A parameter of the statement. -/
  | var (name type : String)
  /-- Stands for an argument that was not given. -/
  | hole (name type : String)
  | app (ctor : Ctor) (args : List Term)
deriving Inhabited

namespace Term

def type : Term → String
  | .var _ type | .hole _ type => type
  | .app c _ => c.type

/-- The name at the root. -/
def head : Term → String
  | .var name _ | .hole name _ => name
  | .app c _ => c.name

def args : Term → List Term
  | .var _ _ | .hole _ _ => []
  | .app _ args => args

def isHole : Term → Bool
  | .hole _ _ => true
  | _ => false

@[simp] theorem type_var (n y : String) : (var n y).type = y := rfl
@[simp] theorem type_hole (n y : String) : (hole n y).type = y := rfl
@[simp] theorem type_app (c : Ctor) (ts : List Term) : (app c ts).type = c.type := rfl
@[simp] theorem args_app (c : Ctor) (ts : List Term) : (app c ts).args = ts := rfl

/-- To show a property of all terms, show it of an application whose arguments have it. -/
@[induction_eliminator]
theorem ind {motive : Term → Prop} (var : ∀ n y, motive (.var n y))
    (hole : ∀ n y, motive (.hole n y))
    (app : ∀ c ts, (∀ t ∈ ts, motive t) → motive (.app c ts)) (t : Term) : motive t :=
  @Term.rec motive (fun ts => ∀ t ∈ ts, motive t) var hole app (by simp)
    (fun _ _ h hs => List.forall_mem_cons.2 ⟨h, hs⟩) t

mutual

def size : Term → Nat
  | .var _ _ | .hole _ _ => 1
  | .app _ ts => sizes ts + 1

def sizes : List Term → Nat
  | [] => 0
  | t :: ts => t.size + sizes ts

end

mutual

/-- The template of the constructor with the arguments shown in it. -/
def display : Term → String
  | .var name _ | .hole name _ => name
  | .app c ts => Fragment.expand (displays ts) c.template

def displays : List Term → List String
  | [] => []
  | t :: ts => t.display :: displays ts

end

mutual

/-- The name of the constructor, and the arguments in brackets unless there are none. -/
def canonical : Term → String
  | .var name _ | .hole name _ => name
  | .app c [] => c.name
  | .app c (t :: ts) => c.name ++ "(" ++ ",".intercalate (canonicals (t :: ts)) ++ ")"

def canonicals : List Term → List String
  | [] => []
  | t :: ts => t.canonical :: canonicals ts

end

mutual

/-- What is shown at the ends of the branches, from left to right. -/
def ends : Term → List String
  | .var name _ | .hole name _ => [name]
  | .app c [] => [display (.app c [])]
  | .app _ (t :: ts) => endsAll (t :: ts)

def endsAll : List Term → List String
  | [] => []
  | t :: ts => t.ends ++ endsAll ts

end

/-- The set of what is shown at the ends of the branches. -/
def leaves (t : Term) : List String := Ordered.ofList compare t.ends

theorem displays_eq_map (ts : List Term) : displays ts = ts.map display := by
  induction ts with
  | nil => rfl
  | cons t ts ih => simp [displays, ih]

theorem canonicals_eq_map (ts : List Term) : canonicals ts = ts.map canonical := by
  induction ts with
  | nil => rfl
  | cons t ts ih => simp [canonicals, ih]

theorem endsAll_eq_flatMap (ts : List Term) : endsAll ts = ts.flatMap ends := by
  induction ts with
  | nil => rfl
  | cons t ts ih => simp [endsAll, ih]

/-- Sizes add up. -/
theorem sizes_append (ss ts : List Term) : sizes (ss ++ ts) = sizes ss + sizes ts := by
  induction ss with
  | nil => simp [sizes]
  | cons s ss ih => simp [sizes, ih, Nat.add_assoc]

/-- A term is larger by one than its arguments together. -/
theorem size_eq (t : Term) : t.size = sizes t.args + 1 := by
  cases t <;> simp [size, args, sizes]

/-- Terms count as the same if their canonical texts are equal. -/
instance : BEq Term := ⟨fun s t => s.canonical == t.canonical⟩

/-- Terms are compared by their canonical texts. -/
theorem beq_iff {s t : Term} : s == t ↔ s.canonical = t.canonical := by
  change (s.canonical == t.canonical) = true ↔ _
  simp

end Term

end Axiomata
