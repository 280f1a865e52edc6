import Axiomata.Diagnostic
import Axiomata.Proof.Replay

/-!
# Symbols and scopes

A table lists the symbols of one file in the order of their declarations and has an index of their
names, which is kept in step with the list. A scope is the table of the
file at hand and the tables of the files that it depends on; its own symbols are found first, then
those of the dependencies in their order.
-/

namespace Axiomata

inductive Symbol where
  | type (name : String)
  | ctor (ctor : Ctor)
  | postulate (rule : Rule)
  | thm (thm : Theorem)
deriving Inhabited

namespace Symbol

def name : Symbol → String
  | .type name => name
  | .ctor c => c.name
  | .postulate r => r.name
  | .thm t => t.statement.name

/-- What a proof step can use. -/
def rule? : Symbol → Option Rule
  | .postulate r => some r
  | .thm t => some t.statement
  | _ => none

def ctor? : Symbol → Option Ctor
  | .ctor c => some c
  | _ => none

def isType : Symbol → Bool
  | .type _ => true
  | _ => false

end Symbol

/-- The last of some symbols with a name is at the given place. -/
def Symbol.LastAt (ss : List Symbol) (name : String) (i : Nat) : Prop :=
  ∃ front x back, ss = front ++ x :: back ∧ front.length = i ∧ x.name = name ∧
    ∀ y ∈ back, y.name ≠ name

/-- Without symbols there is nothing to find. -/
theorem Symbol.lookup_nil_iff (name : String) (i : Nat) :
    ([] : List (String × Nat)).lookup name = some i ↔ LastAt [] name i := by
  refine iff_of_false (by simp) ?_
  rintro ⟨front, x, back, h, -⟩
  simp at h

/-- A symbol at the end is the last of its name, and hides no other name. -/
theorem Symbol.lastAt_concat {ss : List Symbol} {x : Symbol} {name : String} {i : Nat} :
    LastAt (ss ++ [x]) name i ↔ if name = x.name then i = ss.length else LastAt ss name i := by
  constructor
  · rintro ⟨front, y, back, h, rfl, rfl, hback⟩
    rcases List.eq_nil_or_concat back with rfl | ⟨back, z, rfl⟩
    · obtain ⟨rfl, hy⟩ := List.append_inj' h rfl
      cases hy
      simp
    · rw [List.concat_eq_append] at h hback
      rw [← List.cons_append, ← List.append_assoc] at h
      obtain ⟨rfl, hz⟩ := List.append_inj' h rfl
      cases hz
      rw [if_neg (hback x (by simp)).symm]
      exact ⟨front, y, back, rfl, rfl, rfl, fun z hz => hback z (by simp [hz])⟩
  · split
    · rintro rfl
      exact ⟨ss, x, [], rfl, rfl, by simp [*], by simp⟩
    · rintro ⟨front, y, back, rfl, rfl, rfl, hback⟩
      refine ⟨front, y, back ++ [x], by simp, rfl, rfl, ?_⟩
      intro z hz
      rcases List.mem_append.mp hz with hz | hz
      · exact hback z hz
      · rw [List.mem_singleton.mp hz]
        exact Ne.symm ‹_›

/-- The symbols of a file, in the order of their declarations, and where each name is among them. -/
structure Table where
  symbols : List Symbol := []
  index : List (String × Nat) := []
  inStep : ∀ name i, index.lookup name = some i ↔ Symbol.LastAt symbols name i := by
    exact Symbol.lookup_nil_iff

namespace Table

instance : Inhabited Table := ⟨{}⟩

def names (t : Table) : List String := t.symbols.map Symbol.name

def get? (t : Table) (name : String) : Option Symbol := (t.index.lookup name).bind (t.symbols[·]?)

def contains (t : Table) (name : String) : Bool := (t.index.lookup name).isSome

/-- Adds a symbol, which hides one of the same name. -/
def insert (t : Table) (x : Symbol) : Table where
  symbols := t.symbols ++ [x]
  index := Ordered.put compare x.name t.symbols.length t.index
  inStep name i := by
    rw [Ordered.lookup_put, Symbol.lastAt_concat]
    split
    · rw [Option.some.injEq, eq_comm]
    · exact t.inStep name i

def append (t : Table) (ss : List Symbol) : Table := ss.foldl insert t

end Table

structure Scope where
  deps : List Table := []
  table : Table := {}
deriving Inhabited

namespace Scope

def resolve (s : Scope) (name : String) : Option Symbol :=
  (s.table.get? name).or (s.deps.findSome? (·.get? name))

def rule? (s : Scope) (name : String) : Option Rule := (s.resolve name).bind Symbol.rule?

def ctor? (s : Scope) (name : String) : Option Ctor := (s.resolve name).bind Symbol.ctor?

/-- Why a name cannot be declared, if it cannot. -/
def nameFault? (s : Scope) (name : String) : Option Fault :=
  if name == distinctKeyword then some .reservedName
  else if (s.resolve name).isSome then some .nameTaken
  else none

/-- Why a name does not denote a type, if it does not. -/
def typeFault? (s : Scope) (name : String) : Option Fault :=
  match s.resolve name with
  | none => some .unknownType
  | some symbol => if symbol.isType then none else some .notAType

def append (s : Scope) (ss : List Symbol) : Scope := { s with table := s.table.append ss }

/-- Adds a symbol whose name can be declared. -/
def declare (s : Scope) (symbol : Symbol) : Except Fault Scope :=
  match s.nameFault? symbol.name with
  | some fault => .error fault
  | none => .ok { s with table := s.table.insert symbol }

/-- The scope of a next file, which depends on this one too. -/
def nextFile (s : Scope) : Scope := { deps := s.deps ++ [s.table] }

end Scope

end Axiomata
