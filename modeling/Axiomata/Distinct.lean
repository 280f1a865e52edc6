import Axiomata.Term.Subst

/-!
# Distinctness conditions

A distinctness condition is a set of unordered pairs of names that have to stay apart. It is declared
by groups of names, any two of which are apart. When terms are put for the names of a group, whatever
ends up at the ends of one term has to stay apart from whatever ends up at the ends of another.
-/

namespace Axiomata

/-- Pairs in increasing order, each with the smaller name first. -/
structure Distinct where
  pairs : List (String × String) := []
deriving DecidableEq, Repr, Inhabited

namespace Distinct

/-- By first members, then by second ones. -/
def order : String × String → String × String → Ordering :=
  compareLex (compareOn Prod.fst) (compareOn Prod.snd)

/-- Two names with the smaller one first. -/
def pair (a b : String) : String × String := if b < a then (b, a) else (a, b)

def insert (d : Distinct) (a b : String) : Distinct := ⟨Ordered.insert order (pair a b) d.pairs⟩

def contains (d : Distinct) (a b : String) : Bool := d.pairs.contains (pair a b)

/-- Puts each member of a group apart from those behind it. -/
def insertGroup (d : Distinct) : List String → Distinct
  | [] => d
  | a :: rest => insertGroup (rest.foldl (·.insert a ·) d) rest

/-- Any two members of one group are apart. -/
def ofGroups (groups : List (List String)) : Distinct := groups.foldl insertGroup {}

def ofPairs (ps : List (String × String)) : Distinct :=
  ⟨Ordered.ofList order (ps.map fun p => pair p.1 p.2)⟩

/-- The pairs of a member of one list and a member of a later one. -/
def across : List (List String) → List (String × String)
  | [] => []
  | left :: rights =>
    (left.flatMap fun a => rights.flatMap fun right => right.map fun b => (a, b)) ++ across rights

/-- What a name ends in once terms are put for names. -/
def leavesUnder (σ : Subst) (name : String) : List String :=
  match σ.get? name with
  | some t => t.leaves
  | none => [name]

/-- What has to stay apart once terms are put for the names of the groups. -/
def propagate (groups : List (List String)) (σ : Subst) : Distinct :=
  ofPairs (groups.flatMap fun group => across (group.map (leavesUnder σ)))

/-- The names that have to stay apart from `a` and do not come before it. -/
def partners (d : Distinct) (a : String) : List String :=
  (d.pairs.filter (·.1 == a)).map Prod.snd

/-- What is required but neither declared nor exempt. A name apart from itself is never met. Any
other pair matters only between parameters, and of those that share a smaller member only the first
is listed. -/
def violations (required declared : Distinct) (params : List String) : List (String × String) :=
  (required.pairs.map Prod.fst).eraseDups.flatMap fun a =>
    let bs := required.partners a
    let apart := declared.partners a
    (if bs.contains a then [(a, a)] else []) ++
      if params.contains a then
        ((bs.find? fun b => b != a && params.contains b && !apart.contains b).map
          fun b => (a, b)).toList
      else []

end Distinct

end Axiomata
