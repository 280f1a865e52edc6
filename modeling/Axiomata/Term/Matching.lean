import Axiomata.Term.Subst

/-!
# Matching a pattern against a term

Holes of the pattern take the terms that stand in their places. A hole that occurs more than once
needs the same term everywhere; the term of its last place, level by level, is kept.
-/

namespace Axiomata

/-- Terms for holes, in the order of the names of the holes. -/
abbrev Suggestion := List (String × Term)

namespace Suggestion

def get? (σ : Suggestion) (name : String) : Option Term := List.lookup name σ

def put (σ : Suggestion) (name : String) (t : Term) : Suggestion := Ordered.put compare name t σ

/-- Binds the pairs of a list in turn. -/
def ofList (bindings : List (String × Term)) : Suggestion :=
  bindings.foldl (fun σ b => put σ b.1 b.2) []

end Suggestion

namespace Term

/-- Pairing with fewer terms leaves some of the patterns out. This is what makes matching end. -/
theorem sizes_fst_zip_le (ps ts : List Term) : sizes ((ps.zip ts).map Prod.fst) ≤ sizes ps := by
  induction ps generalizing ts with
  | nil => simp [sizes]
  | cons p ps ih =>
    cases ts with
    | nil => simp [sizes]
    | cons t ts =>
      have := ih ts
      simp [sizes]
      omega

/-- Matches the pairs of a queue, given the terms that the holes have so far. -/
def matchAll (σ : Suggestion) (queue : List (Term × Term)) : Option Suggestion :=
  match queue with
  | [] => some σ
  | (p, t) :: queue =>
    match p with
    | .hole name _ =>
      if (σ.get? name).all (· == t) then matchAll (σ.put name t) queue else none
    | p =>
      if p.head == t.head && p.args.length == t.args.length then
        matchAll σ (queue ++ p.args.zip t.args)
      else none
termination_by sizes (queue.map Prod.fst)
decreasing_by
  · simp [sizes, size]
  · have := sizes_fst_zip_le p.args t.args
    have := size_eq p
    simp [sizes, sizes_append]
    omega

def match? (pattern target : Term) : Option Suggestion := matchAll [] [(pattern, target)]

end Term

end Axiomata
