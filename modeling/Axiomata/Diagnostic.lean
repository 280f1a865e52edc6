import Axiomata.Token.Basic

/-!
# What can be wrong with a declaration

A diagnostic is a fault at a token.
-/

namespace Axiomata

inductive Fault where
  | nameTaken
  | reservedName
  | unknownType
  | notAType
  | repeatedParam
  | unknownTerm
  | unknownRule
  | tooManyArgs
  | tooFewArgs
  | argType
  | uselessStep
  | notDistinct
  | unproved
deriving DecidableEq, Repr, Inhabited

namespace Fault

def label : Fault → String
  | .nameTaken => "DupName"
  | .reservedName => "DiffIsKeyword"
  | .unknownType => "TypeDefMissing"
  | .notAType => "NotType"
  | .repeatedParam => "DupArgName"
  | .unknownTerm => "TermDefMissing"
  | .unknownRule => "AxiomThmDefMissing"
  | .tooManyArgs => "TooManyArg"
  | .tooFewArgs => "TooLessArg"
  | .argType => "ArgTypeError"
  | .uselessStep => "ProofOpUseless"
  | .notDistinct => "ProofDiffError"
  | .unproved => "ThmWithoutValidProof"

def message : Fault → String
  | .nameTaken => "name is already defined"
  | .reservedName => "`#diff` is a keyword and cannot be used as a name"
  | .unknownType => "type is not defined"
  | .notAType => "name does not denote a type"
  | .repeatedParam => "parameter name is used twice"
  | .unknownTerm => "term is not defined"
  | .unknownRule => "axiom or theorem is not defined"
  | .tooManyArgs => "too many arguments"
  | .tooFewArgs => "too few arguments"
  | .argType => "argument has the wrong type"
  | .uselessStep => "proof step does not discharge any goal"
  | .notDistinct => "proof step violates a distinctness condition"
  | .unproved => "theorem has no valid proof"

def all : List Fault :=
  [.nameTaken, .reservedName, .unknownType, .notAType, .repeatedParam, .unknownTerm, .unknownRule,
    .tooManyArgs, .tooFewArgs, .argType, .uselessStep, .notDistinct, .unproved]

def ofLabel? (text : String) : Option Fault := all.find? (·.label == text)

end Fault

structure Diagnostic where
  fault : Fault
  token : Token
deriving DecidableEq, Repr, Inhabited

namespace Diagnostic

variable (d : Diagnostic)

/-- On one line with the token, then the excerpt. -/
def describe (s : Source) : String :=
  d.fault.label ++ ": " ++ d.fault.message ++ " `" ++ d.token.text ++ "` at " ++
    s.excerpt d.token.span

/-- The fault above the excerpt. -/
def render (s : Source) : String :=
  d.fault.label ++ ": " ++ d.fault.message ++ "\n" ++ s.excerpt d.token.span

def extent (s : Source) : Extent := s.extent d.token.span

/-- In the order of the source. Diagnostics at one token keep their order. -/
def sort (s : Source) (ds : List Diagnostic) : List Diagnostic :=
  ((ds.map fun d => (d.extent s, d)).mergeSort fun a b => a.1.le b.1).map Prod.snd

/-- Looking up the extents beforehand makes no difference to the order. -/
theorem sort_eq_mergeSort (s : Source) (ds : List Diagnostic) :
    sort s ds = ds.mergeSort fun a b => (a.extent s).le (b.extent s) := by
  have h : (ds.mergeSort fun a b => (a.extent s).le (b.extent s)).map (fun d => (d.extent s, d)) =
      (ds.map fun d => (d.extent s, d)).mergeSort fun a b => a.1.le b.1 :=
    List.map_mergeSort fun _ _ _ _ => rfl
  rw [sort, ← h, List.map_map]
  exact List.map_id _

/-- Sorting neither loses nor adds a diagnostic. -/
@[simp] theorem mem_sort {s : Source} {d : Diagnostic} {ds : List Diagnostic} :
    d ∈ sort s ds ↔ d ∈ ds := by
  rw [sort_eq_mergeSort, List.mem_mergeSort]

@[simp] theorem length_sort (s : Source) (ds : List Diagnostic) :
    (sort s ds).length = ds.length := by
  simp [sort]

def count (fault : Fault) (ds : List Diagnostic) : Nat := ds.countP (·.fault == fault)

end Diagnostic

end Axiomata
