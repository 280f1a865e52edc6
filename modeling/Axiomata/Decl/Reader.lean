import Axiomata.Decl.ParseError

/-!
# Readers of token lists

A reader takes tokens from the head of a list. One that fails says why and where it stopped: behind
the token that it could not accept.
-/

namespace Axiomata

inductive Reading (α : Type) where
  | ok (value : α) (rest : List Token)
  | error (cause : ParseError) (rest : List Token)

namespace Reading

variable {α β : Type}

def rest : Reading α → List Token
  | .ok _ rest | .error _ rest => rest

def map (f : α → β) : Reading α → Reading β
  | .ok a rest => .ok (f a) rest
  | .error e rest => .error e rest

def bind (r : Reading α) (f : α → List Token → Reading β) : Reading β :=
  match r with
  | .ok a rest => f a rest
  | .error e rest => .error e rest

@[simp] theorem map_ok (f : α → β) (a : α) (ts : List Token) :
    (Reading.ok a ts).map f = .ok (f a) ts := rfl
@[simp] theorem map_error (f : α → β) (e : ParseError) (ts : List Token) :
    (Reading.error e ts).map f = .error e ts := rfl
@[simp] theorem bind_ok (a : α) (ts : List Token) (f : α → List Token → Reading β) :
    (Reading.ok a ts).bind f = f a ts := rfl
@[simp] theorem bind_error (e : ParseError) (ts : List Token) (f : α → List Token → Reading β) :
    (Reading.error e ts).bind f = .error e ts := rfl

/-- A mapped reading succeeds only if the reading itself does, and at the same place. -/
theorem map_eq_ok {f : α → β} {r : Reading α} {b : β} {ts : List Token} (h : r.map f = .ok b ts) :
    ∃ a, r = .ok a ts ∧ f a = b := by
  cases r with
  | ok a rest =>
    simp only [map_ok, ok.injEq] at h
    exact ⟨a, by rw [h.2], h.1⟩
  | error e rest => simp at h

end Reading

abbrev Reader (α : Type) : Type := List Token → Reading α

namespace Reader

variable {α β : Type}

instance : Monad Reader where
  pure a := fun ts => .ok a ts
  bind p f := fun ts => (p ts).bind f

theorem bind_apply (p : Reader α) (f : α → Reader β) (ts : List Token) :
    (p >>= f) ts = (p ts).bind f := rfl

/-- The next token, which has to satisfy a test. -/
def demand (wanted : Expectation) (test : Token → Bool) : Reader Token
  | [] => .error .endOfInput []
  | t :: ts => if test t then .ok t ts else .error (.unexpected wanted t) ts

def word : Reader Token := demand .word Token.isWord

def keyword : Reader Token := demand .keyword Token.isKeyword

def name : Reader Token := demand .name Token.isName

def symbol (text : String) : Reader Token := demand (.symbol text) (·.isSymbol text)

/-- A word with the given text. -/
def exactly (text : String) : Reader Token :=
  demand (.exactly text) fun t => t.isWord && t.text == text

/-- Whether a separator with the given text comes next. -/
def sees (text : String) (ts : List Token) : Bool := ts.head?.any (·.isSymbol text)

/-- Whether a word comes next. -/
def seesWord (ts : List Token) : Bool := ts.head?.any Token.isWord

/-- A reader that leaves no more tokens than it was given. -/
def Shrinks (p : Reader α) : Prop :=
  ∀ ts a rest, p ts = .ok a rest → rest.length ≤ ts.length

/-- A reader that takes at least one token whenever it succeeds. -/
def Consumes (p : Reader α) : Prop :=
  ∀ ts a rest, p ts = .ok a rest → rest.length < ts.length

/-- Taking at least one token leaves no more than there were. -/
theorem Consumes.shrinks {p : Reader α} (h : Consumes p) : Shrinks p :=
  fun ts a rest eq => Nat.le_of_lt (h ts a rest eq)

/-- A reader that takes nothing leaves everything. -/
theorem shrinks_pure (a : α) : Shrinks (pure a : Reader α) := by
  intro ts b rest h
  cases h
  exact Nat.le_refl _

/-- Two readers in turn leave no more than the first of them. -/
theorem Shrinks.bind {p : Reader α} {f : α → Reader β} (hp : Shrinks p) (hf : ∀ a, Shrinks (f a)) :
    Shrinks (p >>= f) := by
  intro ts b rest h
  rw [bind_apply] at h
  cases hr : p ts with
  | ok a mid =>
    rw [hr, Reading.bind_ok] at h
    exact Nat.le_trans (hf a mid b rest h) (hp ts a mid hr)
  | error e mid => simp [hr] at h

/-- If the first of two readers takes a token, so do both in turn. -/
theorem Consumes.bind {p : Reader α} {f : α → Reader β} (hp : Consumes p)
    (hf : ∀ a, Shrinks (f a)) : Consumes (p >>= f) := by
  intro ts b rest h
  rw [bind_apply] at h
  cases hr : p ts with
  | ok a mid =>
    rw [hr, Reading.bind_ok] at h
    exact Nat.lt_of_le_of_lt (hf a mid b rest h) (hp ts a mid hr)
  | error e mid => simp [hr] at h

/-- A token that is demanded is taken. -/
theorem consumes_demand (wanted : Expectation) (test : Token → Bool) :
    Consumes (demand wanted test) := by
  intro ts a rest h
  cases ts with
  | nil => simp [demand] at h
  | cons t ts =>
    rw [demand] at h
    split at h
    · cases h
      simp
    · simp at h

/-- What is seen is there to be taken. -/
theorem exists_cons_of_sees {text : String} {ts : List Token} (h : sees text ts) :
    ∃ t rest, ts = t :: rest ∧ t.isSymbol text := by
  cases ts with
  | nil => simp [sees] at h
  | cons t rest => exact ⟨t, rest, rfl, by simpa [sees] using h⟩

end Reader

end Axiomata
