import Axiomata.Elaborate.Decl
import Mathlib.Data.List.Nodup

/-!
# Fresh symbols

Whatever a declaration adds to a scope is fresh in it: no added name is in use already, none is added
twice, and none is reserved. Symbols that are fresh can be looked up in the scope that has them
without regard to the order of its tables (`Scope.resolve_append`).
-/

namespace Axiomata

/-- Where no key is used twice, looking for the key of a member finds that member. -/
theorem find?_key_eq_some {α : Type} {key : α → String} {xs : List α} (h : (xs.map key).Nodup)
    {x : α} (hx : x ∈ xs) : xs.find? (key · == key x) = some x := by
  induction xs with
  | nil => simp at hx
  | cons y xs ih =>
    rw [List.map_cons, List.nodup_cons] at h
    rcases List.mem_cons.mp hx with rfl | hx
    · simp
    · have hne : key y ≠ key x := fun heq => h.1 (heq ▸ List.mem_map_of_mem hx)
      simp [hne, ih h.2 hx]

/-- Where no key is used twice, it does not matter from which end a key is looked for. -/
theorem find?_key_reverse {α : Type} {key : α → String} {xs : List α} (h : (xs.map key).Nodup)
    (k : String) : xs.reverse.find? (key · == k) = xs.find? (key · == k) := by
  cases hfind : xs.find? (key · == k) with
  | none =>
    rw [List.find?_eq_none] at hfind ⊢
    simpa using hfind
  | some x =>
    have hkey : key x = k := by simpa using List.find?_some hfind
    have hx : x ∈ xs.reverse := List.mem_reverse.mpr (List.mem_of_find?_eq_some hfind)
    rw [← hkey]
    exact find?_key_eq_some (by simpa using h) hx

namespace Table

variable (t : Table)

/-- The index leads to the last symbol of a name. -/
theorem get?_eq_find?_reverse (name : String) :
    t.get? name = t.symbols.reverse.find? (·.name == name) := by
  rw [get?]
  cases hfind : t.symbols.reverse.find? (·.name == name) with
  | none =>
    have hnone : t.index.lookup name = none := by
      rw [Option.eq_none_iff_forall_ne_some]
      intro i hi
      obtain ⟨front, x, back, hsymbols, -, hname, -⟩ := (t.inStep name i).mp hi
      rw [List.find?_eq_none] at hfind
      exact hfind x (by simp [hsymbols]) (by simp [hname])
    rw [hnone, Option.bind_none]
  | some x =>
    obtain ⟨hname, back, front, hreverse, hback⟩ := List.find?_eq_some_iff_append.mp hfind
    have hsymbols : t.symbols = front.reverse ++ x :: back.reverse := by
      simpa using congrArg List.reverse hreverse
    have hindex : t.index.lookup name = some front.reverse.length :=
      (t.inStep name _).mpr ⟨front.reverse, x, back.reverse, hsymbols, rfl, by simpa using hname,
        by simpa using hback⟩
    rw [hindex, Option.bind_some, hsymbols]
    simp

/-- Where no name is used twice, the index leads to the symbol that is found by going over the list. -/
theorem get?_eq_find? (h : t.names.Nodup) (name : String) :
    t.get? name = t.symbols.find? (·.name == name) := by
  rw [get?_eq_find?_reverse, find?_key_reverse h]

/-- The index has the names of the table and no others. -/
theorem contains_eq (name : String) : t.contains name = (t.get? name).isSome := by
  rw [contains, get?]
  cases hindex : t.index.lookup name with
  | none => rfl
  | some i =>
    obtain ⟨front, x, back, hsymbols, rfl, -⟩ := (t.inStep name i).mp hindex
    simp [hsymbols]

/-- Symbols are added at the end. -/
@[simp] theorem symbols_append (ss : List Symbol) : (t.append ss).symbols = t.symbols ++ ss := by
  induction ss generalizing t with
  | nil => simp [append]
  | cons x ss ih =>
    rw [append, List.foldl_cons]
    exact (ih (t.insert x)).trans (by simp [insert])

/-- What is put in last is found first. -/
theorem get?_append (ss : List Symbol) (name : String) :
    (t.append ss).get? name = (ss.reverse.find? (·.name == name)).or (t.get? name) := by
  rw [get?_eq_find?_reverse, symbols_append, List.reverse_append, List.find?_append,
    ← get?_eq_find?_reverse]

/-- The names of a table are those that can be found. -/
theorem get?_isSome_iff {name : String} : (t.get? name).isSome ↔ name ∈ t.names := by
  simp [get?_eq_find?_reverse, names, List.find?_isSome]

/-- A symbol that is found is in the table and has the name. -/
theorem mem_of_get? {t : Table} {name : String} {x : Symbol} (h : t.get? name = some x) :
    x ∈ t.symbols ∧ x.name = name := by
  rw [get?_eq_find?_reverse] at h
  exact ⟨List.mem_reverse.mp (List.mem_of_find?_eq_some h), by simpa using List.find?_some h⟩

end Table

namespace Scope

variable {s : Scope}

/-! ## Looking up names -/

/-- A name is not found if no table has it. -/
theorem resolve_eq_none_iff {name : String} :
    s.resolve name = none ↔ name ∉ s.table.names ∧ ∀ t ∈ s.deps, name ∉ t.names := by
  simp only [resolve, Option.or_eq_none_iff, List.findSome?_eq_none_iff, ← Table.get?_isSome_iff,
    Option.not_isSome_iff_eq_none]

/-- A symbol that is found has the name and is in one of the tables. -/
theorem mem_of_resolve {name : String} {x : Symbol} (h : s.resolve name = some x) :
    x.name = name ∧ (x ∈ s.table.symbols ∨ ∃ t ∈ s.deps, x ∈ t.symbols) := by
  rw [resolve, Option.or_eq_some_iff] at h
  rcases h with h | ⟨-, h⟩
  · exact ⟨(Table.mem_of_get? h).2, .inl (Table.mem_of_get? h).1⟩
  · obtain ⟨t, ht, h⟩ := List.exists_of_findSome?_eq_some h
    exact ⟨(Table.mem_of_get? h).2, .inr ⟨t, ht, (Table.mem_of_get? h).1⟩⟩

/-- A name can be declared if it is neither reserved nor in use. -/
theorem nameFault?_eq_none_iff {name : String} :
    s.nameFault? name = none ↔ name ≠ distinctKeyword ∧ s.resolve name = none := by
  unfold nameFault?
  by_cases h : name = distinctKeyword
  · simp [h]
  · cases s.resolve name <;> simp [h]

/-! ## Fresh symbols -/

/-- Symbols that can be added to a scope one after the other. -/
structure Fresh (s : Scope) (ss : List Symbol) : Prop where
  nodup : (ss.map Symbol.name).Nodup
  free : ∀ x ∈ ss, s.nameFault? x.name = none

theorem Fresh.nil (s : Scope) : s.Fresh [] := ⟨by simp, by simp⟩

/-- One symbol is fresh if its name can be declared. -/
theorem Fresh.singleton {x : Symbol} (h : s.nameFault? x.name = none) : s.Fresh [x] :=
  ⟨by simp, by simpa using h⟩

/-- Fresh symbols are told apart by their names. -/
theorem Fresh.find?_name {ss : List Symbol} (h : s.Fresh ss) {x : Symbol} (hx : x ∈ ss) :
    ss.find? (·.name == x.name) = some x :=
  find?_key_eq_some h.nodup hx

/-- The name of a fresh symbol is not in use. -/
theorem Fresh.resolve_eq_none {ss : List Symbol} (h : s.Fresh ss) {x : Symbol} (hx : x ∈ ss) :
    s.resolve x.name = none :=
  (nameFault?_eq_none_iff.mp (h.free x hx)).2

/-- Fresh symbols are found behind all others, although they are looked for before the tables that
the scope depends on. -/
theorem resolve_append {ss : List Symbol} (h : s.Fresh ss) (name : String) :
    (s.append ss).resolve name = (s.resolve name).or (ss.find? (·.name == name)) := by
  have hget : (s.append ss).resolve name =
      ((ss.find? (·.name == name)).or (s.table.get? name)).or
        (s.deps.findSome? (·.get? name)) := by
    rw [← find?_key_reverse h.nodup, ← Table.get?_append]
    rfl
  rw [hget]
  cases hfind : ss.find? (·.name == name) with
  | none => simp [resolve]
  | some x =>
    have hname : x.name = name := by simpa using List.find?_some hfind
    have hnone := h.resolve_eq_none (List.mem_of_find?_eq_some hfind)
    rw [hname] at hnone
    rw [hnone]
    rw [resolve, Option.or_eq_none_iff] at hnone
    simp [hnone.1, hnone.2]

/-- Behind fresh symbols, their names cannot be declared again, and all others as before. -/
theorem nameFault?_append {ss : List Symbol} (h : s.Fresh ss) {name : String} :
    (s.append ss).nameFault? name = none ↔
      s.nameFault? name = none ∧ name ∉ ss.map Symbol.name := by
  simp only [nameFault?_eq_none_iff, resolve_append h, Option.or_eq_none_iff, List.find?_eq_none,
    List.mem_map, not_exists, not_and, beq_iff_eq, and_assoc]

/-- What is fresh behind fresh symbols is fresh together with them. -/
theorem Fresh.append {as bs : List Symbol} (ha : s.Fresh as) (hb : (s.append as).Fresh bs) :
    s.Fresh (as ++ bs) := by
  have hfree := fun x hx => (nameFault?_append ha).mp (hb.free x hx)
  refine ⟨?_, ?_⟩
  · rw [List.map_append]
    refine List.Nodup.append ha.nodup hb.nodup fun name has hbs => ?_
    obtain ⟨x, hx, rfl⟩ := List.mem_map.mp hbs
    exact (hfree x hx).2 has
  · intro x hx
    rcases List.mem_append.mp hx with hx | hx
    · exact ha.free x hx
    · exact (hfree x hx).1

/-! ## What declarations add -/

/-- A symbol is added if its name can be declared, and otherwise it is reported why not. -/
theorem register_eq (s : Scope) (t : Token) (x : Symbol) :
    s.register t x =
      match s.nameFault? x.name with
      | some fault => .report [⟨fault, t⟩]
      | none => { symbols := [x] } := by
  unfold register declare
  cases s.nameFault? x.name <;> rfl

/-- A symbol is only added if it is fresh. -/
theorem fresh_register (s : Scope) (t : Token) (x : Symbol) : s.Fresh (s.register t x).symbols := by
  rw [register_eq]
  split
  · exact .nil s
  · exact .singleton ‹_›

/-- The name of a type is checked twice, and the second check finds what the first has found. -/
theorem declareTypes_cons (s : Scope) (t : Token) (ts : List Token) :
    s.declareTypes (t :: ts) = s.register t (.type t.text) ++
      (s.append (s.register t (.type t.text)).symbols).declareTypes ts := by
  have htype : s.declareType t = s.register t (.type t.text) := by
    rw [declareType, badName?, register_eq, Symbol.name]
    cases s.nameFault? t.text <;> rfl
  rw [declareTypes, htype]

/-- Each name is checked with the types in front of it added, so no name is added twice. -/
theorem fresh_declareTypes (s : Scope) (ts : List Token) : s.Fresh (s.declareTypes ts).symbols := by
  induction ts generalizing s with
  | nil => exact .nil s
  | cons t ts ih =>
    rw [declareTypes_cons]
    exact (s.fresh_register t (.type t.text)).append (ih _)

theorem fresh_declareTerm (s : Scope) (type name : Token) (params : List ParamDecl)
    (body : List Token) : s.Fresh (s.declareTerm type name params body).symbols := by
  unfold declareTerm
  split
  · exact .nil s
  · exact s.fresh_register name _

@[simp] theorem symbols_report (faults : List Diagnostic) :
    (Outcome.report faults).symbols = [] := rfl

@[simp] theorem faults_report (faults : List Diagnostic) :
    (Outcome.report faults).faults = faults := rfl

/-- A postulate adds a fresh symbol, if any. -/
theorem fresh_declarePostulate (s : Scope) (st : Statement) :
    s.Fresh (s.declarePostulate st).symbols := by
  unfold declarePostulate
  split
  · exact .nil s
  · simpa using s.fresh_register st.name _

/-- A theorem adds a fresh symbol, if any. -/
theorem fresh_declareThm (s : Scope) (st : Statement) (proof : List Expr) :
    s.Fresh (s.declareThm st proof).symbols := by
  unfold declareThm
  split
  · exact .nil s
  · simpa using s.fresh_register st.name _

/-- Whatever a declaration adds is fresh. -/
theorem fresh_elaborate (s : Scope) (d : Decl) : s.Fresh (s.elaborate d).symbols := by
  cases d with
  | types names => exact s.fresh_declareTypes names
  | term type name params body => exact s.fresh_declareTerm type name params body
  | postulate st => exact s.fresh_declarePostulate st
  | thm st proof => exact s.fresh_declareThm st proof

end Scope

end Axiomata
