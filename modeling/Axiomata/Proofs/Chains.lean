import Axiomata.Proofs.Reachable

/-!
# Tables that were compiled at any time

A file is compiled against tables as they are at that time. One of them may have been replaced
since, so the tables of a chain need not have been compiled against each other, and a term in one of
them may hold a constructor that no table of the chain has any more. `Table.Compiled` asks for
nothing else than that every table was compiled against such tables.

What is said of a symbol is then said with respect to a list of symbols that is closed: all that its
members are made of is there too. A property that passes from the members of a closed list to what a
declaration adds (`Hereditary`) belongs to all symbols of any chain
(`Hereditary.exists_closed_run`).
-/

namespace Axiomata

/-- The tables of files that are compiled against such tables. -/
inductive Table.Compiled (admitted : Decl → Prop) : Table → Prop
  | run {deps : List Table} {ds : List Decl} (hdeps : ∀ t ∈ deps, Compiled admitted t)
    (hds : ∀ d ∈ ds, admitted d) : Compiled admitted ((Elaboration.start deps).run ds).scope.table

/-- Symbols that have a property with respect to each other. -/
def Closed (P : List Symbol → Symbol → Prop) (symbols : List Symbol) : Prop :=
  ∀ x ∈ symbols, P symbols x

/-- A property of symbols with respect to a list that stays when the list grows, and that a symbol
has if it is added to a scope whose symbols are on a closed list. -/
structure Hereditary (admitted : Decl → Prop) (P : List Symbol → Symbol → Prop) : Prop where
  mono : ∀ {as bs : List Symbol} {x : Symbol}, as ⊆ bs → P as x → P bs x
  adds : ∀ {s : Scope} {symbols : List Symbol}, s.symbols ⊆ symbols → Closed P symbols →
    ∀ {d : Decl}, admitted d → ∀ {x : Symbol}, s.Adds d x → P symbols x

namespace Hereditary

variable {admitted : Decl → Prop} {P Q : List Symbol → Symbol → Prop}

/-- Two hereditary properties are hereditary together. -/
theorem and (hP : Hereditary admitted P) (hQ : Hereditary admitted Q) :
    Hereditary admitted fun symbols x => P symbols x ∧ Q symbols x where
  mono hs h := ⟨hP.mono hs h.1, hQ.mono hs h.2⟩
  adds hs hclosed _ hd _ hx :=
    ⟨hP.adds hs (fun y hy => (hclosed y hy).1) hd hx, hQ.adds hs (fun y hy => (hclosed y hy).2) hd hx⟩

/-- A closed list may be extended by symbols that have the property with respect to the longer list.
-/
theorem closed_append (hP : Hereditary admitted P) {as bs : List Symbol} (ha : Closed P as)
    (hb : ∀ x ∈ bs, P (as ++ bs) x) : Closed P (as ++ bs) := by
  intro x hx
  rcases List.mem_append.mp hx with hx | hx
  · exact hP.mono (List.subset_append_left as bs) (ha x hx)
  · exact hb x hx

/-- Closed lists for several tables give one for all of them. -/
theorem exists_closed_flatMap (hP : Hereditary admitted P) {ts : List Table}
    (h : ∀ t ∈ ts, ∃ symbols, t.symbols ⊆ symbols ∧ Closed P symbols) :
    ∃ symbols, ts.flatMap Table.symbols ⊆ symbols ∧ Closed P symbols := by
  induction ts with
  | nil => exact ⟨[], by simp, by simp [Closed]⟩
  | cons t ts ih =>
    rw [List.forall_mem_cons] at h
    obtain ⟨as, hfirst, ha⟩ := h.1
    obtain ⟨bs, hothers, hb⟩ := ih h.2
    refine ⟨as ++ bs, ?_, hP.closed_append ha fun x hx => ?_⟩
    · rw [List.flatMap_cons]
      exact List.append_subset.mpr ⟨List.subset_append_of_subset_left bs hfirst,
        List.subset_append_of_subset_right as hothers⟩
    · exact hP.mono (List.subset_append_right as bs) (hb x hx)

/-- One declaration keeps the symbols in scope on a closed list. -/
theorem exists_closed_declare (hP : Hereditary admitted P) {e : Elaboration} {symbols : List Symbol}
    (hs : e.scope.symbols ⊆ symbols) (hclosed : Closed P symbols) {d : Decl} (hd : admitted d) :
    ∃ symbols', (e.declare d).scope.symbols ⊆ symbols' ∧ Closed P symbols' := by
  refine ⟨symbols ++ (e.scope.elaborate d).symbols, ?_, hP.closed_append hclosed fun x hx => ?_⟩
  · rw [Elaboration.declare, Scope.symbols_append]
    exact List.append_subset.mpr ⟨List.subset_append_of_subset_left _ hs, List.subset_append_right _ _⟩
  · exact hP.mono (List.subset_append_left _ _)
      (hP.adds hs hclosed hd (Scope.adds_of_mem_elaborate hx))

/-- So do any number of declarations. -/
theorem exists_closed_of_subset (hP : Hereditary admitted P) {e : Elaboration}
    {symbols : List Symbol} (hs : e.scope.symbols ⊆ symbols) (hclosed : Closed P symbols)
    {ds : List Decl} (hds : ∀ d ∈ ds, admitted d) :
    ∃ symbols', (e.run ds).scope.symbols ⊆ symbols' ∧ Closed P symbols' := by
  induction ds generalizing e symbols with
  | nil => exact ⟨symbols, hs, hclosed⟩
  | cons d ds ih =>
    rw [List.forall_mem_cons] at hds
    obtain ⟨symbols', hs', hclosed'⟩ := hP.exists_closed_declare hs hclosed hds.1
    exact ih hs' hclosed' hds.2

/-- A file starts with the closed lists of its dependencies. -/
theorem exists_closed_start (hP : Hereditary admitted P) {deps : List Table}
    (h : ∀ t ∈ deps, ∃ symbols, t.symbols ⊆ symbols ∧ Closed P symbols) {ds : List Decl}
    (hds : ∀ d ∈ ds, admitted d) :
    ∃ symbols, ((Elaboration.start deps).run ds).scope.symbols ⊆ symbols ∧ Closed P symbols := by
  obtain ⟨symbols, hs, hclosed⟩ := hP.exists_closed_flatMap h
  refine hP.exists_closed_of_subset ?_ hclosed hds
  simpa [Elaboration.start, Scope.symbols] using hs

/-- The symbols of a compiled table are on a closed list, by induction on the files that it depends
on. -/
theorem exists_closed_table (hP : Hereditary admitted P) {t : Table} (h : t.Compiled admitted) :
    ∃ symbols, t.symbols ⊆ symbols ∧ Closed P symbols := by
  induction h with
  | run hdeps hds ih =>
    obtain ⟨symbols, hs, hclosed⟩ := hP.exists_closed_start ih hds
    exact ⟨symbols, (List.append_subset.mp hs).2, hclosed⟩

/-- The symbols of a file and of those that it depends on are on a closed list. -/
theorem exists_closed_run (hP : Hereditary admitted P) {deps : List Table}
    (hdeps : ∀ t ∈ deps, t.Compiled admitted) {ds : List Decl} (hds : ∀ d ∈ ds, admitted d) :
    ∃ symbols, ((Elaboration.start deps).run ds).scope.symbols ⊆ symbols ∧ Closed P symbols :=
  hP.exists_closed_start (fun t ht => hP.exists_closed_table (hdeps t ht)) hds

end Hereditary

end Axiomata
