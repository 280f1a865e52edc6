import Axiomata.Proofs.Splitting

/-!
# Tables over whole runs

Declarations only add to the table of their file (`Elaboration.symbols_prefix_run`), and no name is
declared twice. So a symbol stays where it is and is what its name finds, from its declaration on.
What the file itself does not declare is found in the first of the tables it depends on that has the
name (`Scope.resolve_eq_some_iff`).
-/

namespace Axiomata

/-- Where no name is used twice, a name finds the one symbol that has it. -/
theorem Table.get?_eq_some_iff {t : Table} (h : t.names.Nodup) {name : String} {x : Symbol} :
    t.get? name = some x ↔ x ∈ t.symbols ∧ x.name = name := by
  constructor
  · exact mem_of_get?
  · rintro ⟨hx, rfl⟩
    rw [t.get?_eq_find? h]
    exact find?_key_eq_some h hx

/-- Where no name is used twice, the index has the place of every name. -/
theorem Table.lookup_index_iff {t : Table} (h : t.names.Nodup) {name : String} {i : Nat} :
    t.index.lookup name = some i ↔ ∃ x, t.symbols[i]? = some x ∧ x.name = name := by
  rw [t.inStep]
  constructor
  · rintro ⟨front, x, back, hsymbols, rfl, hname, -⟩
    exact ⟨x, by simp [hsymbols], hname⟩
  · rintro ⟨x, hx, rfl⟩
    obtain ⟨hi, rfl⟩ := List.getElem?_eq_some_iff.mp hx
    have hsplit : t.symbols = t.symbols.take i ++ t.symbols[i] :: t.symbols.drop (i + 1) := by
      rw [← List.drop_eq_getElem_cons hi, List.take_append_drop]
    refine ⟨_, _, _, hsplit, by simp [Nat.le_of_lt hi], rfl, fun y hy heq => ?_⟩
    rw [names, hsplit, List.map_append, List.map_cons, List.nodup_append', List.nodup_cons] at h
    exact h.2.1.1 (heq ▸ List.mem_map_of_mem hy)

/-- The index has the names of the table and no others. -/
theorem Table.contains_iff {t : Table} {name : String} : t.contains name ↔ name ∈ t.names := by
  rw [t.contains_eq, t.get?_isSome_iff]

theorem Table.get?_eq_none_iff {t : Table} {name : String} : t.get? name = none ↔ name ∉ t.names := by
  rw [← Option.not_isSome_iff_eq_none, t.get?_isSome_iff]

namespace Scope

/-- The first of the tables that have a name. -/
theorem findSome?_get?_eq_some_iff {deps : List Table} {name : String} {x : Symbol} :
    deps.findSome? (·.get? name) = some x ↔
      ∃ front t back, deps = front ++ t :: back ∧ (∀ u ∈ front, name ∉ u.names) ∧
        t.get? name = some x := by
  rw [List.findSome?_eq_some_iff]
  constructor
  · rintro ⟨front, t, back, rfl, ht, hfront⟩
    exact ⟨front, t, back, rfl, fun u hu => Table.get?_eq_none_iff.mp (hfront u hu), ht⟩
  · rintro ⟨front, t, back, rfl, hfront, ht⟩
    exact ⟨front, t, back, rfl, ht, fun u hu => Table.get?_eq_none_iff.mpr (hfront u hu)⟩

/-- A name finds the symbol of the own table that has it, and otherwise that of the first table that
does. -/
theorem resolve_eq_some_iff {s : Scope} (h : s.WellNamed) {name : String} {x : Symbol} :
    s.resolve name = some x ↔
      (x ∈ s.table.symbols ∧ x.name = name) ∨
        name ∉ s.table.names ∧ ∃ front t back, s.deps = front ++ t :: back ∧
          (∀ u ∈ front, name ∉ u.names) ∧ t.get? name = some x := by
  rw [resolve, Option.or_eq_some_iff, Table.get?_eq_some_iff h.nodup, Table.get?_eq_none_iff,
    findSome?_get?_eq_some_iff]

/-- Own symbols are found under their names. -/
theorem WellNamed.resolve_name {s : Scope} (h : s.WellNamed) {x : Symbol}
    (hx : x ∈ s.table.symbols) : s.resolve x.name = some x :=
  (resolve_eq_some_iff h).mpr (.inl ⟨hx, rfl⟩)

end Scope

namespace Elaboration

theorem symbols_prefix_declare (e : Elaboration) (d : Decl) :
    e.scope.table.symbols <+: (e.declare d).scope.table.symbols := by
  rw [declare, Scope.append, Table.symbols_append]
  exact List.prefix_append _ _

theorem symbols_prefix_run (e : Elaboration) (ds : List Decl) :
    e.scope.table.symbols <+: (e.run ds).scope.table.symbols := by
  induction ds generalizing e with
  | nil => exact List.prefix_rfl
  | cons d ds ih => exact (e.symbols_prefix_declare d).trans (ih (e.declare d))

/-- After any declarations, the names of a table are used once, none of them is reserved, and none
is used by a table that the file depends on. The index has these names and no others, each with the
place of its symbol. A name finds the own symbol of that name, or the one of
the first table that has it. Further declarations leave every symbol where it is and found by its
name. -/
theorem table_after_run (deps : List Table) (before after : List Decl) :
    let now := ((start deps).run before).scope
    let later := ((start deps).run (before ++ after)).scope
    (now.table.names.Nodup ∧ distinctKeyword ∉ now.table.names ∧
      ∀ name ∈ now.table.names, ∀ dep ∈ deps, name ∉ dep.names) ∧
    (∀ name, (now.table.contains name ↔ name ∈ now.table.names) ∧
      ∀ i, now.table.index.lookup name = some i ↔
        ∃ x, now.table.symbols[i]? = some x ∧ x.name = name) ∧
    (∀ name x, now.resolve name = some x ↔
      (x ∈ now.table.symbols ∧ x.name = name) ∨
        name ∉ now.table.names ∧ ∃ front dep back, deps = front ++ dep :: back ∧
          (∀ other ∈ front, name ∉ other.names) ∧ dep.get? name = some x) ∧
    now.table.symbols <+: later.table.symbols ∧
    ∀ (i : Nat) (x : Symbol), now.table.symbols[i]? = some x →
      later.table.symbols[i]? = some x ∧ later.resolve x.name = some x := by
  intro now later
  have hnow : now.WellNamed := wellNamed_run (.of_deps deps) before
  have hlater : later.WellNamed := wellNamed_run (.of_deps deps) (before ++ after)
  have hdeps : now.deps = deps := deps_run _ before
  have hprefix : now.table.symbols <+: later.table.symbols := by
    have hrun := ((start deps).run before).symbols_prefix_run after
    rwa [← run_append] at hrun
  refine ⟨⟨hnow.nodup, hnow.unreserved, ?_⟩, fun name => ⟨Table.contains_iff, fun i =>
    Table.lookup_index_iff hnow.nodup⟩, ?_, hprefix, ?_⟩
  · rw [← hdeps]
    exact hnow.separate
  · intro name x
    rw [Scope.resolve_eq_some_iff hnow, hdeps]
  · intro i x hx
    have hi : i < now.table.symbols.length := (List.getElem?_eq_some_iff.mp hx).1
    have hstays : later.table.symbols[i]? = some x := by
      rw [List.prefix_iff_getElem?.mp hprefix i hi, ← List.getElem?_eq_getElem hi, hx]
    exact ⟨hstays, hlater.resolve_name (List.mem_of_getElem? hstays)⟩

end Elaboration

end Axiomata
