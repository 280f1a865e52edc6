import Axiomata.Development.Basic
import Axiomata.Proofs.Lookup
import Axiomata.Proofs.Reachable
import Mathlib.Data.List.Induction
import Mathlib.Data.List.Nodup

/-!
# Names under recompilation

A file is compiled against the tables of the files in front of it as they are at that time. When one
of those is compiled again it may declare a name that the file has declared in the meantime, and a
third file then sees both. This is the only way in which two tables of a chain can come to share a
name: of the tables that a file was compiled against, all are still there but those of files that
were compiled since (`Development.exists_deps_eq`), and from the former its own names are apart. In a
chain of files that do not outdate each other (`Development.Current`) every name is declared once and
means the same everywhere.
-/

namespace Axiomata

/-- The scope that a file leaves behind. -/
def CompiledFile.scope (f : CompiledFile) : Scope := { deps := f.deps, table := f.table }

/-- A file does not use the names of its dependencies for its own symbols. -/
theorem Source.wellNamed_compile (s : Source) (deps : List Table) :
    (s.compile deps).scope.WellNamed := by
  have hrun := Elaboration.wellNamed_run (e := .start deps) (.of_deps deps) s.outline.decls
  have hdeps := Elaboration.deps_run (.start deps) s.outline.decls
  exact ⟨hrun.nodup, hrun.unreserved, fun name hname t ht => hrun.separate name hname t (hdeps ▸ ht)⟩

/-- Where every name is declared once, a symbol is found in the tables by its name. -/
theorem Table.findSome?_get?_name {ts : List Table}
    (h : ((ts.flatMap Table.symbols).map Symbol.name).Nodup) {x : Symbol}
    (hx : x ∈ ts.flatMap Table.symbols) : ts.findSome? (·.get? x.name) = some x := by
  induction ts with
  | nil => cases hx
  | cons t ts ih =>
    rw [List.flatMap_cons, List.map_append, List.nodup_append'] at h
    rw [List.flatMap_cons, List.mem_append] at hx
    rcases hx with hx | hx
    · have hsome : t.get? x.name = some x := (get?_eq_some_iff h.1).mpr ⟨hx, rfl⟩
      rw [List.findSome?_cons, hsome]
    · have hnone : t.get? x.name = none :=
        get?_eq_none_iff.mpr fun hmem => h.2.2 hmem (List.mem_map_of_mem hx)
      rw [List.findSome?_cons, hnone]
      exact ih h.2.1 hx

/-- Where every name is declared once, a symbol is what its name resolves to. -/
theorem Scope.resolve_name_of_nodup {s : Scope} (h : (s.symbols.map Symbol.name).Nodup) {x : Symbol}
    (hx : x ∈ s.symbols) : s.resolve x.name = some x := by
  rw [symbols, List.map_append, List.nodup_append'] at h
  obtain ⟨hdeps, hown, hdisjoint⟩ := h
  rw [resolve]
  rcases List.mem_append.mp hx with hx | hx
  · have hnone : s.table.get? x.name = none :=
      Table.get?_eq_none_iff.mpr (hdisjoint (List.mem_map_of_mem hx))
    rw [hnone, Option.none_or, Table.findSome?_get?_name hdeps hx]
  · have hsome : s.table.get? x.name = some x :=
      (Table.get?_eq_some_iff hown).mpr ⟨hx, rfl⟩
    rw [hsome, Option.some_or]

namespace Development

/-! ## Histories -/

/-- The development that compilations in turn lead to. -/
def after (order : List String) (history : List Source) : Development :=
  history.foldl compile (arrange {} order)

variable {order : List String} {history : List Source}

/-- The last compilation starts from what the others lead to. -/
theorem after_append (s : Source) : after order (history ++ [s]) = (after order history).compile s :=
  List.foldl_append

/-- Compiling does not rearrange files. -/
@[simp] theorem order_after : (after order history).order = order := by
  induction history using List.reverseRecOn with
  | nil => rfl
  | append_singleton history s ih =>
    rw [after_append]
    exact ih

/-- Compiling does not change which files come first. -/
theorem before_append (s : Source) (name : String) :
    (after order (history ++ [s])).before name = (after order history).before name := by
  rw [after_append]
  rfl

/-- Compiling replaces one file, and keeps all others. -/
theorem file?_compile (d : Development) (s : Source) (name : String) :
    (d.compile s).file? name =
      if name = s.name then some (s.compile (d.depsOf s.name)) else d.file? name := by
  by_cases h : name = s.name
  · subst h
    simp [compile, file?, CompiledFile.name, Source.compile]
  · have hhead : ((s.compile (d.depsOf s.name)).name == name) = false := by
      simpa [CompiledFile.name, Source.compile] using Ne.symm h
    rw [if_neg h, file?, compile, List.find?_cons_of_neg (by simp [hhead]), List.find?_filter, file?]
    refine congrArg (List.find? · d.files) (funext fun f => ?_)
    by_cases hf : f.name = name
    · simp [hf, h]
    · simp [hf]

/-- A file was compiled since another one was compiled for the last time. -/
def Outdates (history : List Source) (f g : String) : Prop :=
  ∃ old new, history = old ++ new ∧ f ∈ new.map Source.name ∧ g ∉ new.map Source.name

/-- A file stays outdated until it is compiled. -/
theorem Outdates.append {f g : String} (h : Outdates history f g) {s : Source} (hs : g ≠ s.name) :
    Outdates (history ++ [s]) f g := by
  obtain ⟨old, new, rfl, hf, hg⟩ := h
  refine ⟨old, new ++ [s], by simp, ?_, ?_⟩
  · simp only [List.map_append, List.mem_append]
    exact .inl hf
  · simpa [hg] using hs

/-- A compilation outdates all other files. -/
theorem outdates_append_self {s : Source} {g : String} (hs : g ≠ s.name) :
    Outdates (history ++ [s]) s.name g :=
  ⟨history, [s], rfl, by simp, by simpa using hs⟩

/-- A file that was just compiled is up to date. -/
theorem not_outdates_append_self (history : List Source) (s : Source) (f : String) :
    ¬ Outdates (history ++ [s]) f s.name := by
  rintro ⟨old, new, heq, hf, hs⟩
  have hlast := congrArg List.getLast? heq
  have hne : new ≠ [] := by
    rintro rfl
    simp at hf
  rw [List.getLast?_concat, List.getLast?_append_of_ne_nil _ hne] at hlast
  exact hs (List.mem_map_of_mem (List.mem_of_getLast? hlast.symm))

/-- By induction on the history. A compiled file was compiled against the tables of the files in front
of it, and these are still there, apart from those that were compiled since. -/
theorem exists_deps_eq {g : String} {G : CompiledFile} (hG : (after order history).file? g = some G) :
    G = G.source.compile G.deps ∧ ∃ table : String → Option Table,
      G.deps = ((after order history).before g).filterMap table ∧
      ∀ f, f ≠ g → ¬ Outdates history f g →
        table f = ((after order history).file? f).map CompiledFile.table := by
  induction history using List.reverseRecOn with
  | nil => simp [after, arrange, file?] at hG
  | append_singleton history s ih =>
    rw [after_append, file?_compile] at hG
    split at hG
    · rename_i hs
      cases hG
      refine ⟨rfl, fun f => ((after order history).file? f).map CompiledFile.table, ?_, ?_⟩
      · rw [before_append, hs]
        rfl
      · intro f hf _
        rw [after_append, file?_compile, if_neg (hs ▸ hf)]
    · rename_i hs
      obtain ⟨hcompile, table, hdeps, htable⟩ := ih hG
      refine ⟨hcompile, table, ?_, ?_⟩
      · rw [before_append, hdeps]
      · intro f hf hcurrent
        have hfs : f ≠ s.name := by
          rintro rfl
          exact hcurrent (outdates_append_self hs)
        rw [after_append, file?_compile, if_neg hfs]
        exact htable f hf fun h => hcurrent (h.append hs)

/-! ## Files in front of others -/

/-- What stands in front of a member of a list is found at a smaller index. -/
theorem mem_takeWhile_bne {xs : List String} {x y : String} :
    x ∈ xs.takeWhile (· != y) ↔ xs.idxOf x < xs.idxOf y := by
  induction xs with
  | nil => simp
  | cons z xs ih =>
    by_cases hy : z = y
    · simp [hy]
    · by_cases hx : z = x
      · simp [hx, hx ▸ hy, List.idxOf_cons_ne]
      · simp [hy, Ne.symm hx, ih, List.idxOf_cons_ne, hx]

variable {d : Development} {f g h : String}

/-- A file comes before another if it is found at a smaller index. -/
theorem mem_before_iff : f ∈ d.before g ↔ g ∈ d.order ∧ d.order.idxOf f < d.order.idxOf g := by
  rw [← mem_takeWhile_bne, before]
  split <;> simp_all

theorem ne_of_mem_before (hf : f ∈ d.before g) : f ≠ g := by
  rintro rfl
  exact Nat.lt_irrefl _ (mem_before_iff.mp hf).2

/-- Files come before each other in one order. -/
theorem mem_before_trans (hf : f ∈ d.before g) (hg : g ∈ d.before h) : f ∈ d.before h := by
  rw [mem_before_iff] at hf hg ⊢
  exact ⟨hg.1, Nat.lt_trans hf.2 hg.2⟩

/-- The files before a file are listed in this order. -/
theorem pairwise_before (horder : d.order.Nodup) (name : String) :
    (d.before name).Pairwise fun f g => f ∈ d.before g := by
  have hpairwise : d.order.Pairwise fun f g => f ∈ d.before g := by
    rw [List.pairwise_iff_getElem]
    intro i j hi hj hij
    rw [mem_before_iff, horder.idxOf_getElem, horder.idxOf_getElem]
    exact ⟨List.getElem_mem hj, hij⟩
  rw [before]
  split
  · exact hpairwise.sublist (List.takeWhile_sublist _)
  · exact .nil

/-! ## Chains -/

/-- The table of a file in front of another is among those that the other was compiled against, unless
it is newer. -/
theorem table_mem_deps {F G : CompiledFile} (hbefore : f ∈ (after order history).before g)
    (hF : (after order history).file? f = some F) (hG : (after order history).file? g = some G)
    (hcurrent : ¬ Outdates history f g) : F.table ∈ G.deps := by
  obtain ⟨-, table, hdeps, htable⟩ := exists_deps_eq hG
  rw [hdeps, List.mem_filterMap]
  refine ⟨f, hbefore, ?_⟩
  rw [htable f (ne_of_mem_before hbefore) hcurrent, hF]
  rfl

/-- All files of a development were compiled, and are therefore well named. -/
theorem wellNamed_of_file? {G : CompiledFile}
    (hG : (after order history).file? g = some G) : G.scope.WellNamed := by
  rw [(exists_deps_eq hG).1]
  exact G.source.wellNamed_compile G.deps

/-- A file shares no names with those before it, unless one of them was compiled since. -/
theorem disjoint_or_outdates {F G : CompiledFile}
    (hbefore : f ∈ (after order history).before g) (hF : (after order history).file? f = some F)
    (hG : (after order history).file? g = some G) :
    F.table.names.Disjoint G.table.names ∨ Outdates history f g := by
  by_cases hcurrent : Outdates history f g
  · exact .inr hcurrent
  · refine .inl fun name hf hg => ?_
    exact (wellNamed_of_file? hG).separate name hg _ (table_mem_deps hbefore hF hG hcurrent) hf

/-- Every file of the chain in front of a file is as new as the ones in front of it. -/
def Current (history : List Source) (d : Development) (name : String) : Prop :=
  ∀ g ∈ d.before name, ∀ f ∈ d.before g, ¬ Outdates history f g

variable {name : String}

/-- The files before a current one were compiled against the tables that are there now. -/
theorem Current.deps_eq (h : Current history (after order history) name)
    (hg : g ∈ (after order history).before name) {G : CompiledFile}
    (hG : (after order history).file? g = some G) : G.deps = (after order history).depsOf g := by
  obtain ⟨-, table, hdeps, htable⟩ := exists_deps_eq hG
  rw [hdeps, depsOf]
  exact List.filterMap_congr fun f hf => htable f (ne_of_mem_before hf) (h g hg f hf)

/-- The files before a current one have no names in common. -/
theorem Current.nodup_depsOf (h : Current history (after order history) name)
    (horder : order.Nodup) : (((after order history).depsOf name).flatMap Table.names).Nodup := by
  rw [List.nodup_flatMap]
  constructor
  · intro t ht
    obtain ⟨g, -, ht⟩ := List.mem_filterMap.mp ht
    obtain ⟨G, hG, rfl⟩ := Option.map_eq_some_iff.mp ht
    exact (wellNamed_of_file? hG).nodup
  · rw [depsOf, List.pairwise_filterMap]
    have hnodup : (after order history).order.Nodup := by rwa [order_after]
    refine (pairwise_before hnodup name).imp_of_mem fun _ hg hfg t ht u hu => ?_
    obtain ⟨F, hF, rfl⟩ := Option.map_eq_some_iff.mp ht
    obtain ⟨G, hG, rfl⟩ := Option.map_eq_some_iff.mp hu
    exact (disjoint_or_outdates hfg hF hG).resolve_right (h _ hg _ hfg)

/-- The dependencies of a file are among those of the files behind it. -/
theorem depsOf_subset (hg : g ∈ d.before h) : d.depsOf g ⊆ d.depsOf h := by
  intro t ht
  obtain ⟨f, hf, ht⟩ := List.mem_filterMap.mp ht
  exact List.mem_filterMap.mpr ⟨f, mem_before_trans hf hg, ht⟩

/-- What a file of a current chain knows is known at the end of the chain. -/
theorem Current.symbols_subset (h : Current history (after order history) name)
    (hg : g ∈ (after order history).before name) {G : CompiledFile}
    (hG : (after order history).file? g = some G) :
    G.scope.symbols ⊆ ((after order history).depsOf name).flatMap Table.symbols := by
  have hdeps : G.deps ⊆ (after order history).depsOf name := h.deps_eq hg hG ▸ depsOf_subset hg
  have htable : G.table ∈ (after order history).depsOf name :=
    List.mem_filterMap.mpr ⟨g, hg, by rw [hG]; rfl⟩
  intro x hx
  rcases List.mem_append.mp hx with hx | hx
  · obtain ⟨t, ht, hx⟩ := List.mem_flatMap.mp hx
    exact List.mem_flatMap.mpr ⟨t, hdeps ht, hx⟩
  · exact List.mem_flatMap.mpr ⟨G.table, htable, hx⟩

/-- Whatever was compiled before, and how often: a file that is compiled declares its names once, and
none of them is declared by a file that it depends on. Of these files two may declare one name, but
only if the first in the order was compiled since the second. If there are no two such files in the
chain, no name of the scope is declared twice, and each name that is known to a file of the chain
means the same in the scope. -/
theorem unique_names (order : List String) (history : List Source) (s : Source)
    (horder : order.Nodup) :
    let d := after order history
    let new := s.compile (d.depsOf s.name)
    (d.compile s).file? s.name = some new ∧
    (new.table.names.Nodup ∧ ∀ t ∈ new.deps, t.names.Disjoint new.table.names) ∧
    (∀ g ∈ d.before s.name, ∀ f ∈ d.before g, ∀ F G, d.file? f = some F → d.file? g = some G →
      F.table.names.Disjoint G.table.names ∨ Outdates history f g) ∧
    (Current history d s.name →
      (new.scope.symbols.map Symbol.name).Nodup ∧
      ∀ g ∈ d.before s.name, ∀ G, d.file? g = some G →
        ∀ name x, G.scope.resolve name = some x → new.scope.resolve name = some x) := by
  intro d new
  have hnew : new.scope.WellNamed := s.wellNamed_compile (d.depsOf s.name)
  have hdisjoint : ∀ t ∈ new.deps, t.names.Disjoint new.table.names :=
    fun t ht name hold hname => hnew.separate name hname t ht hold
  refine ⟨?_, ⟨hnew.nodup, hdisjoint⟩, ?_, ?_⟩
  · rw [file?_compile, if_pos rfl]
  · intro g _ f hf F G hF hG
    exact disjoint_or_outdates hf hF hG
  · intro hcurrent
    have hnames : new.scope.symbols.map Symbol.name =
        (d.depsOf s.name).flatMap Table.names ++ new.table.names := by
      rw [Scope.symbols, List.map_append, List.map_flatMap]
      rfl
    have hnodup : (new.scope.symbols.map Symbol.name).Nodup := by
      rw [hnames]
      refine (hcurrent.nodup_depsOf horder).append hnew.nodup fun name hold hown => ?_
      obtain ⟨t, ht, hold⟩ := List.mem_flatMap.mp hold
      exact hdisjoint t ht hold hown
    refine ⟨hnodup, fun g hg G hG name x hx => ?_⟩
    obtain ⟨hmem, rfl⟩ := Scope.mem_symbols_of_resolve hx
    have hknown := hcurrent.symbols_subset hg hG hmem
    exact Scope.resolve_name_of_nodup hnodup (List.mem_append_left _ hknown)

/-- A name that `b` declared anew after its chain was compiled again. -/
theorem unique_names_recompiled :
    let history := [Source.ofText "a" "type P", Source.ofText "b" "term P k() \x7b k \x7d",
      Source.ofText "a" "type P Q",
      Source.ofText "b" "term Q k() \x7b k \x7d axiom ax() \x7b |- k \x7d"]
    let s := Source.ofText "c" "thm t() \x7b |- k \x7d = \x7b ax \x7d"
    let d := after ["a", "b", "c"] history
    let new := s.compile (d.depsOf s.name)
    Current history d s.name ∧ new.scope.symbols.map Symbol.name = ["P", "Q", "k", "ax", "t"] ∧
      ∀ G, d.file? "b" = some G →
        ∀ name x, G.scope.resolve name = some x → new.scope.resolve name = some x := by
  intro history s d new
  have hbefore : ∀ g ∈ d.before s.name, ∀ f ∈ d.before g, g = "b" := by decide +kernel
  have hcurrent : Current history d s.name := by
    intro g hg f hf
    rw [hbefore g hg f hf]
    exact not_outdates_append_self history.dropLast (history.getLast (by simp [history])) f
  have hunique := (unique_names ["a", "b", "c"] history s (by decide)).2.2.2 hcurrent
  exact ⟨hcurrent, by decide +kernel, hunique.2 "b" (by decide +kernel)⟩

/-- Files are compiled only when all files in front of them have been compiled. -/
def Orderly (order : List String) (history : List Source) : Prop :=
  ∀ (i : Nat) (hi : i < history.length), history[i].name ∈ order ∧
    ∀ f ∈ (after order history).before history[i].name, f ∈ (history.take i).map Source.name

/-- The file `b` declares a constant, and the file in front of it, compiled again, declares another of
the same name. For the file `c`, which depends on both, the name is that of the second, also where `c`
applies the rule of `b`. -/
theorem ambiguous_name :
    let a := Source.ofText "a" "type P Q"
    let b := Source.ofText "b" "term P k() \x7b k \x7d axiom ax() \x7b |- k \x7d"
    let a' := Source.ofText "a" "type P Q term Q k() \x7b k \x7d"
    let c := Source.ofText "c" "thm t() \x7b |- k \x7d = \x7b ax \x7d"
    let order := ["a", "b", "c"]
    let d := after order [a, b, a']
    let new := c.compile (d.depsOf c.name)
    (order.Nodup ∧ Orderly order [a, b, a', c] ∧ new.faults = []) ∧
      ¬ (new.deps ++ [new.table]).Pairwise (fun t u => ∀ name ∈ t.names, name ∉ u.names) ∧
      (d.file? "b").bind (fun G => (G.scope.ctor? "k").map Ctor.type) = some "P" ∧
      (new.scope.ctor? "k").map Ctor.type = some "Q" := by
  unfold Orderly
  decide +kernel

end Development

end Axiomata
