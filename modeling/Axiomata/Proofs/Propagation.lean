import Axiomata.Proofs.Apartness
import Axiomata.Proofs.Ordered
import Mathlib.Data.List.Perm.Basic

/-!
# Where distinctness conditions lead

Putting terms for the names of groups gives all pairs across the ends of terms that stand at different
places of a group, and nothing else. The set of these pairs is one list, in increasing order, so two
sets that contain the same pairs are equal (`Distinct.Proper.ext`). What is apart does not depend on
the order of groups and of their members (`Distinct.apart_congr`), so neither does the set.
-/

namespace Axiomata

/-! ## Ends of names -/

/-- What is shown at the end of a branch. -/
inductive Term.Leaf : Term → String → Prop
  | tip {t : Term} (h : t.args = []) : Leaf t t.display
  | branch {t a : Term} {x : String} (ha : a ∈ t.args) (h : Leaf a x) : Leaf t x

namespace Term

/-- A term without arguments is its own leaf. -/
theorem leaf_tip_iff {t : Term} (h : t.args = []) {x : String} : t.Leaf x ↔ x = t.display := by
  constructor
  · rintro (_ | ⟨ha, _⟩)
    · rfl
    · rw [h] at ha
      cases ha
  · rintro rfl
    exact .tip h

/-- The leaves of a term with arguments are those of its arguments. -/
theorem leaf_branch_iff {t : Term} (h : t.args ≠ []) {x : String} :
    t.Leaf x ↔ ∃ a ∈ t.args, a.Leaf x := by
  constructor
  · rintro (h' | ⟨ha, hx⟩)
    · exact absurd h' h
    · exact ⟨_, ha, hx⟩
  · rintro ⟨a, ha, hx⟩
    exact .branch ha hx

/-- The ends of a term are its leaves. -/
theorem mem_ends_iff_leaf {t : Term} {x : String} : x ∈ t.ends ↔ t.Leaf x := by
  induction t with
  | var n y => rw [leaf_tip_iff rfl, ends, List.mem_singleton, display]
  | hole n y => rw [leaf_tip_iff rfl, ends, List.mem_singleton, display]
  | app c ts ih =>
    cases ts with
    | nil => rw [leaf_tip_iff rfl, ends, List.mem_singleton]
    | cons t ts =>
      rw [leaf_branch_iff (by simp), ends, endsAll_eq_flatMap, List.mem_flatMap]
      exact exists_congr fun a => and_congr_right fun ha => ih a ha

end Term

/-- What a name ends in once terms are put for names. A name that nothing is put for stays. -/
def Subst.EndsIn (σ : Subst) (name x : String) : Prop :=
  (∃ t, σ.get? name = some t ∧ t.Leaf x) ∨ σ.get? name = none ∧ x = name

namespace Distinct

/-- What a name becomes under a substitution ends in the leaves of its term. -/
theorem mem_leavesUnder_iff_endsIn {σ : Subst} {name x : String} :
    x ∈ leavesUnder σ name ↔ σ.EndsIn name x := by
  rw [leavesUnder, Subst.EndsIn]
  cases σ.get? name with
  | none => simp
  | some t => simp [Term.mem_ends_iff_leaf]

/-! ## Sets of pairs -/

/-- Pairs are ordered by their first names, and by their second names if these are equal. -/
theorem order_eq_lt_iff {p q : String × String} :
    order p q = .lt ↔ Prod.Lex (· < ·) (· < ·) p q := by
  rw [order, compareLex, Ordering.then_eq_lt, Prod.lex_def, compareOn, compareOn, compare_lt_iff_lt,
    compare_lt_iff_lt, compare_eq_iff_eq]

instance : Std.TransCmp order :=
  inferInstanceAs (Std.TransCmp (compareLex (compareOn Prod.fst) (compareOn Prod.snd)))

/-- A set as it is kept: in increasing order, and each pair with the smaller name first. -/
structure Proper (d : Distinct) : Prop where
  increasing : Ordered.Increasing order d.pairs
  pair_eq : ∀ x ∈ d.pairs, pair x.1 x.2 = x

theorem proper_ofPairs (ps : List (String × String)) : (ofPairs ps).Proper :=
  ⟨Ordered.increasing_ofList _, fun _ hx => pair_of_mem_pairs hx⟩

/-- An insertion keeps the pairs ordered and in order. -/
theorem Proper.insert {d : Distinct} (h : d.Proper) (a b : String) : (d.insert a b).Proper := by
  refine ⟨Ordered.increasing_insert h.increasing, fun x hx => ?_⟩
  rcases Ordered.mem_insert.mp hx with rfl | hx
  · exact pair_pair a b
  · exact h.pair_eq x hx

/-- So does the insertion of all pairs of a group. -/
theorem Proper.insertGroup {d : Distinct} (h : d.Proper) (group : List String) :
    (d.insertGroup group).Proper := by
  induction group generalizing d with
  | nil => exact h
  | cons a rest ih => exact ih (List.foldlRecOn rest _ h fun d hd b _ => hd.insert a b)

theorem proper_ofGroups (groups : List (List String)) : (ofGroups groups).Proper :=
  List.foldlRecOn groups _ ⟨List.Pairwise.nil, by simp⟩ fun _ hd group _ => hd.insertGroup group

/-- The pairs of a set are those that it contains, with the smaller name first. -/
theorem Proper.mem_pairs_iff {d : Distinct} (h : d.Proper) {a b : String} :
    (a, b) ∈ d.pairs ↔ a ≤ b ∧ d.contains a b := by
  constructor
  · intro hmem
    have hpair : pair a b = (a, b) := h.pair_eq _ hmem
    refine ⟨?_, contains_iff.mpr (hpair ▸ hmem)⟩
    simpa [hpair] using pair_le a b
  · rintro ⟨hle, hmem⟩
    rwa [contains_iff, pair, if_neg (not_lt.mpr hle)] at hmem

/-- Sets that contain the same pairs are equal, however they were put together. -/
theorem Proper.ext {d e : Distinct} (hd : d.Proper) (he : e.Proper)
    (h : ∀ a b, d.contains a b ↔ e.contains a b) : d = e := by
  refine congrArg Distinct.mk ?_
  refine hd.increasing.eq_of_mem_iff he.increasing fun x => ?_
  exact hd.mem_pairs_iff.trans ((and_congr_right fun _ => h x.1 x.2).trans he.mem_pairs_iff.symm)

/-! ## The order of groups and of their members -/

/-- The same groups with the same members, in another order. -/
def Rearranged (groups groups' : List (List String)) : Prop :=
  ∃ mid, groups.Perm mid ∧ List.Forall₂ List.Perm mid groups'

/-- Different places are told by what is left without the first of them. -/
theorem exists_places_iff_perm {group : List String} {a b : String} :
    (∃ i j : Nat, i ≠ j ∧ group[i]? = some a ∧ group[j]? = some b) ↔
      ∃ rest, group.Perm (a :: b :: rest) := by
  have hperm {i : Nat} (ha : group[i]? = some a) : group.Perm (a :: group.eraseIdx i) := by
    obtain ⟨hi, rfl⟩ := List.getElem?_eq_some_iff.mp ha
    exact (List.getElem_cons_eraseIdx_perm hi).symm
  constructor
  · rintro ⟨i, j, hne, ha, hb⟩
    have hmem : b ∈ group.eraseIdx i := List.mem_eraseIdx_iff_getElem?.mpr ⟨j, hne.symm, hb⟩
    exact ⟨_, (hperm ha).trans ((List.perm_cons_erase hmem).cons a)⟩
  · rintro ⟨rest, h⟩
    obtain ⟨i, ha⟩ := List.mem_iff_getElem?.mp (h.mem_iff.mpr List.mem_cons_self)
    have hrest : (group.eraseIdx i).Perm (b :: rest) := ((hperm ha).symm.trans h).cons_inv
    obtain ⟨j, hne, hb⟩ :=
      List.mem_eraseIdx_iff_getElem?.mp (hrest.mem_iff.mpr List.mem_cons_self)
    exact ⟨i, j, hne.symm, ha, hb⟩

/-- Which names are kept apart does not depend on how the groups are arranged. -/
theorem apart_congr {groups groups' : List (List String)} (h : Rearranged groups groups')
    {a b : String} : Apart groups a b ↔ Apart groups' a b := by
  obtain ⟨mid, hgroups, hmembers⟩ := h
  simp only [Apart, exists_places_iff_perm, hgroups.mem_iff]
  clear hgroups
  induction hmembers with
  | nil => rfl
  | cons hgroup _ ih =>
    simp only [List.exists_mem_cons_iff, ih]
    refine or_congr_left (exists_congr fun rest => ?_)
    exact ⟨hgroup.symm.trans, hgroup.trans⟩

/-! ## Propagation -/

/-- Neither does what is kept apart after a substitution. -/
theorem propagate_rearranged {groups groups' : List (List String)} (h : Rearranged groups groups')
    (σ : Subst) : propagate groups' σ = propagate groups σ := by
  apply (proper_ofPairs _).ext (proper_ofPairs _)
  intro a b
  show (propagate groups' σ).contains a b ↔ (propagate groups σ).contains a b
  simp only [contains_propagate_iff, apart_congr h]

/-- A name that is put for itself ends in itself. -/
theorem leavesUnder_of_var {σ : Subst} {name : String}
    (h : ∀ t, σ.get? name = some t → ∃ type, t = .var name type) : leavesUnder σ name = [name] := by
  rw [leavesUnder]
  cases ht : σ.get? name with
  | none => rfl
  | some t =>
    obtain ⟨type, rfl⟩ := h t ht
    simp [Term.leaves, Term.ends, Ordered.ofList]

/-- Names that end in themselves stay apart as they are declared. -/
theorem propagate_eq_ofGroups {groups : List (List String)} {σ : Subst}
    (h : ∀ group ∈ groups, ∀ name ∈ group, leavesUnder σ name = [name]) :
    propagate groups σ = ofGroups groups := by
  apply (proper_ofPairs _).ext (proper_ofGroups groups)
  intro a b
  show (propagate groups σ).contains a b ↔ (ofGroups groups).contains a b
  rw [contains_propagate_iff, contains_ofGroups_iff]
  constructor
  · rintro ⟨m, n, hapart, ha, hb⟩
    obtain ⟨group, hgroup, hm, hn⟩ := hapart.exists_group
    rw [h group hgroup m hm, List.mem_singleton] at ha
    rw [h group hgroup n hn, List.mem_singleton] at hb
    rwa [ha, hb]
  · intro hapart
    obtain ⟨group, hgroup, ha, hb⟩ := hapart.exists_group
    exact ⟨a, b, hapart, by simp [h group hgroup a ha], by simp [h group hgroup b hb]⟩

/-- What has to stay apart once terms are put for names: the pairs of what names at different places of
a group end in. Each pair is listed once, the smaller name first, and all in increasing order. So the
order of groups and of their members does not matter, and where each name stands for itself the
conditions stay as they are. -/
theorem propagate_is_cross_product (groups : List (List String)) (σ : Subst) :
    (∀ a b, (propagate groups σ).contains a b ↔
      ∃ m n, Apart groups m n ∧ σ.EndsIn m a ∧ σ.EndsIn n b) ∧
    (∀ a b, (a, b) ∈ (propagate groups σ).pairs ↔ a ≤ b ∧ (propagate groups σ).contains a b) ∧
    (propagate groups σ).pairs.Pairwise (Prod.Lex (· < ·) (· < ·)) ∧
    (∀ groups', Rearranged groups groups' → propagate groups' σ = propagate groups σ) ∧
    ((∀ group ∈ groups, ∀ name ∈ group, ∀ t, σ.get? name = some t → ∃ type, t = .var name type) →
      propagate groups σ = ofGroups groups) := by
  refine ⟨fun a b => ?_, fun a b => (proper_ofPairs _).mem_pairs_iff, ?_, fun groups' h => ?_,
    fun h => ?_⟩
  · simp only [contains_propagate_iff, mem_leavesUnder_iff_endsIn]
  · exact (proper_ofPairs _).increasing.imp order_eq_lt_iff.mp
  · exact propagate_rearranged h σ
  · apply propagate_eq_ofGroups
    intro group hgroup name hname
    exact leavesUnder_of_var (h group hgroup name hname)

/-- Terms that end in a common name, a name twice in a group, and a name that nothing is put for. -/
theorem propagate_is_cross_product_overlapping :
    let imp : Ctor := ⟨"imp", "P", [⟨"P", "a"⟩, ⟨"P", "b"⟩], [.arg 0, .text "->", .arg 1]⟩
    let p (name : String) : Term := .var name "P"
    let σ : Subst := [("a", .app imp [p "x", p "y"]), ("b", p "y")]
    let groups := [["a", "b", "free"], ["c", "c"]]
    let groups' := [["c", "c"], ["free", "a", "b"]]
    (propagate groups σ).pairs =
        [("c", "c"), ("free", "x"), ("free", "y"), ("x", "y"), ("y", "y")] ∧
      Rearranged groups groups' ∧ propagate groups' σ = propagate groups σ ∧
      propagate groups [("c", p "c")] = ofGroups groups := by
  intro imp p σ groups groups'
  have hrearranged : Rearranged groups groups' :=
    ⟨[["c", "c"], ["a", "b", "free"]], .swap _ _ _, .cons (.refl _) (.cons (by decide) .nil)⟩
  refine ⟨by decide +kernel, hrearranged, ?_, ?_⟩
  · exact (propagate_is_cross_product groups σ).2.2.2.1 groups' hrearranged
  · apply (propagate_is_cross_product groups [("c", p "c")]).2.2.2.2
    intro group _ name _ t ht
    rw [Subst.get?, List.lookup_cons, List.lookup_nil] at ht
    split at ht
    · rename_i heq
      cases ht
      exact ⟨"P", by rw [beq_iff_eq.mp heq]⟩
    · cases ht

end Distinct

end Axiomata
