import Mathlib.Data.String.Basic
import Axiomata.Elaborate.Proof

/-!
# What distinctness conditions say

Names are apart by a list of groups if they stand at different places of one of them (`Apart`). This
is all that a set of pairs holds (`contains_ofGroups_iff`), also once terms are put for the names of
the groups (`contains_propagate_iff`), so that a step without violations keeps apart whatever its
rule asks for (`Step.violations_within_eq_nil_iff`).
-/

namespace Axiomata

/-- Any name is found in a term that ends in it, whatever the order of the ends. -/
@[simp] theorem Term.mem_leaves {t : Term} {x : String} : x ∈ t.leaves ↔ x ∈ t.ends :=
  Ordered.mem_ofList

namespace Distinct

/-! ## Unordered pairs -/

instance : Std.LawfulEqCmp order where
  eq_of_compare {p q} h := by
    rw [order, compareLex_eq_eq] at h
    exact Prod.ext (Std.LawfulEqCmp.eq_of_compare h.1) (Std.LawfulEqCmp.eq_of_compare h.2)
  compare_self {p} := by
    rw [order, compareLex_eq_eq]
    exact ⟨Std.ReflCmp.compare_self, Std.ReflCmp.compare_self⟩

/-- The order in which two names are given does not matter. -/
theorem pair_comm (a b : String) : pair a b = pair b a := by
  rcases lt_trichotomy a b with h | rfl | h
  · rw [pair, pair, if_neg h.asymm, if_pos h]
  · rfl
  · rw [pair, pair, if_pos h, if_neg h.asymm]

/-- A pair is made of the two names, in one of the two orders. -/
theorem pair_eq_or (a b : String) : pair a b = (a, b) ∨ pair a b = (b, a) := by
  rw [pair]
  split
  · exact .inr rfl
  · exact .inl rfl

/-- Pairs are equal if they are made of the same names. -/
theorem pair_eq_pair_iff {a b c d : String} :
    pair a b = pair c d ↔ (a, b) = (c, d) ∨ (a, b) = (d, c) := by
  constructor
  · intro h
    rcases pair_eq_or a b with hab | hab <;> rcases pair_eq_or c d with hcd | hcd <;>
      rw [hab, hcd, Prod.mk.injEq] at h <;> simp [h]
  · rintro (h | h) <;> cases h
    · rfl
    · exact pair_comm a b

theorem pair_pair (a b : String) : pair (pair a b).1 (pair a b).2 = pair a b := by
  rcases pair_eq_or a b with h | h <;> rw [h]
  · exact h
  · exact (pair_comm b a).trans h

/-- The smaller name comes first. -/
theorem pair_le (a b : String) : (pair a b).1 ≤ (pair a b).2 := by
  rw [pair]
  split
  · rename_i h
    exact h.le
  · rename_i h
    exact not_lt.mp h

/-- A pair is looked up in the order in which pairs are kept. -/
theorem contains_iff {d : Distinct} {a b : String} : d.contains a b ↔ pair a b ∈ d.pairs :=
  List.contains_iff_mem

/-- Pairs are kept with the smaller name first. -/
theorem mem_pairs_ofPairs {ps : List (String × String)} {x : String × String} :
    x ∈ (ofPairs ps).pairs ↔ ∃ p ∈ ps, pair p.1 p.2 = x := by
  rw [ofPairs, Ordered.mem_ofList, List.mem_map]

/-- The pairs of a set have the smaller name first. -/
theorem pair_of_mem_pairs {ps : List (String × String)} {x : String × String}
    (hx : x ∈ (ofPairs ps).pairs) : pair x.1 x.2 = x := by
  obtain ⟨p, -, rfl⟩ := mem_pairs_ofPairs.mp hx
  exact pair_pair p.1 p.2

/-- Two names are kept apart if they were given as a pair, in whichever order. -/
theorem contains_ofPairs_iff {ps : List (String × String)} {a b : String} :
    (ofPairs ps).contains a b ↔ (a, b) ∈ ps ∨ (b, a) ∈ ps := by
  rw [contains_iff, mem_pairs_ofPairs]
  constructor
  · rintro ⟨⟨c, d⟩, hp, h⟩
    rcases pair_eq_pair_iff.mp h with h | h <;> cases h
    · exact .inl hp
    · exact .inr hp
  · rintro (h | h)
    · exact ⟨_, h, rfl⟩
    · exact ⟨_, h, pair_comm b a⟩

/-- What holds of names in either order holds of the pairs of a set if it holds of those that the set
is made of. -/
theorem forall_mem_pairs_ofPairs_iff {ps : List (String × String)} {P : String → String → Prop}
    (hsymm : ∀ a b, P a b → P b a) :
    (∀ x ∈ (ofPairs ps).pairs, P x.1 x.2) ↔ ∀ a b, (ofPairs ps).contains a b → P a b := by
  constructor
  · intro h a b hab
    have hpair := h _ (contains_iff.mp hab)
    rcases pair_eq_or a b with hab | hab <;> rw [hab] at hpair
    · exact hpair
    · exact hsymm _ _ hpair
  · intro h x hx
    refine h _ _ ?_
    rwa [contains_iff, pair_of_mem_pairs hx]

/-! ## Groups -/

/-- Two names at different places of one group. -/
def Apart (groups : List (List String)) (a b : String) : Prop :=
  ∃ group ∈ groups, ∃ i j : Nat, i ≠ j ∧ group[i]? = some a ∧ group[j]? = some b

/-- Two names that are kept apart are so in both orders. -/
theorem Apart.symm {groups : List (List String)} {a b : String} (h : Apart groups a b) :
    Apart groups b a := by
  obtain ⟨group, hg, i, j, hne, ha, hb⟩ := h
  exact ⟨group, hg, j, i, hne.symm, hb, ha⟩

/-- Names that are kept apart stand in one group. -/
theorem Apart.exists_group {groups : List (List String)} {a b : String} (h : Apart groups a b) :
    ∃ group ∈ groups, a ∈ group ∧ b ∈ group := by
  obtain ⟨group, hg, i, j, -, ha, hb⟩ := h
  exact ⟨group, hg, List.mem_of_getElem? ha, List.mem_of_getElem? hb⟩

/-- Pairs across lists have their names in two lists, the first in front of the second. -/
theorem mem_across_iff {ls : List (List String)} {a b : String} :
    (a, b) ∈ across ls ↔
      ∃ i j : Nat, i < j ∧ ∃ l r, ls[i]? = some l ∧ ls[j]? = some r ∧ a ∈ l ∧ b ∈ r := by
  induction ls with
  | nil => simp [across]
  | cons left rights ih =>
    simp only [across, List.mem_append, List.mem_flatMap, List.mem_map, ih]
    constructor
    · rintro (⟨x, hx, right, hright, y, hy, h⟩ | ⟨i, j, hij, l, r, hl, hr, ha, hb⟩)
      · cases h
        obtain ⟨j, hj⟩ := List.mem_iff_getElem?.mp hright
        exact ⟨0, j + 1, Nat.succ_pos j, left, right, rfl, hj, hx, hy⟩
      · exact ⟨i + 1, j + 1, Nat.succ_lt_succ hij, l, r, hl, hr, ha, hb⟩
    · rintro ⟨i, j, hij, l, r, hl, hr, ha, hb⟩
      obtain ⟨j, rfl⟩ := Nat.exists_eq_succ_of_ne_zero (Nat.ne_zero_of_lt hij)
      cases i with
      | zero =>
        cases hl
        exact .inl ⟨a, ha, r, List.mem_of_getElem? hr, b, hb, rfl⟩
      | succ i => exact .inr ⟨i, j, Nat.lt_of_succ_lt_succ hij, l, r, hl, hr, ha, hb⟩

/-- The pairs across the groups, with a list of names in place of each member. -/
theorem contains_ofPairs_across_iff {groups : List (List String)} {f : String → List String}
    {a b : String} :
    (ofPairs (groups.flatMap fun group => across (group.map f))).contains a b ↔
      ∃ m n, Apart groups m n ∧ a ∈ f m ∧ b ∈ f n := by
  simp only [contains_ofPairs_iff, List.mem_flatMap, mem_across_iff, List.getElem?_map,
    Option.map_eq_some_iff]
  constructor
  · rintro (⟨g, hg, i, j, hij, _, _, ⟨m, hm, rfl⟩, ⟨n, hn, rfl⟩, ha, hb⟩ |
      ⟨g, hg, i, j, hij, _, _, ⟨m, hm, rfl⟩, ⟨n, hn, rfl⟩, hb, ha⟩)
    · exact ⟨m, n, ⟨g, hg, i, j, hij.ne, hm, hn⟩, ha, hb⟩
    · exact ⟨n, m, ⟨g, hg, j, i, hij.ne', hn, hm⟩, ha, hb⟩
  · rintro ⟨m, n, ⟨g, hg, i, j, hne, hm, hn⟩, ha, hb⟩
    rcases lt_or_gt_of_ne hne with hij | hij
    · exact .inl ⟨g, hg, i, j, hij, _, _, ⟨m, hm, rfl⟩, ⟨n, hn, rfl⟩, ha, hb⟩
    · exact .inr ⟨g, hg, j, i, hij, _, _, ⟨n, hn, rfl⟩, ⟨m, hm, rfl⟩, hb, ha⟩

/-- An insertion adds its own pair, in both orders, and no other. -/
theorem contains_insert_iff {d : Distinct} {a b x y : String} :
    (d.insert a b).contains x y ↔ d.contains x y ∨ (x, y) = (a, b) ∨ (x, y) = (b, a) := by
  rw [contains_iff, contains_iff, insert, Ordered.mem_insert, pair_eq_pair_iff, or_comm]

/-- The inner loop puts one name apart from each of some others. -/
theorem contains_foldl_insert_iff {d : Distinct} {a x y : String} {bs : List String} :
    (bs.foldl (·.insert a ·) d).contains x y ↔
      d.contains x y ∨ (x = a ∧ y ∈ bs ∨ y = a ∧ x ∈ bs) := by
  induction bs generalizing d with
  | nil => simp
  | cons b bs ih =>
    rw [List.foldl_cons, ih, contains_insert_iff]
    simp only [Prod.mk.injEq, List.mem_cons]
    tauto

/-- Of two places of a group, one is the first or both are behind it. -/
theorem exists_places_cons_iff {c x y : String} {group : List String} :
    (∃ i j : Nat, i ≠ j ∧ (c :: group)[i]? = some x ∧ (c :: group)[j]? = some y) ↔
      (x = c ∧ y ∈ group ∨ y = c ∧ x ∈ group) ∨
        ∃ i j : Nat, i ≠ j ∧ group[i]? = some x ∧ group[j]? = some y := by
  simp only [List.mem_iff_getElem?]
  constructor
  · rintro ⟨_ | i, _ | j, hne, hx, hy⟩
    · exact absurd rfl hne
    · exact .inl (.inl ⟨(Option.some.inj hx).symm, j, hy⟩)
    · exact .inl (.inr ⟨(Option.some.inj hy).symm, i, hx⟩)
    · exact .inr ⟨i, j, fun h => hne (congrArg _ h), hx, hy⟩
  · rintro ((⟨rfl, j, hy⟩ | ⟨rfl, i, hx⟩) | ⟨i, j, hne, hx, hy⟩)
    · exact ⟨0, j + 1, Nat.zero_ne_add_one j, rfl, hy⟩
    · exact ⟨i + 1, 0, Nat.add_one_ne_zero i, hx, rfl⟩
    · exact ⟨i + 1, j + 1, fun h => hne (Nat.succ.inj h), hx, hy⟩

/-- The outer loop puts the names at any two places of a group apart. -/
theorem contains_insertGroup_iff {d : Distinct} {group : List String} {x y : String} :
    (d.insertGroup group).contains x y ↔
      d.contains x y ∨ ∃ i j : Nat, i ≠ j ∧ group[i]? = some x ∧ group[j]? = some y := by
  induction group generalizing d with
  | nil => simp [insertGroup]
  | cons a rest ih =>
    rw [insertGroup, ih, contains_foldl_insert_iff, exists_places_cons_iff, or_assoc]

/-- Two names are kept apart by groups if they have two places in one of them. -/
theorem contains_ofGroups_iff {groups : List (List String)} {a b : String} :
    (ofGroups groups).contains a b ↔ Apart groups a b := by
  have hfold (d : Distinct) :
      (groups.foldl insertGroup d).contains a b ↔ d.contains a b ∨ Apart groups a b := by
    induction groups generalizing d with
    | nil => simp [Apart]
    | cons group groups ih =>
      simp only [Apart] at ih ⊢
      rw [List.foldl_cons, ih, contains_insertGroup_iff, List.exists_mem_cons_iff, or_assoc]
  rw [ofGroups, hfold]
  exact or_iff_right (by simp [contains])

/-- An ordered pair is kept if its names have two places in one group. -/
theorem mem_pairs_ofGroups_iff {groups : List (List String)} {x : String × String}
    (hx : pair x.1 x.2 = x) : x ∈ (ofGroups groups).pairs ↔ Apart groups x.1 x.2 := by
  rw [← contains_ofGroups_iff, contains_iff, hx]

/-- Two names are kept apart after a substitution if they come out of two names that were kept apart
before it. -/
theorem contains_propagate_iff {groups : List (List String)} {σ : Subst} {a b : String} :
    (propagate groups σ).contains a b ↔
      ∃ m n, Apart groups m n ∧ a ∈ leavesUnder σ m ∧ b ∈ leavesUnder σ n :=
  contains_ofPairs_across_iff

theorem mem_leavesUnder_iff {σ : Subst} {name x : String} {t : Term} (ht : σ.get? name = some t) :
    x ∈ leavesUnder σ name ↔ x ∈ t.ends := by
  rw [leavesUnder, ht]
  exact Term.mem_leaves

/-! ## Violations -/

theorem mem_partners {d : Distinct} {a b : String} : b ∈ d.partners a ↔ (a, b) ∈ d.pairs := by
  simp only [partners, List.mem_map, List.mem_filter, beq_iff_eq]
  constructor
  · rintro ⟨⟨_, _⟩, ⟨hp, rfl⟩, rfl⟩
    exact hp
  · exact fun h => ⟨_, ⟨h, rfl⟩, rfl⟩

/-- Nothing is violated if no name is required to differ from itself and all required pairs of
parameters are declared. -/
theorem violations_eq_nil_iff {required declared : Distinct} {params : List String} :
    violations required declared params = [] ↔
      ∀ x ∈ required.pairs, x.1 ≠ x.2 ∧ (x.1 ∈ params → x.2 ∈ params → x ∈ declared.pairs) := by
  simp only [violations, List.flatMap_eq_nil_iff, List.mem_eraseDups, List.append_eq_nil_iff]
  constructor
  · intro h x hx
    obtain ⟨hself, hfirst⟩ := h x.1 (List.mem_map_of_mem hx)
    have hpartner : x.2 ∈ required.partners x.1 := mem_partners.mpr hx
    have hne : x.1 ≠ x.2 := by
      intro heq
      rw [if_pos (by simpa [heq] using hpartner)] at hself
      cases hself
    refine ⟨hne, fun ha hb => ?_⟩
    rw [if_pos (List.contains_iff_mem.mpr ha), Option.toList_eq_nil_iff, Option.map_eq_none_iff,
      List.find?_eq_none] at hfirst
    have happart : x.2 ∈ declared.partners x.1 := by
      simpa [hne.symm, hb] using hfirst x.2 hpartner
    exact mem_partners.mp happart
  · intro h a _
    constructor
    · rw [if_neg]
      exact fun hself => (h (a, a) (mem_partners.mp (List.contains_iff_mem.mp hself))).1 rfl
    · split
      · rename_i ha
        rw [Option.toList_eq_nil_iff, Option.map_eq_none_iff, List.find?_eq_none]
        intro b hb hviolated
        simp only [Bool.and_eq_true, List.contains_iff_mem, Bool.not_eq_true'] at hviolated
        have happart := (h (a, b) (mem_partners.mp hb)).2 (List.contains_iff_mem.mp ha) hviolated.1.2
        simp [mem_partners.mpr happart] at hviolated
      · rfl

end Distinct

/-- What a step in a proof of a rule can rely on: the names are different, and declared apart if both
are parameters. -/
def Rule.KeepsApart (r : Rule) (a b : String) : Prop :=
  a ≠ b ∧ (a ∈ r.paramNames → b ∈ r.paramNames → Distinct.Apart r.groups a b)

/-- A rule keeps two names apart in both orders. -/
theorem Rule.KeepsApart.symm {r : Rule} {a b : String} (h : r.KeepsApart a b) : r.KeepsApart b a :=
  ⟨h.1.symm, fun hb ha => (h.2 ha hb).symm⟩

/-- A step is without violations if the statement keeps apart whatever the rule keeps apart, under
the arguments of the step. -/
theorem Step.violations_within_eq_nil_iff_contains {statement rule : Rule} {args : List Term} :
    (Step.within statement rule args).violations = [] ↔
      ∀ a b, (rule.distinctOf args).contains a b → statement.KeepsApart a b := by
  -- The declared pairs are listed like the required ones, smaller name first.
  have hdeclared : ∀ x ∈ (rule.distinctOf args).pairs,
      (x ∈ statement.distinct.pairs ↔ Distinct.Apart statement.groups x.1 x.2) :=
    fun x hx => Distinct.mem_pairs_ofGroups_iff (Distinct.pair_of_mem_pairs hx)
  calc (Step.within statement rule args).violations = []
      ↔ ∀ x ∈ (rule.distinctOf args).pairs, statement.KeepsApart x.1 x.2 := by
        rw [Step.within, Distinct.violations_eq_nil_iff]
        refine forall₂_congr fun x hx => ?_
        rw [hdeclared x hx]
        rfl
    _ ↔ _ := Distinct.forall_mem_pairs_ofPairs_iff fun _ _ h => h.symm

/-- A step has no violations if and only if the statement keeps apart whatever the rule of the step
asks to be. -/
theorem Step.violations_within_eq_nil_iff {statement rule : Rule} {args : List Term} :
    (Step.within statement rule args).violations = [] ↔
      ∀ m n, Distinct.Apart rule.groups m n →
        ∀ a ∈ Distinct.leavesUnder (rule.bindings args) m,
        ∀ b ∈ Distinct.leavesUnder (rule.bindings args) n, statement.KeepsApart a b := by
  rw [violations_within_eq_nil_iff_contains]
  simp only [Rule.distinctOf, Distinct.contains_propagate_iff]
  constructor
  · exact fun h m n hmn a ha b hb => h a b ⟨m, n, hmn, ha, hb⟩
  · rintro h a b ⟨m, n, hmn, ha, hb⟩
    exact h m n hmn a ha b hb

end Axiomata
