import Axiomata.Ordered
import Mathlib.Data.List.Sort

/-!
# Members in increasing order

The lists that stand for sets and maps are increasing: each member is smaller than all behind it. So
nothing is listed twice, and a set is determined by its members (`Increasing.eq_of_mem_iff`), in
whatever order they were put in. A map is a set as far as its keys go (`map_fst_put`).
-/

namespace Axiomata.Ordered

variable {α κ β : Type} {cmp : α → α → Ordering}

/-- Each member is smaller than all behind it. -/
def Increasing (cmp : α → α → Ordering) (s : List α) : Prop :=
  s.Pairwise fun a b => cmp a b = .lt

/-- The bindings of a map are put in like the members of a set. -/
theorem map_fst_put {cmp : κ → κ → Ordering} (k : κ) (v : β) (m : List (κ × β)) :
    (put cmp k v m).map Prod.fst = insert cmp k (m.map Prod.fst) := by
  rw [insert]
  fun_induction put cmp k v m with
  | case1 => simp [union]
  | case2 key value rest h => simp [union, h]
  | case3 key value rest h => simp [union, h]
  | case4 key value rest h ih => simp [union, h, ih]

theorem increasing_cons {a : α} {s : List α} :
    Increasing cmp (a :: s) ↔ (∀ b ∈ s, cmp a b = .lt) ∧ Increasing cmp s :=
  List.pairwise_cons

variable [Std.TransCmp cmp]

/-- What is in front of the first member is in front of all. -/
theorem Increasing.forall_lt {a b : α} {s : List α} (h : Increasing cmp (b :: s))
    (hab : cmp a b = .lt) : ∀ x ∈ b :: s, cmp a x = .lt := by
  rw [increasing_cons] at h
  rintro x (_ | ⟨_, hx⟩)
  · exact hab
  · exact Std.TransCmp.lt_trans hab (h.1 x hx)

variable [Std.LawfulEqCmp cmp]

/-- A union of increasing lists is increasing. -/
theorem increasing_union {s t : List α} (hs : Increasing cmp s) (ht : Increasing cmp t) :
    Increasing cmp (union cmp s t) := by
  fun_induction union cmp s t with
  | case1 => exact ht
  | case2 => exact hs
  | case3 a s b t hlt ih =>
    have hfirst := ht.forall_lt hlt
    rw [increasing_cons] at hs
    refine increasing_cons.mpr ⟨fun x hx => ?_, ih hs.2 ht⟩
    rcases (mem_union _ _).mp hx with hx | hx
    · exact hs.1 x hx
    · exact hfirst x hx
  | case4 a s b t heq ih =>
    obtain rfl := Std.LawfulEqCmp.eq_of_compare heq
    rw [increasing_cons] at hs ht
    refine increasing_cons.mpr ⟨fun x hx => ?_, ih hs.2 ht.2⟩
    rcases (mem_union _ _).mp hx with hx | hx
    · exact hs.1 x hx
    · exact ht.1 x hx
  | case5 a s b t hgt ih =>
    have hfirst := hs.forall_lt (Std.OrientedCmp.lt_of_gt hgt)
    rw [increasing_cons] at ht
    refine increasing_cons.mpr ⟨fun x hx => ?_, ih hs ht.2⟩
    rcases (mem_union _ _).mp hx with hx | hx
    · exact hfirst x hx
    · exact ht.1 x hx

/-- An insertion keeps a list increasing. -/
theorem increasing_insert {a : α} {s : List α} (hs : Increasing cmp s) :
    Increasing cmp (insert cmp a s) :=
  increasing_union (List.pairwise_singleton _ a) hs

/-- Whatever order the members are given in, the list that is made of them is increasing. -/
theorem increasing_ofList (as : List α) : Increasing cmp (ofList cmp as) := by
  fun_induction ofList cmp as with
  | case1 => exact List.Pairwise.nil
  | case2 a => exact List.pairwise_singleton _ a
  | case3 a b rest half ih₁ ih₂ => exact increasing_union ih₁ ih₂

/-- An increasing list is determined by its members. -/
theorem Increasing.eq_of_mem_iff {s t : List α} (hs : Increasing cmp s) (ht : Increasing cmp t)
    (h : ∀ x, x ∈ s ↔ x ∈ t) : s = t := by
  have hself (a : α) : cmp a a ≠ .lt := by simp [Std.ReflCmp.compare_self]
  have : Std.Irrefl fun a b => cmp a b = .lt := ⟨hself⟩
  have : Std.Antisymm fun a b => cmp a b = .lt :=
    ⟨fun a b hab hba => absurd (Std.TransCmp.lt_trans hab hba) (hself a)⟩
  exact List.Pairwise.eq_of_mem_iff hs ht h

end Axiomata.Ordered
