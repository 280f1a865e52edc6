/-!
# Lists in increasing order

Sets and maps whose members are listed in increasing order, so that equal sets are equal lists.
-/

namespace Axiomata.Ordered

variable {α κ β : Type}

/-- The members of two sets. -/
def union (cmp : α → α → Ordering) : List α → List α → List α
  | [], ts => ts
  | ss, [] => ss
  | a :: ss, b :: ts =>
    match cmp a b with
    | .lt => a :: union cmp ss (b :: ts)
    | .eq => a :: union cmp ss ts
    | .gt => b :: union cmp (a :: ss) ts
termination_by ss ts => ss.length + ts.length

def insert (cmp : α → α → Ordering) (a : α) (s : List α) : List α := union cmp [a] s

/-- The set of the members of a list, put together from those of its halves. -/
def ofList (cmp : α → α → Ordering) (as : List α) : List α :=
  match as with
  | [] => []
  | [a] => [a]
  | a :: b :: rest =>
    let half := (rest.length + 2) / 2
    union cmp (ofList cmp ((a :: b :: rest).take half)) (ofList cmp ((a :: b :: rest).drop half))
termination_by as.length
decreasing_by
  · rw [List.length_take, List.length_cons, List.length_cons]
    omega
  · rw [List.length_drop, List.length_cons, List.length_cons]
    omega

/-- Binds a key to a value, in place of the value that it had. -/
def put (cmp : κ → κ → Ordering) (k : κ) (v : β) : List (κ × β) → List (κ × β)
  | [] => [(k, v)]
  | (k', v') :: rest =>
    match cmp k k' with
    | .lt => (k, v) :: (k', v') :: rest
    | .eq => (k, v) :: rest
    | .gt => (k', v') :: put cmp k v rest

/-- A union has the members of both sets. -/
theorem mem_union {cmp : α → α → Ordering} [Std.LawfulEqCmp cmp] {x : α} (s t : List α) :
    x ∈ union cmp s t ↔ x ∈ s ∨ x ∈ t := by
  fun_induction union cmp s t with
  | case1 => simp
  | case2 => simp
  | case3 a s b t _ ih => simp [ih, or_assoc]
  | case4 a s b t h ih =>
    rw [Std.LawfulEqCmp.eq_of_compare h]
    simp only [List.mem_cons, ih]
    constructor
    · rintro (h | h | h) <;> simp [h]
    · rintro ((h | h) | (h | h)) <;> simp [h]
  | case5 a s b t _ ih =>
    simp only [List.mem_cons, ih]
    constructor
    · rintro (h | (h | h) | h) <;> simp [h]
    · rintro ((h | h) | (h | h)) <;> simp [h]

/-- A set to which a member is added has it and those that it had. -/
theorem mem_insert {cmp : α → α → Ordering} [Std.LawfulEqCmp cmp] {a x : α} {s : List α} :
    x ∈ insert cmp a s ↔ x = a ∨ x ∈ s := by
  simp [insert, mem_union]

/-- The set of a list has the members of the list. -/
theorem mem_ofList {cmp : α → α → Ordering} [Std.LawfulEqCmp cmp] {x : α} {as : List α} :
    x ∈ ofList cmp as ↔ x ∈ as := by
  fun_induction ofList cmp as with
  | case1 => simp
  | case2 => simp
  | case3 a b rest half ih₁ ih₂ =>
    rw [mem_union, ih₁, ih₂, ← List.mem_append, List.take_append_drop]

/-- A key that was bound last has the value that it was bound to, and all others are as before. -/
theorem lookup_put [DecidableEq κ] {cmp : κ → κ → Ordering} [Std.LawfulEqCmp cmp] (k : κ) (v : β)
    (m : List (κ × β)) (other : κ) :
    (put cmp k v m).lookup other = if other = k then some v else m.lookup other := by
  have hcons (key : κ) (w : β) (rest : List (κ × β)) :
      ((key, w) :: rest).lookup other = if other = key then some w else rest.lookup other := by
    rw [List.lookup_cons]
    by_cases h : other = key
    · simp [h]
    · rw [beq_false_of_ne h, if_neg h]
  fun_induction put cmp k v m with
  | case1 => rw [hcons]
  | case2 key w rest hlt => rw [hcons]
  | case3 key w rest heq =>
    obtain rfl := Std.LawfulEqCmp.eq_of_compare heq
    rw [hcons, hcons]
    by_cases h : other = k <;> simp [h]
  | case4 key w rest hgt ih =>
    have hne : k ≠ key := by
      rintro rfl
      cases hgt.symm.trans Std.ReflCmp.compare_self
    rw [hcons, hcons, ih]
    by_cases h : other = k
    · rw [if_pos h, if_pos h, if_neg (h ▸ hne)]
    · rw [if_neg h, if_neg h]

end Axiomata.Ordered
