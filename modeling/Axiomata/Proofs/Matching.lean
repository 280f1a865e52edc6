import Axiomata.Proofs.Readability
import Axiomata.Term.Matching

/-!
# Matching finds the terms for holes

A match compares names and numbers of arguments, and terms by their canonical texts. So it is about
texts: what counts of a suggestion is the text that it gives for a hole (`Suggestion.text?`). If a
pattern matches a term, then the pattern with its holes filled has the text of the term
(`Term.matchAll_sound`). If it can be filled with terms with names of word characters so that it has
that text, then it matches, and the match gives the same texts for its holes
(`Term.matchAll_complete`), since texts can be read in one way.

Both are shown of a whole queue, with what the suggestion says so far as the invariant.
-/

namespace Axiomata

/-- Lists that become the same have the same length, and what becomes the same in the same places. -/
theorem map_eq_map_iff_zip {α β γ : Type} {f : α → γ} {g : β → γ} {as : List α} {bs : List β} :
    as.map f = bs.map g ↔ as.length = bs.length ∧ ∀ x ∈ as.zip bs, f x.1 = g x.2 := by
  induction as generalizing bs with
  | nil => cases bs <;> simp
  | cons a as ih =>
    cases bs with
    | nil => simp
    | cons b bs =>
      simp only [List.map_cons, List.cons.injEq, ih, List.length_cons, Nat.succ_inj,
        List.zip_cons_cons, List.forall_mem_cons]
      exact and_left_comm

namespace Suggestion

/-- A hole has the term that it was filled with last. -/
theorem get?_put (σ : Suggestion) (name : String) (t : Term) (other : String) :
    (σ.put name t).get? other = if other = name then some t else σ.get? other :=
  Ordered.lookup_put name t σ other

/-- The text of the term for a hole. -/
def text? (σ : Suggestion) (name : String) : Option String := (σ.get? name).map Term.canonical

/-- The text that stands for a hole. A hole without a term stands for itself. -/
def text (σ : Suggestion) (name : String) : String := (σ.text? name).getD name

/-- A hole has the text of the term that it was filled with last. -/
theorem text?_put (σ : Suggestion) (name : String) (t : Term) (other : String) :
    (σ.put name t).text? other = if other = name then some t.canonical else σ.text? other := by
  rw [text?, get?_put, text?]
  by_cases h : other = name <;> simp [h]

end Suggestion

namespace Term

/-! ## Filling holes -/

mutual

/-- Puts terms for holes. Variables stay. -/
def fill (σ : Suggestion) : Term → Term
  | .var name type => .var name type
  | .hole name type => (σ.get? name).getD (.hole name type)
  | .app c ts => .app c (fillAll σ ts)

def fillAll (σ : Suggestion) : List Term → List Term
  | [] => []
  | t :: ts => t.fill σ :: fillAll σ ts

end

mutual

/-- The names of the holes of a term, from left to right. -/
def holes : Term → List String
  | .var _ _ => []
  | .hole name _ => [name]
  | .app _ ts => holesAll ts

def holesAll : List Term → List String
  | [] => []
  | t :: ts => t.holes ++ holesAll ts

end

theorem fillAll_eq_map (σ : Suggestion) (ts : List Term) : fillAll σ ts = ts.map (fill σ) := by
  induction ts with
  | nil => rfl
  | cons t ts ih => simp [fillAll, ih]

theorem holesAll_eq_flatMap (ts : List Term) : holesAll ts = ts.flatMap holes := by
  induction ts with
  | nil => rfl
  | cons t ts ih => simp [holesAll, ih]

@[simp] theorem fill_var (σ : Suggestion) (n y : String) : (var n y).fill σ = var n y := rfl

@[simp] theorem fill_app (σ : Suggestion) (c : Ctor) (ts : List Term) :
    (app c ts).fill σ = app c (ts.map (fill σ)) := by
  rw [fill, fillAll_eq_map]

@[simp] theorem holes_var (n y : String) : (var n y).holes = [] := rfl
@[simp] theorem holes_hole (n y : String) : (hole n y).holes = [n] := rfl

@[simp] theorem holes_app (c : Ctor) (ts : List Term) : (app c ts).holes = ts.flatMap holes := by
  rw [holes, holesAll_eq_flatMap]

/-- A filled hole reads like the term that it is filled with. -/
theorem canonical_fill_hole (σ : Suggestion) (n y : String) :
    ((hole n y).fill σ).canonical = σ.text n := by
  rw [fill, Suggestion.text, Suggestion.text?]
  cases σ.get? n <;> rfl

section NotHole

variable {p : Term} (h : ∀ n y, p ≠ hole n y)

include h

/-- Filling holes does not change the name in front. -/
theorem head_fill (σ : Suggestion) : (p.fill σ).head = p.head := by
  cases p with
  | var n y => rfl
  | hole n y => exact absurd rfl (h n y)
  | app c ts => rfl

/-- The holes of a term are filled in its arguments. -/
theorem args_fill (σ : Suggestion) : (p.fill σ).args = p.args.map (fill σ) := by
  cases p with
  | var n y => rfl
  | hole n y => exact absurd rfl (h n y)
  | app c ts => simp

/-- The holes of a term are those of its arguments. -/
theorem holes_eq_flatMap_args : p.holes = p.args.flatMap holes := by
  cases p with
  | var n y => rfl
  | hole n y => exact absurd rfl (h n y)
  | app c ts => simp

end NotHole

/-- There is nothing to fill in a term without holes. -/
theorem fill_eq_self {σ : Suggestion} {t : Term} (h : t.holes = []) : t.fill σ = t := by
  induction t with
  | var n y => rfl
  | hole n y => simp at h
  | app c ts ih =>
    rw [holes_app, List.flatMap_eq_nil_iff] at h
    rw [fill_app, List.map_congr_left fun t ht => ih t ht (h t ht), List.map_id']

/-- Filling what is put for variables. -/
theorem fill_subst {σ : Suggestion} {τ τ' : Subst} {t : Term} (ht : t.holes = [])
    (h : ∀ n, τ'.get? n = (τ.get? n).map (fill σ)) : (t.subst τ).fill σ = t.subst τ' := by
  induction t with
  | var n y =>
    rw [subst, subst, h]
    cases τ.get? n <;> rfl
  | hole n y => simp at ht
  | app c ts ih =>
    rw [holes_app, List.flatMap_eq_nil_iff] at ht
    simp only [subst_app, fill_app, List.map_map, app.injEq, true_and]
    exact List.map_congr_left fun t hmem => ih t hmem (ht t hmem)

/-- Filling holes with plain terms gives a plain term. -/
theorem Plain.fill {σ : Suggestion} {t : Term} (h : t.Plain)
    (hσ : ∀ n ∈ t.holes, ∀ u, σ.get? n = some u → u.Plain) : (t.fill σ).Plain := by
  induction t with
  | var n y => exact h
  | hole n y =>
    rw [Term.fill]
    cases hget : σ.get? n with
    | none => exact h
    | some u => exact hσ n (by simp) u hget
  | app c ts ih =>
    rw [fill_app]
    rw [holes_app] at hσ
    refine .intro h.head fun a ha => ?_
    obtain ⟨t, ht, rfl⟩ := List.mem_map.mp ha
    exact ih t ht (h.of_mem_args ht) fun n hn => hσ n (List.mem_flatMap.mpr ⟨t, ht, hn⟩)

/-! ## Arguments and pairs of arguments -/

/-- Each pattern has a term to be matched with. -/
theorem exists_mem_zip {ps ts : List Term} (hlen : ps.length = ts.length) {p : Term} (hp : p ∈ ps) :
    ∃ t, (p, t) ∈ ps.zip ts := by
  rw [← List.map_fst_zip (Nat.le_of_eq hlen)] at hp
  obtain ⟨⟨_, t⟩, hx, rfl⟩ := List.mem_map.mp hp
  exact ⟨t, hx⟩

/-! ## The queue -/

@[simp] theorem matchAll_nil (σ : Suggestion) : matchAll σ [] = some σ := by
  rw [matchAll]

/-- A hole takes the term in front of it, unless it was given another one. -/
theorem matchAll_hole (σ : Suggestion) (n y : String) (t : Term) (queue : List (Term × Term)) :
    matchAll σ ((hole n y, t) :: queue) =
      if (σ.get? n).all (· == t) then matchAll (σ.put n t) queue else none := by
  rw [matchAll]

/-- Terms that are not holes must agree in their names and numbers of arguments. The arguments are
matched behind all that is in the queue. -/
theorem matchAll_root (σ : Suggestion) {p : Term} (hp : ∀ n y, p ≠ hole n y) (t : Term)
    (queue : List (Term × Term)) :
    matchAll σ ((p, t) :: queue) =
      if p.head = t.head ∧ p.args.length = t.args.length then
        matchAll σ (queue ++ p.args.zip t.args)
      else none := by
  rw [matchAll]
  · simp
  · exact hp

/-- To show a property of all queues, show it of one whose first pattern is a hole, given that it
holds when the hole is bound, and of one whose first pattern is not, given that it holds with the
pairs of arguments at the end. -/
theorem queue_induction {motive : Suggestion → List (Term × Term) → Prop}
    (nil : ∀ σ, motive σ [])
    (hole : ∀ σ n y t queue, motive (σ.put n t) queue → motive σ ((.hole n y, t) :: queue))
    (root : ∀ σ p t queue, (∀ n y, p ≠ .hole n y) → motive σ (queue ++ p.args.zip t.args) →
      motive σ ((p, t) :: queue))
    (σ : Suggestion) (queue : List (Term × Term)) : motive σ queue := by
  match queue with
  | [] => exact nil σ
  | (.hole n y, t) :: queue => exact hole σ n y t queue (queue_induction nil hole root _ queue)
  | (.var n y, t) :: queue =>
    exact root σ _ t queue (by simp) (queue_induction nil hole root _ (queue ++ _))
  | (.app c ps, t) :: queue =>
    exact root σ _ t queue (by simp) (queue_induction nil hole root _ (queue ++ _))
termination_by sizes (queue.map Prod.fst)
decreasing_by
  · simp [sizes, size]
  · simp [sizes, size, args]
  · have := sizes_fst_zip_le ps t.args
    simp [sizes, sizes_append, size]
    omega

/-! ## Soundness and completeness -/

/-- A match keeps the texts that are there, has a text for every hole of the patterns, and makes
them into the terms. -/
theorem matchAll_sound {σ τ : Suggestion} {queue : List (Term × Term)}
    (h : matchAll σ queue = some τ) :
    (∀ n text, σ.text? n = some text → τ.text? n = some text) ∧
      ∀ x ∈ queue, (x.1.fill τ).canonical = x.2.canonical ∧ ∀ n ∈ x.1.holes, (τ.text? n).isSome := by
  induction σ, queue using queue_induction with
  | nil σ =>
    rw [matchAll_nil] at h
    cases h
    exact ⟨fun n text hn => hn, by simp⟩
  | hole σ n y t queue ih =>
    rw [matchAll_hole, Option.ite_none_right_eq_some] at h
    obtain ⟨hsame, h⟩ := h
    obtain ⟨hkeeps, hqueue⟩ := ih h
    have hn : τ.text? n = some t.canonical := hkeeps n _ (by rw [Suggestion.text?_put, if_pos rfl])
    refine ⟨fun m text hm => ?_, List.forall_mem_cons.mpr ⟨⟨?_, ?_⟩, hqueue⟩⟩
    · by_cases hmn : m = n
      · subst hmn
        obtain ⟨u, hu, rfl⟩ := Option.map_eq_some_iff.mp hm
        rw [hu, Option.all_some, beq_iff] at hsame
        rw [hn, hsame]
      · exact hkeeps m text (by rwa [Suggestion.text?_put, if_neg hmn])
    · rw [canonical_fill_hole, Suggestion.text, hn, Option.getD_some]
    · intro m hm
      rw [holes_hole, List.mem_singleton] at hm
      rw [hm, hn, Option.isSome_some]
  | root σ p t queue hp ih =>
    rw [matchAll_root σ hp, Option.ite_none_right_eq_some] at h
    obtain ⟨⟨hhead, hlen⟩, h⟩ := h
    obtain ⟨hkeeps, hqueue⟩ := ih h
    rw [List.forall_mem_append] at hqueue
    refine ⟨hkeeps, List.forall_mem_cons.mpr ⟨⟨?_, ?_⟩, hqueue.1⟩⟩
    · refine canonical_congr ((head_fill hp τ).trans hhead) ?_
      rw [args_fill hp, List.map_map, map_eq_map_iff_zip]
      exact ⟨hlen, fun x hx => (hqueue.2 x hx).1⟩
    · intro n hn
      rw [holes_eq_flatMap_args hp] at hn
      obtain ⟨a, ha, hn⟩ := List.mem_flatMap.mp hn
      obtain ⟨b, hab⟩ := exists_mem_zip hlen ha
      exact (hqueue.2 (a, b) hab).2 n hn

/-- Terms that make the patterns into the terms are found, as far as their texts go. -/
theorem matchAll_complete {σ ρ : Suggestion} {queue : List (Term × Term)}
    (hσ : ∀ n text, σ.text? n = some text → text = ρ.text n)
    (hqueue : ∀ x ∈ queue,
      (x.1.fill ρ).Plain ∧ x.2.Plain ∧ (x.1.fill ρ).canonical = x.2.canonical) :
    ∃ τ, matchAll σ queue = some τ ∧ ∀ n text, τ.text? n = some text → text = ρ.text n := by
  induction σ, queue using queue_induction with
  | nil σ => exact ⟨σ, matchAll_nil σ, hσ⟩
  | hole σ n y t queue ih =>
    obtain ⟨⟨-, -, htext⟩, hrest⟩ := List.forall_mem_cons.mp hqueue
    rw [canonical_fill_hole] at htext
    -- If the hole has a term, its text is that of the term in this place.
    have hsame : (σ.get? n).all (· == t) = true := by
      cases hget : σ.get? n with
      | none => rfl
      | some u =>
        rw [Option.all_some, beq_iff, ← htext]
        exact hσ n u.canonical (by rw [Suggestion.text?, hget, Option.map_some])
    rw [matchAll_hole, if_pos hsame]
    refine ih (fun m text hm => ?_) hrest
    rw [Suggestion.text?_put] at hm
    by_cases hmn : m = n
    · rw [if_pos hmn] at hm
      rw [hmn, htext, Option.some.inj hm]
    · rw [if_neg hmn] at hm
      exact hσ m text hm
  | root σ p t queue hp ih =>
    obtain ⟨⟨hplain, hplain', htext⟩, hrest⟩ := List.forall_mem_cons.mp hqueue
    obtain ⟨hhead, hargs⟩ := (hplain.canonical_eq_iff hplain').mp htext
    rw [head_fill hp] at hhead
    rw [args_fill hp, List.map_map, map_eq_map_iff_zip] at hargs
    obtain ⟨hlen, hargs⟩ := hargs
    have hplains : ∀ a ∈ p.args, (a.fill ρ).Plain := fun a ha =>
      hplain.of_mem_args (by rw [args_fill hp]; exact List.mem_map_of_mem ha)
    rw [matchAll_root σ hp, if_pos ⟨hhead, hlen⟩]
    refine ih hσ (List.forall_mem_append.mpr ⟨hrest, fun x hx => ?_⟩)
    obtain ⟨ha, hb⟩ := List.of_mem_zip hx
    exact ⟨hplains _ ha, hplain'.of_mem_args hb, hargs x hx⟩

/-- A match fills all holes of the pattern, and the filled pattern reads like the term. -/
theorem match?_sound {p t : Term} {σ : Suggestion} (h : p.match? t = some σ) :
    (p.fill σ).canonical = t.canonical ∧ ∀ n ∈ p.holes, (σ.text? n).isSome :=
  (matchAll_sound h).2 (p, t) List.mem_cons_self

/-- A pattern that can be filled to have the text of a term matches it, with the same texts for its
holes. -/
theorem match?_complete {p t : Term} {ρ : Suggestion} (hp : (p.fill ρ).Plain) (ht : t.Plain)
    (h : (p.fill ρ).canonical = t.canonical) :
    ∃ σ, p.match? t = some σ ∧ ∀ n ∈ p.holes, σ.text? n = some (ρ.text n) := by
  have hqueue : ∀ x ∈ [(p, t)],
      (x.1.fill ρ).Plain ∧ x.2.Plain ∧ (x.1.fill ρ).canonical = x.2.canonical :=
    List.forall_mem_singleton.mpr ⟨hp, ht, h⟩
  have hempty : ∀ n text, Suggestion.text? [] n = some text → text = ρ.text n := by
    simp [Suggestion.text?, Suggestion.get?]
  obtain ⟨σ, hσ, hagrees⟩ := matchAll_complete hempty hqueue
  refine ⟨σ, hσ, fun n hn => ?_⟩
  obtain ⟨text, htext⟩ := Option.isSome_iff_exists.mp ((match?_sound hσ).2 n hn)
  rw [htext, hagrees n text htext]

end Term

end Axiomata
