import Axiomata.Proofs.Matching
import Axiomata.Proofs.Ordered
import Mathlib.Data.String.Basic

/-!
# Matches are fillings

The matcher goes through a pattern and a term level by level, and overwrites what it has for a hole
when it meets the hole again. What it ends up with are terms for the holes of the pattern and for
nothing else (`Term.mem_keys_matchAll`), listed by name (`Term.increasing_match?`), and each of them is
a part of the term (`Term.matchAll_preserves`). They fill the pattern so that it reads like the term,
and any other way to do so reads the same for each hole.
-/

namespace Axiomata

namespace Suggestion

/-- A suggestion names the hole that was filled last and those filled before. -/
theorem mem_keys_put {σ : Suggestion} {name other : String} {t : Term} :
    other ∈ (σ.put name t).map Prod.fst ↔ other = name ∨ other ∈ σ.map Prod.fst := by
  rw [put, Ordered.map_fst_put, Ordered.mem_insert]

/-- Holes are kept in the order of their names. -/
theorem increasing_keys_put {σ : Suggestion} (h : Ordered.Increasing compare (σ.map Prod.fst))
    (name : String) (t : Term) : Ordered.Increasing compare ((σ.put name t).map Prod.fst) := by
  rw [put, Ordered.map_fst_put]
  exact Ordered.increasing_insert h

end Suggestion

namespace Term

/-! ## What a match keeps -/

/-- What holds of the terms in a queue and of their arguments holds of what the holes are bound to. -/
theorem matchAll_preserves {P : Suggestion → Prop} {Q : Term → Prop}
    (hput : ∀ σ n t, P σ → Q t → P (σ.put n t)) (hargs : ∀ t, Q t → ∀ a ∈ t.args, Q a)
    {σ τ : Suggestion} {queue : List (Term × Term)} (h : matchAll σ queue = some τ) (hσ : P σ)
    (hqueue : ∀ x ∈ queue, Q x.2) : P τ := by
  induction σ, queue using queue_induction with
  | nil σ =>
    rw [matchAll_nil] at h
    cases h
    exact hσ
  | hole σ n y t queue ih =>
    rw [matchAll_hole, Option.ite_none_right_eq_some] at h
    rw [List.forall_mem_cons] at hqueue
    exact ih h.2 (hput σ n t hσ hqueue.1) hqueue.2
  | root σ p t queue hp ih =>
    rw [matchAll_root σ hp, Option.ite_none_right_eq_some] at h
    rw [List.forall_mem_cons] at hqueue
    refine ih h.2 hσ (List.forall_mem_append.mpr ⟨hqueue.2, fun x hx => ?_⟩)
    exact hargs t hqueue.1 x.2 (List.of_mem_zip hx).2

/-- The holes of the arguments are those of the pattern. -/
theorem exists_hole_zip_iff {p : Term} (hp : ∀ n y, p ≠ hole n y) {ts : List Term}
    (hlen : p.args.length = ts.length) {n : String} :
    (∃ x ∈ p.args.zip ts, n ∈ x.1.holes) ↔ n ∈ p.holes := by
  rw [holes_eq_flatMap_args hp, List.mem_flatMap]
  constructor
  · rintro ⟨x, hx, hn⟩
    exact ⟨x.1, (List.of_mem_zip hx).1, hn⟩
  · rintro ⟨a, ha, hn⟩
    obtain ⟨t, ht⟩ := exists_mem_zip hlen ha
    exact ⟨(a, t), ht, hn⟩

/-- Matching fills the holes of all patterns in the queue, and no others. -/
theorem mem_keys_matchAll {σ τ : Suggestion} {queue : List (Term × Term)}
    (h : matchAll σ queue = some τ) {n : String} :
    n ∈ τ.map Prod.fst ↔ n ∈ σ.map Prod.fst ∨ ∃ x ∈ queue, n ∈ x.1.holes := by
  induction σ, queue using queue_induction with
  | nil σ =>
    rw [matchAll_nil] at h
    cases h
    simp
  | hole σ m y t queue ih =>
    rw [matchAll_hole, Option.ite_none_right_eq_some] at h
    rw [ih h.2, Suggestion.mem_keys_put, List.exists_mem_cons_iff, holes_hole, List.mem_singleton,
      or_assoc, or_left_comm]
  | root σ p t queue hp ih =>
    rw [matchAll_root σ hp, Option.ite_none_right_eq_some] at h
    obtain ⟨⟨-, hlen⟩, h⟩ := h
    rw [ih h, List.exists_mem_cons_iff, ← exists_hole_zip_iff hp hlen]
    simp only [List.mem_append, or_and_right, exists_or]
    exact or_congr_right or_comm

/-- A match lists each hole once, in the order of the names. -/
theorem increasing_match? {p t : Term} {σ : Suggestion} (h : p.match? t = some σ) :
    (σ.map Prod.fst).Pairwise (· < ·) := by
  have hkeys : Ordered.Increasing compare (σ.map Prod.fst) := by
    refine matchAll_preserves (P := fun σ => Ordered.Increasing compare (σ.map Prod.fst))
      (Q := fun _ => True) ?_ (by simp) h List.Pairwise.nil (by simp)
    exact fun σ n t hσ _ => Suggestion.increasing_keys_put hσ n t
  exact hkeys.imp compare_lt_iff_lt.mp

/-! ## Terms made of words -/

/-- Terms with words for names, and with an argument for each parameter of a constructor. -/
inductive Formed (word : String → Prop) : Term → Prop
  | var {name type : String} (h : word name) : Formed word (.var name type)
  | hole {name type : String} (h : word name) : Formed word (.hole name type)
  | app {c : Ctor} {ts : List Term} (h : word c.name) (arity : ts.length = c.arity)
    (hts : ∀ t ∈ ts, Formed word t) : Formed word (.app c ts)

namespace Formed

variable {word : String → Prop} {t : Term}

/-- Arguments of a term that is made of words are made of words. -/
theorem of_mem_args (h : t.Formed word) {a : Term} (ha : a ∈ t.args) : a.Formed word := by
  cases h with
  | var _ | hole _ => simp [args] at ha
  | app _ _ hts => exact hts a ha

/-- A term that is made of words is made of plain names, if words are. -/
theorem plain (hword : ∀ name, word name → ∀ c ∈ name.toList, Lexer.isWordChar c)
    (h : t.Formed word) : t.Plain := by
  induction h with
  | var h => exact .intro (hword _ h) (by simp [args])
  | hole h => exact .intro (hword _ h) (by simp [args])
  | app h _ _ ih => exact .intro (hword _ h) ih

end Formed

end Term

/-- Terms made of words for all holes of a pattern, under which it reads like a term. -/
structure Suggestion.Fills (word : String → Prop) (ρ : Suggestion) (p t : Term) : Prop where
  formed : ∀ n ∈ p.holes, ∃ u, ρ.get? n = some u ∧ u.Formed word
  text : (p.fill ρ).canonical = t.canonical

namespace Term

variable {word : String → Prop} {p t : Term}

/-- A match fills a pattern with terms that are made of words, as they are parts of such a term. -/
theorem fills_of_match? (ht : t.Formed word) {σ : Suggestion} (h : p.match? t = some σ) :
    σ.Fills word p t := by
  obtain ⟨htext, hbound⟩ := match?_sound h
  have hformed : ∀ n u, σ.get? n = some u → u.Formed word := by
    refine matchAll_preserves (P := fun σ => ∀ n u, σ.get? n = some u → u.Formed word)
      (Q := Formed word) ?_ (fun t ht a ha => ht.of_mem_args ha) h (fun n u hu => by cases hu)
      (List.forall_mem_singleton.mpr ht)
    intro σ n t hσ ht m u hu
    rw [Suggestion.get?_put] at hu
    split at hu
    · cases hu
      exact ht
    · exact hσ m u hu
  refine ⟨fun n hn => ?_, htext⟩
  obtain ⟨text, hn⟩ := Option.isSome_iff_exists.mp (hbound n hn)
  obtain ⟨u, hu, -⟩ := Option.map_eq_some_iff.mp hn
  exact ⟨u, hu, hformed n u hu⟩

/-- A filling is found, as far as the texts for the holes go. -/
theorem match?_of_fills (hword : ∀ name, word name → ∀ c ∈ name.toList, Lexer.isWordChar c)
    (hp : p.Formed word) (ht : t.Formed word) {ρ : Suggestion} (hρ : ρ.Fills word p t) :
    ∃ σ, p.match? t = some σ ∧ ∀ n ∈ p.holes, ρ.text? n = σ.text? n := by
  have hplain : (p.fill ρ).Plain := by
    apply (hp.plain hword).fill
    intro n hn u hu
    obtain ⟨v, hv, hformed⟩ := hρ.formed n hn
    rw [hu] at hv
    cases hv
    exact hformed.plain hword
  obtain ⟨σ, hσ, hagrees⟩ := match?_complete hplain (ht.plain hword) hρ.text
  refine ⟨σ, hσ, fun n hn => ?_⟩
  obtain ⟨u, hu, -⟩ := hρ.formed n hn
  rw [hagrees n hn, Suggestion.text, Suggestion.text?, hu]
  rfl

/-- For a pattern and a term made of words, of which all that counts is that no blank and no separator
occurs in them: there is a match if and only if the holes of the pattern can be filled by terms made of
words so that it reads like the term. The match has terms for the holes of the pattern and for nothing
else, each hole once and in the order of their names. They fill the pattern like that, and whatever else
does reads the same for each hole. -/
theorem matches_are_fillings (hword : ∀ name, word name → ∀ c ∈ name.toList, Lexer.isWordChar c)
    (hp : p.Formed word) (ht : t.Formed word) :
    ((p.match? t).isSome ↔ ∃ ρ : Suggestion, ρ.Fills word p t) ∧
    ∀ σ, p.match? t = some σ →
      (∀ n, n ∈ σ.map Prod.fst ↔ n ∈ p.holes) ∧ (σ.map Prod.fst).Pairwise (· < ·) ∧
      σ.Fills word p t ∧ ∀ ρ : Suggestion, ρ.Fills word p t → ∀ n ∈ p.holes, ρ.text? n = σ.text? n := by
  constructor
  · constructor
    · intro h
      obtain ⟨σ, hσ⟩ := Option.isSome_iff_exists.mp h
      exact ⟨σ, fills_of_match? ht hσ⟩
    · rintro ⟨ρ, hρ⟩
      obtain ⟨σ, hσ, -⟩ := match?_of_fills hword hp ht hρ
      rw [hσ, Option.isSome_some]
  · intro σ hσ
    refine ⟨fun n => ?_, increasing_match? hσ, fills_of_match? ht hσ, fun ρ hρ n hn => ?_⟩
    · simp [mem_keys_matchAll hσ]
    · obtain ⟨τ, hτ, hagrees⟩ := match?_of_fills hword hp ht hρ
      rw [hσ] at hτ
      cases hτ
      exact hagrees n hn

/-- The hole stands on two levels, in front of terms that are a hole and a variable of one name. A
constant in the term has the name of a variable in the pattern. -/
theorem matches_are_fillings_same_names :
    let word (name : String) : Prop := name.toList.all Lexer.isWordChar
    let imp : Ctor := ⟨"imp", "P", [⟨"P", "a"⟩, ⟨"P", "b"⟩], [.arg 0, .text "->", .arg 1]⟩
    let constant : Ctor := ⟨"x", "P", [], [.text "0"]⟩
    let p : Term := .app imp [.hole "a" "P", .app imp [.var "x" "P", .hole "a" "P"]]
    let t : Term := .app imp [.hole "k" "P", .app imp [.app constant [], .var "k" "P"]]
    let u : Term := .app imp [.hole "k" "P", .app imp [.app constant [], .var "x" "P"]]
    p.Formed word ∧ t.Formed word ∧ u.Formed word ∧
      (∃ σ, p.match? t = some σ ∧ σ.Fills word p t ∧ σ.text? "a" = some "k") ∧
      ¬ ∃ ρ : Suggestion, ρ.Fills word p u := by
  intro word imp constant p t u
  have hword : ∀ name, word name → ∀ c ∈ name.toList, Lexer.isWordChar c :=
    fun name h => List.all_eq_true.mp h
  have himp {a b : Term} (ha : a.Formed word) (hb : b.Formed word) :
      (Term.app imp [a, b]).Formed word := .app (by decide) rfl (by simp [ha, hb])
  have hconstant : (Term.app constant []).Formed word := .app (by decide) rfl (by simp)
  have hp : p.Formed word := himp (.hole (by decide)) (himp (.var (by decide)) (.hole (by decide)))
  have ht : t.Formed word := himp (.hole (by decide)) (himp hconstant (.var (by decide)))
  have hu : u.Formed word := himp (.hole (by decide)) (himp hconstant (.var (by decide)))
  obtain ⟨σ, hσ, htext⟩ := Option.map_eq_some_iff.mp <| show
    (p.match? t).map (·.text? "a") = some (some "k") by decide +kernel
  refine ⟨hp, ht, hu, ⟨σ, hσ, ((matches_are_fillings hword hp ht).2 σ hσ).2.2.1, htext⟩, ?_⟩
  rw [← (matches_are_fillings hword hp hu).1]
  decide +kernel

end Term

end Axiomata
