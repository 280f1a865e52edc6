import Axiomata.Proofs.TypedSymbols
import Mathlib.Data.List.Chain

/-!
# Templates say what bodies say

A template is built from the words of a body, those between two places glued together. What a word
does to the template in front of it is said once (`Fragment.extend_cases`). Filling the places of a
template therefore gives the words one by one, each replaced by the text for the first parameter of
that name (`Fragment.expand_ofBody`), and no two pieces of text are left side by side
(`Fragment.isChain_ofBody`).
-/

namespace Axiomata

namespace Fragment

variable {names texts words : List String} {word : String}

/-- What a word stands for: the text for the first of the names that it is, or else itself. -/
def meaning (names texts : List String) (word : String) : String :=
  ((names.zip texts).lookup word).getD word

theorem lookup_zip (h : texts.length = names.length) :
    (names.zip texts).lookup word = (names.idxOf? word).bind (texts[·]?) := by
  induction names generalizing texts with
  | nil => simp
  | cons name names ih =>
    obtain ⟨text, texts, rfl⟩ := List.exists_cons_of_length_eq_add_one h
    rw [List.zip_cons_cons, List.lookup_cons, List.idxOf?_cons]
    by_cases hname : name = word
    · simp [hname]
    · have hword : (word == name) = false := beq_eq_false_iff_ne.mpr (Ne.symm hname)
      have hrest := ih (show texts.length = names.length from Nat.succ.inj h)
      cases hindex : names.idxOf? word <;> simp [hname, hword, hrest, hindex]

/-- What is shown of a template and of another behind it. -/
theorem expand_append (args : List String) (front back : List Fragment) :
    expand args (front ++ back) = expand args front ++ expand args back := by
  induction front with
  | nil => simp [expand]
  | cons f front ih => cases f <;> simp [expand, ih, String.append_assoc]

/-- Whether or not a word is glued to the text in front of it, it is shown behind that text. -/
theorem expand_extend (h : texts.length = names.length) (template : List Fragment) (word : String) :
    expand texts (extend names template word) =
      expand texts template ++ meaning names texts word := by
  rw [meaning, lookup_zip h]
  obtain ⟨i, hi, heq⟩ | ⟨hnone, ⟨front, s, rfl, heq⟩ | ⟨-, heq⟩⟩ := extend_cases names template word
  · have hlt : i < texts.length := h ▸ (List.idxOf?_eq_some_iff.mp hi).1
    simp [heq, expand_append, hi, expand, hlt]
  · simp [heq, expand_append, hnone, expand, String.append_assoc]
  · simp [heq, expand_append, hnone, expand]

/-- A template shows the words of its body one by one. -/
theorem expand_ofBody (h : texts.length = names.length) (words : List String) :
    expand texts (ofBody names words) = String.join (words.map (meaning names texts)) := by
  refine ofBody_induction (P := fun words template =>
    expand texts template = String.join (words.map (meaning names texts))) (by simp [expand]) ?_ words
  intro words template word ih
  rw [expand_extend h, ih, List.map_append, String.join_append]
  simp

/-- Pieces of text do not stand side by side. -/
theorem isChain_ofBody (names words : List String) :
    (ofBody names words).IsChain fun f g => ¬ (f.isText ∧ g.isText) := by
  refine ofBody_induction (P := fun _ template =>
    template.IsChain fun f g => ¬ (f.isText ∧ g.isText)) .nil ?_ words
  intro words template word ih
  obtain ⟨i, -, heq⟩ | ⟨-, ⟨front, s, rfl, heq⟩ | ⟨hlast, heq⟩⟩ := extend_cases names template word
  · rw [heq, List.isChain_append]
    exact ⟨ih, .singleton _, by simp [isText]⟩
  · -- The longer piece of text stands where the shorter one stood.
    rw [List.isChain_append] at ih
    rw [heq, List.isChain_append]
    exact ⟨ih.1, .singleton _, by simpa [isText] using ih.2.2⟩
  · rw [heq, List.isChain_append]
    refine ⟨ih, .singleton _, fun f hf g _ h => ?_⟩
    rw [hlast f hf] at h
    cases h.1

end Fragment

/-- The constructor of a declaration shows the body of that declaration, word by word. A word that
names a parameter is shown as the argument for the first parameter of that name, and any other word
as it is. Every place of the template has an argument, and no two pieces of text stand side by
side. -/
theorem Ctor.shows_body (type name : Token) (params : List ParamDecl) (body : List Token)
    (args : List Term) (hargs : args.length = params.length) :
    let names := params.map (·.name.text)
    let c : Ctor := {
      name := name.text
      type := type.text
      params := params.map ParamDecl.toParam
      template := Fragment.ofBody names (body.map Token.text) }
    let shown := String.join (body.map fun t =>
      ((names.zip (args.map Term.display)).lookup t.text).getD t.text)
    (∀ scope : Scope, (scope.declareTerm type name params body).symbols ⊆ [.ctor c]) ∧
      (Term.app c args).display = shown ∧
      Fragment.expand? (args.map Term.display) c.template = some shown ∧
      c.template.IsChain (fun f g => ¬ (f.isText ∧ g.isText)) ∧
      ∀ i, .arg i ∈ c.template → i < c.arity := by
  intro names c shown
  have hlength : (args.map Term.display).length = names.length := by
    rw [List.length_map, List.length_map, hargs]
  have harity : ∀ i, .arg i ∈ c.template → i < names.length :=
    fun i hi => Fragment.lt_of_arg_mem_ofBody hi
  have hshown : Fragment.expand (args.map Term.display) c.template = shown := by
    rw [Fragment.expand_ofBody hlength, List.map_map]
    rfl
  refine ⟨fun scope x hx => ?_, ?_, ?_, Fragment.isChain_ofBody names _, ?_⟩
  · cases Scope.adds_of_mem_elaborate (d := .term type name params body) hx
    exact List.mem_singleton_self _
  · rw [Term.display, Term.displays_eq_map, hshown]
  · rw [Fragment.expand?_eq_some (hlength ▸ harity), hshown]
  · simpa [c, names, Ctor.arity] using harity

/-- Two parameters of one name, places side by side and at the ends of a run of words. -/
theorem Ctor.shows_body_repeated_param :
    let word (text : String) : Token := ⟨.word, text, ⟨0, 0⟩⟩
    let params : List ParamDecl := ["a", "a", "b"].map fun name => ⟨word "P", word name⟩
    let body := ["<", "a", "b", "=", ">", "a", ">"].map word
    let args := ["x", "y", "z"].map fun name => Term.var name "P"
    let template := Fragment.ofBody (params.map (·.name.text)) (body.map Token.text)
    args.length = params.length ∧
      template = [.text "<", .arg 0, .arg 2, .text "=>", .arg 0, .text ">"] ∧
      (Term.app ⟨"c", "P", params.map ParamDecl.toParam, template⟩ args).display = "<xz=>x>" := by
  intro word params body args template
  have hdisplay := (shows_body (word "P") (word "c") params body args rfl).2.1
  exact ⟨rfl, by decide, hdisplay.trans (by decide)⟩

end Axiomata
