import Axiomata.Proofs.Chains
import Axiomata.Proofs.Replay
import Axiomata.Proofs.Typing

/-!
# Everything that is kept is typed

A theorem is kept even if its proof is not valid, with steps that have holes for arguments that are
missing or wrong, and with goals that such steps have left behind. All of these terms are typed. A
hole stands where the parameter of a rule would, under its name and with its type, so that what a
rule says of arguments with holes is typed as well (`Step.Typed.of_supplied`), and a replay only
ever puts such terms on the list of goals (`typed_replay`).

Templates of declared constructors have places for their parameters only, and typed terms have an
argument for each. So no place is empty when a typed term is shown (`Term.Typed.display?_eq_some`).
-/

namespace Axiomata

/-! ## Templates -/

namespace Fragment

/-- Fills the places with texts, if there is one for each. -/
def expand? (args : List String) : List Fragment → Option String
  | [] => some ""
  | .text s :: rest => (expand? args rest).map (s ++ ·)
  | .arg i :: rest => args[i]?.bind fun text => (expand? args rest).map (text ++ ·)

/-- A template that refers only to arguments that are there can be expanded. -/
theorem expand?_eq_some {args : List String} {template : List Fragment}
    (h : ∀ i, .arg i ∈ template → i < args.length) :
    expand? args template = some (expand args template) := by
  induction template with
  | nil => rfl
  | cons f rest ih =>
    have hrest := ih fun i hi => h i (List.mem_cons_of_mem f hi)
    cases f with
    | text s => simp [expand?, expand, hrest]
    | arg i =>
      have hi : i < args.length := h i List.mem_cons_self
      simp [expand?, expand, hrest, hi]

def isText : Fragment → Bool
  | .text _ => true
  | .arg _ => false

/-- A word becomes a place, goes behind the last piece of text, or is a piece of text itself behind a
place or at the beginning. -/
theorem extend_cases (names : List String) (template : List Fragment) (word : String) :
    (∃ i, names.idxOf? word = some i ∧ extend names template word = template ++ [.arg i]) ∨
    names.idxOf? word = none ∧
      ((∃ front s, template = front ++ [.text s] ∧
        extend names template word = front ++ [.text (s ++ word)]) ∨
      (∀ f ∈ template.getLast?, f.isText = false) ∧
        extend names template word = template ++ [.text word]) := by
  rw [extend]
  cases names.idxOf? word with
  | some i => exact .inl ⟨i, rfl, rfl⟩
  | none =>
    refine .inr ⟨rfl, ?_⟩
    rcases List.eq_nil_or_concat template with rfl | ⟨front, f, rfl⟩
    · exact .inr ⟨by simp, rfl⟩
    · rw [List.concat_eq_append]
      cases f with
      | text s => exact .inl ⟨front, s, rfl, by simp⟩
      | arg i => exact .inr ⟨by simp [isText], by simp⟩

/-- What each word preserves holds of the template of a body. -/
theorem ofBody_induction {names : List String} {P : List String → List Fragment → Prop}
    (nil : P [] []) (extend : ∀ words template word, P words template →
      P (words ++ [word]) (extend names template word)) (words : List String) :
    P words (ofBody names words) := by
  have hrun (rest : List String) : ∀ words template, P words template →
      P (words ++ rest) (rest.foldl (Fragment.extend names) template) := by
    induction rest with
    | nil => simp
    | cons word rest ih =>
      intro words template h
      simpa using ih _ _ (extend words template word h)
  exact hrun words [] [] nil

/-- The places of a template are those of names. -/
theorem lt_of_arg_mem_ofBody {names words : List String} {i : Nat}
    (h : .arg i ∈ ofBody names words) : i < names.length := by
  have hall : ∀ i, .arg i ∈ ofBody names words → i < names.length := by
    refine ofBody_induction (P := fun _ template => ∀ i, .arg i ∈ template → i < names.length)
      (by simp) (fun _ template word ih i hi => ?_) words
    obtain ⟨j, hj, heq⟩ | ⟨-, ⟨front, s, rfl, heq⟩ | ⟨-, heq⟩⟩ := extend_cases names template word
    · rw [heq, List.mem_append, List.mem_singleton] at hi
      rcases hi with hi | hi
      · exact ih i hi
      · cases hi
        exact (List.idxOf?_eq_some_iff.mp hj).1
    · exact ih i (by simpa [heq] using hi)
    · exact ih i (by simpa [heq] using hi)
  exact hall i h

end Fragment

/-- A constructor whose template has places for its parameters only. -/
def Ctor.InRange (c : Ctor) : Prop := ∀ i, .arg i ∈ c.template → i < c.arity

namespace Term

mutual

/-- The text that a term is shown by, if no place of a template is left without an argument. -/
def display? : Term → Option String
  | .var name _ | .hole name _ => some name
  | .app c ts => (displays? ts).bind fun texts => Fragment.expand? texts c.template

def displays? : List Term → Option (List String)
  | [] => some []
  | t :: ts => t.display?.bind fun text => (displays? ts).map (text :: ·)

end

/-- Terms are displayed together if each of them is. -/
theorem displays?_eq_some {ts : List Term} (h : ∀ t ∈ ts, t.display? = some t.display) :
    displays? ts = some (displays ts) := by
  induction ts with
  | nil => rfl
  | cons t ts ih =>
    rw [List.forall_mem_cons] at h
    rw [displays?, h.1, ih h.2]
    rfl

namespace Typed

variable {symbols : List Symbol} {vars holes : List Param} {t : Term}

/-- A typed term may be looked at with more holes. -/
theorem mono_holes {holes' : List Param} (hs : holes ⊆ holes') (h : t.Typed symbols vars holes) :
    t.Typed symbols vars holes' := by
  induction h with
  | var h => exact .var h
  | hole h => exact .hole (hs h)
  | app hc types _ ih => exact .app hc types ih

/-- No place of a template is out of range when a typed term is shown. -/
theorem display?_eq_some (hsymbols : ∀ c, .ctor c ∈ symbols → c.InRange)
    (h : t.Typed symbols vars holes) : t.display? = some t.display := by
  induction h with
  | var h => rfl
  | hole h => rfl
  | @app c ts hc types _ ih =>
    have hlen : ts.length = c.arity := by simpa [Ctor.arity] using congrArg List.length types
    rw [display?, displays?_eq_some ih, Option.bind_some, display]
    refine Fragment.expand?_eq_some fun i hi => ?_
    rw [displays_eq_map, List.length_map, hlen]
    exact hsymbols c hc i hi

end Typed

end Term

/-! ## Steps -/

/-- Arguments of the types that a rule asks for, each of which is the hole of a parameter or has no
holes. -/
structure Rule.Supplied (symbols : List Symbol) (vars : List Param) (r : Rule) (args : List Term) :
    Prop extends r.Fits symbols vars r.params args where
  whole : ∀ a ∈ args, a.isHole ∨ a.Typed symbols vars []

/-- A step that uses a declared rule on arguments of the right types, where all that the rule says
of them is typed over the given variables, with holes for parameters of the rule. -/
structure Step.Typed (symbols : List Symbol) (vars : List Param) (s : Step) : Prop where
  rule : ∃ x ∈ symbols, x.rule? = some s.rule
  args : s.rule.Supplied symbols vars s.args
  conclusions : ∀ t ∈ s.applied.conclusions, t.Typed symbols vars s.rule.params
  hypotheses : ∀ t ∈ s.applied.hypotheses, t.Typed symbols vars s.rule.params

section Steps

variable {symbols symbols' : List Symbol} {vars holes : List Param}

theorem Rule.Supplied.mono {r : Rule} {args : List Term} (hs : symbols ⊆ symbols')
    (h : r.Supplied symbols vars args) : r.Supplied symbols' vars args :=
  ⟨h.toFits.mono hs, fun a ha => (h.whole a ha).imp_right (·.mono hs)⟩

theorem Step.Typed.mono {s : Step} (hs : symbols ⊆ symbols') (h : s.Typed symbols vars) :
    s.Typed symbols' vars := by
  obtain ⟨x, hx, hr⟩ := h.rule
  exact ⟨⟨x, hs hx, hr⟩, h.args.mono hs, fun t ht => (h.conclusions t ht).mono hs,
    fun t ht => (h.hypotheses t ht).mono hs⟩

/-- What is given for a parameter is kept if it has the right type, and is a hole otherwise. -/
theorem Rule.getElem?_fill_slots (r : Rule) (terms : List (Option Term)) {i : Nat} {p : Param}
    (hp : r.params[i]? = some p) :
    ∃ a : Term, (r.fill (r.slots terms))[i]? = some a ∧ a.type = p.type ∧
      (a = .hole p.name p.type ∨ some a ∈ terms) := by
  simp only [fill, slots, List.getElem?_mapIdx, List.getD_eq_getElem?_getD, hp, Option.map_some,
    Option.getD_some, Option.some.injEq, exists_eq_left']
  cases hterm : (terms[i]?.getD none).filter (·.type == p.type) with
  | none => exact ⟨rfl, .inl rfl⟩
  | some t =>
    obtain ⟨hgiven, htype⟩ := Option.filter_eq_some_iff.mp hterm
    refine ⟨beq_iff_eq.mp htype, .inr ?_⟩
    rw [Option.getD_eq_iff] at hgiven
    rcases hgiven with hgiven | ⟨-, hnone⟩
    · exact List.mem_of_getElem? hgiven
    · cases hnone

/-- Whatever is missing is filled with a hole of the right type. -/
theorem Rule.types_fill_slots (r : Rule) (terms : List (Option Term)) :
    (r.fill (r.slots terms)).map Term.type = r.params.map Param.type := by
  apply List.ext_getElem?
  intro i
  rw [List.getElem?_map, List.getElem?_map]
  cases hp : r.params[i]? with
  | none =>
    have hnone : (r.fill (r.slots terms))[i]? = none := by simpa [fill] using hp
    rw [hnone, Option.map_none, Option.map_none]
  | some p =>
    obtain ⟨a, ha, htype, -⟩ := r.getElem?_fill_slots terms hp
    rw [ha, Option.map_some, Option.map_some, htype]

/-- Arguments are holes for parameters or terms that were given. -/
theorem Rule.mem_fill_slots {r : Rule} {terms : List (Option Term)} {a : Term}
    (ha : a ∈ r.fill (r.slots terms)) :
    (∃ p ∈ r.params, a = .hole p.name p.type) ∨ some a ∈ terms := by
  obtain ⟨i, hi⟩ := List.mem_iff_getElem?.mp ha
  have hlt : i < r.params.length := by
    simpa [fill] using (List.getElem?_eq_some_iff.mp hi).1
  obtain ⟨b, hb, -, hgiven⟩ := r.getElem?_fill_slots terms (List.getElem?_eq_getElem hlt)
  obtain rfl : a = b := Option.some.inj (hi.symm.trans hb)
  exact hgiven.imp_left fun heq => ⟨_, List.getElem_mem hlt, heq⟩

/-- So a rule is supplied with arguments whatever terms are given. -/
theorem Rule.supplied_fill (r : Rule) {terms : List (Option Term)}
    (h : ∀ t, some t ∈ terms → t.Typed symbols vars []) :
    r.Supplied symbols vars (r.fill (r.slots terms)) := by
  refine ⟨⟨r.types_fill_slots terms, fun a ha => ?_⟩, fun a ha => ?_⟩
  · rcases mem_fill_slots ha with ⟨p, hp, rfl⟩ | hgiven
    · exact .hole hp
    · exact (h a hgiven).mono_holes (List.nil_subset _)
  · rcases mem_fill_slots ha with ⟨p, -, rfl⟩ | hgiven
    · exact .inl rfl
    · exact .inr (h a hgiven)

/-- What a well-formed rule says of such arguments is typed. -/
theorem Step.Typed.of_supplied {s : Step} (hrule : ∃ x ∈ symbols, x.rule? = some s.rule)
    (hwf : s.rule.WellFormed symbols) (hargs : s.rule.Supplied symbols vars s.args) :
    s.Typed symbols vars := by
  refine ⟨hrule, hargs, fun t ht => ?_, fun t ht => ?_⟩
  · obtain ⟨c, hc, rfl⟩ := List.mem_map.mp ht
    exact hargs.typed_subst hwf.nodup (hwf.conclusions c hc)
  · obtain ⟨c, hc, rfl⟩ := List.mem_map.mp ht
    exact hargs.typed_subst hwf.nodup (hwf.hypotheses c hc)

/-- A step uses a rule in scope, and supplies it with arguments. -/
theorem Expr.supplied_of_toStep {scope : Scope} {statement : Rule} {e : Expr} {step : Step}
    (h : (e.toStep scope statement).1 = some step) :
    (∃ x ∈ scope.symbols, x.rule? = some step.rule) ∧
      step.rule.Supplied scope.symbols statement.params step.args := by
  cases e with
  | node root args =>
    rw [toStep] at h
    split at h
    · cases h
    · rename_i rule hrule
      cases h
      refine ⟨Scope.mem_symbols_of_rule? hrule, rule.supplied_fill fun t ht => ?_⟩
      rw [instantiateAll_fst] at ht
      obtain ⟨arg, -, hinst⟩ := List.mem_map.mp ht
      exact typed_instantiate hinst

/-! ## Goals -/

/-- A step leaves typed goals, which may have holes for the parameters of its rule. -/
theorem Step.typed_run {s : Step} {hypotheses goals : List Term} (hs : s.Typed symbols vars)
    (hgoals : ∀ g ∈ goals, g.Typed symbols vars holes) :
    ∀ g ∈ (s.run hypotheses goals).goals, g.Typed symbols vars (holes ++ s.rule.params) := by
  intro g hg
  rcases s.mem_goals_run hg with hnew | hold
  · exact (hs.hypotheses g hnew).mono_holes (List.subset_append_right _ _)
  · exact (hgoals g hold).mono_holes (List.subset_append_left _ _)

/-- The holes in the goals behind a step are those of parameters of rules that were used so far. -/
theorem typed_replay {steps : List Step} {hypotheses goals : List Term}
    (hsteps : ∀ s ∈ steps, s.Typed symbols vars) (hgoals : ∀ g ∈ goals, g.Typed symbols vars holes)
    {i : Nat} {snapshot : Snapshot} (h : (replay hypotheses goals steps)[i]? = some snapshot) :
    ∀ g ∈ snapshot.goals,
      g.Typed symbols vars (holes ++ (steps.take (i + 1)).flatMap (·.rule.params)) := by
  induction steps generalizing goals holes i with
  | nil => simp [replay] at h
  | cons s steps ih =>
    rw [List.forall_mem_cons] at hsteps
    have hrun : ∀ g ∈ (s.run hypotheses goals).goals,
        g.Typed symbols vars (holes ++ s.rule.params) := s.typed_run hsteps.1 hgoals
    cases i with
    | zero =>
      cases h
      simpa using hrun
    | succ i =>
      have hrest := ih hsteps.2 hrun h
      simpa [List.append_assoc] using hrest

end Steps

/-! ## Symbols -/

/-- A theorem in which the statement, the steps and the goals behind each step are typed. -/
structure Theorem.Typed (symbols : List Symbol) (t : Theorem) : Prop where
  statement : t.statement.WellFormed symbols
  steps : ∀ s ∈ t.steps, s.Typed symbols t.statement.params
  goals : ∀ (i : Nat) (snapshot : Snapshot), t.snapshots[i]? = some snapshot → ∀ g ∈ snapshot.goals,
    g.Typed symbols t.statement.params ((t.steps.take (i + 1)).flatMap (·.rule.params))

/-- All terms and templates of a symbol are in order. -/
def Symbol.Typed (symbols : List Symbol) : Symbol → Prop
  | .type _ => True
  | .ctor c => c.InRange
  | .postulate r => r.WellFormed symbols
  | .thm t => t.Typed symbols

/-- A theorem is typed if its statement and steps are. Its snapshots follow from them. -/
theorem Theorem.Typed.of_steps {symbols : List Symbol} {t : Theorem}
    (hstatement : t.statement.WellFormed symbols)
    (hsteps : ∀ s ∈ t.steps, s.Typed symbols t.statement.params) : t.Typed symbols :=
  ⟨hstatement, hsteps, fun _ _ h => typed_replay hsteps hstatement.conclusions h⟩

theorem Theorem.Typed.mono {symbols symbols' : List Symbol} (hs : symbols ⊆ symbols') {t : Theorem}
    (h : t.Typed symbols) : t.Typed symbols' :=
  .of_steps (h.statement.mono hs) fun s hstep => (h.steps s hstep).mono hs

/-- A typed symbol stays so with more symbols. -/
theorem Symbol.Typed.mono {symbols symbols' : List Symbol} (hs : symbols ⊆ symbols') {x : Symbol}
    (h : x.Typed symbols) : x.Typed symbols' := by
  cases x with
  | type name => trivial
  | ctor c => exact h
  | postulate r => exact Rule.WellFormed.mono hs h
  | thm t => exact Theorem.Typed.mono hs h

/-- The rule of a typed symbol is well formed. -/
theorem Symbol.Typed.wellFormed {symbols : List Symbol} {x : Symbol} (h : x.Typed symbols) {r : Rule}
    (hr : x.rule? = some r) : r.WellFormed symbols := by
  cases x with
  | type _ | ctor _ => cases hr
  | postulate r =>
    cases hr
    exact h
  | thm t =>
    cases hr
    exact Theorem.Typed.statement h

/-- A theorem is typed over symbols that the rules of its scope are well-formed over. -/
theorem Theorem.Typed.of_elaborate {s : Scope} {symbols : List Symbol} (hs : s.symbols ⊆ symbols)
    (hwf : ∀ x ∈ s.symbols, ∀ r, x.rule? = some r → r.WellFormed symbols) {st : Statement} {r : Rule}
    (hr : (st.elaborate s).1 = some r) (proof : List Expr) :
    Theorem.Typed symbols ⟨r, (r.citedSteps s proof).map Prod.snd⟩ := by
  refine .of_steps ((Statement.elaborate_eq_some hr).1.mono hs) fun step hstep => ?_
  obtain ⟨e, -, he⟩ := Rule.exists_of_mem_citedSteps hstep
  obtain ⟨⟨x, hx, hrule⟩, hargs⟩ := Expr.supplied_of_toStep he
  exact .of_supplied ⟨x, hs hx, hrule⟩ (hwf x hx _ hrule) (hargs.mono hs)

/-- A declaration adds typed symbols to typed ones. -/
theorem hereditary_typed (admitted : Decl → Prop) :
    Hereditary admitted fun symbols x => x.Typed symbols where
  mono hs h := h.mono hs
  adds := by
    intro s symbols hs hclosed d _ x hadds
    cases hadds with
    | type _ => trivial
    | ctor _ =>
      intro i hi
      simpa [Ctor.arity] using Fragment.lt_of_arg_mem_ofBody hi
    | postulate hr => exact (Statement.elaborate_eq_some hr).1.mono hs
    | thm hr => exact .of_elaborate hs (fun y hy r hr => (hclosed y (hs hy)).wellFormed hr) hr _

/-- Whatever is compiled against tables that were compiled at any time, with faults or without, all
symbols are typed: templates have places for parameters only, statements are typed over their
parameters, steps have an argument of the right type for each parameter of their rule, and so has
all that steps say and leave to prove, with holes for parameters of rules used so far. So a term of
any of these is shown without a place out of range. -/
theorem exists_typed_symbols {deps : List Table} (hdeps : ∀ t ∈ deps, t.Compiled fun _ => True)
    (ds : List Decl) :
    ∃ symbols, ((Elaboration.start deps).run ds).scope.symbols ⊆ symbols ∧
      (∀ x ∈ symbols, x.Typed symbols) ∧
      ∀ vars holes t, Term.Typed symbols vars holes t → t.display? = some t.display := by
  have hds : ∀ d ∈ ds, True := fun _ _ => trivial
  obtain ⟨symbols, hsubset, hclosed⟩ := (hereditary_typed _).exists_closed_run hdeps hds
  refine ⟨symbols, hsubset, hclosed, fun vars holes t ht => ?_⟩
  exact ht.display?_eq_some fun c hc => hclosed (.ctor c) hc

/-- A goal with two holes, left behind by a step without arguments. The table that its constructor
is from is no longer there. -/
theorem exists_typed_symbols_left_goal :
    let logic := Source.ofText "logic" ("type P term P imp(P a, P b) \x7b (a -> b) \x7d " ++
      "axiom mp(P a, P b) \x7b -| a -| imp(a, b) |- b \x7d")
    let user := Source.ofText "user" "thm t(P b) \x7b |- b \x7d = \x7b mp \x7d"
    let file := user.compile [(logic.compile []).table]
    file.table.Compiled (fun _ => True) ∧
      ∃ (symbols : List Symbol) (t : Theorem) (g : Term), t ∈ file.theorems ∧
        (t.snapshots[0]?.bind (·.goals[1]?)) = some g ∧ g.canonical = "imp(a,b)" ∧
        g.Typed symbols [⟨"P", "b"⟩] [⟨"P", "a"⟩, ⟨"P", "b"⟩] ∧ g.display? = some "(a->b)" := by
  intro logic user file
  have hlogic : (logic.compile []).table.Compiled fun _ => True := .run (by simp) (by simp)
  have hfile : file.table.Compiled fun _ => True := .run (by simpa using hlogic) (by simp)
  have hdeps : ∀ t ∈ [file.table], t.Compiled fun _ => True := by simpa using hfile
  obtain ⟨symbols, hsubset, htyped, hshown⟩ := exists_typed_symbols hdeps []
  obtain ⟨t, ht, hview⟩ := Option.map_eq_some_iff.mp <| show
    (file.theorems[0]?.map fun t => (t.statement.params, (t.steps.take 1).flatMap (·.rule.params),
      (t.snapshots[0]?.bind (·.goals[1]?)).map fun g => (g.canonical, g.display))) =
      some ([⟨"P", "b"⟩], [⟨"P", "a"⟩, ⟨"P", "b"⟩], some ("imp(a,b)", "(a->b)")) by decide +kernel
  have hmem : t ∈ file.theorems := List.mem_of_getElem? ht
  have hsymbol : .thm t ∈ file.table.symbols := CompiledFile.mem_theorems.mp hmem
  have ht' : t.Typed symbols :=
    htyped (.thm t) (hsubset (by simp [Scope.symbols, Elaboration.start, hsymbol]))
  simp only [Prod.mk.injEq] at hview
  obtain ⟨hparams, hholes, hgoal⟩ := hview
  obtain ⟨g, hg, htexts⟩ := Option.map_eq_some_iff.mp hgoal
  obtain ⟨snapshot, hsnapshot, hgoals⟩ := Option.bind_eq_some_iff.mp hg
  have hg' := ht'.goals 0 snapshot hsnapshot g (List.mem_of_getElem? hgoals)
  rw [hparams, hholes] at hg'
  rw [Prod.mk.injEq] at htexts
  refine ⟨hfile, symbols, t, g, hmem, hg, htexts.1, hg', ?_⟩
  rw [hshown _ _ _ hg', htexts.2]

end Axiomata
