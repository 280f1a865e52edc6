import Axiomata.Term.Basic
import Axiomata.Token.Lexer

/-!
# Canonical texts can be read in one way

A canonical text is a name, behind which the canonical texts of the arguments stand in brackets with
commas between them. Where names are made of word characters, the name and the texts of the arguments
can be read off (`Term.Plain.canonical_eq_iff`). Whether the name is that of a variable, a hole or a
constructor cannot.
-/

namespace Axiomata.Term

/-! ## The characters of a canonical text -/

/-- The characters of texts, each with a comma in front. -/
def listed (texts : List String) : List Char := texts.flatMap fun text => ',' :: text.toList

/-- The characters of texts in brackets, of which there are none without texts. -/
def bracketed (texts : List String) : List Char :=
  if texts.isEmpty then [] else '(' :: ((listed texts).tail ++ [')'])

@[simp] theorem bracketed_nil : bracketed [] = [] := rfl

/-- A list of arguments that is not empty starts with a bracket and its first argument. -/
theorem bracketed_cons (text : String) (texts : List String) :
    bracketed (text :: texts) = '(' :: (text.toList ++ (listed texts ++ [')'])) := by
  simp [bracketed, listed]

/-- The comma in front of a list of texts is like those between them. -/
theorem comma_cons_intercalate (text : String) (texts : List String) :
    ',' :: [','].intercalate ((text :: texts).map String.toList) = listed (text :: texts) := by
  induction texts generalizing text with
  | nil => simp [listed]
  | cons next texts ih =>
    have hnext := ih next
    simp only [List.map_cons, List.intercalate_cons_cons] at hnext ⊢
    simp only [List.append_assoc, List.singleton_append, hnext]
    simp [listed]

/-- The text of a term is its name with its arguments in brackets. -/
theorem toList_canonical (t : Term) :
    t.canonical.toList = t.head.toList ++ bracketed (t.args.map canonical) := by
  cases t with
  | var n y => simp [canonical, head, args]
  | hole n y => simp [canonical, head, args]
  | app c ts =>
    cases ts with
    | nil => simp [canonical, head]
    | cons t ts =>
      have hcomma := comma_cons_intercalate t.canonical (ts.map canonical)
      simp only [canonical, canonicals_eq_map, String.toList_append, String.toList_intercalate,
        head, args, List.map_cons, bracketed, List.isEmpty_cons, ← hcomma, List.tail_cons]
      simp

/-- The canonical text depends on the name and the canonical texts of the arguments. -/
theorem canonical_congr {s t : Term} (hhead : s.head = t.head)
    (hargs : s.args.map canonical = t.args.map canonical) : s.canonical = t.canonical := by
  apply String.toList_injective
  rw [toList_canonical, toList_canonical, hhead, hargs]

/-! ## Reading it -/

/-- Terms with names of word characters. -/
inductive Plain : Term → Prop
  | intro {t : Term} (head : ∀ c ∈ t.head.toList, Lexer.isWordChar c)
    (args : ∀ a ∈ t.args, Plain a) : Plain t

theorem Plain.head {t : Term} (h : t.Plain) : ∀ c ∈ t.head.toList, Lexer.isWordChar c := by
  cases h with
  | intro hhead _ => exact hhead

/-- Arguments of a plain term are plain. -/
theorem Plain.of_mem_args {t a : Term} (h : t.Plain) (ha : a ∈ t.args) : a.Plain := by
  cases h with
  | intro _ hargs => exact hargs a ha

/-- A text that a term ends in front of: it starts with neither a name nor arguments. -/
def Ends (cs : List Char) : Prop := ∀ c ∈ cs.head?, c = ',' ∨ c = ')'

theorem ends_nil : Ends [] := by simp [Ends]

/-- An argument ends at a comma or at the bracket. -/
theorem ends_listed (texts : List String) (rest : List Char) : Ends (listed texts ++ ')' :: rest) := by
  cases texts with
  | nil => simp [Ends, listed]
  | cons text texts => simp [Ends, listed]

/-- A text that a name ends in front of. -/
def EndsName (cs : List Char) : Prop := ∀ c ∈ cs.head?, Lexer.isSeparator c

/-- A name ends at its arguments, or where the term ends if there are none. -/
theorem Ends.bracketed {cs : List Char} (h : Ends cs) (texts : List String) :
    EndsName (bracketed texts ++ cs) := by
  cases texts with
  | nil =>
    intro c hc
    rcases h c hc with rfl | rfl <;> decide
  | cons text texts =>
    intro c hc
    rw [bracketed_cons] at hc
    cases hc
    decide

/-- A name of word characters is all that stands in front of its end. -/
theorem name_append_inj {m n : List Char} {xs ys : List Char} (hm : ∀ c ∈ m, Lexer.isWordChar c)
    (hn : ∀ c ∈ n, Lexer.isWordChar c) (hx : EndsName xs) (hy : EndsName ys)
    (h : m ++ xs = n ++ ys) : m = n ∧ xs = ys := by
  have hstop : ∀ {c : Char} {cs zs : List Char}, Lexer.isWordChar c → EndsName zs → zs ≠ c :: cs := by
    rintro c cs zs hc hz rfl
    have hsep := hz c rfl
    simp [Lexer.isWordChar, hsep] at hc
  induction m generalizing n with
  | nil =>
    cases n with
    | nil => exact ⟨rfl, h⟩
    | cons d n => exact absurd h (hstop (hn d (by simp)) hx)
  | cons c m ih =>
    cases n with
    | nil => exact absurd h.symm (hstop (hm c (by simp)) hy)
    | cons d n =>
      simp only [List.cons_append, List.cons.injEq] at h
      rw [List.forall_mem_cons] at hm hn
      obtain ⟨rfl, rfl⟩ := ih hm.2 hn.2 h.2
      exact ⟨by rw [h.1], rfl⟩

/-- Arguments can be told apart if each of them can. -/
theorem listed_append_inj {ts us : List Term}
    (ih : ∀ t ∈ ts, ∀ u ∈ us, ∀ xs ys, Ends xs → Ends ys →
      t.canonical.toList ++ xs = u.canonical.toList ++ ys → t.canonical = u.canonical ∧ xs = ys)
    {xs ys : List Char}
    (h : listed (ts.map canonical) ++ ')' :: xs = listed (us.map canonical) ++ ')' :: ys) :
    ts.map canonical = us.map canonical ∧ xs = ys := by
  induction ts generalizing us with
  | nil =>
    cases us with
    | nil => simpa [listed] using h
    | cons u us => simp [listed] at h
  | cons t ts ih' =>
    cases us with
    | nil => simp [listed] at h
    | cons u us =>
      have h' : t.canonical.toList ++ (listed (ts.map canonical) ++ ')' :: xs) =
          u.canonical.toList ++ (listed (us.map canonical) ++ ')' :: ys) := by
        simpa [listed] using h
      obtain ⟨hfirst, hrest⟩ := ih t (by simp) u (by simp) _ _ (ends_listed _ _) (ends_listed _ _) h'
      obtain ⟨hothers, rfl⟩ := ih'
        (fun t ht u hu => ih t (List.mem_cons_of_mem _ ht) u (List.mem_cons_of_mem _ hu)) hrest
      exact ⟨by rw [List.map_cons, List.map_cons, hfirst, hothers], rfl⟩

/-- Unique readability. By induction on the first term, whose arguments are told from those of the
second one by one. -/
theorem Plain.canonical_append_inj {s t : Term} (hs : s.Plain) (ht : t.Plain) {xs ys : List Char}
    (hx : Ends xs) (hy : Ends ys) (h : s.canonical.toList ++ xs = t.canonical.toList ++ ys) :
    (s.head = t.head ∧ s.args.map canonical = t.args.map canonical) ∧ xs = ys := by
  induction hs generalizing t xs ys with
  | @intro s hhead _ ih =>
    rw [toList_canonical, toList_canonical, List.append_assoc, List.append_assoc] at h
    obtain ⟨hname, hrest⟩ := name_append_inj hhead ht.head (hx.bracketed _) (hy.bracketed _) h
    suffices hargs : s.args.map canonical = t.args.map canonical ∧ xs = ys from
      ⟨⟨String.toList_injective hname, hargs.1⟩, hargs.2⟩
    -- A bracket behind the name can only be that of its own arguments.
    have hopen {zs ws : List Char} (hz : Ends zs) : zs ≠ '(' :: ws := by
      rintro rfl
      simpa using hz '(' rfl
    cases hsargs : s.args with
    | nil =>
      cases htargs : t.args with
      | nil => simpa [hsargs, htargs] using hrest
      | cons u us =>
        simp only [hsargs, htargs, List.map_nil, List.map_cons, bracketed_nil, bracketed_cons,
          List.nil_append, List.cons_append] at hrest
        exact absurd hrest (hopen hx)
    | cons v vs =>
      cases htargs : t.args with
      | nil =>
        simp only [hsargs, htargs, List.map_nil, List.map_cons, bracketed_nil, bracketed_cons,
          List.nil_append, List.cons_append] at hrest
        exact absurd hrest.symm (hopen hy)
      | cons u us =>
        refine listed_append_inj (fun a ha b hb xs ys hx hy h => ?_) ?_
        · obtain ⟨⟨hhead, hargs⟩, hrest⟩ :=
            ih a (hsargs ▸ ha) (ht.of_mem_args (htargs ▸ hb)) hx hy h
          exact ⟨canonical_congr hhead hargs, hrest⟩
        · simpa [hsargs, htargs, bracketed_cons, listed] using hrest

/-- Canonical texts of plain terms are equal if and only if the names and the texts of the arguments
are. -/
theorem Plain.canonical_eq_iff {s t : Term} (hs : s.Plain) (ht : t.Plain) :
    s.canonical = t.canonical ↔ s.head = t.head ∧ s.args.map canonical = t.args.map canonical := by
  constructor
  · intro h
    exact (hs.canonical_append_inj ht ends_nil ends_nil (by rw [h])).1
  · rintro ⟨hhead, hargs⟩
    exact canonical_congr hhead hargs

end Axiomata.Term
