import AsyncOrder.Source.Parser

/-!
# Grammars that one token of look-ahead decides

A `Derivation` tells how tokens come from a grammar, and has a value.  It is `Eager` if every part
takes what it can: no part might have gone on with the token behind it.

`first` are the classes of tokens that derivations begin with, `further` those with which one might
have gone on where it ends.  In a grammar that is `Predictive` these are apart wherever it has to
be told which part a token belongs to.  There is one exception: newlines at the end may be counted
to the part before them.  So a derivation is given by its tokens if it is eager, also if others
follow, unless it might have gone on with them (`Derivation.unique`):

    d.tokens ++ rest = d'.tokens ++ rest' → Clear G.further rest → Clear G.further rest' → d = d'

and every derivation has an eager one of the same tokens and the same value
(`Derivation.exists_eager`).
-/

namespace AsyncOrder.Source

variable {α β γ : Type}

/-! ## Look-ahead -/

namespace Grammar

/-- May it be no token at all? -/
def nullable : {α : Type} → Grammar α → Bool
  | _, token _ _ => false
  | _, seq _ x y => x.nullable && y.nullable
  | _, alt x y => x.nullable || y.nullable
  | _, optional _ _ => true
  | _, many _ _ _ => true
  | _, more _ _ _ _ _ => true
  | _, spanned _ x => x.nullable
  | _, block _ => false

/-- What the first token may be. -/
def first : {α : Type} → Grammar α → List Terminal
  | _, token _ t => [t]
  | _, seq _ x y => x.first ++ if x.nullable then y.first else []
  | _, alt x y => x.first ++ y.first
  | _, optional _ x => x.first
  | _, many _ _ x => x.first
  | _, more _ _ _ s x => s.first ++ if s.nullable then x.first else []
  | _, spanned _ x => x.first
  | _, block _ => [.mark .lbrace]

/-- What might have gone on where it ends. -/
def further : {α : Type} → Grammar α → List Terminal
  | _, token _ _ => []
  | _, seq _ x y => y.further ++ if y.nullable then x.further else []
  | _, alt x y => x.further ++ y.further
  | _, optional _ x => x.first ++ x.further
  | _, many _ _ x => x.first ++ x.further
  | _, more trailing _ _ s x =>
    s.first ++ x.further ++ if trailing then s.further ++ x.first else []
  | _, spanned _ x => x.further
  | _, block _ => []

end Grammar

/-! ## What stands next -/

/-- No token of the classes `ts` stands next. -/
def Clear (ts : List Terminal) (rest : List Lexeme) : Prop :=
  ∀ x ∈ rest.head?, x.token.terminal ∉ ts

section

variable {ts us : List Terminal} {rest : List Lexeme}

theorem clear_nil : Clear ts [] := fun _ h => nomatch h

theorem clear_of_nil : Clear [] rest := fun _ _ => List.not_mem_nil

theorem clear_cons {x : Lexeme} : Clear ts (x :: rest) ↔ x.token.terminal ∉ ts := by
  simp [Clear]

theorem clear_append : Clear (ts ++ us) rest ↔ Clear ts rest ∧ Clear us rest := by
  simp only [Clear, List.mem_append, not_or]
  exact ⟨fun h => ⟨fun x hx => (h x hx).1, fun x hx => (h x hx).2⟩,
    fun h x hx => ⟨h.1 x hx, h.2 x hx⟩⟩

theorem clear_ite {b : Bool} :
    Clear (if b = true then ts else []) rest ↔ (b = true → Clear ts rest) := by
  cases b <;> simp [Clear]

end

namespace Grammar

variable {rest : List Lexeme} {x : Grammar α} {s : Grammar γ}

theorem clear_further_seq {f : α → β → γ} {y : Grammar β} :
    Clear (seq f x y).further rest ↔
      Clear y.further rest ∧ (y.nullable = true → Clear x.further rest) := by
  rw [further, clear_append, clear_ite]

theorem clear_further_alt {y : Grammar α} :
    Clear (alt x y).further rest ↔ Clear x.further rest ∧ Clear y.further rest :=
  clear_append

theorem clear_further_optional {a : α} :
    Clear (optional a x).further rest ↔ Clear x.first rest ∧ Clear x.further rest :=
  clear_append

theorem clear_further_many {f : α → β → β} {b : β} :
    Clear (many f b x).further rest ↔ Clear x.first rest ∧ Clear x.further rest :=
  clear_append

theorem clear_further_more {trailing : Bool} {f : α → β → β} {b : β} :
    Clear (more trailing f b s x).further rest ↔ (Clear s.first rest ∧ Clear x.further rest) ∧
      (trailing = true → Clear s.further rest ∧ Clear x.first rest) := by
  rw [further, clear_append, clear_append, clear_ite, clear_append]

theorem first_seq {f : α → β → γ} {y : Grammar β} (hx : x.nullable = false) :
    (seq f x y).first = x.first := by
  rw [first, hx, if_neg Bool.false_ne_true, List.append_nil]

theorem first_more {trailing : Bool} {f : α → β → β} {b : β} (hs : s.nullable = false) :
    (more trailing f b s x).first = s.first := by
  rw [first, hs, if_neg Bool.false_ne_true, List.append_nil]

end Grammar

/-! ## Derivations -/

/-- How tokens come from a grammar. -/
inductive Derivation : {α : Type} → Grammar α → Type 1 where
  | token {α : Type} {f : Lexeme → α} {t : Terminal} (x : Lexeme) (h : x.token.terminal = t) :
      Derivation (.token f t)
  | seq {α β γ : Type} {f : α → β → γ} {x : Grammar α} {y : Grammar β} (d : Derivation x)
      (e : Derivation y) : Derivation (.seq f x y)
  | left {α : Type} {x y : Grammar α} (d : Derivation x) : Derivation (.alt x y)
  | right {α : Type} {x y : Grammar α} (d : Derivation y) : Derivation (.alt x y)
  | absent {α : Type} {a : α} {x : Grammar α} : Derivation (.optional a x)
  | present {α : Type} {a : α} {x : Grammar α} (d : Derivation x) : Derivation (.optional a x)
  | manyNil {α β : Type} {f : α → β → β} {b : β} {x : Grammar α} : Derivation (.many f b x)
  | manyCons {α β : Type} {f : α → β → β} {b : β} {x : Grammar α} (d : Derivation x)
      (ds : Derivation (.many f b x)) : Derivation (.many f b x)
  | moreNil {α β γ : Type} {trailing : Bool} {f : α → β → β} {b : β} {s : Grammar γ}
      {x : Grammar α} : Derivation (.more trailing f b s x)
  | moreCons {α β γ : Type} {trailing : Bool} {f : α → β → β} {b : β} {s : Grammar γ}
      {x : Grammar α} (c : Derivation s) (d : Derivation x)
      (ds : Derivation (.more trailing f b s x)) : Derivation (.more trailing f b s x)
  | moreLast {α β γ : Type} {f : α → β → β} {b : β} {s : Grammar γ} {x : Grammar α}
      (c : Derivation s) : Derivation (.more true f b s x)
  | spanned {α β : Type} {f : α → Span → β} {x : Grammar α} (d : Derivation x) :
      Derivation (.spanned f x)
  | block {α : Type} {f : Block → α} (d : Derivation Form.block) : Derivation (.block f)

/-- Where the tokens begin, or `n` if there are none. -/
def startOf (n : Nat) (tokens : List Lexeme) : Nat := (tokens.head?.map (·.span.start)).getD n

/-- Where the tokens end, or `n`. -/
def endOf (n : Nat) (tokens : List Lexeme) : Nat := (tokens.getLast?.map (·.span.stop)).getD n

def spanOf (n : Nat) (tokens : List Lexeme) : Span := ⟨startOf n tokens, endOf n tokens⟩

namespace Derivation

open Grammar

def tokens : {α : Type} → {G : Grammar α} → Derivation G → List Lexeme
  | _, _, token x _ => [x]
  | _, _, seq d e => d.tokens ++ e.tokens
  | _, _, left d => d.tokens
  | _, _, right d => d.tokens
  | _, _, absent => []
  | _, _, present d => d.tokens
  | _, _, manyNil => []
  | _, _, manyCons d ds => d.tokens ++ ds.tokens
  | _, _, moreNil => []
  | _, _, moreCons c d ds => c.tokens ++ (d.tokens ++ ds.tokens)
  | _, _, moreLast c => c.tokens
  | _, _, spanned d => d.tokens
  | _, _, block d => d.tokens

/-- What the tokens mean in a text of `size` bytes, where no tokens stand at the end. -/
def value (size : Nat) : {α : Type} → {G : Grammar α} → Derivation G → α
  | _, _, token (f := f) x _ => f x
  | _, _, seq (f := f) d e => f (d.value size) (e.value size)
  | _, _, left d => d.value size
  | _, _, right d => d.value size
  | _, _, absent (a := a) => a
  | _, _, present d => d.value size
  | _, _, manyNil (b := b) => b
  | _, _, manyCons (f := f) d ds => f (d.value size) (ds.value size)
  | _, _, moreNil (b := b) => b
  | _, _, moreCons (f := f) _ d ds => f (d.value size) (ds.value size)
  | _, _, moreLast (b := b) _ => b
  | _, _, spanned (f := f) d => f (d.value size) (spanOf size d.tokens)
  | _, _, block (f := f) d => f (d.value size)

/-- Every part takes what it can: it might not have gone on with the token behind it. -/
def Eager : {α : Type} → {G : Grammar α} → Derivation G → Prop
  | _, _, token _ _ => True
  | _, _, seq (x := x) d e => d.Eager ∧ e.Eager ∧ Clear x.further e.tokens
  | _, _, left d => d.Eager
  | _, _, right d => d.Eager
  | _, _, absent => True
  | _, _, present d => d.Eager
  | _, _, manyNil => True
  | _, _, manyCons d ds => d.Eager ∧ ds.Eager
  | _, _, moreNil => True
  | _, _, moreCons c d ds => c.Eager ∧ d.Eager ∧ ds.Eager
  | _, _, moreLast c => c.Eager
  | _, _, spanned d => d.Eager
  | _, _, block d => d.Eager

variable {G : Grammar α}

/-! ## The first token -/

theorem nullable_of_tokens_eq_nil (d : Derivation G) (h : d.tokens = []) : G.nullable = true := by
  induction d with
  | token x => cases h
  | absent | present | manyNil | manyCons | moreNil | moreCons | moreLast => rfl
  | seq d e ihd ihe =>
    obtain ⟨hd, he⟩ := List.append_eq_nil_iff.1 h
    rw [Grammar.nullable, ihd hd, ihe he, Bool.and_self]
  | left d ih => rw [Grammar.nullable, ih h, Bool.true_or]
  | right d ih => rw [Grammar.nullable, ih h, Bool.or_true]
  | spanned d ih => exact ih h
  | block d ih => exact ih h

theorem tokens_ne_nil (d : Derivation G) (hG : G.nullable = false) : d.tokens ≠ [] := by
  intro h
  rw [d.nullable_of_tokens_eq_nil h] at hG
  cases hG

theorem length_pos (d : Derivation G) (hG : G.nullable = false) : 0 < d.tokens.length :=
  List.length_pos_iff.2 (d.tokens_ne_nil hG)

/-- The first token is that of the first part, or this is none. -/
theorem tokens_append_eq_cons {d : Derivation G} {ts xs : List Lexeme} {z : Lexeme}
    (h : d.tokens ++ ts = z :: xs) :
    (∃ ys, d.tokens = z :: ys) ∨ G.nullable = true ∧ ts = z :: xs := by
  cases hd : d.tokens with
  | nil =>
    rw [hd] at h
    exact Or.inr ⟨d.nullable_of_tokens_eq_nil hd, h⟩
  | cons y ys =>
    rw [hd] at h
    obtain ⟨rfl, -⟩ := List.cons.inj h
    exact Or.inl ⟨ys, rfl⟩

theorem mem_first (d : Derivation G) {z : Lexeme} {xs : List Lexeme} (h : d.tokens = z :: xs) :
    z.token.terminal ∈ G.first := by
  induction d generalizing xs with
  | token y hy =>
    obtain ⟨rfl, -⟩ := List.cons.inj h
    exact hy ▸ List.mem_singleton_self _
  | absent | manyNil | moreNil => cases h
  | seq d e ihd ihe =>
    rcases tokens_append_eq_cons h with ⟨ys, hd⟩ | ⟨hnull, he⟩
    · exact List.mem_append_left _ (ihd hd)
    · exact List.mem_append_right _ ((if_pos hnull).symm ▸ ihe he)
  | left d ih => exact List.mem_append_left _ (ih h)
  | right d ih => exact List.mem_append_right _ (ih h)
  | present d ih => exact ih h
  | manyCons d ds ihd ihds =>
    rcases tokens_append_eq_cons h with ⟨ys, hd⟩ | ⟨-, hds⟩
    · exact ihd hd
    · exact ihds hds
  | moreCons c d ds ihc ihd ihds =>
    rcases tokens_append_eq_cons h with ⟨ys, hc⟩ | ⟨hnull, h⟩
    · exact List.mem_append_left _ (ihc hc)
    · rcases tokens_append_eq_cons h with ⟨ys, hd⟩ | ⟨-, hds⟩
      · exact List.mem_append_right _ ((if_pos hnull).symm ▸ ihd hd)
      · exact ihds hds
  | moreLast c ih => exact List.mem_append_left _ (ih h)
  | spanned d ih => exact ih h
  | block d ih => exact ih h

/-- Where a part begins, or what follows it if it is no token, nothing of `ts` stands. -/
theorem clear (d : Derivation G) {ts : List Terminal} {rest : List Lexeme}
    (hfirst : ∀ t ∈ G.first, t ∉ ts) (hrest : G.nullable = true → Clear ts rest) :
    Clear ts (d.tokens ++ rest) := by
  cases hd : d.tokens with
  | nil => exact hrest (d.nullable_of_tokens_eq_nil hd)
  | cons x xs => exact clear_cons.2 (hfirst _ (d.mem_first hd))

theorem clear_of_nullable_eq_false (d : Derivation G) {ts : List Terminal} {rest : List Lexeme}
    (hfirst : ∀ t ∈ G.first, t ∉ ts) (hG : G.nullable = false) : Clear ts (d.tokens ++ rest) :=
  d.clear hfirst fun h => by simp [hG] at h

theorem not_clear (d : Derivation G) {rest : List Lexeme} (hG : G.nullable = false) :
    ¬ Clear G.first (d.tokens ++ rest) := by
  intro hclear
  cases hd : d.tokens with
  | nil => exact d.tokens_ne_nil hG hd
  | cons x xs =>
    rw [hd, List.cons_append, clear_cons] at hclear
    exact hclear (d.mem_first hd)

theorem eager_seq {f : α → β → γ} {x : Grammar α} {y : Grammar β} {d : Derivation x}
    {e : Derivation y} (hapart : ∀ t ∈ y.first, t ∉ x.further) (hd : d.Eager) (he : e.Eager) :
    (seq (f := f) d e).Eager := by
  have hclear : Clear x.further (e.tokens ++ []) := e.clear hapart fun _ => clear_nil
  exact ⟨hd, he, by rwa [List.append_nil] at hclear⟩

/-! ## Repetitions -/

theorem many_induction {f : α → β → β} {b : β} {x : Grammar α}
    {motive : Derivation (many f b x) → Prop} (nil : motive manyNil)
    (cons : ∀ d ds, motive ds → motive (manyCons d ds)) : ∀ ds, motive ds
  | manyNil => nil
  | manyCons d ds => cons d ds (many_induction nil cons ds)

theorem more_induction {f : α → β → β} {b : β} {s : Grammar γ} {x : Grammar α}
    {motive : Derivation (more true f b s x) → Prop} (nil : motive moreNil)
    (cons : ∀ c d ds, motive ds → motive (moreCons c d ds)) (last : ∀ c, motive (moreLast c)) :
    ∀ ds, motive ds
  | moreNil => nil
  | moreCons c d ds => cons c d ds (more_induction nil cons last ds)
  | moreLast c => last c

/-! ## Newlines at the end -/

theorem eager_newlines (ns : Derivation newlines) : ns.Eager := by
  induction ns using many_induction with
  | nil => trivial
  | cons n ns ih =>
    cases n with
    | token => exact ⟨trivial, ih⟩

theorem exists_newlines (ns ns' : Derivation newlines) :
    ∃ e : Derivation newlines, e.tokens = ns.tokens ++ ns'.tokens := by
  induction ns using many_induction with
  | nil => exact ⟨ns', rfl⟩
  | cons n ns ih =>
    obtain ⟨e, he⟩ := ih
    exact ⟨manyCons n e, by simp only [tokens, he, List.append_assoc]⟩

end Derivation

namespace Grammar

/-- It can also take the newlines behind it, and means the same. -/
def Absorbs (x : Grammar α) : Prop :=
  ∀ (d : Derivation x) (ns : Derivation newlines), ∃ e : Derivation x,
    e.tokens = d.tokens ++ ns.tokens ∧ (∀ size, e.value size = d.value size) ∧ (d.Eager → e.Eager)

variable {x : Grammar α}

theorem absorbs_more {f : α → β → β} {b : β} : (more true f b (many1 newline) x).Absorbs := by
  intro ds ns'
  induction ds using Derivation.more_induction with
  | nil =>
    cases ns' with
    | manyNil => exact ⟨.moreNil, rfl, fun _ => rfl, id⟩
    | manyCons n ns =>
      refine ⟨.moreLast (.seq n ns), rfl, fun _ => rfl, fun _ => ?_⟩
      exact ⟨by cases n; trivial, ns.eager_newlines, clear_of_nil⟩
  | cons c d ds ih =>
    obtain ⟨e, he, hvalue, heager⟩ := ih
    refine ⟨.moreCons c d e, ?_, fun size => ?_, fun h => ⟨h.1, h.2.1, heager h.2.2⟩⟩
    · simp only [Derivation.tokens, he, List.append_assoc]
    · simp only [Derivation.value, hvalue]
  | last c =>
    cases c with
    | seq n ns =>
      obtain ⟨e, he⟩ := Derivation.exists_newlines ns ns'
      refine ⟨.moreLast (.seq n e), ?_, fun _ => rfl, fun h => ⟨h.1, e.eager_newlines, clear_of_nil⟩⟩
      simp only [Derivation.tokens, he, List.append_assoc]

theorem absorbs_lines (hx : x.nullable = false) (hfirst : .newline ∉ x.first)
    (hfurther : .newline ∉ x.further) :
    (newlines.before (separated true (many1 newline) x)).Absorbs := by
  intro d ns'
  cases d with
  | seq ns d =>
    cases d with
    | absent =>
      obtain ⟨e, he⟩ := Derivation.exists_newlines ns ns'
      refine ⟨.seq e .absent, ?_, fun _ => rfl, fun _ => ⟨e.eager_newlines, trivial, clear_nil⟩⟩
      simp only [Derivation.tokens, he, List.append_nil]
    | present d =>
      cases d with
      | seq d ds =>
        obtain ⟨e, he, hvalue, heager⟩ := absorbs_more ds ns'
        refine ⟨.seq ns (.present (.seq d e)), ?_, fun size => ?_, fun h => ?_⟩
        · simp only [Derivation.tokens, he, List.append_assoc]
        · simp only [Derivation.value, hvalue]
        · obtain ⟨hns, ⟨hd, hds, -⟩, -⟩ := h
          refine ⟨hns, Derivation.eager_seq ?_ hd (heager hds), ?_⟩
          · exact fun t ht => (List.mem_singleton.1 ht) ▸ hfurther
          · exact d.clear_of_nullable_eq_false
              (fun t ht htn => hfirst (List.mem_singleton.1 htn ▸ ht)) hx

/-! ## Predictive grammars -/

/-- Which part a token belongs to is seen from its class; newlines behind what can take them belong
there. -/
inductive Predictive : {α : Type} → Grammar α → Prop where
  | token {α : Type} {f : Lexeme → α} {t : Terminal} : Predictive (.token f t)
  | seq {α β γ : Type} {f : α → β → γ} {x : Grammar α} {y : Grammar β} (hx : x.Predictive)
      (hy : y.Predictive) (hapart : ∀ t ∈ y.first, t ∉ x.further) : Predictive (.seq f x y)
  | upTo {α : Type} {x : Grammar α} (hx : x.Predictive) (habsorbs : x.Absorbs)
      (hfurther : .newline ∈ x.further) : Predictive (.seq (fun a _ => a) x newlines)
  | alt {α : Type} {x y : Grammar α} (hx : x.Predictive) (hy : y.Predictive)
      (hxnull : x.nullable = false) (hynull : y.nullable = false)
      (hapart : ∀ t ∈ y.first, t ∉ x.first) : Predictive (.alt x y)
  | optional {α : Type} {a : α} {x : Grammar α} (hx : x.Predictive) (hnull : x.nullable = false) :
      Predictive (.optional a x)
  | many {α β : Type} {f : α → β → β} {b : β} {x : Grammar α} (hx : x.Predictive)
      (hnull : x.nullable = false) (hapart : ∀ t ∈ x.first, t ∉ x.further) :
      Predictive (.many f b x)
  | more {α β γ : Type} {trailing : Bool} {f : α → β → β} {b : β} {s : Grammar γ}
      {x : Grammar α} (hs : s.Predictive) (hx : x.Predictive) (hsnull : s.nullable = false)
      (hxnull : x.nullable = false) (hitem : ∀ t ∈ x.first, t ∉ s.further)
      (hround : ∀ t ∈ s.first, t ∉ x.further) : Predictive (.more trailing f b s x)
  | spanned {α β : Type} {f : α → Span → β} {x : Grammar α} (hx : x.Predictive)
      (hnull : x.nullable = false) : Predictive (.spanned f x)
  | block {α : Type} {f : Block → α} : Predictive (.block f)

/-- Is it predictive, without exception? -/
def isLL1 : {α : Type} → Grammar α → Bool
  | _, .token _ _ => true
  | _, .seq _ x y => x.isLL1 && y.isLL1 && y.first.all (· ∉ x.further)
  | _, .alt x y =>
    x.isLL1 && y.isLL1 && !x.nullable && !y.nullable && y.first.all (· ∉ x.first)
  | _, .optional _ x => x.isLL1 && !x.nullable
  | _, .many _ _ x => x.isLL1 && !x.nullable && x.first.all (· ∉ x.further)
  | _, .more _ _ _ s x => s.isLL1 && x.isLL1 && !s.nullable && !x.nullable &&
      x.first.all (· ∉ s.further) && s.first.all (· ∉ x.further)
  | _, .spanned _ x => x.isLL1 && !x.nullable
  | _, .block _ => true

theorem predictive_of_isLL1 : {α : Type} → (G : Grammar α) → G.isLL1 = true → G.Predictive
  | _, .token _ _, _ => .token
  | _, .seq _ x y, h => by
    simp only [isLL1, Bool.and_eq_true, List.all_eq_true, decide_eq_true_eq] at h
    exact .seq (predictive_of_isLL1 x h.1.1) (predictive_of_isLL1 y h.1.2) h.2
  | _, .alt x y, h => by
    simp only [isLL1, Bool.and_eq_true, Bool.not_eq_true', List.all_eq_true, decide_eq_true_eq] at h
    obtain ⟨⟨⟨⟨hx, hy⟩, hxnull⟩, hynull⟩, hapart⟩ := h
    exact .alt (predictive_of_isLL1 x hx) (predictive_of_isLL1 y hy) hxnull hynull hapart
  | _, .optional _ x, h => by
    simp only [isLL1, Bool.and_eq_true, Bool.not_eq_true'] at h
    exact .optional (predictive_of_isLL1 x h.1) h.2
  | _, .many _ _ x, h => by
    simp only [isLL1, Bool.and_eq_true, Bool.not_eq_true', List.all_eq_true, decide_eq_true_eq] at h
    exact .many (predictive_of_isLL1 x h.1.1) h.1.2 h.2
  | _, .more _ _ _ s x, h => by
    simp only [isLL1, Bool.and_eq_true, Bool.not_eq_true', List.all_eq_true, decide_eq_true_eq] at h
    obtain ⟨⟨⟨⟨⟨hs, hx⟩, hsnull⟩, hxnull⟩, hitem⟩, hround⟩ := h
    exact .more (predictive_of_isLL1 s hs) (predictive_of_isLL1 x hx) hsnull hxnull hitem hround
  | _, .spanned _ x, h => by
    simp only [isLL1, Bool.and_eq_true, Bool.not_eq_true'] at h
    exact .spanned (predictive_of_isLL1 x h.1) h.2
  | _, .block _, _ => .block

theorem predictive_newlines : newlines.Predictive := predictive_of_isLL1 _ (by decide)

theorem Predictive.of_seq {f : α → β → γ} {y : Grammar β} (h : (Grammar.seq f x y).Predictive) :
    x.Predictive ∧ y.Predictive := by
  cases h with
  | seq hx hy => exact ⟨hx, hy⟩
  | upTo hx => exact ⟨hx, predictive_newlines⟩

theorem predictive_lines (h : x.Predictive) (hx : x.nullable = false) (hfirst : .newline ∉ x.first)
    (hfurther : .newline ∉ x.further) : (lines x).Predictive := by
  have hmany1 : (many1 newline).Predictive := predictive_of_isLL1 _ (by decide)
  refine .upTo (.seq predictive_newlines (.optional (.seq h (.more hmany1 h rfl hx ?_ ?_) ?_) ?_) ?_)
    (absorbs_lines hx hfirst hfurther) ?_
  · exact fun t ht htn => hfirst (List.mem_singleton.1 htn ▸ ht)
  · exact fun t ht => (List.mem_singleton.1 ht) ▸ hfurther
  · exact fun t ht => (List.mem_singleton.1 ht) ▸ hfurther
  · simp [nullable, hx]
  · rw [first, first_seq hx]
    exact fun t ht htn => hfirst (List.mem_singleton.1 htn ▸ ht)
  · simp [further, nullable, first]

end Grammar

namespace Form

open Grammar

theorem predictive_lines_stmt : (lines stmt).Predictive :=
  predictive_lines (predictive_of_isLL1 _ (by decide +kernel)) rfl (by decide +kernel)
    (by decide +kernel)

theorem predictive_lines_func : (lines func).Predictive :=
  predictive_lines (predictive_of_isLL1 _ (by decide +kernel)) rfl (by decide +kernel)
    (by decide +kernel)

theorem predictive_block : block.Predictive :=
  .spanned (.seq (.seq .token predictive_lines_stmt fun _ _ => List.not_mem_nil) .token
    (by decide +kernel)) rfl

end Form

/-! ## No two eager derivations -/

namespace Derivation

open Grammar

section

variable {x : Grammar α} {rest rest' : List Lexeme}

/-- What the first part might have gone on with does not stand next. -/
theorem clear_of_seq {f : α → β → γ} {y : Grammar β} (e : Derivation y)
    (he : Clear x.further e.tokens) (hrest : Clear (Grammar.seq f x y).further rest) :
    Clear x.further (e.tokens ++ rest) := by
  cases hnil : e.tokens with
  | nil => exact (clear_further_seq.1 hrest).2 (e.nullable_of_tokens_eq_nil hnil)
  | cons z zs => exact clear_cons.2 (clear_cons.1 (hnil ▸ he))

theorem left_ne_right {y : Grammar α} {d : Derivation x} {e : Derivation y}
    (hx : x.nullable = false) (hy : y.nullable = false) (hapart : ∀ t ∈ y.first, t ∉ x.first) :
    d.tokens ++ rest ≠ e.tokens ++ rest' :=
  fun h => d.not_clear hx (h ▸ e.clear_of_nullable_eq_false hapart hy)

/-- An item that stands next would have been read. -/
theorem ne_append (d : Derivation x) {ts : List Lexeme} (hx : x.nullable = false)
    (hrest : Clear x.first rest) : rest ≠ d.tokens ++ ts :=
  fun h => d.not_clear hx (h ▸ hrest)

end

/-- An eager derivation is found in what is left of the tokens, if nothing follows that might have
been read further. -/
theorem unique {G : Grammar α} {d d' : Derivation G} {rest rest' : List Lexeme}
    (hG : G.Predictive) (hd : d.Eager) (hd' : d'.Eager)
    (h : d.tokens ++ rest = d'.tokens ++ rest') (hrest : Clear G.further rest)
    (hrest' : Clear G.further rest') : d = d' := by
  induction d generalizing rest rest' with
  | token x hx =>
    cases d' with
    | token x' hx' =>
      obtain ⟨rfl, -⟩ := List.cons.inj h
      rfl
  | seq d e ihd ihe =>
    obtain ⟨hx, hy⟩ := hG.of_seq
    cases d' with
    | seq d' e' =>
      simp only [tokens, List.append_assoc] at h
      obtain rfl := ihd hx hd.1 hd'.1 h (e.clear_of_seq hd.2.2 hrest)
        (e'.clear_of_seq hd'.2.2 hrest')
      obtain rfl := ihe hy hd.2.1 hd'.2.1 (List.append_cancel_left h) (clear_further_seq.1 hrest).1
        (clear_further_seq.1 hrest').1
      rfl
  | left d ih =>
    cases hG with
    | alt hx hy hxnull hynull hapart =>
      cases d' with
      | left d' =>
        rw [ih hx hd hd' h (clear_further_alt.1 hrest).1 (clear_further_alt.1 hrest').1]
      | right d' => exact absurd h (left_ne_right (d := d) (e := d') hxnull hynull hapart)
  | right d ih =>
    cases hG with
    | alt hx hy hxnull hynull hapart =>
      cases d' with
      | left d' => exact absurd h.symm (left_ne_right (d := d') (e := d) hxnull hynull hapart)
      | right d' =>
        rw [ih hy hd hd' h (clear_further_alt.1 hrest).2 (clear_further_alt.1 hrest').2]
  | absent =>
    cases hG with
    | optional hx hnull =>
      cases d' with
      | absent => rfl
      | present d' => exact absurd h (d'.ne_append hnull (clear_further_optional.1 hrest).1)
  | present d ih =>
    cases hG with
    | optional hx hnull =>
      cases d' with
      | absent => exact absurd h.symm (d.ne_append hnull (clear_further_optional.1 hrest').1)
      | present d' =>
        rw [ih hx hd hd' h (clear_further_optional.1 hrest).2 (clear_further_optional.1 hrest').2]
  | manyNil =>
    cases hG with
    | many hx hnull hapart =>
      cases d' with
      | manyNil => rfl
      | manyCons d' ds' =>
        simp only [tokens, List.append_assoc] at h
        exact absurd h (d'.ne_append hnull (clear_further_many.1 hrest).1)
  | manyCons d ds ihd ihds =>
    have hmany := hG
    cases hG with
    | many hx hnull hapart =>
      cases d' with
      | manyNil =>
        simp only [tokens, List.append_assoc] at h
        exact absurd h.symm (d.ne_append hnull (clear_further_many.1 hrest').1)
      | manyCons d' ds' =>
        simp only [tokens, List.append_assoc] at h
        obtain rfl := ihd hx hd.1 hd'.1 h
          (ds.clear hapart fun _ => (clear_further_many.1 hrest).2)
          (ds'.clear hapart fun _ => (clear_further_many.1 hrest').2)
        obtain rfl := ihds hmany hd.2 hd'.2 (List.append_cancel_left h) hrest hrest'
        rfl
  | moreNil =>
    cases hG with
    | more hs hx hsnull =>
      have hclear := (clear_further_more.1 hrest).1.1
      cases d' with
      | moreNil => rfl
      | moreCons c' d' ds' =>
        simp only [tokens, List.append_assoc] at h
        exact absurd h (c'.ne_append hsnull hclear)
      | moreLast c' => exact absurd h (c'.ne_append hsnull hclear)
  | moreCons c d ds ihc ihd ihds =>
    have hmore := hG
    cases hG with
    | more hs hx hsnull hxnull hitem hround =>
      cases d' with
      | moreNil =>
        simp only [tokens, List.append_assoc] at h
        exact absurd h.symm (c.ne_append hsnull (clear_further_more.1 hrest').1.1)
      | moreCons c' d' ds' =>
        simp only [tokens, List.append_assoc] at h
        obtain rfl := ihc hs hd.1 hd'.1 h (d.clear_of_nullable_eq_false hitem hxnull)
          (d'.clear_of_nullable_eq_false hitem hxnull)
        obtain rfl := ihd hx hd.2.1 hd'.2.1 (List.append_cancel_left h)
          (ds.clear (first_more hsnull ▸ hround) fun _ => (clear_further_more.1 hrest).1.2)
          (ds'.clear (first_more hsnull ▸ hround) fun _ => (clear_further_more.1 hrest').1.2)
        obtain rfl := ihds hmore hd.2.2 hd'.2.2
          (List.append_cancel_left (List.append_cancel_left h)) hrest hrest'
        rfl
      | moreLast c' =>
        simp only [tokens, List.append_assoc] at h
        obtain ⟨hsep, hnext⟩ := (clear_further_more.1 hrest').2 rfl
        obtain rfl := ihc hs hd.1 hd' h (d.clear_of_nullable_eq_false hitem hxnull) hsep
        exact absurd (List.append_cancel_left h).symm (d.ne_append hxnull hnext)
  | moreLast c ihc =>
    cases hG with
    | more hs hx hsnull hxnull hitem =>
      obtain ⟨hsep, hnext⟩ := (clear_further_more.1 hrest).2 rfl
      cases d' with
      | moreNil => exact absurd h.symm (c.ne_append hsnull (clear_further_more.1 hrest').1.1)
      | moreCons c' d' ds' =>
        simp only [tokens, List.append_assoc] at h
        obtain rfl := ihc hs hd hd'.1 h hsep (d'.clear_of_nullable_eq_false hitem hxnull)
        exact absurd (List.append_cancel_left h) (d'.ne_append hxnull hnext)
      | moreLast c' => rw [ihc hs hd hd' h hsep ((clear_further_more.1 hrest').2 rfl).1]
  | spanned d ih =>
    cases hG with
    | spanned hx =>
      cases d' with
      | spanned d' => rw [ih hx hd hd' h hrest hrest']
  | block d ih =>
    cases d' with
    | block d' => rw [ih Form.predictive_block hd hd' h clear_of_nil clear_of_nil]

/-! ## Every derivation can be made eager -/

theorem exists_eager {G : Grammar α} (hG : G.Predictive) (d : Derivation G) :
    ∃ e : Derivation G, e.Eager ∧ e.tokens = d.tokens ∧ ∀ size, e.value size = d.value size := by
  induction d with
  | token x hx => exact ⟨token x hx, trivial, rfl, fun _ => rfl⟩
  | seq d e ihd ihe =>
    cases hG with
    | seq hx hy hapart =>
      obtain ⟨d', hd', hdtokens, hdvalue⟩ := ihd hx
      obtain ⟨e', he', hetokens, hevalue⟩ := ihe hy
      refine ⟨seq d' e', eager_seq hapart hd' he', ?_, fun size => ?_⟩
      · simp only [tokens, hdtokens, hetokens]
      · simp only [value, hdvalue, hevalue]
    | upTo hx habsorbs =>
      obtain ⟨d', hd', hdtokens, hdvalue⟩ := ihd hx
      obtain ⟨d'', htokens, hvalue, heager⟩ := habsorbs d' e
      refine ⟨seq d'' manyNil, ⟨heager hd', trivial, clear_nil⟩, ?_, fun size => ?_⟩
      · simp only [tokens, htokens, hdtokens, List.append_nil]
      · simp only [value, hvalue, hdvalue]
  | left d ih =>
    cases hG with
    | alt hx =>
      obtain ⟨e, he, h⟩ := ih hx
      exact ⟨left e, he, h⟩
  | right d ih =>
    cases hG with
    | alt _ hy =>
      obtain ⟨e, he, h⟩ := ih hy
      exact ⟨right e, he, h⟩
  | absent => exact ⟨absent, trivial, rfl, fun _ => rfl⟩
  | present d ih =>
    cases hG with
    | optional hx =>
      obtain ⟨e, he, h⟩ := ih hx
      exact ⟨present e, he, h⟩
  | manyNil => exact ⟨manyNil, trivial, rfl, fun _ => rfl⟩
  | manyCons d ds ihd ihds =>
    have hmany := hG
    cases hG with
    | many hx =>
      obtain ⟨e, he, htokens, hvalue⟩ := ihd hx
      obtain ⟨es, hes, htokens', hvalue'⟩ := ihds hmany
      refine ⟨manyCons e es, ⟨he, hes⟩, ?_, fun size => ?_⟩
      · simp only [tokens, htokens, htokens']
      · simp only [value, hvalue, hvalue']
  | moreNil => exact ⟨moreNil, trivial, rfl, fun _ => rfl⟩
  | moreCons c d ds ihc ihd ihds =>
    have hmore := hG
    cases hG with
    | more hs hx =>
      obtain ⟨c', hc', hctokens, -⟩ := ihc hs
      obtain ⟨e, he, htokens, hvalue⟩ := ihd hx
      obtain ⟨es, hes, htokens', hvalue'⟩ := ihds hmore
      refine ⟨moreCons c' e es, ⟨hc', he, hes⟩, ?_, fun size => ?_⟩
      · simp only [tokens, hctokens, htokens, htokens']
      · simp only [value, hvalue, hvalue']
  | moreLast c ihc =>
    cases hG with
    | more hs =>
      obtain ⟨c', hc', hctokens, -⟩ := ihc hs
      exact ⟨moreLast c', hc', hctokens, fun _ => rfl⟩
  | spanned d ih =>
    cases hG with
    | spanned hx =>
      obtain ⟨e, he, htokens, hvalue⟩ := ih hx
      refine ⟨spanned e, he, htokens, fun size => ?_⟩
      simp only [value, htokens, hvalue]
  | block d ih =>
    obtain ⟨e, he, htokens, hvalue⟩ := ih Form.predictive_block
    refine ⟨block e, he, htokens, fun size => ?_⟩
    simp only [value, hvalue]

end Derivation

end AsyncOrder.Source
