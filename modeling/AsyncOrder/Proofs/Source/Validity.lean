import AsyncOrder.Proofs.Source.Acceptance
import AsyncOrder.Proofs.Source.Tokens
import AsyncOrder.Proofs.Token.Lexing

/-!
# What is read can be spelled

    Gives n G P      what G derives from at most n tokens, all valid, means an a with P a
    Spelled ts       all of the tokens are valid

What is derived takes its names and numbers from the tokens, so the tokens that spell a tree which
has been read are valid (`spelled_of_parse`).
-/

namespace AsyncOrder.Source

variable {α β γ : Type}

/-! ## Spelled trees -/

def Spelled (ts : List Token) : Prop := ∀ t ∈ ts, t.Valid

/-- A name that may stand behind `%`. -/
def Name.Valid (n : Name) : Prop := (Token.value n.text).Valid

section spelled

variable {t : Token} {ts us : List Token}

@[simp]
theorem spelled_nil : Spelled [] := nofun

@[simp]
theorem spelled_cons : Spelled (t :: ts) ↔ t.Valid ∧ Spelled ts := List.forall_mem_cons

@[simp]
theorem spelled_append : Spelled (ts ++ us) ↔ Spelled ts ∧ Spelled us := List.forall_mem_append

@[simp]
theorem valid_keyword (k : Keyword) : (Token.keyword k).Valid := trivial

@[simp]
theorem valid_mark (m : Mark) : (Token.mark m).Valid := trivial

@[simp]
theorem valid_newline : Token.newline.Valid := trivial

@[simp]
theorem valid_value (n : Name) : (Token.value n.text).Valid ↔ n.Valid := Iff.rfl

@[simp]
theorem spelled_commas {item : α → List Token} {as : List α} :
    Spelled (commas item as) ↔ ∀ a ∈ as, Spelled (item a) := by
  cases as with
  | nil => simp [commas]
  | cons a as =>
    rw [commas, spelled_append, List.forall_mem_cons]
    refine and_congr_right fun _ => ⟨fun h b hb t ht => ?_, fun h t ht => ?_⟩
    · exact h t (List.mem_flatMap.2 ⟨b, hb, List.mem_cons_of_mem _ ht⟩)
    · obtain ⟨b, hb, ht⟩ := List.mem_flatMap.1 ht
      rcases List.mem_cons.1 ht with rfl | ht
      · trivial
      · exact h b hb t ht

@[simp]
theorem spelled_name (n : Name) : Spelled n.tokens ↔ n.Valid := by
  simp [Name.tokens]

theorem spelled_names {ns : List Name} :
    Spelled (commas Name.tokens ns) ↔ ∀ n ∈ ns, n.Valid := by
  simp

@[simp]
theorem spelled_parens : Spelled (parens ts) ↔ Spelled ts := by
  simp [parens]

@[simp]
theorem spelled_brackets {ns : List Name} : Spelled (brackets ns) ↔ ∀ n ∈ ns, n.Valid := by
  cases ns with
  | nil => simp [brackets]
  | cons n ns =>
    rw [brackets, spelled_cons, spelled_append, spelled_names]
    simp

@[simp]
theorem spelled_clause {k : Keyword} {item : α → List Token} {as : List α} :
    Spelled (clause k item as) ↔ ∀ a ∈ as, Spelled (item a) := by
  cases as with
  | nil => simp [clause]
  | cons a as =>
    rw [clause, spelled_cons, spelled_parens, spelled_commas]
    simp

@[simp]
theorem spelled_results {ns : List Name} : Spelled (resultTokens ns) ↔ ∀ n ∈ ns, n.Valid := by
  cases ns with
  | nil => simp [resultTokens]
  | cons n ns =>
    rw [resultTokens, spelled_append, spelled_names]
    simp

end spelled

/-! ## What valid tokens mean -/

open Grammar

def Gives (n : Nat) (G : Grammar α) (P : α → Prop) : Prop :=
  ∀ (size : Nat) (d : Derivation G), d.tokens.length ≤ n → (∀ x ∈ d.tokens, x.token.Valid) →
    P (d.value size)

section

variable {n : Nat} {x : Grammar α} {y : Grammar β} {s : Grammar γ} {P : α → Prop} {Q : β → Prop}
  {R : γ → Prop}

theorem gives_token {f : Lexeme → α} {t : Terminal}
    (h : ∀ x : Lexeme, x.token.Valid → x.token.terminal = t → P (f x)) : Gives n (token f t) P
  | _, .token x hx, _, hvalid => h x (hvalid x List.mem_cons_self) hx

theorem gives_something (x : Grammar α) : Gives n x fun _ => True := fun _ _ _ _ => trivial

namespace Gives

theorem seq {f : α → β → γ} (hx : Gives n x P) (hy : Gives n y Q)
    (h : ∀ a b, P a → Q b → R (f a b)) : Gives n (.seq f x y) R := by
  rintro size (_ | ⟨d, e⟩) hlen hvalid
  simp only [Derivation.tokens, List.length_append, List.forall_mem_append] at hlen hvalid
  exact h _ _ (hx size d (by omega) hvalid.1) (hy size e (by omega) hvalid.2)

theorem before (hy : Gives n y Q) : Gives n (x.before y) Q := by
  rintro size (_ | ⟨d, e⟩) hlen hvalid
  simp only [Derivation.tokens, List.length_append, List.forall_mem_append] at hlen hvalid
  exact hy size e (by omega) hvalid.2

theorem upTo (hx : Gives n x P) : Gives n (x.upTo y) P := by
  rintro size (_ | ⟨d, e⟩) hlen hvalid
  simp only [Derivation.tokens, List.length_append, List.forall_mem_append] at hlen hvalid
  exact hx size d (by omega) hvalid.1

theorem and (hx : Gives n x P) (hy : Gives n y Q) : Gives n (x.and y) fun p => P p.1 ∧ Q p.2 :=
  hx.seq hy fun _ _ ha hb => ⟨ha, hb⟩

theorem between {opening closing : Mark} (hx : Gives n x P) : Gives n (between opening closing x) P :=
  hx.before.upTo

/-- A part that is some token leaves fewer. -/
theorem before_lt (hx : x.nullable = false) (hy : Gives n y Q) : Gives (n + 1) (x.before y) Q := by
  rintro size (_ | ⟨d, e⟩) hlen hvalid
  simp only [Derivation.tokens, List.length_append, List.forall_mem_append] at hlen hvalid
  have hpos := d.length_pos hx
  exact hy size e (by omega) hvalid.2

theorem alt {x' : Grammar α} (hx : Gives n x P) (hx' : Gives n x' P) : Gives n (.alt x x') P
  | size, .left d => hx size d
  | size, .right d => hx' size d

theorem choice {xs : List (Grammar α)} (h : ∀ z ∈ x :: xs, Gives n z P) :
    Gives n (choice x xs) P := by
  induction xs generalizing x with
  | nil => exact h x List.mem_cons_self
  | cons x' xs ih =>
    rw [List.forall_mem_cons] at h
    exact h.1.alt (ih h.2)

theorem optional {a : α} (hx : Gives n x P) (ha : P a) : Gives n (.optional a x) P
  | _, .absent, _, _ => ha
  | size, .present d, hlen, hvalid => hx size d hlen hvalid

theorem spanned {f : α → Span → β} (hx : Gives n x P) (h : ∀ a span, P a → Q (f a span)) :
    Gives n (.spanned f x) Q
  | size, .spanned d, hlen, hvalid => h _ _ (hx size d hlen hvalid)

theorem map {f : α → β} (hx : Gives n x P) (h : ∀ a, P a → Q (f a)) : Gives n (x.map f) Q :=
  hx.spanned fun a _ => h a

theorem body {P : Block → Prop} (h : Gives n Form.block P) : Gives n Form.body P
  | size, .block d => h size d

/-! ### Lists -/

theorem more {trailing : Bool} {f : α → β → β} {b : β} (hx : Gives n x P) (hb : Q b)
    (h : ∀ a b, P a → Q b → Q (f a b)) : Gives n (more trailing f b s x) Q
  | _, .moreNil, _, _ => hb
  | size, .moreCons c d ds, hlen, hvalid => by
    simp only [Derivation.tokens, List.length_append, List.forall_mem_append] at hlen hvalid
    exact h _ _ (hx size d (by omega) hvalid.2.1) (more hx hb h size ds (by omega) hvalid.2.2)
  | _, .moreLast _, _, _ => hb

theorem separated1 {trailing : Bool} (hx : Gives n x P) :
    Gives n (separated1 trailing s x) fun as => ∀ a ∈ as, P a := by
  have hcons : ∀ a as, P a → (∀ a ∈ as, P a) → ∀ a' ∈ a :: as, P a' :=
    fun _ _ ha has => List.forall_mem_cons.2 ⟨ha, has⟩
  exact hx.seq (hx.more (List.forall_mem_nil P) hcons) hcons

theorem separated {trailing : Bool} (hx : Gives n x P) :
    Gives n (separated trailing s x) fun as => ∀ a ∈ as, P a :=
  hx.separated1.optional (List.forall_mem_nil P)

theorem lines (hx : Gives n x P) : Gives n (lines x) fun as => ∀ a ∈ as, P a :=
  hx.separated.before.upTo

end Gives

end

/-! ## Names, lists, accesses, types -/

section

variable {n : Nat}

theorem gives_value : Gives n Form.value Name.Valid := by
  refine gives_token fun x hx ht => ?_
  obtain ⟨t, span⟩ := x
  cases t with
  | value name => exact hx
  | _ => cases ht

theorem gives_symbol : Gives n Form.symbol fun m => (Token.symbol m.text).Valid := by
  refine gives_token fun x hx ht => ?_
  obtain ⟨t, span⟩ := x
  cases t with
  | symbol name => exact hx
  | _ => cases ht

theorem gives_ident : Gives n Form.ident fun m => (Token.ident m.text).Valid := by
  refine gives_token fun x hx ht => ?_
  obtain ⟨t, span⟩ := x
  cases t with
  | ident name => exact hx
  | _ => cases ht

theorem gives_int : Gives n Form.int fun i => (Token.int i).Valid := by
  refine gives_token fun x hx ht => ?_
  obtain ⟨t, span⟩ := x
  cases t with
  | int i => exact hx
  | _ => cases ht

theorem gives_values : Gives n Form.values fun ns => ∀ m ∈ ns, m.Valid := gives_value.separated

theorem gives_parenthesized_values :
    Gives n (Form.parenthesized Form.values) fun ns => ∀ m ∈ ns, m.Valid :=
  gives_values.between

theorem gives_bracketed : Gives n Form.bracketed fun ns => ∀ m ∈ ns, m.Valid :=
  gives_values.between.optional (List.forall_mem_nil _)

theorem gives_access : Gives n Form.access fun a => Spelled a.tokens :=
  gives_value.seq gives_bracketed fun base offsets hbase hoffsets => by
    simpa [Access.tokens, hbase] using hoffsets

theorem gives_binding : Gives n Form.binding fun b => Spelled b.tokens :=
  gives_value.upTo.seq gives_value fun inner outer hinner houter => by
    simp [Binding.tokens, hinner, houter]

theorem gives_bindings : Gives n Form.bindings fun bs => ∀ b ∈ bs, Spelled b.tokens :=
  gives_binding.separated.between

theorem gives_typeExpr : Gives n Form.typeExpr fun t => Spelled t.tokens := by
  have hmemref : Gives n Form.memrefType fun t => Spelled t.tokens := by
    refine (gives_int.upTo.and gives_ident).between.before.spanned ?_
    rintro ⟨rank, space⟩ span ⟨hrank, hspace⟩
    simp [TypeExpr.tokens, hrank, hspace]
  refine .alt ((gives_something (word .token)).spanned fun _ _ _ => ?_)
    (.alt ((gives_something (word .index)).spanned fun _ _ _ => ?_) hmemref)
  all_goals simp [TypeExpr.tokens]

theorem gives_param : Gives n Form.param fun p => Spelled p.tokens :=
  gives_value.upTo.seq gives_typeExpr fun name type hname htype => by
    simpa [Param.tokens, hname] using htype

/-! ## Operations -/

theorem gives_binaryOp {k : Keyword} {make : Name → Name → Op}
    (hmake : ∀ a b, a.Valid → b.Valid → Spelled (make a b).tokens) :
    Gives n (Form.binaryOp k make) fun op => Spelled op.tokens :=
  gives_value.before.upTo.seq gives_value hmake

theorem gives_transformOp : Gives n Form.transformOp fun op => Spelled op.tokens :=
  gives_parenthesized_values.before.before.seq gives_parenthesized_values.before
    fun ins outs hins houts => by
      simp only [Op.tokens, spelled_cons, spelled_append, spelled_parens, spelled_names,
        valid_keyword, true_and]
      exact ⟨hins, houts⟩

theorem gives_transferOp : Gives n Form.transferOp fun op => Spelled op.tokens := by
  refine (gives_bracketed.before.and gives_access).upTo.seq gives_access ?_
  rintro ⟨deps, dst⟩ src ⟨hdeps, hdst⟩ hsrc
  simp only [Op.tokens, spelled_cons, spelled_append, spelled_brackets, valid_keyword, valid_mark,
    true_and]
  exact ⟨hdeps, hdst, hsrc⟩

theorem gives_channelOp {k : Keyword} {make : Name → List Name → Access → Op}
    (hmake : ∀ c ns a, (Token.symbol c.text).Valid → (∀ m ∈ ns, m.Valid) → Spelled a.tokens →
      Spelled (make c ns a).tokens) :
    Gives n (Form.channelOp k make) fun op => Spelled op.tokens := by
  refine (gives_symbol.before.and gives_bracketed).seq gives_access ?_
  rintro ⟨channel, deps⟩ buffer ⟨hchannel, hdeps⟩ hbuffer
  exact hmake channel deps buffer hchannel hdeps hbuffer

section

variable (hbody : Gives n Form.body fun b => Spelled b.tokens)
include hbody

theorem gives_computeOp : Gives n Form.computeOp fun op => Spelled op.tokens :=
  gives_bracketed.before.seq hbody fun deps body hdeps hbody => by
    simp only [Op.tokens, spelled_cons, spelled_append, spelled_brackets, valid_keyword, true_and]
    exact ⟨hdeps, hbody⟩

theorem gives_loopOp : Gives n Form.loopOp fun op => Spelled op.tokens := by
  refine ((((((gives_something Form.loopKind).and gives_value).upTo.and gives_value).upTo.and
    gives_value).upTo.and gives_value).and (gives_bindings.before.optional
      (List.forall_mem_nil _))).seq hbody ?_
  rintro ⟨⟨⟨⟨⟨kind, var⟩, lower⟩, upper⟩, step⟩, carried⟩ body
    ⟨⟨⟨⟨⟨-, hvar⟩, hlower⟩, hupper⟩, hstep⟩, hcarried⟩ hbody
  simp only [Op.tokens, spelled_cons, spelled_append, spelled_clause, valid_keyword, valid_mark,
    valid_value, true_and]
  exact ⟨hvar, hlower, hupper, hstep, hcarried, hbody⟩

theorem gives_branchOp : Gives n Form.branchOp fun op => Spelled op.tokens := by
  refine (gives_value.before.and hbody).upTo.seq hbody ?_
  rintro ⟨cond, thenBody⟩ elseBody ⟨hcond, hthen⟩ helse
  simp only [Op.tokens, spelled_cons, spelled_append, valid_keyword, valid_value, true_and]
  exact ⟨hcond, hthen, helse⟩

theorem gives_hierarchyOp : Gives n Form.hierarchyOp fun op => Spelled op.tokens := by
  refine ((((gives_something Form.level).and gives_bracketed).and
    (gives_parenthesized_values.before.optional (List.forall_mem_nil _))).and
    (gives_bindings.before.optional (List.forall_mem_nil _))).seq hbody ?_
  rintro ⟨⟨⟨level, deps⟩, ids⟩, args⟩ body ⟨⟨⟨-, hdeps⟩, hids⟩, hargs⟩ hbody
  simp only [Op.tokens, spelled_cons, spelled_append, spelled_brackets, spelled_clause,
    valid_keyword, true_and]
  exact ⟨hdeps, fun m hm => (spelled_name m).2 (hids m hm), hargs, hbody⟩

theorem gives_op : Gives n Form.op fun op => Spelled op.tokens := by
  have hput : ∀ c ns a, (Token.symbol c.text).Valid → (∀ m ∈ ns, Name.Valid m) →
      Spelled a.tokens → Spelled (Op.put c ns a).tokens := by
    intro c ns a hc hns ha
    simp only [Op.tokens, spelled_cons, spelled_append, spelled_brackets, valid_keyword, true_and]
    exact ⟨hc, hns, ha⟩
  have hget : ∀ c ns a, (Token.symbol c.text).Valid → (∀ m ∈ ns, Name.Valid m) →
      Spelled a.tokens → Spelled (Op.get c ns a).tokens := by
    intro c ns a hc hns ha
    simp only [Op.tokens, spelled_cons, spelled_append, spelled_brackets, valid_keyword, true_and]
    exact ⟨hc, hns, ha⟩
  refine .choice ?_
  simp only [List.forall_mem_cons]
  refine ⟨?_, ?_, ?_, ?_, gives_transformOp, ?_, ?_, ?_, ?_, gives_computeOp hbody,
    gives_transferOp, gives_channelOp hput, gives_channelOp hget, ?_, gives_loopOp hbody,
    gives_branchOp hbody, gives_hierarchyOp hbody, ?_, List.forall_mem_nil _⟩
  · exact gives_int.before.map fun i hi => by simp [Op.tokens, hi]
  · exact gives_typeExpr.before.map fun t ht => by simpa [Op.tokens] using ht
  · exact gives_value.before.map fun a ha => by simp [Op.tokens, ha]
  · exact gives_binaryOp fun a b ha hb => by simp [Op.tokens, ha, hb]
  · exact gives_binaryOp fun a b ha hb => by simp [Op.tokens, ha, hb]
  · exact gives_binaryOp fun a b ha hb => by simp [Op.tokens, ha, hb]
  · exact gives_parenthesized_values.before.map fun ns hns => by simpa [Op.tokens] using hns
  · exact gives_values.before.map fun ns hns => by simpa [Op.tokens] using hns
  · exact gives_bracketed.before.map fun ns hns => by simpa [Op.tokens] using hns
  · exact (gives_something (word .finish)).map fun _ _ => by simp [Op.tokens]

/-! ## Statements and blocks -/

theorem gives_stmt : Gives n Form.stmt fun s => Spelled s.tokens := by
  have hresults : Gives n Form.results fun ns => ∀ m ∈ ns, m.Valid :=
    gives_value.separated1.upTo.optional (List.forall_mem_nil _)
  refine (hresults.and (gives_op hbody)).spanned ?_
  rintro ⟨results, op⟩ span ⟨hresults, hop⟩
  exact spelled_append.2 ⟨spelled_results.2 hresults, hop⟩

end

theorem gives_block (n : Nat) : Gives n Form.block fun b => Spelled b.tokens := by
  induction n with
  | zero =>
    intro size d hlen
    have hpos := d.length_pos rfl
    omega
  | succ n ih =>
    -- the brace is one token, so the blocks of the statements have fewer
    have hlines := (gives_stmt ih.body).lines.before_lt (x := mark .lbrace) rfl
    refine hlines.upTo.spanned fun stmts span hstmts => ?_
    rw [Block.tokens, stmtTokens_eq_flatMap]
    simp only [spelled_cons, spelled_append, spelled_nil, valid_mark, valid_newline, true_and,
      and_true]
    intro t ht
    obtain ⟨s, hs, ht⟩ := List.mem_flatMap.1 ht
    exact spelled_append.2 ⟨hstmts s hs, by simp⟩ t ht

/-! ## Functions and modules -/

theorem gives_func : Gives n Form.func fun f => Spelled f.tokens := by
  refine ((gives_symbol.before.and gives_param.separated.between).and (gives_block n).body).spanned ?_
  rintro ⟨⟨name, params⟩, body⟩ span ⟨⟨hname, hparams⟩, hbody⟩
  simp only [Func.tokens, spelled_cons, spelled_append, spelled_parens, spelled_commas,
    valid_keyword, true_and]
  exact ⟨hname, hparams, hbody⟩

theorem gives_module : Gives n Form.module fun m => ∀ f ∈ m.funcs, Spelled f.tokens :=
  gives_func.lines.spanned fun _ _ h => h

end

/-- A tree that is parsed from a text can be spelled. -/
theorem spelled_of_parse {source : String} {m : Module} {errors : List ParseError}
    (h : parse source = ⟨some m, errors⟩) : ∀ f ∈ m.funcs, Spelled f.tokens := by
  obtain ⟨d, hd, rfl⟩ := parse_module?_eq_some_iff.1 (congrArg Parsed.module? h)
  exact gives_module source.utf8ByteSize d Nat.le.refl (hd ▸ valid_of_lex source)

end AsyncOrder.Source
