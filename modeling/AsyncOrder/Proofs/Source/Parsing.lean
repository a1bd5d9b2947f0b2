import AsyncOrder.Proofs.Source.Acceptance
import AsyncOrder.Proofs.Source.Tokens

/-!
# What the tokens of a tree are read as

    Spells G ts P      wherever tokens ts stand, G derives them, and they mean an a with P a

The rules follow the grammar.  So the tokens of each tree are derived, and mean the tree but for
positions; hence

    lexemes of m.tokens → readModule size lexemes = .ok m', where m'.plain = m.plain

(`readModule_of_tokens`).
-/

namespace AsyncOrder.Source

open Grammar

variable {α β γ : Type}

def Spells (G : Grammar α) (ts : List Token) (P : α → Prop) : Prop :=
  ∀ (size : Nat) (lexemes : List Lexeme), lexemes.map (·.token) = ts →
    ∃ d : Derivation G, d.tokens = lexemes ∧ P (d.value size)

/-! ## Grammars and what spells them -/

section

variable {x : Grammar α} {y : Grammar β} {s : Grammar γ} {ts us : List Token} {P : α → Prop}
  {Q : β → Prop} {R : γ → Prop}

theorem spells_token {f : Lexeme → α} {t : Terminal} {z : Token} (h : z.terminal = t)
    (hP : ∀ l : Lexeme, l.token = z → P (f l)) : Spells (token f t) [z] P := by
  intro size lexemes hlexemes
  obtain ⟨l, rfl, hl⟩ := List.map_eq_singleton_iff.1 hlexemes
  exact ⟨.token l (hl ▸ h), rfl, hP l hl⟩

theorem spells_word (k : Keyword) : Spells (word k) [.keyword k] fun _ => True :=
  spells_token rfl fun _ _ => trivial

theorem spells_mark (m : Mark) : Spells (mark m) [.mark m] fun _ => True :=
  spells_token rfl fun _ _ => trivial

namespace Spells

theorem of_eq (h : Spells x ts P) (heq : us = ts) : Spells x us P := heq ▸ h

theorem seq {f : α → β → γ} (hx : Spells x ts P) (hy : Spells y us Q)
    (h : ∀ a b, P a → Q b → R (f a b)) : Spells (.seq f x y) (ts ++ us) R := by
  intro size lexemes hlexemes
  obtain ⟨ls, ls', rfl, hls, hls'⟩ := List.map_eq_append_iff.1 hlexemes
  obtain ⟨d, rfl, ha⟩ := hx size ls hls
  obtain ⟨e, rfl, hb⟩ := hy size ls' hls'
  exact ⟨.seq d e, rfl, h _ _ ha hb⟩

theorem left {x' : Grammar α} (h : Spells x ts P) : Spells (alt x x') ts P := by
  intro size lexemes hlexemes
  obtain ⟨d, hd⟩ := h size lexemes hlexemes
  exact ⟨.left d, hd⟩

theorem right {x' : Grammar α} (h : Spells x ts P) : Spells (alt x' x) ts P := by
  intro size lexemes hlexemes
  obtain ⟨d, hd⟩ := h size lexemes hlexemes
  exact ⟨.right d, hd⟩

theorem absent {a : α} (h : P a) : Spells (optional a x) [] P := by
  intro size lexemes hlexemes
  obtain rfl := List.map_eq_nil_iff.1 hlexemes
  exact ⟨.absent, rfl, h⟩

theorem present {a : α} (h : Spells x ts P) : Spells (optional a x) ts P := by
  intro size lexemes hlexemes
  obtain ⟨d, hd⟩ := h size lexemes hlexemes
  exact ⟨.present d, hd⟩

theorem manyNil {f : α → β → β} {b : β} (h : Q b) : Spells (many f b x) [] Q := by
  intro size lexemes hlexemes
  obtain rfl := List.map_eq_nil_iff.1 hlexemes
  exact ⟨.manyNil, rfl, h⟩

theorem manyCons {f : α → β → β} {b : β} (hx : Spells x ts P) (hxs : Spells (many f b x) us Q)
    (h : ∀ a b, P a → Q b → Q (f a b)) : Spells (many f b x) (ts ++ us) Q := by
  intro size lexemes hlexemes
  obtain ⟨ls, ls', rfl, hls, hls'⟩ := List.map_eq_append_iff.1 hlexemes
  obtain ⟨d, rfl, ha⟩ := hx size ls hls
  obtain ⟨ds, rfl, hb⟩ := hxs size ls' hls'
  exact ⟨.manyCons d ds, rfl, h _ _ ha hb⟩

theorem moreNil {trailing : Bool} {f : α → β → β} {b : β} (h : Q b) :
    Spells (more trailing f b s x) [] Q := by
  intro size lexemes hlexemes
  obtain rfl := List.map_eq_nil_iff.1 hlexemes
  exact ⟨.moreNil, rfl, h⟩

theorem moreCons {trailing : Bool} {f : α → β → β} {b : β} {vs : List Token} {S : β → Prop}
    (hs : Spells s ts R) (hx : Spells x us P) (hxs : Spells (more trailing f b s x) vs Q)
    (h : ∀ a b, P a → Q b → S (f a b)) :
    Spells (more trailing f b s x) (ts ++ (us ++ vs)) S := by
  intro size lexemes hlexemes
  obtain ⟨ls, ls', rfl, hls, hls'⟩ := List.map_eq_append_iff.1 hlexemes
  obtain ⟨ls', ls'', rfl, hls', hls''⟩ := List.map_eq_append_iff.1 hls'
  obtain ⟨c, rfl, -⟩ := hs size ls hls
  obtain ⟨d, rfl, ha⟩ := hx size ls' hls'
  obtain ⟨ds, rfl, hb⟩ := hxs size ls'' hls''
  exact ⟨.moreCons c d ds, rfl, h _ _ ha hb⟩

theorem moreLast {f : α → β → β} {b : β} (hs : Spells s ts R) (h : Q b) :
    Spells (more true f b s x) ts Q := by
  intro size lexemes hlexemes
  obtain ⟨c, hc, -⟩ := hs size lexemes hlexemes
  exact ⟨.moreLast c, hc, h⟩

theorem spanned {f : α → Span → β} (hx : Spells x ts P) (h : ∀ a span, P a → Q (f a span)) :
    Spells (.spanned f x) ts Q := by
  intro size lexemes hlexemes
  obtain ⟨d, hd, ha⟩ := hx size lexemes hlexemes
  exact ⟨.spanned d, hd, h _ _ ha⟩

theorem body {P : Block → Prop} (h : Spells Form.block ts P) : Spells Form.body ts P := by
  intro size lexemes hlexemes
  obtain ⟨d, hd⟩ := h size lexemes hlexemes
  exact ⟨.block d, hd⟩

/-! ### Combinations -/

theorem map {f : α → β} (hx : Spells x ts P) (h : ∀ a, P a → Q (f a)) : Spells (x.map f) ts Q :=
  hx.spanned fun a _ => h a

theorem and (hx : Spells x ts P) (hy : Spells y us Q) :
    Spells (x.and y) (ts ++ us) fun p => P p.1 ∧ Q p.2 :=
  hx.seq hy fun _ _ ha hb => ⟨ha, hb⟩

theorem before (hx : Spells x ts P) (hy : Spells y us Q) : Spells (x.before y) (ts ++ us) Q :=
  hx.seq hy fun _ _ _ hb => hb

theorem upTo (hx : Spells x ts P) (hy : Spells y us Q) : Spells (x.upTo y) (ts ++ us) P :=
  hx.seq hy fun _ _ ha _ => ha

theorem between (opening closing : Mark) (hx : Spells x ts P) :
    Spells (between opening closing x) (.mark opening :: (ts ++ [.mark closing])) P :=
  ((spells_mark opening).before hx).upTo (spells_mark closing)

theorem parenthesized (hx : Spells x ts P) : Spells (Form.parenthesized x) (parens ts) P :=
  hx.between .lparen .rparen

/-- One of the choices is spelled. -/
theorem choice {z : Grammar α} (h : Spells x ts P) {zs : List (Grammar α)} (hmem : x ∈ z :: zs) :
    Spells (choice z zs) ts P := by
  induction zs generalizing z with
  | nil =>
    obtain rfl := List.mem_singleton.1 hmem
    exact h
  | cons z' zs ih =>
    rcases List.mem_cons.1 hmem with rfl | hmem
    · exact h.left
    · exact (ih hmem).right

end Spells

end

/-! ### Lists and lines -/

section

variable {x : Grammar α} {item : α → List Token} {view : α → γ}

theorem spells_moreCommas (hitem : ∀ b, Spells x (item b) fun a => view a = view b) :
    ∀ bs : List α, Spells (more false List.cons [] (mark .comma) x)
      (bs.flatMap fun b => .mark .comma :: item b) fun as => as.map view = bs.map view
  | [] => .moreNil rfl
  | b :: bs => by
    have h := (spells_mark .comma).moreCons (hitem b) (spells_moreCommas hitem bs)
      (S := fun as => as.map view = (b :: bs).map view) fun a as ha has => by
        rw [List.map_cons, List.map_cons, ha, has]
    exact h

theorem spells_commas1 (hitem : ∀ b, Spells x (item b) fun a => view a = view b) (b : α)
    (bs : List α) : Spells (separated1 false (mark .comma) x) (commas item (b :: bs))
      fun as => as.map view = (b :: bs).map view :=
  (hitem b).seq (spells_moreCommas hitem bs) fun a as ha has => by
    rw [List.map_cons, List.map_cons, ha, has]

theorem spells_commas (hitem : ∀ b, Spells x (item b) fun a => view a = view b) (bs : List α) :
    Spells (separated false (mark .comma) x) (commas item bs) fun as => as.map view = bs.map view :=
  match bs with
  | [] => .absent rfl
  | b :: bs => (spells_commas1 hitem b bs).present

/-- Items in parentheses behind a keyword; what is left out means none. -/
theorem spells_clause (hitem : ∀ b, Spells x (item b) fun a => view a = view b) (k : Keyword)
    (bs : List α) : Spells (optional []
      ((word k).before (Form.parenthesized (separated false (mark .comma) x)))) (clause k item bs)
      fun as => as.map view = bs.map view :=
  match bs with
  | [] => .absent rfl
  | b :: bs => ((spells_word k).before (spells_commas hitem (b :: bs)).parenthesized).present

theorem spells_newline : Spells newline [.newline] fun _ => True :=
  spells_token rfl fun _ _ => trivial

theorem spells_noNewlines : Spells newlines [] fun _ => True := .manyNil trivial

theorem spells_newlines : Spells newlines [.newline] fun _ => True :=
  spells_newline.manyCons spells_noNewlines fun _ _ _ _ => trivial

theorem spells_lineBreak : Spells (many1 newline) [.newline] fun _ => True :=
  spells_newline.seq spells_noNewlines fun _ _ _ _ => trivial

/-- Behind a line a newline, and the other lines. -/
theorem spells_moreLines (bs : List α)
    (hline : ∀ b ∈ bs, Spells x (item b) fun a => view a = view b) :
    Spells (more true List.cons [] (many1 newline) x)
      (.newline :: bs.flatMap fun b => item b ++ [.newline])
      fun as => as.map view = bs.map view := by
  induction bs with
  | nil => exact spells_lineBreak.moreLast rfl
  | cons b bs ih =>
    rw [List.forall_mem_cons] at hline
    have h := spells_lineBreak.moreCons hline.1 (ih hline.2)
      (S := fun as => as.map view = (b :: bs).map view) fun a as ha has => by
        rw [List.map_cons, List.map_cons, ha, has]
    refine h.of_eq ?_
    simp

theorem spells_lines {ns : List Token} (hns : Spells newlines ns fun _ => True) (bs : List α)
    (hline : ∀ b ∈ bs, Spells x (item b) fun a => view a = view b) :
    Spells (lines x) (ns ++ bs.flatMap fun b => item b ++ [.newline])
      fun as => as.map view = bs.map view := by
  cases bs with
  | nil =>
    have hlines : Spells (separated true (many1 newline) x) [] fun as => as.map view = [] :=
      .absent rfl
    exact ((hns.before hlines).upTo spells_noNewlines).of_eq (by simp)
  | cons b bs =>
    rw [List.forall_mem_cons] at hline
    have hlines : Spells (separated1 true (many1 newline) x)
        (item b ++ .newline :: bs.flatMap fun b => item b ++ [.newline])
        fun as => as.map view = (b :: bs).map view :=
      hline.1.seq (spells_moreLines bs hline.2) fun a as ha has => by
        rw [List.map_cons, List.map_cons, ha, has]
    exact ((hns.before hlines.present).upTo spells_noNewlines).of_eq (by simp)

end

/-! ## Names, lists, accesses, types -/

theorem spells_value (n : Name) : Spells Form.value n.tokens fun m => m.plain = n.plain :=
  spells_token rfl fun l hl => by simp only [Name.plain, Form.nameOf, hl]

theorem spells_symbol (n : Name) :
    Spells Form.symbol [.symbol n.text] fun m => m.plain = n.plain :=
  spells_token rfl fun l hl => by simp only [Name.plain, Form.nameOf, hl]

theorem spells_ident (n : Name) : Spells Form.ident [.ident n.text] fun m => m.plain = n.plain :=
  spells_token rfl fun l hl => by simp only [Name.plain, Form.nameOf, hl]

theorem spells_int (n : Int) : Spells Form.int [.int n] fun m => m = n :=
  spells_token rfl fun l hl => by simp only [Form.numberOf, hl]

theorem spells_values (ns : List Name) :
    Spells Form.values (commas Name.tokens ns) fun ms => ms.map Name.plain = ns.map Name.plain :=
  spells_commas spells_value ns

theorem spells_bracketed (ns : List Name) :
    Spells Form.bracketed (brackets ns) fun ms => ms.map Name.plain = ns.map Name.plain :=
  match ns with
  | [] => .absent rfl
  | n :: ns => ((spells_values (n :: ns)).between .lbracket .rbracket).present

theorem spells_access (a : Access) : Spells Form.access a.tokens fun b => b.plain = a.plain :=
  (spells_value a.base).seq (spells_bracketed a.offsets) fun base offsets hbase hoffsets => by
    rw [Access.plain, Access.plain, hbase, hoffsets]

theorem spells_binding (b : Binding) : Spells Form.binding b.tokens fun a => a.plain = b.plain :=
  ((spells_value b.inner).upTo (spells_mark .equals)).seq (spells_value b.outer)
    fun inner outer hinner houter => by rw [Binding.plain, Binding.plain, hinner, houter]

theorem spells_typeExpr (type : TypeExpr) :
    Spells Form.typeExpr type.tokens fun t => t.plain = type.plain := by
  cases type with
  | token span => exact .left ((spells_word .token).spanned fun _ _ _ => rfl)
  | index span => exact .right (.left ((spells_word .index).spanned fun _ _ _ => rfl))
  | memref rank space span =>
    have hinner := ((spells_int rank).upTo (spells_mark .comma)).and (spells_ident space)
    refine .right (.right (((spells_word .memref).before (hinner.between .less .greater)).spanned ?_))
    rintro ⟨rank', space'⟩ span' ⟨rfl, hspace⟩
    rw [TypeExpr.plain, TypeExpr.plain, hspace]

theorem spells_param (p : Param) : Spells Form.param p.tokens fun q => q.plain = p.plain :=
  ((spells_value p.name).upTo (spells_mark .colon)).seq (spells_typeExpr p.type)
    fun name type hname htype => by rw [Param.plain, Param.plain, hname, htype]

/-! ## Operations -/

theorem spells_binaryOp {k : Keyword} {make : Name → Name → Op}
    (hmake : ∀ a b, (make a b).plain = make a.plain b.plain) (a b : Name) :
    Spells (Form.binaryOp k make) [.keyword k, .value a.text, .mark .comma, .value b.text]
      fun op => op.plain = (make a b).plain :=
  (((spells_word k).before (spells_value a)).upTo (spells_mark .comma)).seq (spells_value b)
    fun a' b' ha hb => by rw [hmake, hmake, ha, hb]

theorem spells_transformOp (ins outs : List Name) :
    Spells Form.transformOp (Op.transform ins outs).tokens
      fun op => op.plain = (Op.transform ins outs).plain := by
  have hins := (spells_word .transform).before
    ((spells_word .ins).before (spells_values ins).parenthesized)
  have houts := (spells_word .outs).before (spells_values outs).parenthesized
  refine (hins.seq houts fun ins' outs' hins houts => ?_).of_eq (by simp [Op.tokens])
  rw [Op.plain, Op.plain, hins, houts]

theorem spells_transferOp (deps : List Name) (dst src : Access) :
    Spells Form.transferOp (Op.transfer deps dst src).tokens
      fun op => op.plain = (Op.transfer deps dst src).plain := by
  have hhead := (((spells_word .transfer).before (spells_bracketed deps)).and
    (spells_access dst)).upTo (spells_mark .arrow)
  refine (hhead.seq (spells_access src) ?_).of_eq (by simp [Op.tokens])
  rintro ⟨deps', dst'⟩ src' ⟨hdeps, hdst⟩ hsrc
  simp only [Op.plain, hdeps, hdst, hsrc]

theorem spells_channelOp {k : Keyword} {make : Name → List Name → Access → Op}
    (hmake : ∀ c ns a, (make c ns a).plain = make c.plain (ns.map Name.plain) a.plain)
    (channel : Name) (deps : List Name) (buffer : Access) :
    Spells (Form.channelOp k make)
      (.keyword k :: .symbol channel.text :: (brackets deps ++ buffer.tokens))
      fun op => op.plain = (make channel deps buffer).plain := by
  have hhead := ((spells_word k).before (spells_symbol channel)).and (spells_bracketed deps)
  refine (hhead.seq (spells_access buffer) ?_).of_eq (by simp)
  rintro ⟨channel', deps'⟩ buffer' ⟨hchannel, hdeps⟩ hbuffer
  simp only [hmake, hchannel, hdeps, hbuffer]

theorem spells_loopKind (kind : LoopKind) :
    Spells Form.loopKind [.keyword kind.keyword] fun k => k = kind := by
  cases kind with
  | sequential => exact .left ((spells_word .loop).map fun _ _ => rfl)
  | parallel => exact .right ((spells_word .parallel).map fun _ _ => rfl)

theorem spells_level (level : Level) :
    Spells Form.level [.keyword level.keyword] fun l => l = level := by
  cases level with
  | launch => exact .left ((spells_word .launch).map fun _ _ => rfl)
  | segment => exact .right (.left ((spells_word .segment).map fun _ _ => rfl))
  | herd => exact .right (.right ((spells_word .herd).map fun _ _ => rfl))

section

variable {body : Block} (hbody : Spells Form.body body.tokens fun b => b.plain = body.plain)
include hbody

theorem spells_computeOp (deps : List Name) : Spells Form.computeOp (Op.compute deps body).tokens
    fun op => op.plain = (Op.compute deps body).plain :=
  ((spells_word .compute).before (spells_bracketed deps)).seq hbody fun deps' body' hdeps hbody => by
    rw [Op.plain, Op.plain, hdeps, hbody]

theorem spells_loopOp (kind : LoopKind) (var lower upper step : Name) (carried : List Binding) :
    Spells Form.loopOp (Op.loop kind var lower upper step carried body).tokens
      fun op => op.plain = (Op.loop kind var lower upper step carried body).plain := by
  have hhead := ((((((((spells_loopKind kind).and (spells_value var)).upTo
    (spells_mark .equals)).and (spells_value lower)).upTo (spells_word .upTo)).and
    (spells_value upper)).upTo (spells_word .step)).and (spells_value step)).and
    (spells_clause spells_binding .iter carried)
  refine (hhead.seq hbody ?_).of_eq (by simp [Op.tokens, Name.tokens])
  rintro ⟨⟨⟨⟨⟨kind', var'⟩, lower'⟩, upper'⟩, step'⟩, carried'⟩ body'
    ⟨⟨⟨⟨⟨rfl, hvar⟩, hlower⟩, hupper⟩, hstep⟩, hcarried⟩ hbody
  simp only [Op.plain, hvar, hlower, hupper, hstep, hcarried, hbody]

theorem spells_branchOp {elseBody : Block}
    (helse : Spells Form.body elseBody.tokens fun b => b.plain = elseBody.plain) (cond : Name) :
    Spells Form.branchOp (Op.branch cond body elseBody).tokens
      fun op => op.plain = (Op.branch cond body elseBody).plain := by
  have hhead := (((spells_word .branch).before (spells_value cond)).and hbody).upTo
    (spells_word .otherwise)
  refine (hhead.seq helse ?_).of_eq (by simp [Op.tokens, Name.tokens])
  rintro ⟨cond', body'⟩ else' ⟨hcond, hbody⟩ helse
  simp only [Op.plain, hcond, hbody, helse]

theorem spells_hierarchyOp (level : Level) (deps ids : List Name) (args : List Binding) :
    Spells Form.hierarchyOp (Op.hierarchy level deps ids args body).tokens
      fun op => op.plain = (Op.hierarchy level deps ids args body).plain := by
  have hhead := (((spells_level level).and (spells_bracketed deps)).and
    (spells_clause spells_value .ids ids)).and (spells_clause spells_binding .args args)
  refine (hhead.seq hbody ?_).of_eq (by simp [Op.tokens])
  rintro ⟨⟨⟨level', deps'⟩, ids'⟩, args'⟩ body' ⟨⟨⟨rfl, hdeps⟩, hids⟩, hargs⟩ hbody
  simp only [Op.plain, hdeps, hids, hargs, hbody]

end

/-! ## Statements and blocks -/

theorem spells_results (ns : List Name) :
    Spells Form.results (resultTokens ns) fun ms => ms.map Name.plain = ns.map Name.plain :=
  match ns with
  | [] => .absent rfl
  | n :: ns => ((spells_commas1 spells_value n ns).upTo (spells_mark .equals)).present

theorem spells_stmt {op : Op} (hop : Spells Form.op op.tokens fun o => o.plain = op.plain)
    (results : List Name) (span : Span) : Spells Form.stmt (Stmt.mk results op span).tokens
      fun s => s.plain = (Stmt.mk results op span).plain := by
  refine ((spells_results results).and hop).spanned ?_
  rintro ⟨results', op'⟩ span' ⟨hresults, hop⟩
  rw [Stmt.plain, Stmt.plain, hresults, hop]

theorem spells_block_of_stmts {stmts : List Stmt}
    (h : ∀ s ∈ stmts, Spells Form.stmt s.tokens fun t => t.plain = s.plain) (span : Span) :
    Spells Form.block (Block.mk stmts span).tokens
      fun b => b.plain = (Block.mk stmts span).plain := by
  have hlines := (spells_lines spells_newlines stmts h).between .lbrace .rbrace
  refine (hlines.spanned fun stmts' span' hstmts => ?_).of_eq ?_
  · rw [Block.plain, Block.plain, plainStmts_eq_map, plainStmts_eq_map, hstmts]
  · simp [Block.tokens, stmtTokens_eq_flatMap]

mutual

theorem spells_op : (op : Op) → Spells Form.op op.tokens fun o => o.plain = op.plain
  | .const n => by
    have h : Spells Form.constOp (Op.const n).tokens fun o => o.plain = (Op.const n).plain :=
      ((spells_word .const).before (spells_int n)).map fun m hm => by rw [hm]
    exact h.choice (by simp)
  | .alloc type => by
    have h : Spells Form.allocOp (Op.alloc type).tokens fun o => o.plain = (Op.alloc type).plain :=
      (((spells_word .alloc).before (spells_mark .colon)).before (spells_typeExpr type)).map
        fun t ht => by rw [Op.plain, Op.plain, ht]
    exact h.choice (by simp)
  | .dealloc a => by
    have h : Spells Form.deallocOp (Op.dealloc a).tokens fun o => o.plain = (Op.dealloc a).plain :=
      ((spells_word .dealloc).before (spells_value a)).map fun b hb => by
        rw [Op.plain, Op.plain, hb]
    exact h.choice (by simp)
  | .copy a b => (spells_binaryOp (fun _ _ => by rw [Op.plain]) a b).choice (by simp)
  | .transform ins outs => (spells_transformOp ins outs).choice (by simp)
  | .muli a b => (spells_binaryOp (fun _ _ => by rw [Op.plain]) a b).choice (by simp)
  | .addi a b => (spells_binaryOp (fun _ _ => by rw [Op.plain]) a b).choice (by simp)
  | .apply args => by
    have h : Spells Form.applyOp (Op.apply args).tokens fun o => o.plain = (Op.apply args).plain :=
      ((spells_word .apply).before (spells_values args).parenthesized).map fun ns hns => by
        rw [Op.plain, Op.plain, hns]
    exact h.choice (by simp)
  | .yield values => by
    have h : Spells Form.yieldOp (Op.yield values).tokens
        fun o => o.plain = (Op.yield values).plain :=
      ((spells_word .yield).before (spells_values values)).map fun ns hns => by
        rw [Op.plain, Op.plain, hns]
    exact h.choice (by simp)
  | .compute deps body => (spells_computeOp (spells_block body).body deps).choice (by simp)
  | .transfer deps dst src => (spells_transferOp deps dst src).choice (by simp)
  | .put channel deps src =>
    (spells_channelOp (fun _ _ _ => by rw [Op.plain]) channel deps src).choice (by simp)
  | .get channel deps dst =>
    (spells_channelOp (fun _ _ _ => by rw [Op.plain]) channel deps dst).choice (by simp)
  | .join deps => by
    have h : Spells Form.joinOp (Op.join deps).tokens fun o => o.plain = (Op.join deps).plain :=
      ((spells_word .join).before (spells_bracketed deps)).map fun ns hns => by
        rw [Op.plain, Op.plain, hns]
    exact h.choice (by simp)
  | .loop kind var lower upper step carried body =>
    (spells_loopOp (spells_block body).body kind var lower upper step carried).choice (by simp)
  | .branch cond thenBody elseBody =>
    (spells_branchOp (spells_block thenBody).body (spells_block elseBody).body cond).choice (by simp)
  | .hierarchy level deps ids args body =>
    (spells_hierarchyOp (spells_block body).body level deps ids args).choice (by simp)
  | .finish => by
    have h : Spells Form.finishOp Op.finish.tokens fun o => o.plain = Op.finish.plain :=
      (spells_word .finish).map fun _ _ => rfl
    exact h.choice (by simp)

theorem spells_block : (b : Block) → Spells Form.block b.tokens fun a => a.plain = b.plain
  | .mk stmts span => spells_block_of_stmts (spells_stmts stmts) span

theorem spells_stmts : (stmts : List Stmt) →
    ∀ s ∈ stmts, Spells Form.stmt s.tokens fun t => t.plain = s.plain
  | [] => fun _ hs => absurd hs List.not_mem_nil
  | .mk results op span :: rest =>
    List.forall_mem_cons.2 ⟨spells_stmt (spells_op op) results span, spells_stmts rest⟩

end

/-! ## Functions and modules -/

theorem spells_func (f : Func) : Spells Form.func f.tokens fun g => g.plain = f.plain := by
  have h := (((spells_word .func).before (spells_symbol f.name)).and
    (spells_commas spells_param f.params).parenthesized).and (spells_block f.body).body
  refine (h.spanned ?_).of_eq (by simp [Func.tokens])
  rintro ⟨⟨name, params⟩, body⟩ span ⟨⟨hname, hparams⟩, hbody⟩
  simp only [Func.plain, hname, hparams, hbody]

theorem spells_module (m : Module) : Spells Form.module m.tokens fun a => a.plain = m.plain :=
  (spells_lines spells_noNewlines m.funcs fun f _ => spells_func f).spanned fun funcs span h => by
    rw [Module.plain, Module.plain, h]

/-- The tokens of a tree are read as the tree, but for positions. -/
theorem readModule_of_tokens {m : Module} {lexemes : List Lexeme}
    (h : lexemes.map (·.token) = m.tokens) (size : Nat) :
    ∃ m', readModule size lexemes = .ok m' ∧ m'.plain = m.plain := by
  obtain ⟨d, hd, hplain⟩ := spells_module m size lexemes h
  exact ⟨d.value size, readModule_eq_ok_iff_derives.2 ⟨d, hd, rfl⟩, hplain⟩

end AsyncOrder.Source
