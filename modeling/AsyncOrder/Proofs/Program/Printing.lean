import AsyncOrder.Proofs.Program.Spelling
import AsyncOrder.Proofs.Source.Parsing
import AsyncOrder.Program.Printer
import Mathlib.Data.List.Zip

/-!
# The text of a program spells its source tree

    p.Printable → Lexes p.text.toList p.source.tokens          (Program.Printable.lexes_text)

`Spellable` says that names and numbers can be spelled, `Printable` also that the operations in
blocks are laid out and that the text goes deep enough to show them all.
-/

namespace AsyncOrder

open Source (commas brackets parens stmtTokens)

namespace Program

variable {p : Program} {rest : List Char} {us : List Token}

/-! ## What can be spelled -/

structure Spellable (p : Program) : Prop where
  names : ∀ v, (Token.value (p.valueName v)).Valid
  ranks : ∀ v (rank : Nat) space, p.valueType v = .memref rank space → isInt64 rank = true
  numbers : ∀ o n, p.kind o = .const n → isInt64 n = true
  channels : ∀ o c, (p.kind o).channel? = some c → (Token.symbol c).Valid
  funcs : ∀ f ∈ p.funcs, (Token.symbol f.name).Valid

structure Printable (p : Program) : Prop extends p.Spellable where
  laidOut : ∀ o, p.isLive o = true → p.LaidOut o
  nested : ∀ o, p.isLive o = true → ∀ z ∈ p.nested o, p.isLive z = true
  bodies : ∀ f ∈ p.funcs, ∀ o ∈ (p.block f.body).ops, p.isLive o = true
  shallow : ∀ f ∈ p.funcs, p.Shallow (p.blocks.size + 1) (p.block f.body).ops

/-! ## Lists -/

theorem intercalate_cons {α : Type} (sep a : List α) (as : List (List α)) :
    sep.intercalate (a :: as) = a ++ as.flatMap fun b => sep ++ b := by
  induction as generalizing a with
  | nil => simp [List.intercalate]
  | cons b as ih => rw [List.intercalate_cons_cons, ih, List.flatMap_cons, List.append_assoc,
      List.append_assoc]

section list

variable {α : Type} {text : α → String} {tokens : α → List Token}

/-- The text of each item is lexed as its tokens. -/
def LexesItems (text : α → String) (tokens : α → List Token) : Prop :=
  ∀ a rest us, Avoids isWordChar rest → Lexes rest us →
    Lexes ((text a).toList ++ rest) (tokens a ++ us)

theorem lexes_list (h : LexesItems text tokens) (as : List α) (hrest : Avoids isWordChar rest)
    (hl : Lexes rest us) : Lexes ((", ".intercalate (as.map text)).toList ++ rest)
      (commas tokens as ++ us) := by
  rw [String.toList_intercalate, List.map_map]
  cases as with
  | nil => exact hl
  | cons a as =>
    have hmore : Avoids isWordChar ((as.map (String.toList ∘ text)).flatMap
        (fun b => ", ".toList ++ b) ++ rest) ∧
        Lexes ((as.map (String.toList ∘ text)).flatMap (fun b => ", ".toList ++ b) ++ rest)
          (as.flatMap (fun b => .mark .comma :: tokens b) ++ us) := by
      induction as with
      | nil => exact ⟨hrest, hl⟩
      | cons b as ih =>
        simp only [List.map_cons, List.flatMap_cons, List.append_assoc, List.cons_append]
        refine ⟨avoids_cons.2 (by decide), ?_⟩
        exact lexes_sign .comma (by decide) (lexes_blank.2 (h b _ _ ih.1 ih.2))
    rw [List.map_cons, intercalate_cons, commas, List.append_assoc, List.append_assoc]
    exact h a _ _ hmore.1 hmore.2

end list

/-! ## Words and names -/

theorem lexes_keyword_blank (k : Keyword) (hl : Lexes rest us) :
    Lexes ((k.text ++ " ").toList ++ rest) (.keyword k :: us) := by
  rw [String.toList_append, List.append_assoc]
  exact lexes_keyword k (avoids_cons.2 (by decide)) (lexes_blank.2 hl)

theorem lexes_blank_keyword_blank (k : Keyword) (hl : Lexes rest us) :
    Lexes ((" " ++ k.text ++ " ").toList ++ rest) (.keyword k :: us) := by
  rw [String.append_assoc, String.toList_append, List.append_assoc]
  exact lexes_blank.2 (lexes_keyword_blank k hl)

theorem lexes_parens {text : String} {ts : List Token}
    (h : ∀ rest us, Avoids isWordChar rest → Lexes rest us →
      Lexes (text.toList ++ rest) (ts ++ us)) (hl : Lexes rest us) :
    Lexes ("(".toList ++ (text.toList ++ (")".toList ++ rest))) (parens ts ++ us) := by
  rw [parens, List.cons_append, List.append_assoc]
  refine lexes_sign .lparen (by decide) (h _ _ (avoids_cons.2 (by decide)) ?_)
  exact lexes_sign .rparen (by decide) hl

section spell

variable (hp : p.Spellable)
include hp

omit hp in
theorem toList_ref (v : ValueId) : (p.ref v).toList = '%' :: (p.valueName v).toList := by
  show ("%" ++ p.valueName v).toList = _
  rw [String.toList_append]
  rfl

theorem lexesItems_ref : LexesItems p.ref fun v => (p.sourceName v).tokens := by
  intro v rest us hrest hl
  rw [toList_ref]
  exact lexes_token (hp.names v) hrest hl

theorem lexes_ref (v : ValueId) (hrest : Avoids isWordChar rest) (hl : Lexes rest us) :
    Lexes ((p.ref v).toList ++ rest) (.value (p.sourceName v).text :: us) :=
  lexesItems_ref hp v _ _ hrest hl

theorem lexes_refs (vs : List ValueId) (hrest : Avoids isWordChar rest) (hl : Lexes rest us) :
    Lexes ((p.refs vs).toList ++ rest)
      (commas Source.Name.tokens (vs.map p.sourceName) ++ us) := by
  have hcommas : commas Source.Name.tokens (vs.map p.sourceName) =
      commas (fun v => (p.sourceName v).tokens) vs := by
    cases vs with
    | nil => rfl
    | cons v vs => simp only [commas, List.map_cons, List.flatMap_map]
  rw [hcommas]
  exact lexes_list (lexesItems_ref hp) vs hrest hl

theorem lexes_bindings (pairs : List (ValueId × ValueId)) (hrest : Avoids isWordChar rest)
    (hl : Lexes rest us) : Lexes ((p.bindingsText pairs).toList ++ rest)
      (commas Source.Binding.tokens (p.sourceBindings pairs) ++ us) := by
  have hcommas : commas Source.Binding.tokens (p.sourceBindings pairs) =
      commas (fun e : ValueId × ValueId => [.value (p.sourceName e.1).text, .mark .equals,
        .value (p.sourceName e.2).text]) pairs := by
    cases pairs with
    | nil => rfl
    | cons e pairs => simp only [commas, sourceBindings, List.map_cons, List.flatMap_map]; rfl
  rw [hcommas]
  have hitems : LexesItems (fun e : ValueId × ValueId => s!"{p.ref e.1} = {p.ref e.2}")
      fun e => [.value (p.sourceName e.1).text, .mark .equals, .value (p.sourceName e.2).text] := by
    intro e rest us hrest hl
    show Lexes ((p.ref e.1 ++ " = " ++ p.ref e.2).toList ++ rest) _
    simp only [String.toList_append, List.append_assoc, List.cons_append, List.nil_append]
    refine lexes_ref hp e.1 (avoids_cons.2 (by decide)) (lexes_blank.2 ?_)
    exact lexes_sign .equals (by decide) (lexes_blank.2 (lexes_ref hp e.2 hrest hl))
  exact lexes_list hitems pairs hrest hl

/-- Dependency lists end or begin with a mark. -/
theorem lexes_deps (ds : List ValueId) (hl : Lexes rest us) :
    Lexes ((p.depsText ds).toList ++ rest) (brackets (ds.map p.sourceName) ++ us) := by
  cases ds with
  | nil => exact hl
  | cons d ds =>
    show Lexes ((" [" ++ p.refs (d :: ds) ++ "]").toList ++ rest) _
    rw [List.map_cons, brackets, List.cons_append, List.append_assoc]
    simp only [String.toList_append, List.append_assoc]
    refine lexes_blank.2 (lexes_sign .lbracket (by decide) ?_)
    refine lexes_refs hp (d :: ds) (avoids_cons.2 (by decide)) ?_
    exact lexes_sign .rbracket (by decide) hl

omit hp in
theorem avoids_deps (ds : List ValueId) (hrest : Avoids isWordChar rest) :
    Avoids isWordChar ((p.depsText ds).toList ++ rest) := by
  cases ds with
  | nil => exact hrest
  | cons d ds =>
    show Avoids isWordChar ((" [" ++ p.refs (d :: ds) ++ "]").toList ++ rest)
    rw [String.toList_append, String.toList_append]
    exact avoids_cons.2 (by decide)

theorem lexes_access (base : ValueId) (offsets : List ValueId) (hrest : Avoids isWordChar rest)
    (hl : Lexes rest us) : Lexes ((p.accessText base offsets).toList ++ rest)
      ((p.sourceAccess base offsets).tokens ++ us) := by
  cases offsets with
  | nil => exact lexes_ref hp base hrest hl
  | cons i is =>
    show Lexes ((p.ref base ++ "[" ++ p.refs (i :: is) ++ "]").toList ++ rest) _
    rw [Source.Access.tokens, sourceAccess, List.map_cons, brackets, List.cons_append,
      List.cons_append, List.append_assoc]
    simp only [String.toList_append, List.append_assoc]
    refine lexes_ref hp base (avoids_cons.2 (by decide)) (lexes_sign .lbracket (by decide) ?_)
    refine lexes_refs hp (i :: is) (avoids_cons.2 (by decide)) ?_
    exact lexes_sign .rbracket (by decide) hl

omit hp in
/-- The text of a clause is left out just when its list is empty. -/
theorem lexes_clause {α : Type} {k : Keyword} {text : String} {item : α → List Token} {as : List α}
    (hempty : text.isEmpty = as.isEmpty)
    (h : ∀ rest us, Avoids isWordChar rest → Lexes rest us →
      Lexes (text.toList ++ rest) (commas item as ++ us)) (hl : Lexes rest us) :
    Lexes ((Program.clause k.text text).toList ++ rest) (Source.clause k item as ++ us) := by
  cases as with
  | nil =>
    rw [Program.clause, hempty]
    exact hl
  | cons a as =>
    have htext : Program.clause k.text text = " " ++ k.text ++ "(" ++ text ++ ")" := by
      rw [Program.clause, hempty]
      rfl
    rw [htext, Source.clause, List.cons_append]
    simp only [String.toList_append, List.append_assoc]
    refine lexes_blank.2 (lexes_keyword k (avoids_cons.2 (by decide)) ?_)
    exact lexes_parens h hl

omit hp in
theorem isEmpty_of_head? {s : String} {c : Char} (h : s.toList.head? = some c) :
    s.isEmpty = false := by
  cases hs : s.isEmpty with
  | false => rfl
  | true =>
    rw [String.isEmpty_iff.1 hs] at h
    cases h

omit hp in
theorem isEmpty_refs (vs : List ValueId) : (p.refs vs).isEmpty = vs.isEmpty := by
  cases vs with
  | nil => rfl
  | cons v vs =>
    refine isEmpty_of_head? (c := '%') ?_
    rw [refs, String.toList_intercalate, List.map_cons, List.map_cons, intercalate_cons, toList_ref]
    rfl

omit hp in
theorem isEmpty_bindingsText (pairs : List (ValueId × ValueId)) :
    (p.bindingsText pairs).isEmpty = (p.sourceBindings pairs).isEmpty := by
  cases pairs with
  | nil => rfl
  | cons e pairs =>
    refine isEmpty_of_head? (c := '%') ?_
    rw [bindingsText, String.toList_intercalate, List.map_cons, List.map_cons, intercalate_cons]
    show ((p.ref e.1 ++ " = " ++ p.ref e.2).toList ++ _).head? = _
    rw [String.append_assoc, String.toList_append, toList_ref]
    rfl

theorem lexes_ids (ids : List ValueId) (hl : Lexes rest us) :
    Lexes ((Program.clause Keyword.ids.text (p.refs ids)).toList ++ rest)
      (Source.clause .ids Source.Name.tokens (ids.map p.sourceName) ++ us) :=
  lexes_clause (by rw [isEmpty_refs, List.isEmpty_map]) (fun _ _ => lexes_refs hp ids) hl

theorem lexes_bindingClause (k : Keyword) (pairs : List (ValueId × ValueId)) (hl : Lexes rest us) :
    Lexes ((Program.clause k.text (p.bindingsText pairs)).toList ++ rest)
      (Source.clause k Source.Binding.tokens (p.sourceBindings pairs) ++ us) :=
  lexes_clause (isEmpty_bindingsText pairs) (fun _ _ => lexes_bindings hp pairs) hl

omit hp in
theorem avoids_clause (k : Keyword) (text : String) (hrest : Avoids isWordChar rest) :
    Avoids isWordChar ((Program.clause k.text text).toList ++ rest) := by
  rw [Program.clause]
  split
  · exact hrest
  · show Avoids isWordChar ((" " ++ k.text ++ "(" ++ text ++ ")").toList ++ rest)
    simp only [String.toList_append, List.append_assoc]
    exact avoids_cons.2 (by decide)

omit hp in
theorem lexes_type {type : ValueType}
    (hrank : ∀ (rank : Nat) space, type = .memref rank space → isInt64 rank = true)
    (hrest : Avoids isWordChar rest) (hl : Lexes rest us) :
    Lexes (type.text.toList ++ rest) (type.source.tokens ++ us) := by
  cases type with
  | token => exact lexes_keyword .token hrest hl
  | index => exact lexes_keyword .index hrest hl
  | memref rank space =>
    have htext : (ValueType.memref rank space).text = Keyword.memref.text ++ Mark.less.text ++
      toString rank ++ (Mark.comma.text ++ " ") ++ space.text ++ Mark.greater.text := rfl
    rw [htext]
    simp only [String.toList_append, List.append_assoc]
    obtain ⟨c, ds, hdigits, hc, -⟩ := exists_toDigits rank
    have hrankText : (toString rank).toList = c :: ds := by
      rw [← hdigits]
      exact String.toList_ofList
    have hfirst : ∀ cs, Avoids (fun c => c = '-') ((toString rank).toList ++ cs) := by
      intro cs
      rw [hrankText, List.cons_append, avoids_cons, decide_eq_false_iff_not]
      rintro rfl
      exact absurd hc (by decide)
    show Lexes _ (.keyword .memref :: .mark .less :: .int rank :: .mark .comma ::
      .ident space.text :: .mark .greater :: us)
    refine lexes_keyword .memref (avoids_cons.2 (by decide)) ?_
    refine lexes_mark .less (hfirst _) ?_
    have hint : (toString rank).toList = (toString (rank : Int)).toList := rfl
    rw [hint]
    refine lexes_int (hrank rank space rfl) (avoids_cons.2 (by decide)) ?_
    refine lexes_sign .comma (by decide) (lexes_blank.2 ?_)
    have hspace : (Token.ident space.text).Valid := by
      cases space <;> exact ⟨⟨'L', _, rfl, by decide, List.all_eq_true.1 (by decide)⟩, rfl⟩
    exact lexes_token hspace (avoids_cons.2 (show isWordChar '>' = false by decide))
      (lexes_sign .greater (by decide) hl)

end spell

/-! ## Operations without their bodies -/

/-- The text in front of the bodies is lexed as `ts`. -/
def HeadLexes (p : Program) (o : OpId) (ts : List Token) : Prop :=
  ∀ rest us, Avoids isWordChar rest → Lexes rest us →
    Lexes ((p.headText o).toList ++ rest) (ts ++ us)

/-- Where the bodies stand in text and tokens of an operation. -/
inductive Heads (p : Program) (body : BlockId → Source.Block) (o : OpId) (op : Source.Op) : Prop
  | leaf (hkind : regionHeads (p.kind o) = []) (h : p.HeadLexes o op.tokens)
  | one (ts : List Token) (b : BlockId) (hkind : regionHeads (p.kind o) = [" \x7b\n"])
      (hregions : (p.op o).regions = [b]) (htokens : op.tokens = ts ++ (body b).tokens)
      (h : p.HeadLexes o ts)
  | two (ts : List Token) (b c : BlockId)
      (hkind : regionHeads (p.kind o) = [" \x7b\n", "\x7d else \x7b\n"])
      (hregions : (p.op o).regions = [b, c])
      (htokens : op.tokens = ts ++ ((body b).tokens ++ .keyword .otherwise :: (body c).tokens))
      (h : p.HeadLexes o ts)

section heads

variable (hp : p.Spellable) {o : OpId} {body : BlockId → Source.Block} {ds : List ValueId}
include hp

omit hp in
theorem regionHeads_of_has {kind : OpKind} {as : List ValueId} {types : List ValueType}
    {bs : List BlockId} (h : p.Has o kind as ds types bs) {heads : List String}
    (hheads : regionHeads kind = heads) : regionHeads (p.kind o) = heads := by rw [h.kind, hheads]

/-- A keyword and names. -/
theorem headLexes_refs (k : Keyword) (vs : List ValueId)
    (h : p.headText o = k.text ++ " " ++ p.refs vs) :
    p.HeadLexes o (.keyword k :: commas Source.Name.tokens (vs.map p.sourceName)) := by
  intro rest us hrest hl
  rw [h, String.toList_append, List.append_assoc]
  exact lexes_keyword_blank k (lexes_refs hp vs hrest hl)

/-- A keyword and dependencies. -/
theorem headLexes_deps (k : Keyword) (ds : List ValueId)
    (h : p.headText o = k.text ++ p.depsText ds) :
    p.HeadLexes o (.keyword k :: brackets (ds.map p.sourceName)) := by
  intro rest us hrest hl
  rw [h, String.toList_append, List.append_assoc]
  exact lexes_keyword k (avoids_deps ds hrest) (lexes_deps hp ds hl)

/-- A keyword, a channel, dependencies and a buffer. -/
theorem headLexes_channel (k : Keyword) {channel : String} (hc : (Token.symbol channel).Valid)
    (base : ValueId) (offsets : List ValueId) (h : p.headText o =
      k.text ++ " @" ++ channel ++ p.depsText ds ++ " " ++ p.accessText base offsets) :
    p.HeadLexes o (.keyword k :: .symbol channel ::
      (brackets (ds.map p.sourceName) ++ (p.sourceAccess base offsets).tokens)) := by
  intro rest us hrest hl
  rw [h]
  simp only [String.toList_append, List.append_assoc, List.cons_append]
  refine lexes_keyword k (avoids_cons.2 (by decide)) (lexes_blank.2 ?_)
  refine lexes_token hc (avoids_deps ds (avoids_cons.2 (by decide))) ?_
  exact lexes_deps hp ds (lexes_blank.2 (lexes_access hp base offsets hrest hl))

theorem heads_of_form {op : Source.Op} (h : p.Form body o op) : p.Heads body o op := by
  cases h with
  | const n h =>
    refine .leaf (regionHeads_of_has h rfl) fun rest us hrest hl => ?_
    have hn := hp.numbers o n h.kind
    have htext : p.headText o = "const " ++ toString n := by
      simp only [headText, h.op_kind]
      rfl
    rw [htext, String.toList_append, List.append_assoc, Source.Op.tokens]
    exact lexes_keyword_blank .const (lexes_int hn
      (hrest.mono fun c hc => by rw [isWordChar, hc, Bool.or_true]) hl)
  | alloc t v ht h hv =>
    refine .leaf (regionHeads_of_has h rfl) fun rest us hrest hl => ?_
    have htype : p.valueType v = t := by simpa [hv] using h.types
    have htext : p.headText o = (Keyword.alloc.text ++ " " ++ Mark.colon.text ++ " ") ++ t.text := by
      simp only [headText, h.op_kind, hv, List.head?_cons, Option.map_some, Option.getD_some, htype]
      rfl
    rw [htext, Source.Op.tokens]
    simp only [String.toList_append, List.append_assoc, List.cons_append]
    refine lexes_keyword .alloc (avoids_cons.2 (by decide)) (lexes_blank.2 ?_)
    refine lexes_sign .colon (by decide) (lexes_blank.2 (lexes_type (fun rank space heq => ?_) hrest hl))
    exact hp.ranks v rank space (htype.trans heq)
  | dealloc a ha h =>
    refine .leaf (regionHeads_of_has h rfl) ?_
    rw [Source.Op.tokens]
    exact headLexes_refs hp .dealloc [a] (by simp only [headText, h.op_kind, h.operands]; rfl)
  | copy a b ha hb h =>
    refine .leaf (regionHeads_of_has h rfl) ?_
    rw [Source.Op.tokens]
    exact headLexes_refs hp .copy [a, b] (by simp only [headText, h.op_kind, h.operands]; rfl)
  | transform as bs h =>
    refine .leaf (regionHeads_of_has h rfl) fun rest us hrest hl => ?_
    have htext : p.headText o = (Keyword.transform.text ++ " " ++ Keyword.ins.text ++ "(") ++
        p.refs as ++ (")" ++ " " ++ Keyword.outs.text ++ "(") ++ p.refs bs ++ ")" := by
      simp only [headText, h.op_kind, h.operands, List.take_left, List.drop_left]
      rfl
    rw [htext, Source.Op.tokens]
    simp only [String.toList_append, List.append_assoc, List.cons_append]
    refine lexes_keyword .transform (avoids_cons.2 (by decide)) (lexes_blank.2 ?_)
    refine lexes_keyword .ins (avoids_cons.2 (by decide)) ?_
    refine lexes_parens (fun _ _ => lexes_refs hp as) (lexes_blank.2 ?_)
    refine lexes_keyword .outs (avoids_cons.2 (by decide)) ?_
    exact lexes_parens (fun _ _ => lexes_refs hp bs) hl
  | muli a b hab h =>
    refine .leaf (regionHeads_of_has h rfl) ?_
    rw [Source.Op.tokens]
    exact headLexes_refs hp .muli [a, b] (by simp only [headText, h.op_kind, h.operands]; rfl)
  | addi a b hab h =>
    refine .leaf (regionHeads_of_has h rfl) ?_
    rw [Source.Op.tokens]
    exact headLexes_refs hp .addi [a, b] (by simp only [headText, h.op_kind, h.operands]; rfl)
  | apply as has h =>
    refine .leaf (regionHeads_of_has h rfl) fun rest us hrest hl => ?_
    have htext : p.headText o = (Keyword.apply.text ++ "(") ++ p.refs as ++ ")" := by
      simp only [headText, h.op_kind, h.operands]
      rfl
    rw [htext, Source.Op.tokens]
    simp only [String.toList_append, List.append_assoc, List.cons_append]
    refine lexes_keyword .apply (avoids_cons.2 (by decide)) ?_
    exact lexes_parens (fun _ _ => lexes_refs hp as) hl
  | yield as h =>
    refine .leaf (regionHeads_of_has h rfl) ?_
    rw [Source.Op.tokens]
    cases as with
    | nil =>
      intro rest us hrest hl
      have htext : p.headText o = "yield" := by
        simp only [headText, h.op_kind, h.operands]
        rfl
      rw [htext]
      exact lexes_keyword .yield hrest hl
    | cons a as =>
      exact headLexes_refs hp .yield (a :: as)
        (by simp only [headText, h.op_kind, h.operands]; rfl)
  | compute ds b hds hargs h =>
    refine .one _ b (regionHeads_of_has h rfl) h.regions ?_
      (headLexes_deps hp .compute ds (by simp only [headText, h.op_kind, h.deps]; rfl))
    rw [Source.Op.tokens, List.cons_append]
  | transfer ds dst src atDst atSrc hds hdst hsrc h =>
    refine .leaf (regionHeads_of_has h rfl) fun rest us hrest hl => ?_
    have htext : p.headText o = "transfer" ++ p.depsText ds ++ " " ++ (p.accessText dst atDst ++
        (" " ++ Mark.arrow.text ++ " ") ++ p.accessText src atSrc) := by
      simp only [headText, h.op_kind, h.operands, h.deps, transferText,
        List.cons_append, List.take_left, List.drop_left]
      rfl
    rw [htext, Source.Op.tokens]
    simp only [String.toList_append, List.append_assoc, List.cons_append]
    refine lexes_keyword .transfer (avoids_deps ds (avoids_cons.2 (by decide))) ?_
    refine lexes_deps hp ds (lexes_blank.2 ?_)
    refine lexes_access hp dst atDst (avoids_cons.2 (by decide)) (lexes_blank.2 ?_)
    exact lexes_sign .arrow (by decide) (lexes_blank.2 (lexes_access hp src atSrc hrest hl))
  | put channel ds base offsets hds ha h =>
    refine .leaf (regionHeads_of_has h rfl) ?_
    rw [Source.Op.tokens]
    exact headLexes_channel hp .put (hp.channels o channel (by rw [h.kind]; rfl)) base offsets
      (by simp only [headText, h.op_kind, h.operands, h.deps]; rfl)
  | get channel ds base offsets hds ha h =>
    refine .leaf (regionHeads_of_has h rfl) ?_
    rw [Source.Op.tokens]
    exact headLexes_channel hp .get (hp.channels o channel (by rw [h.kind]; rfl)) base offsets
      (by simp only [headText, h.op_kind, h.operands, h.deps]; rfl)
  | join ds hds h =>
    refine .leaf (regionHeads_of_has h rfl) ?_
    rw [Source.Op.tokens]
    exact headLexes_deps hp .join ds (by simp only [headText, h.op_kind, h.deps]; rfl)
  | loop kind lower upper step inits b var carried hbounds hargs hvar hcarried h =>
    refine .one (.keyword kind.keyword :: .value (p.sourceName var).text :: .mark .equals ::
      .value (p.sourceName lower).text :: .keyword .upTo :: .value (p.sourceName upper).text ::
      .keyword .step :: .value (p.sourceName step).text :: Source.clause .iter
        Source.Binding.tokens (p.sourceBindings (carried.zip inits))) b
      (regionHeads_of_has h rfl) h.regions ?_ fun rest us hrest hl => ?_
    · rw [Source.Op.tokens]
      simp only [List.cons_append]
    have hbody : p.body? o = some b := by rw [body?, h.regions]; rfl
    have htext : p.headText o = kind.keyword.text ++ " " ++ (p.ref var ++ " = " ++ p.ref lower ++
        " to " ++ p.ref upper ++ " step " ++ p.ref step ++
          Program.clause Keyword.iter.text (p.bindingsText (carried.zip inits))) := by
      simp only [headText, h.op_kind, h.operands, hbody, hargs,
        Option.map_some, Option.getD_some, loopHead]
      cases kind <;> rfl
    rw [htext]
    simp only [String.toList_append, List.append_assoc, List.cons_append]
    refine lexes_keyword _ (avoids_cons.2 (by decide)) (lexes_blank.2 ?_)
    refine lexes_ref hp var (avoids_cons.2 (by decide)) (lexes_blank.2 ?_)
    refine lexes_sign .equals (by decide) (lexes_blank.2 ?_)
    refine lexes_ref hp lower (avoids_cons.2 (by decide)) (lexes_blank_keyword_blank .upTo ?_)
    refine lexes_ref hp upper (avoids_cons.2 (by decide)) (lexes_blank_keyword_blank .step ?_)
    refine lexes_ref hp step (avoids_clause .iter _ hrest) ?_
    exact lexes_bindingClause hp .iter _ hl
  | branch cond b c hcond hb hc hyields h =>
    refine .two _ b c (regionHeads_of_has h rfl) h.regions ?_
      (headLexes_refs hp .branch [cond] (by simp only [headText, h.op_kind, h.operands]; rfl))
    rw [Source.Op.tokens]
    rfl
  | hierarchy level ds as b ids params hds has hargs hids hparams h =>
    refine .one (.keyword level.keyword :: (brackets (ds.map p.sourceName) ++
      (Source.clause .ids Source.Name.tokens (ids.map p.sourceName) ++
        Source.clause .args Source.Binding.tokens (p.sourceBindings (params.zip as))))) b
      (regionHeads_of_has h rfl) h.regions ?_ fun rest us hrest hl => ?_
    · rw [Source.Op.tokens]
      simp only [List.cons_append, List.append_assoc]
    have hbody : p.body? o = some b := by rw [body?, h.regions]; rfl
    have hpairs : (p.hierarchyPairs o).map (fun e => (e.2, e.1)) = params.zip as := by
      simp only [hierarchyPairs, h.kind, hbody, hargs, List.drop_left, h.operands]
      exact List.zip_swap as params
    have hidsText : p.hierarchyIds o = ids := by
      simp only [hierarchyIds, h.kind, hbody, hargs, List.take_left]
    have htext : p.headText o = level.keyword.text ++ p.depsText ds ++
        Program.clause Keyword.ids.text (p.refs ids) ++
          Program.clause Keyword.args.text (p.bindingsText (params.zip as)) := by
      simp only [headText, h.op_kind, h.deps, hidsText, ← hpairs]
      cases level <;> rfl
    rw [htext]
    simp only [String.toList_append, List.append_assoc, List.cons_append]
    have hargsEnd := avoids_clause .args (p.bindingsText (params.zip as)) hrest
    have hidsEnd := avoids_clause .ids (p.refs ids) hargsEnd
    refine lexes_keyword _ (avoids_deps ds hidsEnd) (lexes_deps hp ds ?_)
    exact lexes_ids hp ids (lexes_bindingClause hp .args _ hl)
  | finish h =>
    refine .leaf (regionHeads_of_has h rfl) fun rest us hrest hl => ?_
    have htext : p.headText o = "end" := by
      simp only [headText, h.op_kind]
    rw [htext, Source.Op.tokens]
    exact lexes_keyword .finish hrest hl

end heads

/-! ## Lines -/

theorem toList_indent (level : Nat) : (indent level).toList = List.replicate (2 * level) ' ' := by
  induction level with
  | zero => rfl
  | succ level ih =>
    rw [indent, String.toList_join] at ih ⊢
    rw [List.replicate_succ, List.flatMap_cons, ih, Nat.mul_succ, Nat.add_comm, List.replicate_add]
    rfl

theorem lexes_indent (level : Nat) (hl : Lexes rest us) :
    Lexes ((indent level).toList ++ rest) us := by
  rw [toList_indent]
  exact (lexes_blanks _).2 hl

theorem avoids_indent (level : Nat) : Avoids isFeed ((indent (level + 1)).toList ++ rest) := by
  rw [toList_indent]
  exact avoids_cons.2 (by decide)

/-- Lines, the last one ended, that are lexed as `ts`. -/
def LexesLines (text : String) (ts : List Token) : Prop :=
  (∀ rest, Avoids isFeed rest → Avoids isFeed (text.toList ++ rest)) ∧
    ∀ rest us, Avoids isFeed rest → Lexes rest us → Lexes (text.toList ++ rest) (ts ++ us)

theorem lexesLines_join {text : OpId → String} {stmt : OpId → Source.Stmt} {ops : List OpId}
    (h : ∀ o ∈ ops, LexesLines (text o) ((stmt o).tokens ++ [.newline])) :
    LexesLines (String.join (ops.map text)) (stmtTokens (ops.map stmt)) := by
  induction ops with
  | nil => exact ⟨fun _ h => h, fun _ _ _ hl => hl⟩
  | cons o ops ih =>
    rw [List.forall_mem_cons] at h
    have ih := ih h.2
    rw [List.map_cons, List.map_cons, stmtTokens]
    have hjoin : (String.join (text o :: ops.map text)).toList =
        (text o).toList ++ (String.join (ops.map text)).toList := by
      rw [String.toList_join, String.toList_join, List.flatMap_cons]
    refine ⟨fun rest hrest => ?_, fun rest us hrest hl => ?_⟩
    · rw [hjoin, List.append_assoc]
      exact h.1.1 _ (ih.1 rest hrest)
    · have := h.1.2 _ _ (ih.1 rest hrest) (ih.2 rest us hrest hl)
      rw [hjoin]
      simpa only [List.append_assoc, List.cons_append, List.nil_append] using this

/-- The opening of a body, its lines, and what closes it. -/
theorem lexes_body (level : Nat) {text : String} {stmts : List Source.Stmt}
    (h : LexesLines text (stmtTokens stmts)) (hl : Lexes rest us) :
    Lexes ((" \x7b\n" ++ text).toList ++ ((indent level).toList ++ ("\x7d".toList ++ rest)))
      ((Source.Block.mk stmts Source.nowhere).tokens ++ us) := by
  rw [String.toList_append, List.append_assoc, Source.Block.tokens, List.cons_append,
    List.cons_append, List.append_assoc]
  have hclose : Avoids isFeed ((indent level).toList ++ ("\x7d".toList ++ rest)) := by
    cases level with
    | zero => exact avoids_cons.2 (by decide)
    | succ level => exact avoids_indent level
  refine lexes_blank.2 (lexes_sign .lbrace (by decide) (lexes_newline (h.1 _ hclose) ?_))
  exact h.2 _ _ hclose (lexes_indent level (lexes_sign .rbrace (by decide) hl))

theorem avoids_body (text : String) (rest : List Char) :
    Avoids isWordChar ((" \x7b\n" ++ text).toList ++ rest) := by
  rw [String.toList_append]
  exact avoids_cons.2 (by decide)

/-- What stands in front of an operation that has results. -/
theorem lexes_results (hp : p.Spellable) (vs : List ValueId) (hl : Lexes rest us) :
    Lexes ((if vs.isEmpty then "" else s!"{p.refs vs} = ").toList ++ rest)
      (Source.resultTokens (vs.map p.sourceName) ++ us) := by
  cases vs with
  | nil => exact hl
  | cons v vs =>
    show Lexes ((p.refs (v :: vs) ++ " = ").toList ++ rest) _
    rw [List.map_cons, Source.resultTokens, List.append_assoc, String.toList_append,
      List.append_assoc]
    refine lexes_refs hp (v :: vs) (avoids_cons.2 (by decide)) (lexes_blank.2 ?_)
    exact lexes_sign .equals (by decide) (lexes_blank.2 hl)

theorem lexesLines_op (hp : p.Printable) (depth level : Nat) (o : OpId) (hlive : p.isLive o = true)
    (hnests : p.Shallow depth [o]) :
    LexesLines (p.opTextUpTo depth (level + 1) o) ((p.sourceStmt depth o).tokens ++ [.newline]) := by
  induction depth generalizing level o with
  | zero => cases hnests
  | succ depth ih =>
    have hnests : p.Shallow depth (p.nested o) := hnests o List.mem_cons_self
    have hlines : ∀ b ∈ (p.op o).regions, LexesLines
        (String.join ((p.block b).ops.map (p.opTextUpTo depth (level + 1 + 1))))
        (stmtTokens ((p.block b).ops.map (p.sourceStmt depth))) := by
      intro b hb
      refine lexesLines_join fun z hz => ?_
      have hz : z ∈ p.nested o := List.mem_flatMap.2 ⟨b, hb, hz⟩
      refine ih (level + 1) z (hp.nested o hlive z hz) ?_
      cases depth with
      | zero => exact absurd hz (by rw [show p.nested o = [] from hnests]; exact List.not_mem_nil)
      | succ depth => exact List.forall_mem_singleton.2 (hnests z hz)
    have hheads := heads_of_form hp.toSpellable (form_of_laidOut (hp.laidOut o hlive)
      fun b => .mk ((p.block b).ops.map (p.sourceStmt depth)) Source.nowhere)
    rw [sourceStmt, Source.Stmt.tokens]
    constructor
    · intro rest hrest
      rw [opTextUpTo]
      simp only [String.toList_append, List.append_assoc]
      exact avoids_indent level
    intro rest us hrest hl
    rw [opTextUpTo]
    simp only [show (p.op o).kind = p.kind o from rfl]
    cases hheads with
    | leaf hkind h =>
      have hhead := h _ _ (avoids_cons.2 (by decide)) (lexes_newline hrest hl)
      have := lexes_indent (level + 1) (lexes_results hp.toSpellable (p.op o).results hhead)
      simp only [hkind]
      simpa using this
    | one ts b hkind hregions htokens h =>
      rw [hregions, List.forall_mem_singleton] at hlines
      have hbody := h _ _ (avoids_body _ _) (lexes_body (level + 1) hlines
        (lexes_newline hrest hl))
      have := lexes_indent (level + 1) (lexes_results hp.toSpellable (p.op o).results hbody)
      simp only [hkind, hregions, htokens]
      simpa using this
    | two ts b c hkind hregions htokens h =>
      rw [hregions, List.forall_mem_cons, List.forall_mem_singleton] at hlines
      have helse := lexes_keyword .otherwise (avoids_body _ _) (lexes_body (level + 1) hlines.2
        (lexes_newline hrest hl))
      have hbody := h _ _ (avoids_body _ _) (lexes_body (level + 1) hlines.1
        (lexes_blank.2 helse))
      have := lexes_indent (level + 1) (lexes_results hp.toSpellable (p.op o).results hbody)
      simp only [hkind, hregions, htokens]
      simpa [Keyword.text] using this

/-! ## Functions -/

theorem lexes_params (hp : p.Spellable) (args : List ValueId) (hrest : Avoids isWordChar rest)
    (hl : Lexes rest us) :
    Lexes ((", ".intercalate (args.map fun a => s!"{p.ref a}: {(p.valueType a).text}")).toList ++ rest)
      (commas Source.Param.tokens
        (args.map fun a => ⟨p.sourceName a, (p.valueType a).source⟩) ++ us) := by
  have hcommas : commas Source.Param.tokens
      (args.map fun a => ⟨p.sourceName a, (p.valueType a).source⟩) =
      commas (fun a => .value (p.sourceName a).text :: .mark .colon ::
        (p.valueType a).source.tokens) args := by
    cases args with
    | nil => rfl
    | cons v vs => simp only [commas, List.map_cons, List.flatMap_map]; rfl
  rw [hcommas]
  refine lexes_list (fun a rest us hrest hl => ?_) args hrest hl
  show Lexes ((p.ref a ++ (Mark.colon.text ++ " ") ++ (p.valueType a).text).toList ++ rest) _
  simp only [String.toList_append, List.append_assoc, List.cons_append]
  refine lexes_ref hp a (avoids_cons.2 (by decide)) (lexes_sign .colon (by decide) ?_)
  exact lexes_blank.2 (lexes_type (fun rank space h => hp.ranks a rank space h) hrest hl)

theorem funcText_eq (f : Func) : p.funcText f = "func @" ++ f.name ++ "(" ++
    ", ".intercalate ((p.block f.body).args.map
      fun a => s!"{p.ref a}: {(p.valueType a).text}") ++ ") \x7b\n" ++ p.blockText 1 f.body ++
        "\x7d\n" := rfl

/-- The text of a function up to its last line end. -/
theorem lexes_func (hp : p.Printable) {f : Func} (hf : f ∈ p.funcs)
    (hl : Lexes ('\n' :: rest) us) :
    Lexes ((p.funcText f).toList ++ rest) ((p.sourceFunc f).tokens ++ us) := by
  have hlines : LexesLines (p.blockText 1 f.body) (stmtTokens ((p.block f.body).ops.map
      (p.sourceStmt (p.blocks.size + 1)))) := by
    refine lexesLines_join fun o ho => ?_
    refine lexesLines_op hp _ 0 o (hp.bodies f hf o ho) ?_
    exact List.forall_mem_singleton.2 (hp.shallow f hf o ho)
  have hbody := lexes_body 0 hlines hl
  have hparams := lexes_parens (fun _ _ => lexes_params hp.toSpellable (p.block f.body).args) hbody
  have hname := lexes_token (hp.funcs f hf) (avoids_cons.2 (show isWordChar '(' = false by decide))
    hparams
  have hfunc := lexes_keyword .func (avoids_cons.2 (by decide)) (lexes_blank.2 hname)
  rw [Source.Func.tokens]
  simpa [funcText_eq, Keyword.text, Token.spelling, toList_indent, sourceFunc, sourceBlock]
    using hfunc

theorem avoids_funcText (f : Func) : Avoids isFeed ((p.funcText f).toList ++ rest) := by
  simp [funcText_eq, Avoids, isFeed]

/-- The text of a program spells its source tree. -/
theorem Printable.lexes_text (hp : p.Printable) : Lexes p.text.toList p.source.tokens := by
  have hfuncs := hp.funcs
  rw [text, source, Source.Module.tokens, String.toList_intercalate]
  suffices h : ∀ fs : List Func, (∀ f ∈ fs, f ∈ p.funcs) →
      Lexes ("\n".toList.intercalate ((fs.map p.funcText).map String.toList))
        ((fs.map p.sourceFunc).flatMap fun f => f.tokens ++ [.newline]) from
    h p.funcs fun _ hf => hf
  intro fs hfs
  induction fs with
  | nil => exact lexes_nil
  | cons f fs ih =>
    rw [List.forall_mem_cons] at hfs
    have ih := ih hfs.2
    rw [List.map_cons, List.map_cons, List.map_cons, List.flatMap_cons, List.append_assoc]
    cases fs with
    | nil =>
      have := lexes_func hp hfs.1 (lexes_newline (avoids_nil _) lexes_nil)
      simpa [List.intercalate] using this
    | cons g fs =>
      have hfirst : Avoids isFeed
          ("\n".toList.intercalate (((g :: fs).map p.funcText).map String.toList)) := by
        rw [List.map_cons, List.map_cons, intercalate_cons]
        exact avoids_funcText g
      have := lexes_func hp hfs.1 (lexes_newline hfirst ih).feed
      rw [List.map_cons, List.map_cons, List.intercalate_cons_cons]
      simpa using this

/-- The text of a program is parsed as its source tree, but for positions. -/
theorem Printable.parse_text (hp : p.Printable) :
    ∃ m, Source.parse p.text = ⟨some m, []⟩ ∧ m.plain = p.source.plain := by
  obtain ⟨htokens, hstrays⟩ := hp.lexes_text.lex
  obtain ⟨m, hm, hplain⟩ := Source.readModule_of_tokens htokens p.text.utf8ByteSize
  refine ⟨m, ?_, hplain⟩
  rw [Source.parse]
  simp only [hm, hstrays, List.map_nil]

end Program

end AsyncOrder
