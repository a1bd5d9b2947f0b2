import AsyncOrder.Proofs.Source.Cursors

/-!
# What is read by trial

    Exact size n r G     with at most n tokens left in a text of size bytes, r reads G

A grammar begins with some of the tokens that are left, and with no more.  All that may follow
them is asked for, as the furthest.  Among these tokens, what is read is the longest sentence that
they begin with; behind it the reader stands, whatever was tried further on.  If they begin with no
sentence, the reader fails (`Answer`).

So what has been tried in vain further on is no part of any sentence there, and a reader that goes
on instead has to take nothing (`Exact.idle`).  The rules follow the grammar.  A repetition is a
round and the repetition again, or nothing (`Exact.many`, `Exact.more`); its readers count rounds,
of which there are more than tokens.
-/

namespace AsyncOrder.Source

open Grammar

variable {α β γ : Type} {size n m : Nat} {i j k : Input} {c : Cursor} {ts us vs : List Lexeme}

/-! ## Steps of readers -/

section

variable {r : Reader α} {s : Reader β} {a : α}

theorem run_map {f : α → β} {o : Option α} (h : r i = (o, j)) : r.map f i = (o.map f, j) := by
  rw [Reader.map, h]
  cases o <;> rfl

theorem run_seq {f : α → β → γ} {o : Option β} (h : r i = (some a, j)) (h' : s j = (o, k)) :
    Reader.seq f r s i = (o.map (f a), k) := by
  rw [Reader.seq, h]
  exact run_map h'

theorem run_seq_none {f : α → β → γ} (h : r i = (none, j)) : Reader.seq f r s i = (none, j) := by
  rw [Reader.seq, h]

theorem run_orElse_some {r' : Reader α} (h : r i = (some a, j)) : r.orElse r' i = (some a, j) := by
  rw [Reader.orElse, h]

theorem run_orElse_none {r' : Reader α} (h : r i = (none, j)) :
    r.orElse r' i = r' (j.moveTo i.cursor) := by
  rw [Reader.orElse, h]

theorem run_orNot_some {b : α} (h : r i = (some a, j)) : Reader.orNot b r i = (some a, j) := by
  rw [Reader.orNot, h]

theorem run_orNot_none {b : α} (h : r i = (none, j)) :
    Reader.orNot b r i = (some b, j.moveTo i.cursor) := by
  rw [Reader.orNot, h]

theorem run_withSpan {f : α → Span → β} {o : Option α} (h : r i = (o, j)) :
    Reader.withSpan f r i = (o.map fun a => f a ⟨i.cursor.start, j.cursor.stop⟩, j) := by
  rw [Reader.withSpan, h]
  cases o <;> rfl

theorem run_one_cons {t : Terminal} {x : Lexeme} {rest : List Lexeme} (hx : x.token.terminal = t)
    (hrest : i.cursor.rest = x :: rest) :
    Reader.one t i = (some x, i.moveTo ⟨i.cursor.pos + 1, rest, x.span.stop⟩) := by
  rw [Reader.one, hrest]
  exact if_pos hx

theorem run_one_of_clear {t : Terminal} (h : Clear [t] i.cursor.rest) :
    Reader.one t i = (none, i.miss (.terminal t)) := by
  rw [Reader.one]
  split
  · next x xs hrest =>
    rw [hrest, clear_cons, List.mem_singleton] at h
    exact if_neg h
  · rfl

theorem clear_or_cons (t : Terminal) (rest : List Lexeme) :
    Clear [t] rest ∨ ∃ x xs, rest = x :: xs ∧ x.token.terminal = t := by
  cases rest with
  | nil => exact Or.inl clear_nil
  | cons x xs =>
    by_cases hx : x.token.terminal = t
    · exact Or.inr ⟨x, xs, rfl, hx⟩
    · exact Or.inl (clear_cons.2 (by rwa [List.mem_singleton]))

end

/-! ## Exactness -/

/-- What a reader that is right about `G` returns, and where it stands then. -/
inductive Answer (size : Nat) (G : Grammar α) (i : Input) : Option α × Input → Prop where
  /-- The longest sentence with which `d.tokens ++ vs` begin; these begin some, and no more do. -/
  | reads {j : Input} {c : Cursor} (d : Derivation G) (vs : List Lexeme) (hd : d.Eager)
      (h : i.Asks G (d.tokens ++ vs) j) (hc : i.cursor.Passes d.tokens c)
      (hts : G.Begins (d.tokens ++ vs))
      (hmax : ∀ ws, ws ≠ [] → ws <+: vs → ¬ G.Derives (d.tokens ++ ws)) :
      Answer size G i (some (d.value size), j.moveTo c)
  /-- There is none with which `ts` begin. -/
  | refuses {j : Input} {c : Cursor} {ts : List Lexeme} (h : i.Asks G ts j) (hts : G.Begins ts)
      (hno : ∀ us, us <+: ts → ¬ G.Derives us) : Answer size G i (none, j.moveTo c)

/-- With at most `n` tokens left in a text of `size` bytes, the reader is right about the grammar.
Where something further on was asked for and it cannot begin, it takes nothing. -/
structure Exact (size n : Nat) (r : Reader α) (G : Grammar α) : Prop where
  answer {i : Input} (hi : i.Fresh) (hlen : i.cursor.rest.length ≤ n) : Answer size G i (r i)
  idle {i : Input} (hi : i.Past) (hclear : Clear G.first i.cursor.rest) :
    (∃ e : Derivation G, e.Eager ∧ e.tokens = [] ∧ r i = (some (e.value size), i)) ∨
      G.nullable = false ∧ r i = (none, i)

/-- What is read is all with which a sentence begins. -/
theorem Answer.accepts {G : Grammar α} (d : Derivation G) (hd : d.Eager) (h : i.Asks G d.tokens j) :
    Answer size G i (some (d.value size), j) := by
  have h' : Answer size G i (some (d.value size), j.moveTo j.cursor) := by
    refine .reads d [] hd ?_ h.toPasses ?_ ?_
    · rwa [List.append_nil]
    · rw [List.append_nil]
      exact begins_tokens d
    · exact fun ws hne hprefix => absurd (List.prefix_nil.1 hprefix) hne
  exact h'

/-! An answer about a grammar is one about every other of the same sentences. -/

section

variable {G : Grammar α} {H : Grammar β} (hsame : ∀ ts, G.Derives ts ↔ H.Derives ts)
include hsame

theorem Answer.reads_congr (e : Derivation H) (vs : List Lexeme) (he : e.Eager)
    (h : i.Asks G (e.tokens ++ vs) j) (hc : i.cursor.Passes e.tokens c)
    (hts : G.Begins (e.tokens ++ vs))
    (hmax : ∀ ws, ws ≠ [] → ws <+: vs → ¬ G.Derives (e.tokens ++ ws)) :
    Answer size H i (some (e.value size), j.moveTo c) :=
  .reads e vs he (h.congr hsame) hc ((begins_congr hsame).1 hts) fun ws hne hprefix =>
    mt (hsame _).2 (hmax ws hne hprefix)

theorem Answer.refuses_congr (h : i.Asks G ts j) (hts : G.Begins ts)
    (hno : ∀ us, us <+: ts → ¬ G.Derives us) : Answer size H i (none, j.moveTo c) :=
  .refuses (h.congr hsame) ((begins_congr hsame).1 hts) fun us hus => mt (hsame us).2 (hno us hus)

end

namespace Exact

theorem mono {r : Reader α} {G : Grammar α} (h : Exact size n r G) (hmn : m ≤ n) :
    Exact size m r G where
  answer hi hlen := h.answer hi (Nat.le_trans hlen hmn)
  idle := h.idle

protected theorem token (f : Lexeme → α) (t : Terminal) :
    Exact size n ((Reader.one t).map f) (.token f t) where
  answer {i} hi _ := by
    rcases clear_or_cons t i.cursor.rest with hclear | ⟨x, rest, hrest, hx⟩
    · rw [run_map (run_one_of_clear hclear)]
      refine .refuses (c := i.cursor) (.token_missed hi hclear) (begins_nil _) fun us hus h => ?_
      obtain rfl := List.prefix_nil.1 hus
      exact h.ne_nil rfl rfl
    · rw [run_map (run_one_cons hx hrest)]
      have hc : i.cursor.Passes [x] ⟨i.cursor.pos + 1, rest, x.span.stop⟩ := ⟨rfl, hrest, rfl⟩
      exact .accepts (.token x hx) trivial (.token hi hc)
  idle {i} hi hclear := by
    rw [run_map (run_one_of_clear hclear), Input.miss_of_past hi]
    exact Or.inr ⟨rfl, rfl⟩

/-! ### Sequences -/

section

variable {x : Grammar α} {y : Grammar β} {rx : Reader α} {ry : Reader β} {f : α → β → γ}

theorem idle_seq (hx : Exact size n rx x)
    (hy : ∀ d : Derivation x, d.tokens = [] → Exact size 0 ry y) (hi : i.Past)
    (hclear : Clear (seq f x y).first i.cursor.rest) :
    (∃ e : Derivation (seq f x y), e.Eager ∧ e.tokens = [] ∧
      (Reader.seq f rx ry) i = (some (e.value size), i)) ∨
      (seq f x y).nullable = false ∧ (Reader.seq f rx ry) i = (none, i) := by
  rw [first, clear_append, clear_ite] at hclear
  rcases hx.idle hi hclear.1 with ⟨d, hd, hdnil, hrun⟩ | ⟨hnull, hrun⟩
  · rcases (hy d hdnil).idle hi (hclear.2 (d.nullable_of_tokens_eq_nil hdnil)) with
      ⟨e, he, henil, hrun'⟩ | ⟨hnull, hrun'⟩
    · refine Or.inl ⟨.seq d e, ⟨hd, he, henil ▸ clear_nil⟩, ?_, run_seq hrun hrun'⟩
      rw [Derivation.tokens, hdnil, henil, List.append_nil]
    · exact Or.inr ⟨by rw [nullable, hnull, Bool.and_false], run_seq hrun hrun'⟩
  · exact Or.inr ⟨by rw [nullable, hnull, Bool.false_and], run_seq_none hrun⟩

/-- One part and then the other, for which as many tokens are left as the first may leave. -/
theorem seq_of_le (hpred : x.Predictive) (hapart : ∀ t ∈ y.first, t ∉ x.further)
    (hx : Exact size n rx x)
    (hy : ∀ (d : Derivation x) (m : Nat), d.tokens.length + m ≤ n → Exact size m ry y) :
    Exact size n (Reader.seq f rx ry) (.seq f x y) where
  answer {i} hi hlen := by
    have hxy : Parted x y := hpred.parted hapart
    have hanswer := hx.answer hi hlen
    generalize hrun : rx i = out at hanswer
    cases hanswer with
    | refuses h hts hno =>
      rw [run_seq_none hrun]
      refine .refuses (h.seq_of_refused hxy hts (hno _ List.prefix_rfl)) hts.seq_left ?_
      intro us hus hall
      obtain ⟨p, q, rfl, hp, -⟩ := derives_seq.1 hall
      exact hno p ((List.prefix_append p q).trans hus) hp
    | @reads j c d vs hd h hc hts hmax =>
      have hyd := hy d c.rest.length (hc.length_eq ▸ hlen)
      cases vs with
      | nil =>
        rw [List.append_nil] at h hts
        obtain rfl := hc.unique h.toPasses
        have hanswer := hyd.answer h.fresh Nat.le.refl
        generalize hrun' : ry j = out at hanswer
        cases hanswer with
        | reads e ws he h' hc' hts' hmax' =>
          rw [run_seq hrun hrun']
          refine .reads (.seq d e) ws (Derivation.eager_seq hapart hd he) ?_ (hc.trans hc') ?_ ?_
          · rw [Derivation.tokens, List.append_assoc]
            exact h.seq hxy (derives_tokens d) hts' h'
          · rw [Derivation.tokens, List.append_assoc]
            exact hts'.seq (derives_tokens d)
          · intro us hne hprefix hall
            rw [Derivation.tokens, List.append_assoc] at hall
            have hus : y.Begins (e.tokens ++ us) :=
              hts'.of_prefix ((List.prefix_append_right_inj _).2 hprefix)
            exact hmax' us hne hprefix (derives_of_derives_seq hxy (derives_tokens d) hus hall)
        | refuses h' hts' hno' =>
          rw [run_seq hrun hrun']
          exact .refuses (h.seq hxy (derives_tokens d) hts' h') (hts'.seq (derives_tokens d))
            (not_derives_seq_of_refused hxy (derives_tokens d) hts' hno')
      | cons z zs =>
        have hno : ¬ x.Derives (d.tokens ++ z :: zs) :=
          hmax _ (List.cons_ne_nil z zs) List.prefix_rfl
        have hpast := h.past hc (List.cons_ne_nil z zs) hts hno
        have hclear : Clear y.first (j.moveTo c).cursor.rest := by
          rw [Input.cursor_moveTo, (h.toPasses.of_append hc).rest, List.cons_append, clear_cons]
          exact fun hz => hapart _ hz ((derives_tokens d).mem_further hpred hts)
        rcases hyd.idle hpast hclear with ⟨e, he, hnil, hrun'⟩ | ⟨hnull, hrun'⟩
        · rw [run_seq hrun hrun']
          refine .reads (.seq d e) (z :: zs) (Derivation.eager_seq hapart hd he) ?_ ?_ ?_ ?_
          all_goals rw [Derivation.tokens, hnil, List.append_nil]
          · exact h.seq_of_refused hxy hts hno
          · exact hc
          · exact hts.seq_left
          · intro ws hne hprefix hall
            have hws : x.Begins (d.tokens ++ ws) :=
              hts.of_prefix ((List.prefix_append_right_inj _).2 hprefix)
            exact hmax ws hne hprefix (derives_of_begins hxy hws hall).1
        · rw [run_seq hrun hrun']
          refine .refuses (h.seq_of_refused hxy hts hno) hts.seq_left fun us hus hall => ?_
          exact (derives_of_begins hxy (hts.of_prefix hus) hall).2.ne_nil hnull rfl
  idle hi hclear := idle_seq hx (fun d hd => hy d 0 (by simp [hd])) hi hclear

variable (hpred : x.Predictive) (hapart : ∀ t ∈ y.first, t ∉ x.further) (hx : Exact size n rx x)
include hpred hapart hx

protected theorem seq (hy : Exact size n ry y) : Exact size n (Reader.seq f rx ry) (.seq f x y) :=
  seq_of_le hpred hapart hx fun _ _ hm => hy.mono (by omega)

/-- A part that is some token leaves fewer. -/
theorem seq_lt (hnull : x.nullable = false) (hy : ∀ m < n, Exact size m ry y) :
    Exact size n (Reader.seq f rx ry) (.seq f x y) := by
  refine seq_of_le hpred hapart hx fun d m hm => hy m ?_
  have hpos := d.length_pos hnull
  omega

end

section

variable {x : Grammar α} {rx : Reader α} {rnl : Reader (List Lexeme)} (habsorbs : x.Absorbs)
include habsorbs

theorem derives_upTo_iff (ts : List Lexeme) : x.Derives ts ↔ (x.upTo newlines).Derives ts := by
  constructor
  · exact fun h => derives_seq.2 ⟨ts, [], (List.append_nil ts).symm, h, derives_nil _ rfl⟩
  · intro h
    obtain ⟨_, _, rfl, ⟨d, rfl⟩, ⟨ns, rfl⟩⟩ := derives_seq.1 h
    obtain ⟨e, he, -⟩ := habsorbs d ns
    exact ⟨e, he⟩

theorem derives_append_newline {z : Lexeme} (h : x.Derives ts) (hz : z.token.terminal = .newline) :
    x.Derives (ts ++ [z]) := by
  obtain ⟨d, rfl⟩ := h
  obtain ⟨e, he, -⟩ := habsorbs d (.manyCons (.token z hz) .manyNil)
  exact ⟨e, he⟩

/-- Newlines behind what can take them have been read. -/
theorem upTo (hx : Exact size n rx x) (hnl : Exact size n rnl newlines) :
    Exact size n (Reader.seq (fun a _ => a) rx rnl) (x.upTo newlines) where
  answer {i} hi hlen := by
    have hsame := derives_upTo_iff habsorbs
    have hanswer := hx.answer hi hlen
    generalize hrun : rx i = out at hanswer
    cases hanswer with
    | refuses h hts hno =>
      rw [run_seq_none hrun]
      exact .refuses_congr hsame h hts hno
    | @reads j c d vs hd h hc hts hmax =>
      have hclear : Clear newlines.first c.rest := by
        intro z hz hmem
        have hd' := derives_append_newline habsorbs (derives_tokens d) (List.mem_singleton.1 hmem)
        cases vs with
        | nil =>
          rw [List.append_nil] at h
          obtain rfl := hc.unique h.toPasses
          exact h.not_follows hz ⟨z, rfl, hd'.begins⟩
        | cons z' zs =>
          rw [(h.toPasses.of_append hc).rest, List.cons_append, List.head?_cons,
            Option.mem_some_iff] at hz
          subst hz
          exact hmax [z'] (List.cons_ne_nil z' []) ⟨zs, rfl⟩ hd'
      cases vs with
      | nil =>
        rw [List.append_nil] at h hts
        obtain rfl := hc.unique h.toPasses
        have hfirst : ∀ t ∈ newlines.first, x.Follows d.tokens t := by
          intro t ht
          obtain ⟨z, hz⟩ := exists_lexeme t
          exact ⟨z, hz, (derives_append_newline habsorbs (derives_tokens d)
            (hz.trans (List.mem_singleton.1 ht))).begins⟩
        have hanswer := hnl.answer h.fresh (by have := h.length_eq; omega)
        generalize hrun' : rnl j = out at hanswer
        cases hanswer with
        | @reads k c e ws he h' hc' hts' =>
          obtain ⟨hnil, rfl⟩ := List.append_eq_nil_iff.1 (h'.eq_nil_of_clear hts' hclear)
          rw [hnil] at h' hc'
          have hasks := h.again h' hfirst
          rw [run_seq hrun hrun']
          refine .reads_congr hsame (.seq d e) [] ⟨hd, he, hnil ▸ clear_nil⟩ ?_ ?_ ?_ ?_
          all_goals simp only [Derivation.tokens, hnil, List.append_nil]
          · exact hasks
          · rw [hc'.eq_of_nil]
            exact h.toPasses
          · exact hts
          · exact hmax
        | refuses _ _ hno => exact absurd (derives_nil _ rfl) (hno [] List.nil_prefix)
      | cons z zs =>
        have hno := hmax _ (List.cons_ne_nil z zs) List.prefix_rfl
        have hpast := h.past hc (List.cons_ne_nil z zs) hts hno
        rcases hnl.idle hpast hclear with ⟨e, he, hnil, hrun'⟩ | ⟨hnull, -⟩
        · rw [run_seq hrun hrun']
          refine .reads_congr hsame (.seq d e) (z :: zs) ⟨hd, he, hnil ▸ clear_nil⟩ ?_ ?_ ?_ ?_
          all_goals rw [Derivation.tokens, hnil, List.append_nil]
          · exact h
          · exact hc
          · exact hts
          · exact hmax
        · cases hnull
  idle hi hclear := idle_seq hx (fun _ _ => hnl.mono (Nat.zero_le n)) hi hclear

end

/-! ### Choices and optional parts -/

section

variable {x y : Grammar α} {rx ry : Reader α}

protected theorem alt (hx : Exact size n rx x) (hy : Exact size n ry y)
    (hxnull : x.nullable = false) (hynull : y.nullable = false)
    (hapart : ∀ t ∈ y.first, t ∉ x.first) : Exact size n (rx.orElse ry) (.alt x y) where
  answer {i} hi hlen := by
    have hanswer := hx.answer hi hlen
    generalize hrun : rx i = out at hanswer
    cases hanswer with
    | reads d vs hd h hc hts hmax =>
      have hne : ∀ ws, d.tokens ++ ws ≠ [] := fun ws h =>
        d.tokens_ne_nil hxnull (List.append_eq_nil_iff.1 h).1
      rw [run_orElse_some hrun]
      refine .reads (.left d) vs hd (h.left hapart (hne vs) hts) hc
        (begins_alt.2 (Or.inl hts)) fun ws hws hprefix hall => ?_
      rcases derives_alt.1 hall with hall | hall
      · exact hmax ws hws hprefix hall
      · exact not_begins_of_alt hapart (hne ws)
          (hts.of_prefix ((List.prefix_append_right_inj _).2 hprefix)) hall.begins
    | @refuses j c ts h hts hno =>
      rw [run_orElse_none hrun, Input.moveTo_moveTo]
      cases ts with
      | nil =>
        rw [← h.toPasses.eq_of_nil, Input.moveTo_cursor]
        have hanswer := hy.answer h.fresh (by rwa [h.toPasses.eq_of_nil])
        generalize ry j = out at hanswer
        cases hanswer with
        | reads e vs he h' hc hts' hmax =>
          refine .reads (.right e) vs he (h.right hapart h' hts') (h.toPasses.trans hc)
            (begins_alt.2 (Or.inr hts')) fun ws hws hprefix hall => ?_
          rcases derives_alt.1 hall with hall | hall
          · exact not_begins_of_alt hapart (hall.ne_nil hxnull) hall.begins
              (hts'.of_prefix ((List.prefix_append_right_inj _).2 hprefix))
          · exact hmax ws hws hprefix hall
        | refuses h' hts' hno' =>
          refine .refuses (h.right hapart h' hts') (begins_alt.2 (Or.inr hts')) fun us hus hall => ?_
          rcases derives_alt.1 hall with hall | hall
          · exact not_begins_of_alt hapart (hall.ne_nil hxnull) hall.begins (hts'.of_prefix hus)
          · exact hno' us hus hall
      | cons z zs =>
        have h' : i.Asks x ([] ++ z :: zs) j := h
        have hpast : (j.moveTo i.cursor).Past :=
          h'.past (.refl i.cursor) (List.cons_ne_nil z zs) hts (hno _ List.prefix_rfl)
        have hclear : Clear y.first i.cursor.rest := by
          rw [h.rest, List.cons_append, clear_cons]
          exact fun hz => hapart _ hz hts.mem_first
        rcases hy.idle hpast hclear with ⟨e, -, hnil, -⟩ | ⟨-, hrun'⟩
        · exact absurd hnil (e.tokens_ne_nil hynull)
        · rw [hrun']
          refine .refuses (h.left hapart (List.cons_ne_nil z zs) hts) (begins_alt.2 (Or.inl hts))
            fun us hus hall => ?_
          rcases derives_alt.1 hall with hall | hall
          · exact hno us hus hall
          · exact not_begins_of_alt hapart (hall.ne_nil hynull) (hts.of_prefix hus) hall.begins
  idle {i} hi hclear := by
    obtain ⟨hxclear, hyclear⟩ := clear_append.1 hclear
    rcases hx.idle hi hxclear with ⟨e, -, hnil, -⟩ | ⟨-, hrun⟩
    · exact absurd hnil (e.tokens_ne_nil hxnull)
    · rcases hy.idle hi hyclear with ⟨e, -, hnil, -⟩ | ⟨-, hrun'⟩
      · exact absurd hnil (e.tokens_ne_nil hynull)
      · exact Or.inr ⟨by rw [nullable, hxnull, hynull, Bool.or_self],
          (run_orElse_none hrun).trans hrun'⟩

protected theorem optional (a : α) (hx : Exact size n rx x) (hnull : x.nullable = false) :
    Exact size n (Reader.orNot a rx) (.optional a x) where
  answer {i} hi hlen := by
    have hanswer := hx.answer hi hlen
    generalize hrun : rx i = out at hanswer
    cases hanswer with
    | reads d vs hd h hc hts hmax =>
      rw [run_orNot_some hrun]
      refine .reads (.present d) vs hd h.optional hc (begins_optional.2 hts) ?_
      intro ws hws hprefix hall
      rcases derives_optional.1 hall with hall | hall
      · exact hws (List.append_eq_nil_iff.1 hall).2
      · exact hmax ws hws hprefix hall
    | @refuses j c ts h hts hno =>
      rw [run_orNot_none hrun, Input.moveTo_moveTo]
      refine .reads .absent ts trivial h.optional (.refl i.cursor) (begins_optional.2 hts) ?_
      intro ws hws hprefix hall
      rcases derives_optional.1 hall with hall | hall
      · exact hws hall
      · exact hno ws hprefix hall
  idle {i} hi hclear := by
    rcases hx.idle hi hclear with ⟨e, -, hnil, -⟩ | ⟨-, hrun⟩
    · exact absurd hnil (e.tokens_ne_nil hnull)
    · exact Or.inl ⟨.absent, trivial, rfl, run_orNot_none hrun⟩

end

end Exact

/-! ## Other grammars of the same sentences -/

/-- The derivations are the same but for their shape, and mean `g` of what they meant. -/
structure Regroups (size : Nat) (G : Grammar α) (g : α → β) (H : Grammar β) : Prop where
  first : G.first = H.first
  nullable : G.nullable = H.nullable
  push (d : Derivation G) : ∃ e : Derivation H,
    e.tokens = d.tokens ∧ e.value size = g (d.value size) ∧ (d.Eager → e.Eager)
  pull (e : Derivation H) : ∃ d : Derivation G, d.tokens = e.tokens

theorem Regroups.derives_iff {G : Grammar α} {g : α → β} {H : Grammar β} (h : Regroups size G g H)
    (ts : List Lexeme) : G.Derives ts ↔ H.Derives ts := by
  constructor
  · rintro ⟨d, rfl⟩
    obtain ⟨e, he, -⟩ := h.push d
    exact ⟨e, he⟩
  · rintro ⟨e, rfl⟩
    exact h.pull e

namespace Exact

theorem regroup {G : Grammar α} {H : Grammar β} {g : α → β} {r : Reader α} {s : Reader β}
    (h : Exact size n r G) (hGH : Regroups size G g H)
    (hs : ∀ {i o j}, r i = (o, j) → s i = (o.map g, j)) : Exact size n s H where
  answer {i} hi hlen := by
    have hsame := hGH.derives_iff
    have hanswer := h.answer hi hlen
    generalize hrun : r i = out at hanswer
    cases hanswer with
    | reads d vs hd h hc hts hmax =>
      obtain ⟨e, htokens, hvalue, he⟩ := hGH.push d
      rw [← htokens] at h hc hts hmax
      rw [hs hrun, Option.map_some, ← hvalue]
      exact .reads_congr hsame e vs (he hd) h hc hts hmax
    | refuses h hts hno =>
      rw [hs hrun]
      exact .refuses_congr hsame h hts hno
  idle {i} hi hclear := by
    rcases h.idle hi (hGH.first ▸ hclear) with ⟨d, hd, hnil, hrun⟩ | ⟨hnull, hrun⟩
    · obtain ⟨e, htokens, hvalue, he⟩ := hGH.push d
      exact Or.inl ⟨e, he hd, htokens.trans hnil, hvalue ▸ hs hrun⟩
    · exact Or.inr ⟨hGH.nullable ▸ hnull, hs hrun⟩

protected theorem block {r : Reader Block} (f : Block → α) (h : Exact size n r Form.block) :
    Exact size n (r.map f) (.block f) := by
  refine h.regroup (g := f) ?_ run_map
  exact {
    first := rfl
    nullable := rfl
    push d := ⟨.block d, rfl, rfl, id⟩
    pull := fun (.block d) => ⟨d, rfl⟩ }

protected theorem spanned {x : Grammar α} {rx : Reader α} (f : α → Span → β)
    (hx : Exact size n rx x) (hnull : x.nullable = false) :
    Exact size n (Reader.withSpan f rx) (.spanned f x) where
  answer {i} hi hlen := by
    have hsame : ∀ ts, x.Derives ts ↔ (Grammar.spanned f x).Derives ts :=
      fun _ => derives_spanned.symm
    have hanswer := hx.answer hi hlen
    generalize hrun : rx i = out at hanswer
    cases hanswer with
    | @reads j c d vs hd h hc hts hmax =>
      have hspan : spanOf size d.tokens = _ := hc.spanOf_eq (d.tokens_ne_nil hnull)
      have hanswer : Answer size (.spanned f x) i
          (some ((Derivation.spanned (f := f) d).value size), j.moveTo c) :=
        .reads_congr hsame (.spanned d) vs hd h hc hts hmax
      rw [run_withSpan hrun]
      rwa [Derivation.value, hspan] at hanswer
    | refuses h hts hno =>
      rw [run_withSpan hrun]
      exact .refuses_congr hsame h hts hno
  idle {i} hi hclear := by
    rcases hx.idle hi hclear with ⟨e, -, hnil, -⟩ | ⟨-, hrun⟩
    · exact absurd hnil (e.tokens_ne_nil hnull)
    · exact Or.inr ⟨hnull, run_withSpan hrun⟩

/-! ### Repetitions -/

/-- A reader that looks how many tokens are left. -/
theorem rounds {r : Nat → Reader α} {G : Grammar α} (h : ∀ k, Exact size (min k n) (r (k + 1)) G) :
    Exact size n (fun i => r (i.cursor.rest.length + 1) i) G where
  answer hi hlen := (h _).answer hi (Nat.le_min.2 ⟨Nat.le.refl, hlen⟩)
  idle hi hclear := (h _).idle hi hclear

end Exact

/-! A repetition does not fail, so one of its rounds fails only as a whole. -/

section

variable {r : Reader α} {s : Reader γ} {f : α → β → β} {b : β}

theorem manyUpTo_total (fuel : Nat) (i : Input) :
    ∃ v j, Reader.manyUpTo f b r fuel i = (some v, j) := by
  induction fuel generalizing i with
  | zero => exact ⟨b, i, rfl⟩
  | succ fuel ih =>
    rw [Reader.manyUpTo]
    split
    · next a j _ =>
      obtain ⟨v, k, hk⟩ := ih j
      exact ⟨_, _, run_map hk⟩
    · exact ⟨_, _, rfl⟩

theorem manyUpTo_succ (fuel : Nat) : Reader.manyUpTo f b r (fuel + 1) =
    Reader.orNot b (Reader.seq f r (Reader.manyUpTo f b r fuel)) := by
  funext i
  rw [Reader.manyUpTo]
  split
  · next a j hr =>
    obtain ⟨v, k, hk⟩ := manyUpTo_total (f := f) (b := b) (r := r) fuel j
    rw [run_orNot_some (run_seq hr hk), run_map hk, Option.map_some]
  · next j hr => rw [run_orNot_none (run_seq_none hr)]

theorem moreUpTo_total (trailing : Bool) (fuel : Nat) (i : Input) :
    ∃ v j, Reader.moreUpTo trailing f b s r fuel i = (some v, j) := by
  induction fuel generalizing i with
  | zero => exact ⟨b, i, rfl⟩
  | succ fuel ih =>
    rw [Reader.moreUpTo]
    split
    · split
      · next a k _ =>
        obtain ⟨v, l, hl⟩ := ih k
        exact ⟨_, _, run_map hl⟩
      · exact ⟨_, _, rfl⟩
    · exact ⟨_, _, rfl⟩

/-- A separator and an item are tried together. -/
theorem moreUpTo_false_succ (fuel : Nat) : Reader.moreUpTo false f b s r (fuel + 1) =
    Reader.orNot b
      (Reader.seq f (Reader.seq (fun _ a => a) s r) (Reader.moreUpTo false f b s r fuel)) := by
  funext i
  rw [Reader.moreUpTo]
  split
  · next c j hs =>
    split
    · next a k hr =>
      obtain ⟨v, l, hl⟩ := moreUpTo_total (f := f) (b := b) (s := s) (r := r) false fuel k
      rw [run_orNot_some (run_seq (run_seq hs hr) hl), run_map hl, Option.map_some]
    · next k hr =>
      rw [run_orNot_none (run_seq_none (run_seq hs hr)), if_neg Bool.false_ne_true]
  · next j hs => rw [run_orNot_none (run_seq_none (run_seq_none hs))]

/-- A separator is taken also if no item stands behind it. -/
theorem moreUpTo_true_succ (fuel : Nat) : Reader.moreUpTo true f b s r (fuel + 1) =
    Reader.orNot b (Reader.seq (fun _ v => v) s
      (Reader.orNot b (Reader.seq f r (Reader.moreUpTo true f b s r fuel)))) := by
  funext i
  rw [Reader.moreUpTo]
  split
  · next c j hs =>
    split
    · next a k hr =>
      obtain ⟨v, l, hl⟩ := moreUpTo_total (f := f) (b := b) (s := s) (r := r) true fuel k
      rw [run_orNot_some (run_seq hs (run_orNot_some (run_seq hr hl))), run_map hl, Option.map_some]
    · next k hr =>
      rw [run_orNot_some (run_seq hs (run_orNot_none (run_seq_none hr))), if_pos rfl]
  · next j hs => rw [run_orNot_none (run_seq_none hs)]

end

section

variable {x : Grammar α} {s : Grammar γ} {f : α → β → β} {b : β}

theorem regroups_many (hnull : x.nullable = false) :
    Regroups size (optional b (seq f x (many f b x))) id (many f b x) where
  first := first_seq hnull
  nullable := rfl
  push
    | .absent => ⟨.manyNil, rfl, rfl, id⟩
    | .present (.seq d ds) => ⟨.manyCons d ds, rfl, rfl, fun h => ⟨h.1, h.2.1⟩⟩
  pull
    | .manyNil => ⟨.absent, rfl⟩
    | .manyCons d ds => ⟨.present (.seq d ds), rfl⟩

theorem regroups_more_false (hsnull : s.nullable = false) :
    Regroups size (optional b (seq f (seq (fun _ a => a) s x) (more false f b s x))) id
      (more false f b s x) where
  first := by
    have hnull : (seq (fun _ a => a) s x).nullable = false := by
      rw [nullable, hsnull, Bool.false_and]
    rw [first_more hsnull, ← first_seq hsnull]
    exact first_seq hnull
  nullable := rfl
  push
    | .absent => ⟨.moreNil, rfl, rfl, id⟩
    | .present (.seq (.seq c d) ds) =>
      ⟨.moreCons c d ds, (List.append_assoc ..).symm, rfl, fun h => ⟨h.1.1, h.1.2.1, h.2.1⟩⟩
  pull
    | .moreNil => ⟨.absent, rfl⟩
    | .moreCons c d ds => ⟨.present (.seq (.seq c d) ds), List.append_assoc ..⟩

theorem regroups_more_true (hsnull : s.nullable = false) :
    Regroups size (optional b (seq (fun _ v => v) s (optional b (seq f x (more true f b s x))))) id
      (more true f b s x) where
  first := (first_seq hsnull).trans (first_more hsnull).symm
  nullable := rfl
  push
    | .absent => ⟨.moreNil, rfl, rfl, id⟩
    | .present (.seq c .absent) => ⟨.moreLast c, (List.append_nil _).symm, rfl, And.left⟩
    | .present (.seq c (.present (.seq d ds))) =>
      ⟨.moreCons c d ds, rfl, rfl, fun h => ⟨h.1, h.2.1.1, h.2.1.2.1⟩⟩
  pull
    | .moreNil => ⟨.absent, rfl⟩
    | .moreCons c d ds => ⟨.present (.seq c (.present (.seq d ds))), rfl⟩
    | .moreLast c => ⟨.present (.seq c .absent), List.append_nil _⟩

end

namespace Exact

section

variable {x : Grammar α} {s : Grammar γ} {rx : Reader α} {rs : Reader γ} {f : α → β → β} {b : β}

/-- Reading the other grammar is reading this one. -/
theorem of_regroups {G H : Grammar α} {r : Reader α} (h : Exact size n r G)
    (hGH : Regroups size G id H) : Exact size n r H :=
  h.regroup hGH fun hrun => by rw [hrun, Option.map_id_fun, id]

/-- There are rounds enough if there is one for each token and one more. -/
theorem manyUpTo (hpred : x.Predictive) (hnull : x.nullable = false)
    (hapart : ∀ t ∈ x.first, t ∉ x.further) (hx : Exact size n rx x) (fuel : Nat) :
    ∀ m < fuel, m ≤ n → Exact size m (Reader.manyUpTo f b rx fuel) (many f b x) := by
  induction fuel with
  | zero => exact fun m hm => absurd hm (Nat.not_lt_zero m)
  | succ fuel ih =>
    intro m hm hmn
    have hround := (hx.mono hmn).seq_lt (f := f) hpred hapart hnull
      fun l hl => ih l (by omega) (by omega)
    rw [manyUpTo_succ]
    refine (hround.optional b ?_).of_regroups (regroups_many hnull)
    rw [nullable, hnull, Bool.false_and]

protected theorem many (hpred : x.Predictive) (hnull : x.nullable = false)
    (hapart : ∀ t ∈ x.first, t ∉ x.further) (hx : Exact size n rx x) :
    Exact size n (Reader.many f b rx) (many f b x) :=
  rounds fun k => manyUpTo hpred hnull hapart hx (k + 1) _ (by omega) (Nat.min_le_right k n)

variable (hs : s.Predictive) (hx : x.Predictive) (hsnull : s.nullable = false)
  (hxnull : x.nullable = false) (hitem : ∀ t ∈ x.first, t ∉ s.further)
  (hround : ∀ t ∈ s.first, t ∉ x.further)
include hs hx hsnull hxnull hitem hround

theorem moreUpTo (hrs : Exact size n rs s) (hrx : Exact size n rx x) (trailing : Bool)
    (fuel : Nat) : ∀ m < fuel, m ≤ n →
      Exact size m (Reader.moreUpTo trailing f b rs rx fuel) (more trailing f b s x) := by
  induction fuel with
  | zero => exact fun m hm => absurd hm (Nat.not_lt_zero m)
  | succ fuel ih =>
    intro m hm hmn
    have hnext : ∀ t ∈ (more trailing f b s x).first, t ∉ x.further := by
      rwa [first_more hsnull]
    cases trailing with
    | false =>
      have hpair := (hrs.mono hmn).seq (f := fun _ a => a) hs hitem (hrx.mono hmn)
      have hnull : (seq (fun (_ : γ) (a : α) => a) s x).nullable = false := by
        rw [nullable, hsnull, Bool.false_and]
      have hnext' : ∀ t ∈ (more false f b s x).first,
          t ∉ (seq (fun (_ : γ) (a : α) => a) s x).further := by
        rw [further, hxnull, if_neg Bool.false_ne_true, List.append_nil]
        exact hnext
      have hpairs := hpair.seq_lt (f := f) (hs.seq hx hitem) hnext' hnull
        fun l hl => ih l (by omega) (by omega)
      rw [moreUpTo_false_succ]
      refine (hpairs.optional b ?_).of_regroups (regroups_more_false hsnull)
      rw [nullable, hnull, Bool.false_and]
    | true =>
      have hitems : ∀ l < m, Exact size l
          (Reader.orNot b (Reader.seq f rx (Reader.moreUpTo true f b rs rx fuel)))
          (.optional b (seq f x (more true f b s x))) := by
        intro l hl
        refine ((hrx.mono (by omega)).seq hx hnext (ih l (by omega) (by omega))).optional b ?_
        rw [nullable, hxnull, Bool.false_and]
      have hrest := (hrs.mono hmn).seq_lt (f := fun _ v => v) hs
        (by rwa [first, first_seq hxnull]) hsnull hitems
      rw [moreUpTo_true_succ]
      refine (hrest.optional b ?_).of_regroups (regroups_more_true hsnull)
      rw [nullable, hsnull, Bool.false_and]

protected theorem more (hrs : Exact size n rs s) (hrx : Exact size n rx x) (trailing : Bool) :
    Exact size n (Reader.more trailing f b rs rx) (more trailing f b s x) :=
  rounds fun k => moreUpTo hs hx hsnull hxnull hitem hround hrs hrx trailing (k + 1) _ (by omega)
    (Nat.min_le_right k n)

end

/-! ### All that is predictive -/

theorem newlines (body : Reader Block) : Exact size n (newlines.reader body) newlines :=
  .many .token rfl (by decide) (.token id .newline)

/-- A grammar is read exactly if blocks are. -/
theorem reader {G : Grammar α} {body : Reader Block} (hG : G.Predictive)
    (hbody : Exact size n body Form.block) : Exact size n (G.reader body) G := by
  induction hG with
  | token => exact .token _ _
  | seq hx _ hapart ihx ihy => exact .seq hx hapart ihx ihy
  | upTo _ habsorbs _ ihx => exact .upTo habsorbs ihx (newlines body)
  | alt _ _ hxnull hynull hapart ihx ihy => exact .alt ihx ihy hxnull hynull hapart
  | optional _ hnull ih => exact .optional _ ih hnull
  | many hx hnull hapart ih => exact .many hx hnull hapart ih
  | more hs hx hsnull hxnull hitem hround ihs ihx =>
    exact .more hs hx hsnull hxnull hitem hround ihs ihx _
  | spanned _ hnull ih => exact .spanned _ ih hnull
  | block => exact .block _ hbody

end Exact

/-! ## Blocks -/

/-- A block of `m` tokens nests less than `m` deep, as each brace takes one. -/
theorem exact_block (depth : Nat) : ∀ m < depth, Exact size m (block depth) Form.block := by
  induction depth with
  | zero => exact fun m hm => absurd hm (Nat.not_lt_zero m)
  | succ depth ih =>
    intro m hm
    have hlines : ∀ l < m, Exact size l ((lines Form.stmt).reader (block depth)) (lines Form.stmt) :=
      fun l hl => .reader Form.predictive_lines_stmt (ih l (by omega))
    have hopened := Exact.seq_lt (n := m) (f := fun _ b => b) .token (fun _ _ => List.not_mem_nil)
      (.token id (.mark .lbrace)) rfl hlines
    have hclosed := hopened.seq (f := fun a _ => a)
      (.seq .token Form.predictive_lines_stmt fun _ _ => List.not_mem_nil) (by decide +kernel)
      (.token id (.mark .rbrace))
    exact hclosed.spanned Block.mk rfl

theorem exact_body : Exact size n body Form.block :=
  .rounds fun k => exact_block (k + 1) _ (by omega)

end AsyncOrder.Source
