import AsyncOrder.Proofs.Source.Sentences

/-!
# What is asked behind the tokens that are read

    c.Passes ts c'     from c the tokens ts stand before c'
    i.Asks G ts j      so in i before j, and there it has been asked for all that may follow them in G

What was asked for in vain counts where an input stands (`Input.asked`) if nothing further on was
asked for.  An input is `Fresh` if its next token is none of those.  So where reading ends short of
a sentence, the next token is one that `G` cannot go on with (`Asks.not_follows`).  An input is
`Past` if something further on was asked for; then it is not noted what is asked for.
-/

namespace AsyncOrder.Source

variable {α β γ : Type} {c c' c'' : Cursor} {i j k : Input} {ts us vs : List Lexeme}

/-! ## Tokens that are read -/

theorem endOf_append (stop : Nat) (ts us : List Lexeme) :
    endOf stop (ts ++ us) = endOf (endOf stop ts) us := by
  rw [endOf, endOf, List.getLast?_append]
  cases us.getLast? <;> rfl

/-- From `c` the tokens `ts` stand before `c'`. -/
structure Cursor.Passes (c : Cursor) (ts : List Lexeme) (c' : Cursor) : Prop where
  pos : c'.pos = c.pos + ts.length
  rest : c.rest = ts ++ c'.rest
  stop : c'.stop = endOf c.stop ts

namespace Cursor.Passes

theorem refl (c : Cursor) : c.Passes [] c := ⟨rfl, rfl, rfl⟩

theorem trans (h : c.Passes ts c') (h' : c'.Passes us c'') : c.Passes (ts ++ us) c'' where
  pos := by rw [h'.pos, h.pos, List.length_append, Nat.add_assoc]
  rest := by rw [h.rest, h'.rest, List.append_assoc]
  stop := by rw [endOf_append, ← h.stop, h'.stop]

/-- The tokens tell where they end. -/
theorem unique (h : c.Passes ts c') (h' : c.Passes ts c'') : c' = c'' := by
  have hrest : c'.rest = c''.rest := List.append_cancel_left (h.rest.symm.trans h'.rest)
  have hpos : c'.pos = c''.pos := h.pos.trans h'.pos.symm
  have hstop : c'.stop = c''.stop := h.stop.trans h'.stop.symm
  cases c'
  cases c''
  congr

theorem eq_of_nil (h : c.Passes [] c') : c' = c := h.unique (.refl c)

theorem of_append (h : c.Passes (ts ++ us) c'') (h' : c.Passes ts c') : c'.Passes us c'' where
  pos := by rw [h.pos, h'.pos, List.length_append, Nat.add_assoc]
  rest := by
    have hrest := h'.rest.symm.trans h.rest
    rw [List.append_assoc] at hrest
    exact List.append_cancel_left hrest
  stop := by rw [h.stop, h'.stop, endOf_append]

theorem rest_eq {rest : List Lexeme} (h : c.Passes ts c') (hrest : c.rest = ts ++ rest) :
    c'.rest = rest :=
  List.append_cancel_left (h.rest.symm.trans hrest)

theorem length_eq (h : c.Passes ts c') : c.rest.length = ts.length + c'.rest.length := by
  rw [h.rest, List.length_append]

theorem spanOf_eq {size : Nat} (h : c.Passes ts c') (hts : ts ≠ []) :
    spanOf size ts = ⟨c.start, c'.stop⟩ := by
  rw [Cursor.start, h.rest, h.stop]
  cases ts with
  | nil => exact absurd rfl hts
  | cons x xs => simp [spanOf, startOf, endOf, List.getLast?_cons]

end Cursor.Passes

/-! ## Tokens that are asked for -/

namespace Input

variable {e : Expected}

/-- What was asked for in vain where the input stands, if nothing further on was. -/
def asked (i : Input) : List Expected :=
  match i.furthest with
  | some r => if r.pos = i.cursor.pos then r.expected else []
  | none => []

/-- Nothing was asked for further on or twice, and the next token was not asked for. -/
structure Fresh (i : Input) : Prop where
  pos_le : ∀ r ∈ i.furthest, r.pos ≤ i.cursor.pos
  found : ∀ r ∈ i.furthest, r.pos = i.cursor.pos → r.found = i.cursor.rest.head?
  nodup : i.asked.Nodup
  vain : ∀ x ∈ i.cursor.rest.head?, Expected.terminal x.token.terminal ∉ i.asked

/-- Something further on was asked for. -/
def Past (i : Input) : Prop := ∃ r, i.furthest = some r ∧ i.cursor.pos < r.pos

@[simp] theorem cursor_moveTo (i : Input) (c : Cursor) : (i.moveTo c).cursor = c := rfl

@[simp] theorem furthest_moveTo (i : Input) (c : Cursor) : (i.moveTo c).furthest = i.furthest := rfl

@[simp] theorem moveTo_moveTo (i : Input) (c c' : Cursor) : (i.moveTo c).moveTo c' = i.moveTo c' :=
  rfl

@[simp] theorem moveTo_cursor (i : Input) : i.moveTo i.cursor = i := rfl

theorem exists_of_mem_asked (h : e ∈ i.asked) :
    ∃ r, i.furthest = some r ∧ r.pos = i.cursor.pos ∧ r.expected = i.asked := by
  cases hf : i.furthest with
  | none => simp [asked, hf] at h
  | some r =>
    by_cases hpos : r.pos = i.cursor.pos
    · exact ⟨r, rfl, hpos, by simp [asked, hf, hpos]⟩
    · simp [asked, hf, hpos] at h

theorem miss_of_past (h : i.Past) (e : Expected) : i.miss e = i := by
  obtain ⟨r, hf, hpos⟩ := h
  have hmerge : r.merge (i.cursor.refusal e) = r := if_pos hpos
  obtain ⟨cursor, _⟩ := i
  subst hf
  simp only [miss, Option.map_some, Option.getD_some, hmerge]

/-- What is missed is noted where the input stands. -/
theorem Fresh.furthest_miss (h : i.Fresh) (e : Expected) : (i.miss e).furthest =
    some ⟨i.cursor.pos, i.cursor.rest.head?, i.asked ++ [e].filter (· ∉ i.asked)⟩ := by
  cases hf : i.furthest with
  | none => simp [miss, asked, hf, Cursor.refusal]
  | some r =>
    have hle : r.pos ≤ i.cursor.pos := h.pos_le r hf
    by_cases hpos : r.pos = i.cursor.pos
    · have hfound := h.found r hf hpos
      obtain ⟨pos, found, expected⟩ := r
      obtain rfl : pos = i.cursor.pos := hpos
      obtain rfl : found = i.cursor.rest.head? := hfound
      simp [miss, asked, hf, Refusal.merge, Cursor.refusal]
    · have hlt : r.pos < i.cursor.pos := by omega
      have hnot : ¬ i.cursor.pos < r.pos := by omega
      simp [miss, asked, hf, Refusal.merge, Cursor.refusal, hnot, hlt, hpos]

theorem Fresh.asked_miss (h : i.Fresh) (e : Expected) :
    (i.miss e).asked = i.asked ++ [e].filter (· ∉ i.asked) := by
  rw [asked, h.furthest_miss]
  exact if_pos rfl

theorem Fresh.mem_asked_miss {e' : Expected} (h : i.Fresh) :
    e' ∈ (i.miss e).asked ↔ e' ∈ i.asked ∨ e' = e := by
  rw [h.asked_miss]
  by_cases he : e ∈ i.asked
  · simp only [List.mem_append, List.mem_filter, List.mem_singleton]
    constructor
    · exact Or.imp_right And.left
    · exact fun h => Or.inl (h.elim id fun heq => heq ▸ he)
  · simp [he]

theorem Fresh.nodup_miss (h : i.Fresh) (e : Expected) : (i.miss e).asked.Nodup := by
  rw [h.asked_miss]
  refine List.nodup_append.2 ⟨h.nodup, (List.pairwise_singleton _ e).filter _, ?_⟩
  rintro a ha b hb rfl
  simp [ha] at hb

theorem Fresh.miss (h : i.Fresh) (hvain : ∀ x ∈ i.cursor.rest.head?, e ≠ .terminal x.token.terminal) :
    (i.miss e).Fresh where
  pos_le r hr := by
    rw [h.furthest_miss, Option.mem_some_iff] at hr
    exact hr ▸ Nat.le.refl
  found r hr _ := by
    rw [h.furthest_miss, Option.mem_some_iff] at hr
    exact hr ▸ rfl
  nodup := h.nodup_miss e
  vain x hx hmem := (h.mem_asked_miss.1 hmem).elim (h.vain x hx) fun heq => hvain x hx heq.symm

/-- Further on nothing was asked for. -/
theorem Fresh.moveTo {z : Lexeme} (h : i.Fresh) (hc : i.cursor.Passes [z] c) :
    (i.moveTo c).Fresh ∧ (i.moveTo c).asked = [] := by
  have hpos : ∀ r ∈ i.furthest, r.pos < c.pos := fun r hr => by
    have := h.pos_le r hr
    have := hc.pos
    simp only [List.length_singleton] at this
    omega
  have hasked : (i.moveTo c).asked = [] := by
    cases hf : i.furthest with
    | none => simp [asked, Input.moveTo, hf]
    | some r => simp [asked, Input.moveTo, hf, Nat.ne_of_lt (hpos r hf)]
  refine ⟨⟨fun r hr => Nat.le_of_lt (hpos r hr),
    fun r hr heq => absurd heq (Nat.ne_of_lt (hpos r hr)), ?_, ?_⟩, hasked⟩
  · rw [hasked]
    exact List.nodup_nil
  · simp [hasked]

theorem fresh_of_furthest_none (h : i.furthest = none) : i.Fresh ∧ i.asked = [] := by
  have hasked : i.asked = [] := by simp [asked, h]
  exact ⟨⟨by simp [h], by simp [h], by simp [hasked], by simp [hasked]⟩, hasked⟩

end Input

/-- In `i` the tokens `ts` stand before `j`, and there all that may follow them is asked for. -/
structure Input.Asks (i : Input) (G : Grammar α) (ts : List Lexeme) (j : Input) : Prop
    extends i.cursor.Passes ts j.cursor where
  fresh : j.Fresh
  mem_asked {e : Expected} : e ∈ j.asked ↔
    ts = [] ∧ e ∈ i.asked ∨ ∃ t, e = .terminal t ∧ G.Follows ts t

namespace Input.Asks

open Grammar

variable {G : Grammar α}

theorem not_follows {x : Lexeme} (h : i.Asks G ts j) (hx : x ∈ j.cursor.rest.head?) :
    ¬ G.Follows ts x.token.terminal :=
  fun hfollows => h.fresh.vain x hx (h.mem_asked.2 (Or.inr ⟨_, rfl, hfollows⟩))

protected theorem congr {H : Grammar β} (h : i.Asks G ts j)
    (hGH : ∀ us, G.Derives us ↔ H.Derives us) : i.Asks H ts j where
  toPasses := h.toPasses
  fresh := h.fresh
  mem_asked {e} := by simp only [h.mem_asked, follows_congr hGH]

/-- What cannot begin has not begun. -/
theorem eq_nil_of_clear (h : i.Asks G ts j) (hts : G.Begins ts)
    (hclear : Clear G.first i.cursor.rest) : ts = [] := by
  cases ts with
  | nil => rfl
  | cons z zs =>
    rw [h.rest, List.cons_append, clear_cons] at hclear
    exact absurd hts.mem_first hclear

/-- What has been asked for is asked for once more. -/
theorem again {H : Grammar β} (h : i.Asks G ts j) (h' : j.Asks H [] k)
    (hfirst : ∀ t ∈ H.first, G.Follows ts t) : i.Asks G ts k where
  toPasses := by
    rw [h'.toPasses.eq_of_nil]
    exact h.toPasses
  fresh := h'.fresh
  mem_asked {e} := by
    rw [h'.mem_asked, h.mem_asked]
    simp only [follows_nil]
    grind

/-- Where it is asked how to go on, nothing is noted behind. -/
theorem past (h : i.Asks G (us ++ vs) j) (hc : i.cursor.Passes us c) (hvs : vs ≠ [])
    (hts : G.Begins (us ++ vs)) (hno : ¬ G.Derives (us ++ vs)) : (j.moveTo c).Past := by
  obtain ⟨t, ht⟩ := hts.exists_follows hno
  obtain ⟨r, hr, hpos, -⟩ := exists_of_mem_asked (h.mem_asked.2 (Or.inr ⟨t, rfl, ht⟩))
  have hlen : 0 < vs.length := List.length_pos_iff.2 hvs
  have hj := (h.toPasses.of_append hc).pos
  exact ⟨r, hr, by rw [cursor_moveTo]; omega⟩

section

variable {f : Lexeme → α} {t : Terminal}

theorem token {x : Lexeme} (hi : i.Fresh) (hc : i.cursor.Passes [x] c) :
    i.Asks (.token f t) [x] (i.moveTo c) where
  toPasses := hc
  fresh := (hi.moveTo hc).1
  mem_asked := by simp [(hi.moveTo hc).2, Follows, Begins, derives_token]

theorem token_missed (hi : i.Fresh) (hclear : Clear [t] i.cursor.rest) :
    i.Asks (.token f t) [] (i.miss (.terminal t)) where
  toPasses := .refl i.cursor
  fresh := hi.miss fun x hx heq => hclear x hx (by simp [Expected.terminal.inj heq])
  mem_asked := by simp [hi.mem_asked_miss, follows_nil, first]

end

section

variable {x : Grammar α} {y : Grammar β} {f : α → β → γ} (hxy : Parted x y)
include hxy

theorem seq_of_refused (h : i.Asks x ts j) (hts : x.Begins ts) (hno : ¬ x.Derives ts) :
    i.Asks (.seq f x y) ts j where
  toPasses := h.toPasses
  fresh := h.fresh
  mem_asked {e} := by simp only [h.mem_asked, follows_seq_of_refused hxy hts hno]

theorem seq (h : i.Asks x us j) (hx : x.Derives us) (hy : y.Begins vs) (h' : j.Asks y vs k) :
    i.Asks (.seq f x y) (us ++ vs) k where
  toPasses := h.toPasses.trans h'.toPasses
  fresh := h'.fresh
  mem_asked := by
    simp only [h'.mem_asked, h.mem_asked, follows_seq hxy hx hy, List.append_eq_nil_iff]
    grind

end

theorem optional {x : Grammar α} {a : α} (h : i.Asks x ts j) : i.Asks (.optional a x) ts j where
  toPasses := h.toPasses
  fresh := h.fresh
  mem_asked {e} := by simp only [h.mem_asked, follows_optional]

section

variable {x y : Grammar α} (hapart : ∀ t ∈ y.first, t ∉ x.first)
include hapart

theorem left (h : i.Asks x ts j) (hts : ts ≠ []) (hx : x.Begins ts) : i.Asks (.alt x y) ts j where
  toPasses := h.toPasses
  fresh := h.fresh
  mem_asked {e} := by
    have hy : ∀ t, ¬ y.Follows ts t := by
      rintro t ⟨_, -, h⟩
      exact not_begins_of_alt hapart hts hx h.of_append
    simp only [h.mem_asked, follows_alt, hy, or_false]

theorem right (h : i.Asks x [] j) (h' : j.Asks y ts k) (hy : y.Begins ts) :
    i.Asks (.alt x y) ts k where
  toPasses := h.toPasses.trans h'.toPasses
  fresh := h'.fresh
  mem_asked {e} := by
    rw [h'.mem_asked, h.mem_asked]
    cases ts with
    | nil =>
      simp only [follows_nil, first, List.mem_append, true_and, and_or_left, exists_or, or_assoc]
    | cons z ts =>
      have hx : ∀ t, ¬ x.Follows (z :: ts) t := by
        rintro t ⟨_, -, h⟩
        exact not_begins_of_alt hapart (List.cons_ne_nil z ts) h.of_append hy
      simp only [follows_alt, hx, false_or, reduceCtorEq, false_and]

end

end Input.Asks

end AsyncOrder.Source
