import AsyncOrder.Proofs.Source.Grammar

/-!
# What sentences begin with

    G.Derives ts      the tokens are a sentence
    G.Begins ts       some sentence begins with them
    G.Follows ts t    in some sentence a token of class t comes next

No part of a grammar is barren (`Grammar.productive`), so what has begun can be ended.  Two parts
are `Parted` if nothing that goes on the first can begin the second.  Then no tokens can be shared
out between them in two ways, and what follows is known part by part: the first part goes on, or
else it is whole and the second goes on (`follows_seq_of_refused`, `follows_seq`).
-/

namespace AsyncOrder.Source

namespace Grammar

variable {α β γ : Type} {ts us vs ws : List Lexeme} {t : Terminal} {z : Lexeme}

/-! ## Sentences -/

def Derives (G : Grammar α) (ts : List Lexeme) : Prop := ∃ d : Derivation G, d.tokens = ts

def Begins (G : Grammar α) (ts : List Lexeme) : Prop := ∃ rest, G.Derives (ts ++ rest)

def Follows (G : Grammar α) (ts : List Lexeme) (t : Terminal) : Prop :=
  ∃ y : Lexeme, y.token.terminal = t ∧ G.Begins (ts ++ [y])

section

variable {G : Grammar α}

theorem derives_tokens (d : Derivation G) : G.Derives d.tokens := ⟨d, rfl⟩

theorem Derives.begins (h : G.Derives ts) : G.Begins ts := ⟨[], (List.append_nil ts).symm ▸ h⟩

theorem begins_tokens (d : Derivation G) : G.Begins d.tokens := (derives_tokens d).begins

theorem Begins.of_append (h : G.Begins (ts ++ us)) : G.Begins ts := by
  obtain ⟨rest, h⟩ := h
  exact ⟨us ++ rest, List.append_assoc ts us rest ▸ h⟩

theorem Begins.of_prefix (h : G.Begins us) (hts : ts <+: us) : G.Begins ts := by
  obtain ⟨rest, rfl⟩ := hts
  exact h.of_append

theorem Begins.follows (h : G.Begins (ts ++ z :: us)) : G.Follows ts z.token.terminal :=
  ⟨z, rfl, (show G.Begins ((ts ++ [z]) ++ us) by rwa [List.append_assoc]).of_append⟩

/-- What has begun and is no sentence goes on. -/
theorem Begins.exists_follows (h : G.Begins ts) (hno : ¬ G.Derives ts) : ∃ t, G.Follows ts t := by
  obtain ⟨rest, h⟩ := h
  cases rest with
  | nil => exact absurd (List.append_nil ts ▸ h) hno
  | cons z rest => exact ⟨_, h.begins.follows⟩

/-- Tokens begin a sentence up to where nothing follows, and no further. -/
theorem begins_take_iff {n : Nat} (hbegins : G.Begins ts)
    (hno : ∀ x ∈ us.head?, ¬ G.Follows ts x.token.terminal) (hn : n ≤ (ts ++ us).length) :
    G.Begins ((ts ++ us).take n) ↔ n ≤ ts.length := by
  constructor
  · refine fun h => Decidable.by_contra fun hlt => ?_
    obtain ⟨i, rfl⟩ : ∃ i, n = ts.length + (i + 1) := ⟨n - ts.length - 1, by omega⟩
    cases us with
    | nil =>
      rw [List.append_nil] at hn
      omega
    | cons x xs =>
      rw [List.take_length_add_append, List.take_succ_cons] at h
      exact hno x rfl h.follows
  · intro hle
    rw [List.take_append_of_le_length hle]
    exact (show G.Begins (ts.take n ++ ts.drop n) by rwa [List.take_append_drop]).of_append

/-! Grammars with the same sentences. -/

variable {H : Grammar β} (h : ∀ ts, G.Derives ts ↔ H.Derives ts)
include h

theorem begins_congr : G.Begins ts ↔ H.Begins ts := exists_congr fun _ => h _

theorem follows_congr : G.Follows ts t ↔ H.Follows ts t :=
  exists_congr fun _ => and_congr_right fun _ => begins_congr h

end

section

variable {x : Grammar α} {y : Grammar β}

theorem derives_token {f : Lexeme → α} :
    (token f t).Derives ts ↔ ∃ x : Lexeme, x.token.terminal = t ∧ ts = [x] := by
  constructor
  · rintro ⟨d, rfl⟩
    cases d with
    | token x hx => exact ⟨x, hx, rfl⟩
  · rintro ⟨x, hx, rfl⟩
    exact ⟨.token x hx, rfl⟩

theorem derives_seq {f : α → β → γ} :
    (seq f x y).Derives ts ↔ ∃ us vs, ts = us ++ vs ∧ x.Derives us ∧ y.Derives vs := by
  constructor
  · rintro ⟨d, rfl⟩
    cases d with
    | seq d e => exact ⟨d.tokens, e.tokens, rfl, ⟨d, rfl⟩, ⟨e, rfl⟩⟩
  · rintro ⟨_, _, rfl, ⟨d, rfl⟩, ⟨e, rfl⟩⟩
    exact ⟨.seq d e, rfl⟩

theorem derives_alt {x' : Grammar α} :
    (alt x x').Derives ts ↔ x.Derives ts ∨ x'.Derives ts := by
  constructor
  · rintro ⟨d, rfl⟩
    cases d with
    | left d => exact Or.inl ⟨d, rfl⟩
    | right d => exact Or.inr ⟨d, rfl⟩
  · rintro (⟨d, rfl⟩ | ⟨d, rfl⟩)
    · exact ⟨.left d, rfl⟩
    · exact ⟨.right d, rfl⟩

theorem derives_optional {a : α} : (optional a x).Derives ts ↔ ts = [] ∨ x.Derives ts := by
  constructor
  · rintro ⟨d, rfl⟩
    cases d with
    | absent => exact Or.inl rfl
    | present d => exact Or.inr ⟨d, rfl⟩
  · rintro (rfl | ⟨d, rfl⟩)
    · exact ⟨.absent, rfl⟩
    · exact ⟨.present d, rfl⟩

theorem derives_spanned {f : α → Span → β} : (spanned f x).Derives ts ↔ x.Derives ts := by
  constructor
  · rintro ⟨d, rfl⟩
    cases d with
    | spanned d => exact ⟨d, rfl⟩
  · rintro ⟨d, rfl⟩
    exact ⟨.spanned d, rfl⟩

end

/-! ## No part is barren -/

theorem exists_lexeme (t : Terminal) : ∃ x : Lexeme, x.token.terminal = t := by
  cases t with
  | keyword k => exact ⟨⟨.keyword k, ⟨0, 0⟩⟩, rfl⟩
  | mark m => exact ⟨⟨.mark m, ⟨0, 0⟩⟩, rfl⟩
  | int => exact ⟨⟨.int 0, ⟨0, 0⟩⟩, rfl⟩
  | value => exact ⟨⟨.value "", ⟨0, 0⟩⟩, rfl⟩
  | symbol => exact ⟨⟨.symbol "", ⟨0, 0⟩⟩, rfl⟩
  | ident => exact ⟨⟨.ident "", ⟨0, 0⟩⟩, rfl⟩
  | newline => exact ⟨⟨.newline, ⟨0, 0⟩⟩, rfl⟩

/-- A block without statements. -/
def emptyBlock : Derivation Form.block :=
  .spanned (.seq (.seq (.token ⟨.mark .lbrace, ⟨0, 0⟩⟩ rfl) (.seq (.seq .manyNil .absent) .manyNil))
    (.token ⟨.mark .rbrace, ⟨0, 0⟩⟩ rfl))

theorem productive : {α : Type} → (G : Grammar α) → ∃ ts, G.Derives ts
  | _, token _ t =>
    let ⟨x, hx⟩ := exists_lexeme t
    ⟨[x], .token x hx, rfl⟩
  | _, seq _ x y =>
    let ⟨_, d, _⟩ := productive x
    let ⟨_, e, _⟩ := productive y
    ⟨_, .seq d e, rfl⟩
  | _, alt x _ =>
    let ⟨_, d, _⟩ := productive x
    ⟨_, .left d, rfl⟩
  | _, optional _ _ => ⟨[], .absent, rfl⟩
  | _, many _ _ _ => ⟨[], .manyNil, rfl⟩
  | _, more _ _ _ _ _ => ⟨[], .moreNil, rfl⟩
  | _, spanned _ x =>
    let ⟨_, d, _⟩ := productive x
    ⟨_, .spanned d, rfl⟩
  | _, block _ => ⟨_, .block emptyBlock, rfl⟩

theorem begins_nil (G : Grammar α) : G.Begins [] := G.productive

theorem derives_nil : {α : Type} → (G : Grammar α) → G.nullable = true → G.Derives []
  | _, seq _ x y, h => by
    obtain ⟨hx, hy⟩ := Bool.and_eq_true_iff.1 h
    exact derives_seq.2 ⟨[], [], rfl, derives_nil x hx, derives_nil y hy⟩
  | _, alt x y, h => by
    rcases Bool.or_eq_true_iff.1 h with h | h
    · exact derives_alt.2 (Or.inl (derives_nil x h))
    · exact derives_alt.2 (Or.inr (derives_nil y h))
  | _, optional _ _, _ => ⟨.absent, rfl⟩
  | _, many _ _ _, _ => ⟨.manyNil, rfl⟩
  | _, more _ _ _ _ _, _ => ⟨.moreNil, rfl⟩
  | _, spanned _ x, h => derives_spanned.2 (derives_nil x h)

theorem Derives.ne_nil {G : Grammar α} (h : G.Derives ts) (hG : G.nullable = false) : ts ≠ [] := by
  obtain ⟨d, rfl⟩ := h
  exact d.tokens_ne_nil hG

/-- What a first part begins with, or the second if the first may be no token. -/
theorem begins_of_mem_append {x : Grammar α} {y : Grammar β}
    (hx : t ∈ x.first → ∃ z : Lexeme, z.token.terminal = t ∧ x.Begins [z])
    (hy : t ∈ y.first → ∃ z : Lexeme, z.token.terminal = t ∧ y.Begins [z])
    (h : t ∈ x.first ++ if x.nullable then y.first else []) :
    ∃ z : Lexeme, z.token.terminal = t ∧ ∃ us vs, x.Derives us ∧ y.Derives vs ∧
      ∃ rest, us ++ vs = z :: rest := by
  rcases List.mem_append.1 h with h | h
  · obtain ⟨z, hz, us, hus⟩ := hx h
    obtain ⟨vs, hvs⟩ := productive y
    exact ⟨z, hz, z :: us, vs, hus, hvs, us ++ vs, rfl⟩
  · split at h
    · next hnull =>
      obtain ⟨z, hz, vs, hvs⟩ := hy h
      exact ⟨z, hz, [], z :: vs, derives_nil x hnull, hvs, vs, rfl⟩
    · cases h

theorem begins_of_mem_first :
    {α : Type} → (G : Grammar α) → t ∈ G.first → ∃ z : Lexeme, z.token.terminal = t ∧ G.Begins [z]
  | _, token _ _, h => by
    obtain ⟨z, hz⟩ := exists_lexeme t
    exact ⟨z, hz, [], .token z (hz.trans (List.mem_singleton.1 h)), rfl⟩
  | _, seq _ x y, h => by
    obtain ⟨z, hz, us, vs, hus, hvs, rest, heq⟩ :=
      begins_of_mem_append (begins_of_mem_first x) (begins_of_mem_first y) h
    exact ⟨z, hz, rest, derives_seq.2 ⟨us, vs, heq.symm, hus, hvs⟩⟩
  | _, alt x y, h => by
    rcases List.mem_append.1 h with h | h
    · obtain ⟨z, hz, us, hus⟩ := begins_of_mem_first x h
      exact ⟨z, hz, us, derives_alt.2 (Or.inl hus)⟩
    · obtain ⟨z, hz, us, hus⟩ := begins_of_mem_first y h
      exact ⟨z, hz, us, derives_alt.2 (Or.inr hus)⟩
  | _, optional _ x, h => by
    obtain ⟨z, hz, us, hus⟩ := begins_of_mem_first x h
    exact ⟨z, hz, us, derives_optional.2 (Or.inr hus)⟩
  | _, many _ _ x, h => by
    obtain ⟨z, hz, us, d, hd⟩ := begins_of_mem_first x h
    exact ⟨z, hz, us, .manyCons d .manyNil, (List.append_nil _).trans hd⟩
  | _, more _ _ _ s x, h => by
    obtain ⟨z, hz, _, _, ⟨c, rfl⟩, ⟨d, rfl⟩, rest, heq⟩ :=
      begins_of_mem_append (begins_of_mem_first s) (begins_of_mem_first x) h
    exact ⟨z, hz, rest, .moreCons c d .moreNil, by simpa [Derivation.tokens] using heq⟩
  | _, spanned _ x, h => by
    obtain ⟨z, hz, us, hus⟩ := begins_of_mem_first x h
    exact ⟨z, hz, us, derives_spanned.2 hus⟩
  | _, block _, h => by
    obtain rfl := List.mem_singleton.1 h
    exact ⟨_, rfl, _, .block emptyBlock, rfl⟩

/-! ## One token ahead -/

theorem Begins.mem_first {G : Grammar α} (h : G.Begins (z :: us)) : z.token.terminal ∈ G.first := by
  obtain ⟨rest, d, hd⟩ := h
  exact d.mem_first hd

theorem follows_nil {G : Grammar α} : G.Follows [] t ↔ t ∈ G.first := by
  constructor
  · rintro ⟨y, rfl, h⟩
    exact Begins.mem_first h
  · exact G.begins_of_mem_first

theorem Derives.mem_further {G : Grammar α} (hG : G.Predictive) (h : G.Derives ts)
    (hbegins : G.Begins (ts ++ z :: us)) : z.token.terminal ∈ G.further := by
  obtain ⟨d, rfl⟩ := h
  obtain ⟨rest, e, he⟩ := hbegins
  refine Decidable.by_contra fun hz => ?_
  obtain ⟨d', hd', hdtokens, -⟩ := d.exists_eager hG
  obtain ⟨e', he', hetokens, -⟩ := e.exists_eager hG
  have heq : d'.tokens ++ (z :: us ++ rest) = e'.tokens ++ [] := by
    rw [List.append_nil, hdtokens, hetokens, he, List.append_assoc]
  obtain rfl := d'.unique hG hd' he' heq (clear_cons.2 hz) clear_nil
  simp at heq

/-- What goes on the first part does not begin the second. -/
def Parted (x : Grammar α) (y : Grammar β) : Prop :=
  ∀ ⦃ts us vs : List Lexeme⦄ ⦃z : Lexeme⦄, x.Derives ts → x.Begins (ts ++ z :: us) →
    ¬ y.Begins (z :: vs)

theorem Predictive.parted {x : Grammar α} {y : Grammar β} (hx : x.Predictive)
    (hapart : ∀ t ∈ y.first, t ∉ x.further) : Parted x y :=
  fun _ _ _ _ hts hgo hy => hapart _ hy.mem_first (hts.mem_further hx hgo)

section

variable {x : Grammar α} {y : Grammar β} {f : α → β → γ}

theorem Begins.seq (hy : y.Begins vs) (hx : x.Derives us) : (seq f x y).Begins (us ++ vs) := by
  obtain ⟨rest, h⟩ := hy
  exact ⟨rest, derives_seq.2 ⟨us, vs ++ rest, List.append_assoc .., hx, h⟩⟩

theorem Begins.seq_left (h : x.Begins ts) : (Grammar.seq f x y).Begins ts := by
  obtain ⟨rest, h⟩ := h
  obtain ⟨vs, hvs⟩ := y.productive
  exact ⟨rest ++ vs, derives_seq.2 ⟨ts ++ rest, vs, (List.append_assoc ..).symm, h, hvs⟩⟩

variable (hxy : Parted x y)
include hxy

/-- In a sentence, where some tokens are a beginning of the first part and of no less. -/
theorem begins_seq (hts : x.Begins ts) (h : (seq f x y).Begins (ts ++ z :: ws)) :
    x.Begins (ts ++ [z]) ∨ x.Derives ts ∧ y.Begins (z :: ws) := by
  obtain ⟨rest, h⟩ := h
  obtain ⟨us, vs, heq, hus, hvs⟩ := derives_seq.1 h
  rw [List.append_assoc, List.cons_append] at heq
  rcases List.append_eq_append_iff.1 heq with ⟨ws', rfl, heq'⟩ | ⟨ws', rfl, rfl⟩
  · cases ws' with
    | nil =>
      obtain rfl : z :: (ws ++ rest) = vs := heq'
      exact Or.inr ⟨by simpa using hus, rest, hvs⟩
    | cons z' ws' =>
      obtain ⟨rfl, -⟩ := List.cons.inj heq'
      exact Or.inl ⟨ws', by simpa using hus⟩
  · cases ws' with
    | nil => exact Or.inr ⟨by simpa using hus, rest, hvs⟩
    | cons z' ws' => exact absurd hvs.begins (hxy hus hts)

/-- A sentence with which the first part begins is the first part. -/
theorem derives_of_begins (hts : x.Begins ts) (h : (seq f x y).Derives ts) :
    x.Derives ts ∧ y.Derives [] := by
  obtain ⟨us, vs, rfl, hus, hvs⟩ := derives_seq.1 h
  cases vs with
  | nil => exact ⟨(List.append_nil us).symm ▸ hus, hvs⟩
  | cons z vs => exact absurd hvs.begins (hxy hus hts)

theorem follows_seq_of_refused (hts : x.Begins ts) (hno : ¬ x.Derives ts) :
    (seq f x y).Follows ts t ↔ x.Follows ts t := by
  constructor
  · rintro ⟨z, hz, h⟩
    rcases begins_seq hxy hts h with h | ⟨h, -⟩
    · exact ⟨z, hz, h⟩
    · exact absurd h hno
  · rintro ⟨z, hz, h⟩
    exact ⟨z, hz, h.seq_left⟩

theorem derives_of_derives_seq (hx : x.Derives us) (hy : y.Begins vs)
    (h : (seq f x y).Derives (us ++ vs)) : y.Derives vs := by
  obtain ⟨us', vs', heq, hus', hvs'⟩ := derives_seq.1 h
  rcases List.append_eq_append_iff.1 heq with ⟨ws, rfl, rfl⟩ | ⟨ws, rfl, rfl⟩
  · cases ws with
    | nil => exact hvs'
    | cons z ws => exact absurd hy (hxy hx hus'.begins)
  · cases ws with
    | nil => exact hvs'
    | cons z ws => exact absurd hvs'.begins (hxy hus' hx.begins)

/-- Where the second part is refused behind the first, all is. -/
theorem not_derives_seq_of_refused (hx : x.Derives us) (hy : y.Begins vs)
    (hno : ∀ q, q <+: vs → ¬ y.Derives q) : ∀ ts, ts <+: us ++ vs → ¬ (seq f x y).Derives ts := by
  rintro _ hprefix h
  obtain ⟨p, q, rfl, hp, hq⟩ := derives_seq.1 h
  obtain ⟨rest, hall⟩ := hprefix
  rw [List.append_assoc] at hall
  rcases List.append_eq_append_iff.1 hall with ⟨ws, rfl, heq⟩ | ⟨ws, rfl, rfl⟩
  · cases ws with
    | nil => exact hno q ⟨rest, heq⟩ hq
    | cons z ws =>
      cases q with
      | nil => exact hno [] List.nil_prefix hq
      | cons z' q =>
        obtain ⟨rfl, -⟩ := List.cons.inj heq
        exact hxy hp hx.begins hq.begins
  · cases ws with
    | nil => exact hno q (List.prefix_append q rest) hq
    | cons z ws => exact hxy hx hp.begins hy

/-- Behind a first part that is whole, the second goes on; the first does as long as nothing of the
second has been read. -/
theorem follows_seq (hx : x.Derives us) (hy : y.Begins vs) :
    (seq f x y).Follows (us ++ vs) t ↔ vs = [] ∧ x.Follows us t ∨ y.Follows vs t := by
  constructor
  · rintro ⟨z, hz, h⟩
    rw [List.append_assoc] at h
    cases vs with
    | nil =>
      rcases begins_seq hxy hx.begins h with h | ⟨-, h⟩
      · exact Or.inl ⟨rfl, z, hz, h⟩
      · exact Or.inr ⟨z, hz, h⟩
    | cons z' vs =>
      rcases begins_seq hxy hx.begins h with h | ⟨-, h⟩
      · exact absurd hy (hxy hx h)
      · exact Or.inr ⟨z, hz, h⟩
  · rintro (⟨rfl, z, hz, h⟩ | ⟨z, hz, h⟩)
    · exact ⟨z, hz, (List.append_nil us).symm ▸ h.seq_left⟩
    · exact ⟨z, hz, (List.append_assoc us vs [z]).symm ▸ h.seq hx⟩

end

theorem begins_optional {x : Grammar α} {a : α} : (optional a x).Begins ts ↔ x.Begins ts := by
  constructor
  · rintro ⟨rest, h⟩
    rcases derives_optional.1 h with h | h
    · obtain ⟨rfl, -⟩ := List.append_eq_nil_iff.1 h
      exact x.begins_nil
    · exact ⟨rest, h⟩
  · rintro ⟨rest, h⟩
    exact ⟨rest, derives_optional.2 (Or.inr h)⟩

theorem follows_optional {x : Grammar α} {a : α} : (optional a x).Follows ts t ↔ x.Follows ts t := by
  simp only [Follows, begins_optional]

section

variable {x y : Grammar α}

theorem begins_alt : (alt x y).Begins ts ↔ x.Begins ts ∨ y.Begins ts := by
  simp only [Begins, derives_alt, exists_or]

theorem follows_alt : (alt x y).Follows ts t ↔ x.Follows ts t ∨ y.Follows ts t := by
  simp only [Follows, begins_alt, and_or_left, exists_or]

/-- The first token tells which part it is. -/
theorem not_begins_of_alt (hapart : ∀ t ∈ y.first, t ∉ x.first) (hts : ts ≠ []) (hx : x.Begins ts) :
    ¬ y.Begins ts := by
  intro hy
  cases ts with
  | nil => exact hts rfl
  | cons z ts => exact hapart _ hy.mem_first hx.mem_first

end

end Grammar

end AsyncOrder.Source
