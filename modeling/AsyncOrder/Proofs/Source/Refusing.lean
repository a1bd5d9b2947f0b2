import AsyncOrder.Proofs.Source.Acceptance
import Mathlib.Data.List.Nodup

/-!
# Where a text is refused

Tokens that are no module are refused behind the longest part of them that begins one, with all
that may follow there (`readModule_refuses`):

    readModule size tokens = .error r
    Begins (tokens.take n) ↔ n ≤ k
    r.found = tokens[k]?        t ∈ r.expected ↔ Follows (tokens.take k) t
-/

namespace AsyncOrder.Source

open Grammar

variable {size : Nat} {tokens before us vs : List Lexeme} {r : Refusal} {i j : Input} {c : Cursor}

/-! ## Names of what is expected -/

namespace Expected

/-- All that is ever expected. -/
def all : List Expected :=
  endOfInput :: (Keyword.all.map Terminal.keyword ++ [Mark.arrow, .equals, .comma, .colon, .lparen,
    .rparen, .lbracket, .rbracket, .lbrace, .rbrace, .less, .greater].map Terminal.mark ++
    [Terminal.int, .value, .symbol, .ident, .newline]).map terminal

theorem mem_all (e : Expected) : e ∈ all := by
  rcases e with (k | m | _ | _ | _ | _ | _) | _
  · cases k <;> decide
  · cases m <;> decide
  all_goals decide

theorem text_inj {e e' : Expected} (h : e.text = e'.text) : e = e' := by
  have hnodup : (all.map text).Nodup := by decide +kernel
  exact List.inj_on_of_nodup_map hnodup (mem_all e) (mem_all e') h

end Expected

/-! ## The place of a refusal -/

/-- The refusal tells what stands behind the first `k` tokens, with which a module begins, and with
all of what it might go on there. -/
structure Refusal.Locates (r : Refusal) (tokens : List Lexeme) (k : Nat) : Prop where
  le_length : k ≤ tokens.length
  pos : r.pos = k
  /-- The first `k` tokens begin a module, and no more of them do. -/
  begins_iff (n : Nat) (hn : n ≤ tokens.length) : Form.module.Begins (tokens.take n) ↔ n ≤ k
  found : r.found = tokens[k]?
  terminal_mem_iff (t : Terminal) :
    .terminal t ∈ r.expected ↔ Form.module.Follows (tokens.take k) t
  /-- An integer goes by this name. -/
  int_text_mem_iff : "something else" ∈ r.expected.map Expected.text ↔
    Form.module.Follows (tokens.take k) .int
  endOfInput_mem_iff : .endOfInput ∈ r.expected ↔ Form.module.Derives (tokens.take k)
  nodup_text : (r.expected.map Expected.text).Nodup

/-- Where reading ends; the end is asked for too if the tokens that were read are a module. -/
theorem Refusal.Locates.of_asks (h : (Input.ofTokens size tokens).Asks Form.module before j)
    (hbegins : Form.module.Begins before) (hpos : r.pos = j.cursor.pos)
    (hfound : r.found = j.cursor.rest.head?) (hnodup : r.expected.Nodup)
    (hterminal : ∀ t, .terminal t ∈ r.expected ↔ .terminal t ∈ j.asked)
    (hend : .endOfInput ∈ r.expected ↔ Form.module.Derives before) :
    r.Locates tokens before.length := by
  obtain rfl : tokens = before ++ j.cursor.rest := h.rest
  have hasked : (Input.ofTokens size (before ++ j.cursor.rest)).asked = [] := rfl
  have hfollows : ∀ t, .terminal t ∈ r.expected ↔
      Form.module.Follows ((before ++ j.cursor.rest).take before.length) t := by
    intro t
    simp [hterminal, h.mem_asked, hasked]
  exact {
    le_length := by simp
    pos := hpos.trans (h.pos.trans (Nat.zero_add _))
    begins_iff n hn := Grammar.begins_take_iff hbegins (fun x hx => h.not_follows hx) hn
    found := by
      rw [hfound, List.getElem?_append_right Nat.le.refl, Nat.sub_self, List.head?_eq_getElem?]
    terminal_mem_iff := hfollows
    int_text_mem_iff := by
      rw [← hfollows, List.mem_map]
      constructor
      · rintro ⟨e, he, htext⟩
        obtain rfl : e = .terminal .int := Expected.text_inj htext
        exact he
      · exact fun he => ⟨_, he, rfl⟩
    endOfInput_mem_iff := by simpa using hend
    nodup_text := hnodup.map_on fun _ _ _ _ => Expected.text_inj }

/-- Short of a sentence the furthest refusal is how it might have gone on. -/
theorem locates_furthest (h : (Input.ofTokens size tokens).Asks (lines Form.func) before j)
    (hbegins : (lines Form.func).Begins before) (hno : ¬ (lines Form.func).Derives before) :
    ∃ r, j.furthest = some r ∧ r.Locates tokens before.length := by
  obtain ⟨t, ht⟩ := hbegins.exists_follows hno
  obtain ⟨r, hr, hpos, hexpected⟩ := Input.exists_of_mem_asked
    (h.mem_asked.2 (Or.inr ⟨t, rfl, ht⟩))
  have hsame : ∀ us, (lines Form.func).Derives us ↔ Form.module.Derives us :=
    fun _ => derives_module_iff.symm
  refine ⟨r, hr, .of_asks (h.congr hsame) ((begins_congr hsame).1 hbegins) hpos
    (h.fresh.found r hr hpos) (hexpected ▸ h.fresh.nodup) (fun t => hexpected ▸ Iff.rfl) ?_⟩
  have hend : .endOfInput ∉ r.expected := by
    rw [hexpected, h.mem_asked]
    rintro (⟨-, he⟩ | ⟨t, he, -⟩)
    · cases he
    · cases he
  exact iff_of_false hend (mt (hsame before).2 hno)

/-- Behind a sentence the end might have followed too. -/
theorem locates_miss_endOfInput
    (h : (Input.ofTokens size tokens).Asks (lines Form.func) before j)
    (hderives : (lines Form.func).Derives before) :
    ∃ r, (j.miss .endOfInput).furthest = some r ∧ r.Locates tokens before.length := by
  have hsame : ∀ us, (lines Form.func).Derives us ↔ Form.module.Derives us :=
    fun _ => derives_module_iff.symm
  have hmem : ∀ e, e ∈ (j.miss .endOfInput).asked ↔ e ∈ j.asked ∨ e = .endOfInput :=
    fun e => h.fresh.mem_asked_miss
  have hmissed := h.fresh.nodup_miss .endOfInput
  rw [h.fresh.asked_miss] at hmem hmissed
  refine ⟨_, h.fresh.furthest_miss .endOfInput, .of_asks (h.congr hsame)
    ((hsame before).1 hderives).begins rfl rfl hmissed (fun t => ?_) ?_⟩
  · simp only [hmem, reduceCtorEq, or_false]
  · exact iff_of_true ((hmem _).2 (Or.inr rfl)) ((hsame before).1 hderives)

/-- Tokens that are no module are refused: within the functions, or at what stands behind them. -/
theorem exists_refusal (size : Nat) (h : ¬ Form.module.Derives tokens) :
    ∃ r k, readModule size tokens = .error r ∧ r.Locates tokens k := by
  have hlines : ¬ (lines Form.func).Derives tokens := mt derives_module_iff.2 h
  have hanswer := answer_funcs size tokens
  generalize hrun : funcs size tokens = out at hanswer
  cases hanswer with
  | @refuses j c ts hasks hbegins hno =>
    obtain ⟨r, hr, hlocates⟩ := locates_furthest hasks hbegins (hno _ List.prefix_rfl)
    have hread := readModule_of_funcs_eq_none hrun
    rw [Input.furthest_moveTo, hr] at hread
    exact ⟨r, _, hread, hlocates⟩
  | @reads j c d vs _ hasks hc hbegins hmax =>
    have htokens : tokens = d.tokens ++ c.rest := hc.rest
    have hrest : c.rest ≠ [] := by
      intro hnil
      rw [hnil, List.append_nil] at htokens
      exact hlines ⟨d, htokens.symm⟩
    have hread := readModule_of_funcs_of_ne_nil hrun hrest
    by_cases hvs : vs = []
    · rw [hvs, List.append_nil] at hasks
      obtain rfl := hc.unique hasks.toPasses
      obtain ⟨r, hr, hlocates⟩ := locates_miss_endOfInput hasks (derives_tokens d)
      rw [Input.moveTo_cursor, hr] at hread
      exact ⟨r, _, hread, hlocates⟩
    · -- the refusal was met further on, where functions were tried that are none
      have hno := hmax vs hvs List.prefix_rfl
      obtain ⟨r, hr, hlocates⟩ := locates_furthest hasks hbegins hno
      rw [Input.miss_of_past (hasks.past hc hvs hbegins hno), Input.furthest_moveTo, hr] at hread
      exact ⟨r, _, hread, hlocates⟩

/-- A module is read where the tokens are a sentence, and only there. -/
theorem readModule_isOk_iff (size : Nat) :
    (readModule size tokens).isOk = true ↔ Form.module.Derives tokens := by
  constructor
  · intro h
    cases hrun : readModule size tokens with
    | error r =>
      rw [hrun] at h
      cases h
    | ok m =>
      obtain ⟨d, hd, -⟩ := readModule_eq_ok_iff_derives.1 hrun
      exact ⟨d, hd⟩
  · rintro ⟨d, hd⟩
    rw [readModule_eq_ok_iff_derives.2 ⟨d, hd, rfl⟩]
    rfl

/-! ## Main result -/

/-- Tokens that are no module are refused once, at the first of them, or the end, that no module
goes on with; what is expected there is what modules do go on with, each named once. -/
theorem readModule_refuses (size : Nat) (tokens : List Lexeme) (h : ¬ Form.module.Derives tokens) :
    ∃ r k, readModule size tokens = .error r ∧ r.Locates tokens k ∧
      ∀ source : String, (lex source).tokens = tokens → source.utf8ByteSize = size →
        (parse source).module? = none ∧
        (parse source).errors = (lex source).strays.map (fun s => ⟨s.span, s.message⟩) ++
          [⟨(tokens[k]?.map (·.span)).getD ⟨size, size⟩, r.message⟩] := by
  obtain ⟨r, k, hr, hk⟩ := exists_refusal size h
  refine ⟨r, k, hr, hk, ?_⟩
  rintro source rfl rfl
  have hspan : r.span source.utf8ByteSize = ((lex source).tokens[k]?.map (·.span)).getD
      ⟨source.utf8ByteSize, source.utf8ByteSize⟩ := by
    rw [Refusal.span, hk.found]
    cases (lex source).tokens[k]? <;> rfl
  rw [parse, hr, ← hspan]
  exact ⟨rfl, rfl⟩

def missingArrow : String := "func @f(%a: index) \x7b\ntransfer %a %a\n\x7d"

theorem readModule_refuses_missingArrow :
    ¬ Form.module.Derives (lex missingArrow).tokens ∧ ∃ (r : Refusal) (k : Nat),
      r.Locates (lex missingArrow).tokens k ∧
      (parse missingArrow).module? = none ∧
      (parse missingArrow).errors = (lex missingArrow).strays.map (fun s => ⟨s.span, s.message⟩) ++
        [⟨((lex missingArrow).tokens[k]?.map (·.span)).getD
          ⟨missingArrow.utf8ByteSize, missingArrow.utf8ByteSize⟩, r.message⟩] := by
  have hno : ¬ Form.module.Derives (lex missingArrow).tokens := by
    rw [← readModule_isOk_iff 0]
    decide +kernel
  obtain ⟨r, k, -, hk, hparse⟩ := readModule_refuses missingArrow.utf8ByteSize _ hno
  exact ⟨hno, r, k, hk, hparse missingArrow rfl rfl⟩

example : (parse "func @f() \x7b\x7d func").errors =
    [⟨⟨13, 17⟩, "found 'func' expected '<newline>', or end of input"⟩] := by
  decide +kernel

end AsyncOrder.Source
