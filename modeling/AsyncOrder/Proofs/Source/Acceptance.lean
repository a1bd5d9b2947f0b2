import AsyncOrder.Proofs.Source.Exact
import Mathlib.Logic.ExistsUnique

/-!
# What is read is what the grammar derives

A text has the module that its tokens derive, and no other (`readModule_exact`):

    readModule size tokens = .ok m ↔ ∃ d : Derivation Form.module, d.tokens = tokens ∧ d.value size = m

Newlines behind the last line may be counted to the lines or not, so there may be many derivations
(`not_derivation_unique`).  One of them is eager, and all mean the same.
-/

namespace AsyncOrder.Source

open Grammar

variable {size n : Nat} {tokens ts : List Lexeme} {i j : Input}

/-! ## The end of the input -/

theorem run_endOfInput (h : i.cursor.rest = []) : Reader.endOfInput i = (some (), i) := by
  rw [Reader.endOfInput, h]

theorem run_endOfInput_of_ne_nil (h : i.cursor.rest ≠ []) :
    Reader.endOfInput i = (none, i.miss .endOfInput) := by
  rw [Reader.endOfInput]
  split
  · next hrest => exact absurd hrest h
  · rfl

/-! ## Functions, and the end behind them -/

/-- The functions of a module, as they are read. -/
def funcs (size : Nat) (tokens : List Lexeme) : Option (List Func) × Input :=
  (lines Form.func).reader body (.ofTokens size tokens)

theorem exact_funcs : Exact size n ((lines Form.func).reader body) (lines Form.func) :=
  .reader Form.predictive_lines_func exact_body

theorem answer_funcs (size : Nat) (tokens : List Lexeme) :
    Answer size (lines Form.func) (.ofTokens size tokens) (funcs size tokens) :=
  (exact_funcs (n := tokens.length)).answer (Input.fresh_of_furthest_none rfl).1 Nat.le.refl

theorem derives_module_iff : Form.module.Derives ts ↔ (lines Form.func).Derives ts :=
  derives_spanned

theorem readModule_of_funcs {fs : List Func} (h : funcs size tokens = (some fs, j))
    (hrest : j.cursor.rest = []) :
    readModule size tokens = .ok ⟨fs, ⟨startOf size tokens, j.cursor.stop⟩⟩ := by
  have hrun : wholeModule (.ofTokens size tokens) =
      (some ⟨fs, ⟨startOf size tokens, j.cursor.stop⟩⟩, j) :=
    run_seq (run_withSpan h) (run_endOfInput hrest)
  rw [readModule, hrun]

theorem readModule_of_funcs_of_ne_nil {fs : List Func} (h : funcs size tokens = (some fs, j))
    (hrest : j.cursor.rest ≠ []) : readModule size tokens =
      .error ((j.miss .endOfInput).furthest.getD ⟨0, tokens.head?, []⟩) := by
  have hrun : wholeModule (.ofTokens size tokens) = (none, j.miss .endOfInput) :=
    run_seq (run_withSpan h) (run_endOfInput_of_ne_nil hrest)
  rw [readModule, hrun]

theorem readModule_of_funcs_eq_none (h : funcs size tokens = (none, j)) :
    readModule size tokens = .error (j.furthest.getD ⟨0, tokens.head?, []⟩) := by
  have hrun : wholeModule (.ofTokens size tokens) = (none, j) :=
    run_seq_none (run_withSpan h)
  rw [readModule, hrun]

/-! ## Modules and their derivations -/

/-- What is read is what an eager derivation means. -/
theorem exists_eager_of_readModule {m : Module} (h : readModule size tokens = .ok m) :
    ∃ d : Derivation Form.module, d.Eager ∧ d.tokens = tokens ∧ d.value size = m := by
  have hanswer := answer_funcs size tokens
  generalize hrun : funcs size tokens = out at hanswer
  cases hanswer with
  | refuses =>
    rw [readModule_of_funcs_eq_none hrun] at h
    cases h
  | @reads j c d vs hd hasks hc =>
    by_cases hrest : c.rest = []
    · rw [readModule_of_funcs hrun hrest] at h
      cases h
      have htokens : tokens = d.tokens ++ c.rest := hc.rest
      obtain rfl : tokens = d.tokens := by rw [htokens, hrest, List.append_nil]
      exact ⟨.spanned d, hd, rfl, by rw [Input.cursor_moveTo, hc.stop]; rfl⟩
    · rw [readModule_of_funcs_of_ne_nil hrun hrest] at h
      cases h

/-- All tokens of a sentence have been read. -/
theorem eq_of_derives {G : Grammar α} (hasks : i.Asks G ts j) (h : G.Derives i.cursor.rest) :
    ts = i.cursor.rest := by
  rw [hasks.rest] at h ⊢
  cases hrest : j.cursor.rest with
  | nil => rw [List.append_nil]
  | cons z zs =>
    rw [hrest] at h
    exact absurd h.begins.follows (hasks.not_follows (by rw [hrest]; rfl))

theorem exists_readModule_of_derives (size : Nat) (h : Form.module.Derives tokens) :
    ∃ m, readModule size tokens = .ok m := by
  have hlines : (lines Form.func).Derives (Input.ofTokens size tokens).cursor.rest :=
    derives_module_iff.1 h
  have hanswer := answer_funcs size tokens
  generalize hrun : funcs size tokens = out at hanswer
  cases hanswer with
  | refuses hasks _ hno => exact absurd hlines (hno _ (eq_of_derives hasks hlines ▸ List.prefix_rfl))
  | @reads j c d vs hd hasks hc _ hmax =>
    have hall := eq_of_derives hasks hlines
    have hvs : vs = [] := Decidable.by_contra fun hne => hmax vs hne List.prefix_rfl (hall ▸ hlines)
    have hrest : c.rest = [] := hc.rest_eq (by rw [← hall, hvs])
    exact ⟨_, readModule_of_funcs hrun hrest⟩

/-! ## One eager derivation -/

theorem exists_eager_module (d : Derivation Form.module) : ∃ e : Derivation Form.module,
    e.Eager ∧ e.tokens = d.tokens ∧ ∀ size, e.value size = d.value size := by
  cases d with
  | spanned d =>
    obtain ⟨e, he, htokens, hvalue⟩ := d.exists_eager Form.predictive_lines_func
    refine ⟨.spanned e, he, htokens, fun size => ?_⟩
    simp only [Derivation.value, htokens, hvalue]

theorem eager_module_unique {d d' : Derivation Form.module} (hd : d.Eager) (hd' : d'.Eager)
    (h : d.tokens = d'.tokens) : d = d' := by
  cases d with
  | spanned d =>
    cases d' with
    | spanned d' =>
      have heq : d.tokens ++ [] = d'.tokens ++ [] := congrArg (· ++ []) h
      rw [d.unique Form.predictive_lines_func hd hd' heq clear_nil clear_nil]

/-- All derivations of the same tokens mean the same. -/
theorem value_module_unique {d d' : Derivation Form.module} (h : d.tokens = d'.tokens)
    (size : Nat) : d.value size = d'.value size := by
  obtain ⟨e, he, htokens, hvalue⟩ := exists_eager_module d
  obtain ⟨e', he', htokens', hvalue'⟩ := exists_eager_module d'
  obtain rfl := eager_module_unique he he' (htokens.trans (h.trans htokens'.symm))
  rw [← hvalue, ← hvalue']

theorem readModule_eq_ok_iff_derives {m : Module} : readModule size tokens = .ok m ↔
    ∃ d : Derivation Form.module, d.tokens = tokens ∧ d.value size = m := by
  constructor
  · intro h
    obtain ⟨d, -, hd⟩ := exists_eager_of_readModule h
    exact ⟨d, hd⟩
  · rintro ⟨d, rfl, rfl⟩
    obtain ⟨m, hm⟩ := exists_readModule_of_derives size (derives_tokens d)
    obtain ⟨e, -, htokens, rfl⟩ := exists_eager_of_readModule hm
    rw [hm, value_module_unique htokens]

/-! ## Main results -/

/-- A token sequence is read if it can be derived, as what its derivations mean; then it has one
derivation in which each part takes what it can. -/
theorem readModule_exact (size : Nat) (tokens : List Lexeme) :
    (∀ m, readModule size tokens = .ok m ↔
      ∃ d : Derivation Form.module, d.tokens = tokens ∧ d.value size = m) ∧
    (Form.module.Derives tokens ↔ ∃! d : Derivation Form.module, d.Eager ∧ d.tokens = tokens) := by
  refine ⟨fun m => readModule_eq_ok_iff_derives, ?_, ?_⟩
  · rintro ⟨d, rfl⟩
    obtain ⟨e, he, htokens, -⟩ := exists_eager_module d
    refine ⟨e, ⟨he, htokens⟩, ?_⟩
    rintro e' ⟨he', htokens'⟩
    exact eager_module_unique he' he (htokens'.trans htokens.symm)
  · rintro ⟨d, ⟨-, hd⟩, -⟩
    exact ⟨d, hd⟩

/-- A newline on its own may stand before functions that are not there, or behind them. -/
theorem not_derivation_unique :
    ¬ ∀ (size : Nat) (tokens : List Lexeme),
      (∀ m, readModule size tokens = .ok m ↔
        ∃ d : Derivation Form.module, d.tokens = tokens ∧ d.value size = m) ∧
      ∀ d d' : Derivation Form.module, d.tokens = tokens → d'.tokens = tokens → d = d' := by
  intro h
  have hlex : (lex "\n").tokens = [⟨.newline, ⟨0, 1⟩⟩] := by decide +kernel
  have hne : ∀ nl : Derivation newline,
      (.spanned (.seq (.seq (.manyCons nl .manyNil) .absent) .manyNil) : Derivation Form.module) ≠
        .spanned (.seq (.seq .manyNil .absent) (.manyCons nl .manyNil)) := by
    intro nl heq
    cases heq
  exact hne (.token ⟨.newline, ⟨0, 1⟩⟩ rfl)
    ((h 1 (lex "\n").tokens).2 _ _ hlex.symm hlex.symm)

/-- A text has the module that its tokens derive, whatever stretches of it are no tokens. -/
theorem parse_module?_eq_some_iff {source : String} {m : Module} :
    (parse source).module? = some m ↔ ∃ d : Derivation Form.module,
      d.tokens = (lex source).tokens ∧ d.value source.utf8ByteSize = m := by
  rw [← readModule_eq_ok_iff_derives, parse]
  cases readModule source.utf8ByteSize (lex source).tokens <;> simp

end AsyncOrder.Source
