import Mathlib.Logic.Function.Iterate
import Mathlib.Tactic.IntervalCases
import Wordlet.Proofs.Prediction

/-!
# Progress and locality of parsers

The grammar is read by functions that call each other and by loops that end where a closing
parenthesis comes. Every call and every round of a loop takes a token before the next one, on
malformed tokens too, so that there are never more of them than tokens. What is taken is closed in
itself, and nothing but it and the lexeme after it has been looked at.

* `Ends`: a recursion does not depend on what would go on after as many steps as there are tokens.
  `Ends.of_calls`: **it does not if each step goes on with fewer tokens.**
* `argumentsRound`, `parametersRound`, `definitionsRound`: the loops, one round each.
* `Nested`: braces and parentheses are balanced; `Expression.spans`, `Block.spans`,
  `Function.spans`: **what a derivation takes is nested.**
* `Local.of_predictive`: **parsers that see one token ahead are local**, said of positions.
* `parsers_local`: all of this of expressions, blocks and definitions.
-/

namespace Wordlet

open Grammar

namespace Parse

/-! ## Recursions that end -/

/-- The recursion of `step` ends, and `p` is what comes of it: with more steps inside each other
than there are tokens, it makes no difference what would answer after the last. -/
def Ends {α : Type} (step : Parser α → Parser α) (p : Parser α) : Prop :=
  ∀ (last : Parser α) (n : Nat) (ts : List Token), ts.length < n → step^[n] last ts = p ts

/-- **A recursion ends if each step goes on with fewer tokens.** -/
theorem Ends.of_calls {α : Type} {step : Parser α → Parser α} {p : Parser α} (heq : step p = p)
    (hcalls : ∀ (q : Parser α) (ts : List Token),
      (∀ us : List Token, us.length < ts.length → q us = p us) → step q ts = step p ts) :
    Ends step p := by
  intro last n
  induction n with
  | zero =>
    intro ts hn
    omega
  | succ n ih =>
    intro ts hn
    have hinner : ∀ us : List Token, us.length < ts.length → step^[n] last us = p us :=
      fun us hus => ih us (by omega)
    rw [Function.iterate_succ_apply', hcalls _ ts hinner, heq]

/-- **Expressions inside one another end.** -/
theorem expression_ends : Ends expressionOf expression := by
  refine .of_calls expression_eq.symm fun q ts hq => ?_
  exact (expressionOf_congr expression_sound fun us hus => (hq us hus).symm).symm

/-- One round of the loop over arguments, which `again` goes on with. -/
def argumentsRound (again : Parser (List Expr)) : Parser (List Expr) := fun ts =>
  match after? .closeParen ts with
  | some rest => .ok [] rest
  | none => (expression ts).andThen fun e ts => (again (skipComma ts)).map (e :: ·)

/-- **The loop over arguments ends.** -/
theorem arguments_ends : Ends argumentsRound arguments := by
  refine .of_calls (funext fun ts => (arguments_eq ts).symm) fun q ts hq => ?_
  unfold argumentsRound
  cases after? .closeParen ts with
  | some rest => rfl
  | none =>
    refine Reply.andThen_congr fun e rest hfirst => ?_
    have hlt := length_lt_of_expression hfirst
    have hskip := length_skipComma_le rest
    rw [hq (skipComma rest) (by omega)]

/-- One round of the loop over parameters, which `again` goes on with. -/
def parametersRound (again : Parser (List Parameter)) : Parser (List Parameter) := fun ts =>
  match after? .closeParen ts with
  | some rest => .ok [] rest
  | none =>
    (word .closeParenOrWord ts).andThen fun (w, loc) ts =>
      (again (skipComma ts)).map (⟨some loc, w⟩ :: ·)

/-- Where a comma may come, one is passed over. -/
theorem parametersFrom_true (ts : List Token) :
    parametersFrom true ts = parameters (skipComma ts) := by
  cases ts with
  | nil => rfl
  | cons t ts =>
    obtain ⟨l, loc⟩ := t
    cases l with
    | word w => rfl
    | symbol s => cases s <;> rfl

theorem parameters_eq (ts : List Token) : parameters ts = parametersRound parameters ts := by
  cases ts with
  | nil => rfl
  | cons t ts =>
    obtain ⟨l, loc⟩ := t
    cases l with
    | word w => exact congrArg (Reply.map _) (parametersFrom_true ts)
    | symbol s => cases s <;> rfl

/-- **The loop over parameters ends.** -/
theorem parameters_ends : Ends parametersRound parameters := by
  refine .of_calls (funext fun ts => (parameters_eq ts).symm) fun q ts hq => ?_
  unfold parametersRound
  cases after? .closeParen ts with
  | some rest => rfl
  | none =>
    refine Reply.andThen_congr fun name rest hword => ?_
    have hlen := congrArg List.length (word_eq_ok.1 hword)
    rw [List.length_cons] at hlen
    have hskip := length_skipComma_le rest
    dsimp only
    rw [hq (skipComma rest) (by omega)]

/-- One round of the loop over definitions, which `again` goes on with. -/
def definitionsRound (again : Parser (List Definition)) : Parser (List Definition) := fun ts =>
  if ts.isEmpty then .ok [] ts
  else (definition ts).andThen fun d ts => (again ts).map (d :: ·)

theorem definitions_eq (ts : List Token) : definitions ts = definitionsRound definitions ts := by
  cases ts with
  | nil => rfl
  | cons t ts => exact definitions_cons t ts

/-- **The loop over definitions ends.** -/
theorem definitions_ends : Ends definitionsRound definitions := by
  refine .of_calls (funext fun ts => (definitions_eq ts).symm) fun q ts hq => ?_
  unfold definitionsRound
  split
  · rfl
  · refine Reply.andThen_congr fun d rest hfirst => ?_
    rw [hq rest (length_lt_of_definition hfirst)]

/-- **A block ends**, since the expression in it does. -/
theorem block_ends (last : Parser Expr) {n : Nat} {ts : List Token} (h : ts.length ≤ n) :
    blockOf (expressionOf^[n] last) ts = block ts :=
  blockOf_congr fun us hus => expression_ends last n us (by omega)

/-- A definition, its parameters and its body read by other parsers. -/
def definitionOf (params : Parser (List Parameter)) (body : Parser Expr) : Parser Definition :=
  fun ts =>
    (word .functionName ts).andThen fun (name, loc) ts =>
      (symbol .openParen .openParen ts).andThen fun _ ts =>
        (params ts).andThen fun ps ts => (body ts).map fun e => ⟨some loc, name, ps, e⟩

/-- **A definition ends**, since its parameters and its body do. -/
theorem definition_ends (last : Parser (List Parameter)) (last' : Parser Expr) {n : Nat}
    {ts : List Token} (h : ts.length ≤ n) :
    definitionOf (parametersRound^[n] last) (blockOf (expressionOf^[n] last')) ts =
      definition ts := by
  unfold definitionOf definition
  refine Reply.andThen_congr fun name ts₁ hword => ?_
  refine Reply.andThen_congr fun ploc ts₂ hopen => ?_
  have hlen := congrArg List.length (word_eq_ok.1 hword)
  have hlen' := congrArg List.length (symbol_eq_ok.1 hopen)
  rw [List.length_cons] at hlen hlen'
  rw [parameters_ends last n ts₂ (by omega)]
  refine Reply.andThen_congr fun ps ts₃ hparams => ?_
  have hlt := length_lt_of_parameters hparams
  rw [block_ends last' (show ts₃.length ≤ n by omega)]

end Parse

/-! ## Nested tokens -/

/-- The lexemes that come in pairs. -/
def Lexeme.paired : List Lexeme :=
  [.symbol .openParen, .symbol .closeParen, .symbol .openBrace, .symbol .closeBrace]

/-- The parentheses and the braces among the tokens are balanced and properly nested. -/
inductive Nested : List Token → Prop where
  | nil : Nested []
  | other {t : Token} {ts : List Token} : t.lexeme ∉ Lexeme.paired → Nested ts → Nested (t :: ts)
  | parens {loc cloc : Location} {inner ts : List Token} : Nested inner → Nested ts →
      Nested (⟨.symbol .openParen, loc⟩ :: (inner ++ ⟨.symbol .closeParen, cloc⟩ :: ts))
  | braces {loc cloc : Location} {inner ts : List Token} : Nested inner → Nested ts →
      Nested (⟨.symbol .openBrace, loc⟩ :: (inner ++ ⟨.symbol .closeBrace, cloc⟩ :: ts))

theorem Nested.append {as bs : List Token} (has : Nested as) (hbs : Nested bs) :
    Nested (as ++ bs) := by
  induction has with
  | nil => exact hbs
  | other ht _ ih => exact .other ht ih
  | parens hinner _ _ ih =>
    rw [List.cons_append, List.append_assoc, List.cons_append]
    exact .parens hinner ih
  | braces hinner _ _ ih =>
    rw [List.cons_append, List.append_assoc, List.cons_append]
    exact .braces hinner ih

/-- What the tokens `ts` have before `rest` is nested. -/
def Spans (ts rest : List Token) : Prop := ∃ used, ts = used ++ rest ∧ Nested used

namespace Spans

variable {ts ts₁ rest : List Token} {loc cloc : Location}

theorem refl (ts : List Token) : Spans ts ts := ⟨[], rfl, .nil⟩

theorem trans (h : Spans ts ts₁) (h' : Spans ts₁ rest) : Spans ts rest := by
  obtain ⟨used, rfl, hused⟩ := h
  obtain ⟨used', rfl, hused'⟩ := h'
  exact ⟨used ++ used', (List.append_assoc _ _ _).symm, hused.append hused'⟩

theorem other {t : Token} (ht : t.lexeme ∉ Lexeme.paired) (h : Spans ts rest) :
    Spans (t :: ts) rest := by
  obtain ⟨used, rfl, hused⟩ := h
  exact ⟨t :: used, rfl, .other ht hused⟩

theorem word {w : String} (h : Spans ts rest) : Spans (⟨.word w, loc⟩ :: ts) rest :=
  h.other (by simp [Lexeme.paired])

theorem comma (h : Spans ts rest) : Spans (⟨.symbol .comma, loc⟩ :: ts) rest :=
  h.other (by simp [Lexeme.paired])

theorem parens (h : Spans ts (⟨.symbol .closeParen, cloc⟩ :: rest)) :
    Spans (⟨.symbol .openParen, loc⟩ :: ts) rest := by
  obtain ⟨inner, rfl, hinner⟩ := h
  exact ⟨⟨.symbol .openParen, loc⟩ :: (inner ++ [⟨.symbol .closeParen, cloc⟩]), by simp,
    .parens hinner .nil⟩

theorem braces (h : Spans ts (⟨.symbol .closeBrace, cloc⟩ :: rest)) :
    Spans (⟨.symbol .openBrace, loc⟩ :: ts) rest := by
  obtain ⟨inner, rfl, hinner⟩ := h
  exact ⟨⟨.symbol .openBrace, loc⟩ :: (inner ++ [⟨.symbol .closeBrace, cloc⟩]), by simp,
    .braces hinner .nil⟩

end Spans

namespace Grammar

mutual

/-- **What an expression takes is nested.** -/
theorem Expression.spans {ts rest : List Token} {e : Expr} (h : Expression ts e rest) :
    Spans ts rest := by
  match h with
  | .literal _ _ => exact (Spans.refl _).word
  | .var _ _ => exact (Spans.refl _).word
  | .call _ ha =>
    obtain ⟨cloc, hargs⟩ := ha.spans
    exact hargs.parens.word
  | .branch hc ht _ => exact (hc.spans.trans ht.spans).word
  | .branchElse hc ht he => exact ((hc.spans.trans ht.spans).trans he.spans.word).word

/-- **What a block takes is nested.** -/
theorem Block.spans {ts rest : List Token} {e : Expr} (h : Block ts e rest) : Spans ts rest := by
  match h with
  | .empty => exact (Spans.refl _).braces
  | .expression he => exact he.spans.braces

/-- What arguments take is nested up to the closing parenthesis. -/
theorem Arguments.spans {ts rest : List Token} {es : List Expr} (h : Arguments ts es rest) :
    ∃ cloc, Spans ts (⟨.symbol .closeParen, cloc⟩ :: rest) := by
  match h with
  | .close => exact ⟨_, .refl _⟩
  | .plain he ha =>
    obtain ⟨cloc, hargs⟩ := ha.spans
    exact ⟨cloc, he.spans.trans hargs⟩
  | .comma he ha =>
    obtain ⟨cloc, hargs⟩ := ha.spans
    exact ⟨cloc, he.spans.trans hargs.comma⟩

end

theorem Parameters.spans {ts rest : List Token} {ps : List Parameter}
    (h : Parameters ts ps rest) : ∃ cloc, Spans ts (⟨.symbol .closeParen, cloc⟩ :: rest) := by
  induction h with
  | close => exact ⟨_, .refl _⟩
  | plain _ ih =>
    obtain ⟨cloc, hparams⟩ := ih
    exact ⟨cloc, hparams.word⟩
  | comma _ ih =>
    obtain ⟨cloc, hparams⟩ := ih
    exact ⟨cloc, hparams.comma.word⟩

/-- **What a function takes is nested.** -/
theorem Function.spans {ts rest : List Token} {d : Definition} (h : Function ts d rest) :
    Spans ts rest := by
  obtain ⟨hp, hb⟩ := h
  obtain ⟨cloc, hparams⟩ := hp.spans
  exact (hparams.parens.trans hb.spans).word

end Grammar

namespace Parse

/-! ## Parsers at positions -/

/-- **The parser makes progress and is local.** Let it succeed from the position `start` on and come
to stand at `q`. -/
structure Local {α : Type} (p : Parser α) : Prop where
  /-- It takes a token, and none that is not there. -/
  progress : ∀ {tokens : List Token} {start : Nat} {a : α} {q : Nat},
    Parser.run p tokens start = ⟨.ok a, q⟩ → start < q ∧ q ≤ tokens.length
  /-- What it takes is nested. -/
  nested : ∀ {tokens : List Token} {start : Nat} {a : α} {q : Nat},
    Parser.run p tokens start = ⟨.ok a, q⟩ → Nested (tokens.extract start q)
  /-- It succeeds in the same way wherever the tokens that it takes and the lexeme after them are
  the same, or none is after them. -/
  agree : ∀ {tokens tokens' : List Token} {start : Nat} {a : α} {q : Nat},
    Parser.run p tokens start = ⟨.ok a, q⟩ →
    (∀ i, start ≤ i → i < q → tokens'[i]? = tokens[i]?) →
    tokens'[q]?.map (·.lexeme) = tokens[q]?.map (·.lexeme) →
      Parser.run p tokens' start = ⟨.ok a, q⟩

section Positions

variable {α : Type} {p : Parser α} {tokens tokens' used rest : List Token} {start q : Nat} {a : α}

theorem run_eq_ok : Parser.run p tokens start = ⟨.ok a, q⟩ ↔
    ∃ rest, p (tokens.drop start) = .ok a rest ∧ tokens.length - rest.length = q := by
  unfold Parser.run
  cases p (tokens.drop start) with
  | ok b rest => simp
  | fail c rest => simp

theorem next_drop (tokens : List Token) (q : Nat) :
    next (tokens.drop q) = tokens[q]?.map (·.lexeme) := by
  rw [next, List.head?_map, List.head?_drop]

/-- Token lists that agree from `start` to `q` have the same tokens there. -/
theorem drop_eq_append (hused : tokens.drop start = used ++ rest) (hq : start + used.length = q)
    (hagree : ∀ i, start ≤ i → i < q → tokens'[i]? = tokens[i]?) :
    tokens'.drop start = used ++ tokens'.drop q := by
  have htake : (tokens'.drop start).take used.length = used := by
    refine List.ext_getElem? fun i => ?_
    rw [List.getElem?_take]
    split
    · next hi =>
      have hsame := hagree (start + i) (Nat.le_add_right _ _) (by omega)
      rw [List.getElem?_drop, hsame, ← List.getElem?_drop, hused, List.getElem?_append_left hi]
    · next hi => exact (List.getElem?_eq_none (Nat.not_lt.1 hi)).symm
  rw [← hq, ← List.drop_drop]
  conv_lhs => rw [← List.take_append_drop used.length (tokens'.drop start), htake]

variable {first : Lexeme} {follow : List Token → Prop}
  (hpredictive : ∀ ts, Predictive first follow p ts)
  (htakes : ∀ {ts rest a}, p ts = .ok a rest → rest.length < ts.length)
  (hspans : ∀ {ts rest a}, p ts = .ok a rest → Spans ts rest)

include hpredictive htakes hspans

/-- The tokens that a parser takes on its way from `start` to `q`. Whatever follows them, the answer
to them is the same as long as the next lexeme is. -/
theorem exists_used_of_run (h : Parser.run p tokens start = ⟨.ok a, q⟩) :
    ∃ used, used ≠ [] ∧ Nested used ∧ start + used.length = q ∧
      tokens.drop start = used ++ tokens.drop q ∧
      ∀ rest', next rest' = next (tokens.drop q) → p (used ++ rest') = .ok a rest' := by
  obtain ⟨rest, hp, hq⟩ := run_eq_ok.1 h
  obtain ⟨used, hused, hnested⟩ := hspans hp
  obtain ⟨used', hused', hreads⟩ := (hpredictive _).exists_of_ok hp
  obtain rfl : used' = used := List.append_cancel_right (hused'.symm.trans hused)
  have hlt := htakes hp
  have hlen := congrArg List.length hused
  rw [List.length_drop] at hlt hlen
  rw [List.length_append] at hlen
  have hend : start + used'.length = q := by omega
  have hrest : tokens.drop q = rest := by
    rw [← hend, ← List.drop_drop, hused, List.drop_left]
  have hne : used' ≠ [] := by
    rintro rfl
    rw [List.length_nil] at hlen
    omega
  rw [hrest]
  exact ⟨used', hne, hnested, hend, hused, hreads⟩

/-- **Parsers that see one token ahead are local**, if they take tokens and what they take is
nested. -/
theorem Local.of_predictive : Local p := by
  refine ⟨fun hrun => ?_, fun hrun => ?_, fun {tokens tokens' start a q} hrun hagree hnext => ?_⟩
  · obtain ⟨used, hne, -, hq, -, -⟩ := exists_used_of_run hpredictive htakes hspans hrun
    obtain ⟨rest, -, hlen⟩ := run_eq_ok.1 hrun
    have hpos := List.length_pos_iff.2 hne
    omega
  · obtain ⟨used, -, hnested, hq, hused, -⟩ := exists_used_of_run hpredictive htakes hspans hrun
    rw [List.extract_eq_take_drop, hused, ← hq, Nat.add_sub_cancel_left, List.take_left]
    exact hnested
  · obtain ⟨used, hne, -, hq, hused, hreads⟩ :=
      exists_used_of_run hpredictive htakes hspans hrun
    have hused' : tokens'.drop start = used ++ tokens'.drop q := drop_eq_append hused hq hagree
    have hp : p (tokens'.drop start) = .ok a (tokens'.drop q) := by
      rw [hused']
      exact hreads _ (by rw [next_drop, next_drop, hnext])
    have hlen := congrArg List.length hused'
    rw [List.length_append, List.length_drop, List.length_drop] at hlen
    have hpos := List.length_pos_iff.2 hne
    refine run_eq_ok.2 ⟨_, hp, ?_⟩
    rw [List.length_drop]
    omega

end Positions

theorem expression_local : Local expression :=
  .of_predictive expression_predictive length_lt_of_expression
    fun h => (expression_sound h).derives.spans

theorem block_local : Local block :=
  .of_predictive block_predictive length_lt_of_block
    fun h => (blockOf_sound expression_sound h).1.spans

theorem definition_local : Local definition :=
  .of_predictive definition_predictive length_lt_of_definition
    fun h => (definition_sound h).1.spans

/-- **Every parser of the grammar ends, makes progress and is local.** On all token lists, malformed
ones too:

* an expression, a block and a definition end within as many calls inside one another and as many
  rounds of each loop as there are tokens: whatever would come after these plays no part. The same
  is true of the loops over arguments and over the definitions of a program;
* where an expression, a block or a definition is read from one position to another, some token is
  taken and none beyond the last, the parentheses and braces among them are balanced and nested, and
  on other tokens that agree from the one position up to the other, the same tree is read up to the
  same position. Of the token at the other position only the lexeme matters, or that there is
  none. -/
theorem parsers_local :
    (∀ (last : Parser Expr) (last' : Parser (List Parameter)) (n : Nat) (ts : List Token),
      ts.length < n →
        expressionOf^[n] last ts = expression ts ∧
        blockOf (expressionOf^[n] last) ts = block ts ∧
        definitionOf (parametersRound^[n] last') (blockOf (expressionOf^[n] last)) ts =
          definition ts) ∧
    (Ends argumentsRound arguments ∧ Ends parametersRound parameters ∧
      Ends definitionsRound definitions) ∧
    Local expression ∧ Local block ∧ Local definition := by
  refine ⟨fun last last' n ts hn => ⟨expression_ends last n ts hn, ?_, ?_⟩, ?_, ?_⟩
  · exact block_ends last (Nat.le_of_lt hn)
  · exact definition_ends last' last (Nat.le_of_lt hn)
  · exact ⟨arguments_ends, parameters_ends, definitions_ends⟩
  · exact ⟨expression_local, block_local, definition_local⟩

/-- A call in the middle of other tokens, which differ before it and after the word that follows
it, and a call that is never closed. -/
theorem parsers_local_call :
    ∃ e, Parser.run expression (Token.scan "] g(x h(1)) zz \x7d(" "s") 1 = ⟨.ok e, 9⟩ ∧
      Nested ((Token.scan "] g(x h(1)) zz \x7d(" "s").extract 1 9) ∧
      Parser.run expression (Token.scan "\x7b g(x h(1)) zz" "s") 1 = ⟨.ok e, 9⟩ ∧
      expressionOf^[7] (fun ts => .ok (.empty none) ts) (Token.scan "g(x h(1" "s") =
        .fail .endOfInput [] := by
  obtain ⟨hends, -, hlocal, -, -⟩ := parsers_local
  have htokens : Token.scan "] g(x h(1)) zz \x7d(" "s" = [⟨.symbol .closeBracket, ⟨"s", 1, 1⟩⟩,
      ⟨.word "g", ⟨"s", 1, 3⟩⟩, ⟨.symbol .openParen, ⟨"s", 1, 4⟩⟩, ⟨.word "x", ⟨"s", 1, 5⟩⟩,
      ⟨.word "h", ⟨"s", 1, 7⟩⟩, ⟨.symbol .openParen, ⟨"s", 1, 8⟩⟩, ⟨.word "1", ⟨"s", 1, 9⟩⟩,
      ⟨.symbol .closeParen, ⟨"s", 1, 10⟩⟩, ⟨.symbol .closeParen, ⟨"s", 1, 11⟩⟩,
      ⟨.word "zz", ⟨"s", 1, 13⟩⟩, ⟨.symbol .closeBrace, ⟨"s", 1, 16⟩⟩,
      ⟨.symbol .openParen, ⟨"s", 1, 17⟩⟩] := by cbv
  have hothers : Token.scan "\x7b g(x h(1)) zz" "s" = [⟨.symbol .openBrace, ⟨"s", 1, 1⟩⟩,
      ⟨.word "g", ⟨"s", 1, 3⟩⟩, ⟨.symbol .openParen, ⟨"s", 1, 4⟩⟩, ⟨.word "x", ⟨"s", 1, 5⟩⟩,
      ⟨.word "h", ⟨"s", 1, 7⟩⟩, ⟨.symbol .openParen, ⟨"s", 1, 8⟩⟩, ⟨.word "1", ⟨"s", 1, 9⟩⟩,
      ⟨.symbol .closeParen, ⟨"s", 1, 10⟩⟩, ⟨.symbol .closeParen, ⟨"s", 1, 11⟩⟩,
      ⟨.word "zz", ⟨"s", 1, 13⟩⟩] := by cbv
  have hrun : Parser.run expression (Token.scan "] g(x h(1)) zz \x7d(" "s") 1 =
      ⟨.ok (.call (some ⟨"s", 1, 3⟩) "g" [.var (some ⟨"s", 1, 5⟩) "x",
        .call (some ⟨"s", 1, 7⟩) "h" [.literal (some ⟨"s", 1, 9⟩) 1]]), 9⟩ := by cbv
  refine ⟨_, hrun, hlocal.nested hrun, hlocal.agree hrun (fun i hfrom hto => ?_) ?_, ?_⟩
  · rw [htokens, hothers]
    interval_cases i <;> rfl
  · rw [htokens, hothers]
    rfl
  · have hlength : (Token.scan "g(x h(1" "s").length < 7 := by decide +kernel
    rw [(hends _ (fun ts => .ok [] ts) 7 _ hlength).1]
    cbv

end Parse

end Wordlet
