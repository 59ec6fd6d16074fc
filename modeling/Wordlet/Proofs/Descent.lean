import Wordlet.Proofs.Parse

/-!
# Reading without bounds

The parsers carry bounds on the nesting of expressions and on the numbers of arguments and
definitions, taken from the number of tokens. The bounds are never met, so a parser answers as if
there were none: an expression is read by reading its parts as expressions.

* `expressionUpTo_congr`: **all bounds above the number of tokens give one answer**, a failure as
  well as a success.
* `expression_eq`, `arguments_eq`, `definitions_cons`: the parsers in terms of each other.
-/

namespace Wordlet.Parse

/-! ## Parsers that agree on shorter inputs -/

section Congruence

variable {inner inner' : Parser Expr} {ts : List Token}

theorem length_skipComma_le (ts : List Token) : (skipComma ts).length ≤ ts.length := by
  rcases skipComma_eq ts with ⟨loc, h⟩ | h
  · have hlen := congrArg List.length h
    rw [List.length_cons] at hlen
    omega
  · exact Nat.le_of_eq (congrArg List.length h)

/-- A block reads its expression from fewer tokens. -/
theorem blockOf_congr (h : ∀ us : List Token, us.length < ts.length → inner us = inner' us) :
    blockOf inner ts = blockOf inner' ts := by
  unfold blockOf
  cases hopen : symbol .openBrace .openBrace ts with
  | fail c rest => rfl
  | ok loc rest =>
    rw [symbol_eq_ok.1 hopen] at h
    have hinner := h rest (by simp)
    simp only [Reply.andThen_ok, hinner]

variable (hin : ∀ {ts e rest}, inner ts = .ok e rest → Reads ts e rest)

include hin

theorem argumentsOf_congr {n : Nat} : ∀ {m : Nat} {ts : List Token},
    (∀ us : List Token, us.length ≤ ts.length → inner us = inner' us) → ts.length < n →
      ts.length < m → argumentsOf inner n ts = argumentsOf inner' m ts := by
  induction n with
  | zero => intro m ts _ hn; omega
  | succ n ih =>
    intro m ts h hn hm
    obtain ⟨m, rfl⟩ : ∃ k, m = k + 1 := ⟨m - 1, by omega⟩
    rw [argumentsOf, argumentsOf, ← h ts (Nat.le_refl _)]
    cases hclose : after? .closeParen ts with
    | some rest => rfl
    | none =>
      cases hfirst : inner ts with
      | fail c rest => rfl
      | ok e rest =>
        have hlt := (hin hfirst).derives.length_lt
        have hskip := length_skipComma_le rest
        have hrest : argumentsOf inner n (skipComma rest) = argumentsOf inner' m (skipComma rest) :=
          ih (fun us hus => h us (by omega)) (by omega) (by omega)
        simp only [Reply.andThen_ok, hrest]

theorem branchOf_congr (h : ∀ us : List Token, us.length ≤ ts.length → inner us = inner' us)
    (loc : Location) : branchOf inner loc ts = branchOf inner' loc ts := by
  unfold branchOf
  rw [← h ts (Nat.le_refl _)]
  cases hcondition : inner ts with
  | fail c rest => rfl
  | ok c ts₁ =>
    have hlt := (hin hcondition).derives.length_lt
    have hblock : blockOf inner ts₁ = blockOf inner' ts₁ :=
      blockOf_congr fun us hus => h us (by omega)
    simp only [Reply.andThen_ok, ← hblock]
    cases hthen : blockOf inner ts₁ with
    | fail c rest => rfl
    | ok t ts₂ =>
      have hlt' := (blockOf_sound hin hthen).1.length_lt
      simp only [Reply.andThen_ok]
      cases helse : afterWord? "else" ts₂ with
      | none => rfl
      | some ts₃ =>
        obtain ⟨eloc, rfl⟩ := afterWord?_eq_some.1 helse
        rw [List.length_cons] at hlt'
        have hblock' : blockOf inner ts₃ = blockOf inner' ts₃ :=
          blockOf_congr fun us hus => h us (by omega)
        simp only [hblock']

/-- An expression reads its parts from fewer tokens. -/
theorem expressionOf_congr (h : ∀ us : List Token, us.length < ts.length → inner us = inner' us) :
    expressionOf inner ts = expressionOf inner' ts := by
  unfold expressionOf
  cases hword : word .word ts with
  | fail c rest => rfl
  | ok name rest =>
    obtain ⟨w, loc⟩ := name
    rw [word_eq_ok.1 hword] at h
    have hle : ∀ us : List Token, us.length ≤ rest.length → inner us = inner' us :=
      fun us hus => h us (by rw [List.length_cons]; omega)
    simp only [Reply.andThen_ok, branchOf_congr hin hle loc]
    cases hopen : after? .openParen rest with
    | none => rfl
    | some ts₁ =>
      obtain ⟨ploc, rfl⟩ := after?_eq_some.1 hopen
      have harguments : argumentsOf inner (ts₁.length + 1) ts₁ =
          argumentsOf inner' (ts₁.length + 1) ts₁ :=
        argumentsOf_congr hin (fun us hus => hle us (by rw [List.length_cons]; omega))
          (Nat.lt_succ_self _) (Nat.lt_succ_self _)
      simp only [harguments]

end Congruence

/-! ## Bounds that are never met -/

/-- **All bounds above the number of tokens give one answer.** -/
theorem expressionUpTo_congr {n : Nat} : ∀ {m : Nat} {ts : List Token}, ts.length < n →
    ts.length < m → expressionUpTo n ts = expressionUpTo m ts := by
  induction n with
  | zero => intro m ts hn; omega
  | succ n ih =>
    intro m ts hn hm
    obtain ⟨m, rfl⟩ : ∃ k, m = k + 1 := ⟨m - 1, by omega⟩
    exact expressionOf_congr expressionUpTo_sound fun us hus => ih (by omega) (by omega)

theorem expression_sound {ts rest : List Token} {e : Expr} (h : expression ts = .ok e rest) :
    Reads ts e rest :=
  expressionUpTo_sound h

theorem length_lt_of_expression {ts rest : List Token} {e : Expr}
    (h : expression ts = .ok e rest) : rest.length < ts.length :=
  (expression_sound h).derives.length_lt

/-- An expression is read by reading its parts as expressions. -/
theorem expression_eq : expression = expressionOf expression := by
  funext ts
  exact expressionOf_congr expressionUpTo_sound fun us hus =>
    expressionUpTo_congr hus (Nat.lt_succ_self _)

/-- Arguments up to the closing parenthesis. -/
def arguments : Parser (List Expr) := fun ts => argumentsOf expression (ts.length + 1) ts

theorem arguments_eq (ts : List Token) :
    arguments ts =
      match after? .closeParen ts with
      | some rest => .ok [] rest
      | none =>
        (expression ts).andThen fun e ts => (arguments (skipComma ts)).map (e :: ·) := by
  rw [arguments, argumentsOf]
  cases after? .closeParen ts with
  | some rest => rfl
  | none =>
    cases hfirst : expression ts with
    | fail c rest => rfl
    | ok e rest =>
      have hlt := length_lt_of_expression hfirst
      have hskip := length_skipComma_le rest
      have hrest : argumentsOf expression ts.length (skipComma rest) = arguments (skipComma rest) :=
        argumentsOf_congr expression_sound (fun _ _ => rfl) (by omega) (Nat.lt_succ_self _)
      simp only [Reply.andThen_ok, hrest]

theorem length_lt_of_definition {ts rest : List Token} {d : Definition}
    (h : definition ts = .ok d rest) : rest.length < ts.length :=
  (definition_sound h).1.length_lt

theorem definitionsUpTo_congr {n : Nat} : ∀ {m : Nat} {ts : List Token}, ts.length ≤ n →
    ts.length ≤ m → definitionsUpTo n ts = definitionsUpTo m ts := by
  induction n with
  | zero =>
    intro m ts hn _
    obtain rfl : ts = [] := List.length_eq_zero_iff.1 (by omega)
    cases m <;> rfl
  | succ n ih =>
    intro m ts hn hm
    cases ts with
    | nil => cases m <;> rfl
    | cons t ts =>
      rw [List.length_cons] at hn hm
      obtain ⟨m, rfl⟩ : ∃ k, m = k + 1 := ⟨m - 1, by omega⟩
      rw [definitionsUpTo, definitionsUpTo]
      cases hfirst : definition (t :: ts) with
      | fail c rest => rfl
      | ok d rest =>
        have hlt := length_lt_of_definition hfirst
        rw [List.length_cons] at hlt
        have hrest : definitionsUpTo n rest = definitionsUpTo m rest := ih (by omega) (by omega)
        simp only [Reply.andThen_ok, hrest]

theorem definitions_cons (t : Token) (ts : List Token) :
    definitions (t :: ts) =
      (definition (t :: ts)).andThen fun d ts => (definitions ts).map (d :: ·) := by
  rw [definitions, List.length_cons, definitionsUpTo]
  cases hfirst : definition (t :: ts) with
  | fail c rest => rfl
  | ok d rest =>
    have hlt := length_lt_of_definition hfirst
    rw [List.length_cons] at hlt
    have hrest : definitionsUpTo ts.length rest = definitions rest :=
      definitionsUpTo_congr (by omega) (Nat.le_refl _)
    simp only [Reply.andThen_ok, hrest]

/-! ## Tokens that are taken -/

section Takes

variable {ts rest : List Token}

theorem length_lt_of_arguments {es : List Expr} (h : arguments ts = .ok es rest) :
    rest.length < ts.length :=
  (argumentsOf_sound expression_sound h).1.length_lt

theorem length_lt_of_block {e : Expr} (h : block ts = .ok e rest) : rest.length < ts.length :=
  (blockOf_sound expression_sound h).1.length_lt

theorem length_lt_of_parameters {ps : List Parameter} (h : parameters ts = .ok ps rest) :
    rest.length < ts.length := by
  rcases parametersFrom_sound h with hps | ⟨hcomma, -⟩
  · exact hps.length_lt
  · cases hcomma

end Takes

end Wordlet.Parse
