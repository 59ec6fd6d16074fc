import Wordlet.Proofs.Numeral
import Wordlet.Syntax.Parse
import Wordlet.Syntax.Same

/-!
# The grammar

    program     := function*
    function    := WORD "(" (WORD ","?)* ")" block
    block       := "{" expression? "}"
    expression  := "if" expression block ("else" block)?
                 | w "(" (expression ","?)* ")"
                 | w

Here `w` is any word but `if`, and a branch without `else` is never directly followed by the word
`else`. The rules say which tokens derive which tree: `Expression ts e rest` says that the tokens
`ts` begin with a derivation of `e`, after which `rest` is left. They say nothing of a choice
between rules and nothing of a parser.

* `Expression.unique`, `Derives.same`: **the grammar is unambiguous.** The tree of a token list
  depends on the lexemes alone, up to the locations in it.
* `Expression.bareWords_subset`: the bare words after an expression are bare words of the whole.
-/

namespace Wordlet.Grammar

open Text (IsNumeral)

/-- The lexeme that comes next. -/
def next (ts : List Token) : Option Lexeme := (ts.map (·.lexeme)).head?

@[simp] theorem next_nil : next [] = none := rfl

@[simp] theorem next_cons (t : Token) (ts : List Token) : next (t :: ts) = some t.lexeme := rfl

theorem next_congr {ts ts' : List Token} (h : ts.map (·.lexeme) = ts'.map (·.lexeme)) :
    next ts = next ts' := by
  simp only [next, h]

mutual

/-- The tokens begin with an expression. -/
inductive Expression : List Token → Expr → List Token → Prop where
  | literal {w : String} {loc : Location} {cs : List Char} {ts : List Token} :
      IsNumeral w cs → Nat.ofDigitChars 10 cs 0 ≤ 4294967295 →
      Expression (⟨.word w, loc⟩ :: ts) (.literal (some loc) (Nat.ofDigitChars 10 cs 0)) ts
  | var {w : String} {loc : Location} {ts : List Token} :
      w ≠ "if" → (∀ cs, IsNumeral w cs → 4294967295 < Nat.ofDigitChars 10 cs 0) →
      Expression (⟨.word w, loc⟩ :: ts) (.var (some loc) w) ts
  | call {w : String} {loc ploc : Location} {ts rest : List Token} {es : List Expr} :
      w ≠ "if" → Arguments ts es rest →
      Expression (⟨.word w, loc⟩ :: ⟨.symbol .openParen, ploc⟩ :: ts) (.call (some loc) w es) rest
  | branch {loc : Location} {ts ts₁ rest : List Token} {c t : Expr} :
      Expression ts c ts₁ → Block ts₁ t rest → next rest ≠ some (.word "else") →
      Expression (⟨.word "if", loc⟩ :: ts) (.branch (some loc) c t (.empty (some loc))) rest
  | branchElse {loc eloc : Location} {ts ts₁ ts₂ rest : List Token} {c t e : Expr} :
      Expression ts c ts₁ → Block ts₁ t (⟨.word "else", eloc⟩ :: ts₂) → Block ts₂ e rest →
      Expression (⟨.word "if", loc⟩ :: ts) (.branch (some loc) c t e) rest

/-- The tokens begin with a block. -/
inductive Block : List Token → Expr → List Token → Prop where
  | empty {loc cloc : Location} {rest : List Token} :
      Block (⟨.symbol .openBrace, loc⟩ :: ⟨.symbol .closeBrace, cloc⟩ :: rest)
        (.empty (some loc)) rest
  | expression {loc cloc : Location} {ts rest : List Token} {e : Expr} :
      Expression ts e (⟨.symbol .closeBrace, cloc⟩ :: rest) →
      Block (⟨.symbol .openBrace, loc⟩ :: ts) e rest

/-- The tokens begin with arguments and a closing parenthesis. -/
inductive Arguments : List Token → List Expr → List Token → Prop where
  | close {loc : Location} {rest : List Token} :
      Arguments (⟨.symbol .closeParen, loc⟩ :: rest) [] rest
  | plain {ts ts₁ rest : List Token} {e : Expr} {es : List Expr} :
      Expression ts e ts₁ → Arguments ts₁ es rest → Arguments ts (e :: es) rest
  | comma {loc : Location} {ts ts₁ rest : List Token} {e : Expr} {es : List Expr} :
      Expression ts e (⟨.symbol .comma, loc⟩ :: ts₁) → Arguments ts₁ es rest →
      Arguments ts (e :: es) rest

end

/-- The tokens begin with parameters and a closing parenthesis. -/
inductive Parameters : List Token → List Parameter → List Token → Prop where
  | close {loc : Location} {rest : List Token} :
      Parameters (⟨.symbol .closeParen, loc⟩ :: rest) [] rest
  | plain {w : String} {loc : Location} {ts rest : List Token} {ps : List Parameter} :
      Parameters ts ps rest → Parameters (⟨.word w, loc⟩ :: ts) (⟨some loc, w⟩ :: ps) rest
  | comma {w : String} {loc cloc : Location} {ts rest : List Token} {ps : List Parameter} :
      Parameters ts ps rest →
      Parameters (⟨.word w, loc⟩ :: ⟨.symbol .comma, cloc⟩ :: ts) (⟨some loc, w⟩ :: ps) rest

/-- The tokens begin with a function. -/
inductive Function : List Token → Definition → List Token → Prop where
  | intro {w : String} {loc ploc : Location} {ts ts₁ rest : List Token} {ps : List Parameter}
      {body : Expr} :
      Parameters ts ps ts₁ → Block ts₁ body rest →
      Function (⟨.word w, loc⟩ :: ⟨.symbol .openParen, ploc⟩ :: ts) ⟨some loc, w, ps, body⟩ rest

/-- The tokens are functions, one after the other. -/
inductive Functions : List Token → List Definition → Prop where
  | nil : Functions [] []
  | cons {ts rest : List Token} {d : Definition} {ds : List Definition} :
      Function ts d rest → Functions rest ds → Functions ts (d :: ds)

/-- The tokens derive the program, which is located at the first of them. -/
def Derives (tokens : List Token) (p : Program) : Prop :=
  p.loc = tokens.head?.map (·.loc) ∧ Functions tokens p.definitions

/-! ## How derivations begin -/

theorem Expression.next_eq {ts rest : List Token} {e : Expr} (h : Expression ts e rest) :
    ∃ w, next ts = some (.word w) := by
  cases h <;> exact ⟨_, rfl⟩

theorem Block.next_eq {ts rest : List Token} {e : Expr} (h : Block ts e rest) :
    next ts = some (.symbol .openBrace) := by
  cases h <;> rfl

theorem Arguments.next_eq {ts rest : List Token} {es : List Expr} (h : Arguments ts es rest) :
    next ts = some (.symbol .closeParen) ∨ ∃ w, next ts = some (.word w) := by
  cases h with
  | close => left; rfl
  | plain he _ => right; exact he.next_eq
  | comma he _ => right; exact he.next_eq

/-- Arguments begin neither with an opening parenthesis nor with a comma. -/
theorem Arguments.next_ne {ts rest : List Token} {es : List Expr} (h : Arguments ts es rest)
    {s : Symbol} (hs : s ≠ .closeParen) : next ts ≠ some (.symbol s) := by
  rcases h.next_eq with h | ⟨w, h⟩
  · rw [h]; simpa using hs.symm
  · rw [h]; simp

theorem Parameters.next_ne {ts rest : List Token} {ps : List Parameter}
    (h : Parameters ts ps rest) {s : Symbol} (hs : s ≠ .closeParen) :
    next ts ≠ some (.symbol s) := by
  cases h with
  | close => simpa using hs.symm
  | plain => simp
  | comma => simp

/-! ## Derivations take tokens -/

mutual

theorem Expression.length_lt {ts rest : List Token} {e : Expr} (h : Expression ts e rest) :
    rest.length < ts.length := by
  match h with
  | .literal _ _ => simp
  | .var _ _ => simp
  | .call _ ha =>
    have hargs := ha.length_lt
    simp only [List.length_cons]
    omega
  | .branch hc ht _ =>
    have hcond := hc.length_lt
    have hthen := ht.length_lt
    simp only [List.length_cons]
    omega
  | .branchElse hc ht he =>
    have hcond := hc.length_lt
    have hthen := ht.length_lt
    have helse := he.length_lt
    simp only [List.length_cons] at hthen ⊢
    omega

theorem Block.length_lt {ts rest : List Token} {e : Expr} (h : Block ts e rest) :
    rest.length < ts.length := by
  match h with
  | .empty =>
    simp only [List.length_cons]
    omega
  | .expression he =>
    have hinner := he.length_lt
    simp only [List.length_cons] at hinner ⊢
    omega

theorem Arguments.length_lt {ts rest : List Token} {es : List Expr} (h : Arguments ts es rest) :
    rest.length < ts.length := by
  match h with
  | .close => simp
  | .plain he ha =>
    have hfirst := he.length_lt
    have hrest := ha.length_lt
    omega
  | .comma he ha =>
    have hfirst := he.length_lt
    have hrest := ha.length_lt
    simp only [List.length_cons] at hfirst
    omega

end

mutual

/-- What is left is an end of the tokens. -/
theorem Expression.suffix {ts rest : List Token} {e : Expr} (h : Expression ts e rest) :
    rest <:+ ts := by
  match h with
  | .literal _ _ => exact List.suffix_cons _ _
  | .var _ _ => exact List.suffix_cons _ _
  | .call _ ha => exact ((ha.suffix.trans (List.suffix_cons _ _)).trans (List.suffix_cons _ _))
  | .branch hc ht _ => exact (ht.suffix.trans hc.suffix).trans (List.suffix_cons _ _)
  | .branchElse hc ht he =>
    have hhead := ht.suffix.trans hc.suffix
    exact ((he.suffix.trans (List.suffix_cons _ _)).trans hhead).trans (List.suffix_cons _ _)

theorem Block.suffix {ts rest : List Token} {e : Expr} (h : Block ts e rest) : rest <:+ ts := by
  match h with
  | .empty => exact (List.suffix_cons _ _).trans (List.suffix_cons _ _)
  | .expression he =>
    exact ((List.suffix_cons _ _).trans he.suffix).trans (List.suffix_cons _ _)

theorem Arguments.suffix {ts rest : List Token} {es : List Expr} (h : Arguments ts es rest) :
    rest <:+ ts := by
  match h with
  | .close => exact List.suffix_cons _ _
  | .plain he ha => exact ha.suffix.trans he.suffix
  | .comma he ha => exact (ha.suffix.trans (List.suffix_cons _ _)).trans he.suffix

end

theorem Parameters.suffix {ts rest : List Token} {ps : List Parameter}
    (h : Parameters ts ps rest) : rest <:+ ts := by
  induction h with
  | close => exact List.suffix_cons _ _
  | plain _ ih => exact ih.trans (List.suffix_cons _ _)
  | comma _ ih => exact (ih.trans (List.suffix_cons _ _)).trans (List.suffix_cons _ _)

theorem Function.suffix {ts rest : List Token} {d : Definition} (h : Function ts d rest) :
    rest <:+ ts := by
  obtain ⟨hp, hb⟩ := h
  exact ((hb.suffix.trans hp.suffix).trans (List.suffix_cons _ _)).trans (List.suffix_cons _ _)

theorem Parameters.length_lt {ts rest : List Token} {ps : List Parameter}
    (h : Parameters ts ps rest) : rest.length < ts.length := by
  induction h with
  | close => simp
  | plain _ ih | comma _ ih =>
    simp only [List.length_cons]
    omega

theorem Function.length_lt {ts rest : List Token} {d : Definition} (h : Function ts d rest) :
    rest.length < ts.length := by
  obtain ⟨hp, hb⟩ := h
  have hparams := hp.length_lt
  have hbody := hb.length_lt
  simp only [List.length_cons]
  omega

/-! ## Unambiguity -/

/-- A numeral has no character but digits and a plus sign. -/
theorem not_isNumeral_of_mem {w : String} {c : Char} (hc : c ∈ w.toList) (hp : c ≠ '+')
    (hd : c.isDigit = false) (cs : List Char) : ¬IsNumeral w cs := by
  rintro ⟨-, hcs, h | h⟩
  · rw [h] at hc; simp [hcs c hc] at hd
  · rw [h] at hc
    rcases List.mem_cons.1 hc with rfl | hc
    · exact hp rfl
    · simp [hcs c hc] at hd

theorem ne_if_of_isNumeral {w : String} {cs : List Char} (h : IsNumeral w cs) : w ≠ "if" := by
  rintro rfl
  exact not_isNumeral_of_mem (c := 'i') (by decide) (by decide) (by decide) cs h

theorem ne_else_of_isNumeral {w : String} {cs : List Char} (h : IsNumeral w cs) : w ≠ "else" := by
  rintro rfl
  exact not_isNumeral_of_mem (c := 'e') (by decide) (by decide) (by decide) cs h

/-- Tokens with the same lexemes that begin with words begin with the same word. -/
theorem word_inj {w w' : String} {loc loc' : Location} {ts ts' : List Token}
    (h : List.map (·.lexeme) (⟨.word w, loc⟩ :: ts : List Token) =
      List.map (·.lexeme) (⟨.word w', loc'⟩ :: ts' : List Token)) :
    w = w' ∧ ts.map (·.lexeme) = ts'.map (·.lexeme) := by
  simpa only [List.map_cons, List.cons.injEq, Lexeme.word.injEq] using h

mutual

/-- **Expressions are unambiguous.** Two derivations from tokens with the same lexemes give the same
tree and leave the same lexemes, provided that no opening parenthesis comes next: after a bare word
it would make a call. -/
theorem Expression.unique {ts ts' rest rest' : List Token} {e e' : Expr} (h : Expression ts e rest)
    (h' : Expression ts' e' rest') (hts : ts.map (·.lexeme) = ts'.map (·.lexeme))
    (hn : next rest ≠ some (.symbol .openParen)) (hn' : next rest' ≠ some (.symbol .openParen)) :
    e.erase = e'.erase ∧ rest.map (·.lexeme) = rest'.map (·.lexeme) := by
  match h with
  | .literal hw hle =>
    cases h' with
    | literal hw' hle' =>
      obtain ⟨rfl, hrest⟩ := word_inj hts
      obtain rfl := hw.unique hw'
      exact ⟨rfl, hrest⟩
    | var hif hlt =>
      obtain ⟨rfl, -⟩ := word_inj hts
      exact absurd (hlt _ hw) (by omega)
    -- the word of a call is followed by an opening parenthesis
    | call hif ha => exact absurd (next_congr (List.cons.inj hts).2) hn
    | branch hc ht he => simp [ne_if_of_isNumeral hw] at hts
    | branchElse hc ht he => simp [ne_if_of_isNumeral hw] at hts
  | .var hif hlt =>
    cases h' with
    | literal hw' hle' =>
      obtain ⟨rfl, -⟩ := word_inj hts
      exact absurd (hlt _ hw') (by omega)
    | var hif' hlt' =>
      obtain ⟨rfl, hrest⟩ := word_inj hts
      exact ⟨rfl, hrest⟩
    | call hif' ha => exact absurd (next_congr (List.cons.inj hts).2) hn
    | branch hc ht he => simp [hif] at hts
    | branchElse hc ht he => simp [hif] at hts
  | .call hif ha =>
    cases h' with
    | literal hw' hle' => exact absurd (next_congr (List.cons.inj hts).2).symm hn'
    | var hif' hlt' => exact absurd (next_congr (List.cons.inj hts).2).symm hn'
    | call hif' ha' =>
      obtain ⟨rfl, htail⟩ := word_inj hts
      obtain ⟨hes, hrest⟩ := ha.unique ha' (List.cons.inj htail).2
      exact ⟨by simp only [Expr.erase, hes], hrest⟩
    | branch hc ht he => simp [hif] at hts
    | branchElse hc ht he => simp [hif] at hts
  | .branch hc ht hne =>
    -- both conditions end where a block begins, so they are the same, and so are the blocks
    cases h' with
    | literal hw' hle' => simp [(ne_if_of_isNumeral hw').symm] at hts
    | var hif' hlt' => simp [hif'.symm] at hts
    | call hif' ha' => simp [hif'.symm] at hts
    | branch hc' ht' hne' =>
      obtain ⟨hce, h1⟩ := hc.unique hc' (List.cons.inj hts).2 (by simp [ht.next_eq])
        (by simp [ht'.next_eq])
      obtain ⟨hte, h2⟩ := ht.unique ht' h1
      exact ⟨by simp only [Expr.erase, hce, hte], h2⟩
    | branchElse hc' ht' he' =>
      obtain ⟨hce, h1⟩ := hc.unique hc' (List.cons.inj hts).2 (by simp [ht.next_eq])
        (by simp [ht'.next_eq])
      obtain ⟨hte, h2⟩ := ht.unique ht' h1
      exact absurd (next_congr h2) hne
  | .branchElse hc ht he =>
    -- what follows the first block tells which rule was applied
    cases h' with
    | literal hw' hle' => simp [(ne_if_of_isNumeral hw').symm] at hts
    | var hif' hlt' => simp [hif'.symm] at hts
    | call hif' ha' => simp [hif'.symm] at hts
    | branch hc' ht' hne' =>
      obtain ⟨hce, h1⟩ := hc.unique hc' (List.cons.inj hts).2 (by simp [ht.next_eq])
        (by simp [ht'.next_eq])
      obtain ⟨hte, h2⟩ := ht.unique ht' h1
      exact absurd (next_congr h2).symm hne'
    | branchElse hc' ht' he' =>
      obtain ⟨hce, h1⟩ := hc.unique hc' (List.cons.inj hts).2 (by simp [ht.next_eq])
        (by simp [ht'.next_eq])
      obtain ⟨hte, h2⟩ := ht.unique ht' h1
      obtain ⟨hee, h3⟩ := he.unique he' (List.cons.inj h2).2
      exact ⟨by simp only [Expr.erase, hce, hte, hee], h3⟩

theorem Block.unique {ts ts' rest rest' : List Token} {e e' : Expr} (h : Block ts e rest)
    (h' : Block ts' e' rest') (hts : ts.map (·.lexeme) = ts'.map (·.lexeme)) :
    e.erase = e'.erase ∧ rest.map (·.lexeme) = rest'.map (·.lexeme) := by
  match h with
  | .empty =>
    cases h' with
    | empty => exact ⟨rfl, (List.cons.inj (List.cons.inj hts).2).2⟩
    | expression he' =>
      obtain ⟨w, hw⟩ := he'.next_eq
      simp [← next_congr (List.cons.inj hts).2] at hw
  | .expression he =>
    cases h' with
    | empty =>
      obtain ⟨w, hw⟩ := he.next_eq
      simp [next_congr (List.cons.inj hts).2] at hw
    | expression he' =>
      obtain ⟨h1, h2⟩ := he.unique he' (List.cons.inj hts).2 (by simp) (by simp)
      exact ⟨h1, (List.cons.inj h2).2⟩

theorem Arguments.unique {ts ts' rest rest' : List Token} {es es' : List Expr}
    (h : Arguments ts es rest) (h' : Arguments ts' es' rest')
    (hts : ts.map (·.lexeme) = ts'.map (·.lexeme)) :
    Expr.eraseAll es = Expr.eraseAll es' ∧ rest.map (·.lexeme) = rest'.map (·.lexeme) := by
  match h with
  | .close =>
    cases h' with
    | close => exact ⟨rfl, (List.cons.inj hts).2⟩
    | plain he' _ => obtain ⟨w, hw⟩ := he'.next_eq; simp [← next_congr hts] at hw
    | comma he' _ => obtain ⟨w, hw⟩ := he'.next_eq; simp [← next_congr hts] at hw
  | .plain he ha =>
    -- whether a comma follows the first argument shows in the lexemes after it
    have hn := ha.next_ne (s := .openParen) (by decide)
    cases h' with
    | close => obtain ⟨w, hw⟩ := he.next_eq; simp [next_congr hts] at hw
    | plain he' ha' =>
      obtain ⟨hee, h1⟩ := he.unique he' hts hn (ha'.next_ne (by decide))
      obtain ⟨hes, h2⟩ := ha.unique ha' h1
      exact ⟨by simp only [Expr.eraseAll, hee, hes], h2⟩
    | comma he' ha' =>
      obtain ⟨-, h1⟩ := he.unique he' hts hn (by simp)
      exact absurd (next_congr h1) (ha.next_ne (by decide))
  | .comma he ha =>
    cases h' with
    | close => obtain ⟨w, hw⟩ := he.next_eq; simp [next_congr hts] at hw
    | plain he' ha' =>
      obtain ⟨-, h1⟩ := he.unique he' hts (by simp) (ha'.next_ne (by decide))
      exact absurd (next_congr h1).symm (ha'.next_ne (by decide))
    | comma he' ha' =>
      obtain ⟨hee, h1⟩ := he.unique he' hts (by simp) (by simp)
      obtain ⟨hes, h2⟩ := ha.unique ha' (List.cons.inj h1).2
      exact ⟨by simp only [Expr.eraseAll, hee, hes], h2⟩

end

theorem Parameters.unique {ts ts' rest rest' : List Token} {ps ps' : List Parameter}
    (h : Parameters ts ps rest) (h' : Parameters ts' ps' rest')
    (hts : ts.map (·.lexeme) = ts'.map (·.lexeme)) :
    ps.map Parameter.erase = ps'.map Parameter.erase ∧
      rest.map (·.lexeme) = rest'.map (·.lexeme) := by
  induction h generalizing ts' ps' with
  | close =>
    cases h' with
    | close => exact ⟨rfl, (List.cons.inj hts).2⟩
    | plain _ => simp at hts
    | comma _ => simp at hts
  | plain hp ih =>
    cases h' with
    | close => simp at hts
    | plain hp' =>
      obtain ⟨rfl, htail⟩ := word_inj hts
      obtain ⟨hps, hrest⟩ := ih hp' htail
      exact ⟨by simp [hps, Parameter.erase], hrest⟩
    | comma hp' =>
      have hn := hp.next_ne (s := .comma) (by decide)
      exact absurd (next_congr (List.cons.inj hts).2) hn
  | comma hp ih =>
    cases h' with
    | close => simp at hts
    | plain hp' =>
      have hn := hp'.next_ne (s := .comma) (by decide)
      exact absurd (next_congr (List.cons.inj hts).2).symm hn
    | comma hp' =>
      obtain ⟨rfl, htail⟩ := word_inj hts
      obtain ⟨hps, hrest⟩ := ih hp' (List.cons.inj htail).2
      exact ⟨by simp [hps, Parameter.erase], hrest⟩

theorem Function.unique {ts ts' rest rest' : List Token} {d d' : Definition}
    (h : Function ts d rest) (h' : Function ts' d' rest')
    (hts : ts.map (·.lexeme) = ts'.map (·.lexeme)) :
    d.erase = d'.erase ∧ rest.map (·.lexeme) = rest'.map (·.lexeme) := by
  obtain ⟨hp, hb⟩ := h
  obtain ⟨hp', hb'⟩ := h'
  obtain ⟨rfl, htail⟩ := word_inj hts
  obtain ⟨hps, h1⟩ := hp.unique hp' (List.cons.inj htail).2
  obtain ⟨hbody, h2⟩ := hb.unique hb' h1
  exact ⟨by simp only [Definition.erase, hps, hbody], h2⟩

theorem Functions.unique {ts ts' : List Token} {ds ds' : List Definition} (h : Functions ts ds)
    (h' : Functions ts' ds') (hts : ts.map (·.lexeme) = ts'.map (·.lexeme)) :
    ds.map Definition.erase = ds'.map Definition.erase := by
  induction h generalizing ts' ds' with
  | nil =>
    cases h' with
    | nil => rfl
    | cons hf _ => cases hf; simp at hts
  | cons hf _ ih =>
    cases h' with
    | nil => cases hf; simp at hts
    | cons hf' hs' =>
      obtain ⟨hd, hrest⟩ := hf.unique hf' hts
      simp only [List.map_cons, hd, ih hs' hrest]

/-- **The grammar is unambiguous.** Token lists with the same lexemes derive the same program, up to
locations. -/
theorem Derives.same {tokens tokens' : List Token} {p q : Program} (h : Derives tokens p)
    (h' : Derives tokens' q) (hts : tokens.map (·.lexeme) = tokens'.map (·.lexeme)) :
    p.same q = true :=
  (Program.same_iff p q).2 (h.2.unique h'.2 hts)

/-! ## Bare words -/

/-- The words between braces that no opening parenthesis follows, while `depth` braces are open:
those that stand for a literal or a variable. -/
def bareWords : (depth : Nat) → List Token → List String
  | _, [] => []
  | depth, t :: ts =>
    match t.lexeme with
    | .word w =>
      if 0 < depth ∧ next ts ≠ some (.symbol .openParen) then w :: bareWords depth ts
      else bareWords depth ts
    | .symbol .openBrace => bareWords (depth + 1) ts
    | .symbol .closeBrace => bareWords (depth - 1) ts
    | .symbol _ => bareWords depth ts

theorem bareWords_word_subset (n : Nat) (w : String) (loc : Location) (ts : List Token) :
    bareWords n ts ⊆ bareWords n (⟨.word w, loc⟩ :: ts) := by
  simp only [bareWords]
  split
  · exact List.subset_cons_self _ _
  · exact List.Subset.refl _

theorem mem_bareWords_word {n : Nat} (hn : 0 < n) (w : String) (loc : Location) {ts : List Token}
    (hts : next ts ≠ some (.symbol .openParen)) : w ∈ bareWords n (⟨.word w, loc⟩ :: ts) := by
  simp [bareWords, hn, hts]

mutual

/-- **Braces are closed again**, so the bare words after an expression are bare words of the
whole. -/
theorem Expression.bareWords_subset {ts rest : List Token} {e : Expr} (h : Expression ts e rest)
    (n : Nat) : bareWords n rest ⊆ bareWords n ts := by
  match h with
  | .literal _ _ => exact bareWords_word_subset n _ _ _
  | .var _ _ => exact bareWords_word_subset n _ _ _
  | .call _ ha =>
    have hargs := ha.bareWords_subset n
    exact List.Subset.trans hargs (bareWords_word_subset n _ _ (⟨.symbol .openParen, _⟩ :: _))
  | .branch hc ht _ =>
    have hhead := List.Subset.trans (ht.bareWords_subset n) (hc.bareWords_subset n)
    exact List.Subset.trans hhead (bareWords_word_subset n "if" _ _)
  | .branchElse hc ht he =>
    have hhead := List.Subset.trans (ht.bareWords_subset n) (hc.bareWords_subset n)
    refine List.Subset.trans ?_ (bareWords_word_subset n "if" _ _)
    refine List.Subset.trans ?_ hhead
    exact List.Subset.trans (he.bareWords_subset n) (bareWords_word_subset n "else" _ _)

theorem Block.bareWords_subset {ts rest : List Token} {e : Expr} (h : Block ts e rest) (n : Nat) :
    bareWords n rest ⊆ bareWords n ts := by
  match h with
  | .empty => simp [bareWords]
  | .expression he => simpa [bareWords] using he.bareWords_subset (n + 1)

theorem Arguments.bareWords_subset {ts rest : List Token} {es : List Expr}
    (h : Arguments ts es rest) (n : Nat) : bareWords n rest ⊆ bareWords n ts := by
  match h with
  | .close => simp [bareWords]
  | .plain he ha => exact List.Subset.trans (ha.bareWords_subset n) (he.bareWords_subset n)
  | .comma he ha => exact List.Subset.trans (ha.bareWords_subset n) (he.bareWords_subset n)

end

theorem Parameters.bareWords_subset {ts rest : List Token} {ps : List Parameter}
    (h : Parameters ts ps rest) (n : Nat) : bareWords n rest ⊆ bareWords n ts := by
  induction h with
  | close => simp [bareWords]
  | plain _ ih => exact List.Subset.trans ih (bareWords_word_subset n _ _ _)
  | comma _ ih =>
    exact List.Subset.trans ih (bareWords_word_subset n _ _ (⟨.symbol .comma, _⟩ :: _))

theorem Function.bareWords_subset {ts rest : List Token} {d : Definition} (h : Function ts d rest)
    (n : Nat) : bareWords n rest ⊆ bareWords n ts := by
  obtain ⟨hp, hb⟩ := h
  have hhead := List.Subset.trans (hb.bareWords_subset n) (hp.bareWords_subset n)
  exact List.Subset.trans hhead (bareWords_word_subset n _ _ (⟨.symbol .openParen, _⟩ :: _))

end Wordlet.Grammar
