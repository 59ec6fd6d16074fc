import Wordlet.Proofs.Continuation
import Wordlet.Proofs.SyntaxErrors

/-!
# Texts one after the other

A text that is read as a program may be put before any other text, with a newline between them. The
first text neither helps nor hurts: the whole is read exactly if the second text is, as the
definitions of both, and it fails exactly as the second text does, further down. No state of the
scan crosses the newline, and no parser looks past the brace that closes a definition.

* `Parse.definitions_relocate`, `Parse.definitions_relocate_of_fail`: **reading commutes with
  moving** tokens: the tree moves along, and so does what a failure leaves.
* `Parse.definitions_append`: **tokens of a program before other tokens** are read as that program.
* `Program.parse_concat`: **the program of two texts** with a newline between them.
-/

namespace Wordlet

open Grammar

/-! ## Moving trees -/

/-- The parameter at the place that `f` gives it. -/
def Parameter.relocate (f : Location → Location) (p : Parameter) : Parameter :=
  { p with loc := p.loc.map f }

/-- The node with its parameters, if it has any, at the places that `f` gives them. -/
def Stray.relocate (f : Location → Location) : Stray → Stray
  | parameter x => parameter x
  | definition name ps => definition name (ps.map (Parameter.relocate f))
  | program => program
  | other kind => other kind

namespace Expr

mutual

/-- The expression with all its nodes at the places that `f` gives them. -/
def relocate (f : Location → Location) : Expr → Expr
  | empty loc => empty (loc.map f)
  | literal loc v => literal (loc.map f) v
  | var loc x => var (loc.map f) x
  | call loc g es => call (loc.map f) g (relocateAll f es)
  | branch loc c t e => branch (loc.map f) (c.relocate f) (t.relocate f) (e.relocate f)
  | stray loc s es => stray (loc.map f) (s.relocate f) (relocateAll f es)

/-- `relocate` on each expression of a list. -/
def relocateAll (f : Location → Location) : List Expr → List Expr
  | [] => []
  | e :: es => e.relocate f :: relocateAll f es

end

end Expr

/-- The definition with all its nodes at the places that `f` gives them. -/
def Definition.relocate (f : Location → Location) (d : Definition) : Definition :=
  ⟨d.loc.map f, d.name, d.parameters.map (Parameter.relocate f), d.body.relocate f⟩

/-! ## Moving derivations -/

namespace Grammar

variable (f : Location → Location)

theorem next_relocate (ts : List Token) : next (ts.map (Token.relocate f)) = next ts := by
  cases ts <;> rfl

mutual

theorem Expression.relocate {ts rest : List Token} {e : Expr} (h : Expression ts e rest) :
    Expression (ts.map (Token.relocate f)) (e.relocate f) (rest.map (Token.relocate f)) := by
  match h with
  | .literal hw hle => exact .literal hw hle
  | .var hif hlt => exact .var hif hlt
  | .call hif ha => exact .call hif ha.relocate
  | .branch hc ht hne => exact .branch hc.relocate ht.relocate (by rwa [next_relocate])
  | .branchElse hc ht he => exact .branchElse hc.relocate ht.relocate he.relocate

theorem Block.relocate {ts rest : List Token} {e : Expr} (h : Block ts e rest) :
    Block (ts.map (Token.relocate f)) (e.relocate f) (rest.map (Token.relocate f)) := by
  match h with
  | .empty => exact .empty
  | .expression he => exact .expression he.relocate

theorem Arguments.relocate {ts rest : List Token} {es : List Expr} (h : Arguments ts es rest) :
    Arguments (ts.map (Token.relocate f)) (Expr.relocateAll f es)
      (rest.map (Token.relocate f)) := by
  match h with
  | .close => exact .close
  | .plain he ha => exact .plain he.relocate ha.relocate
  | .comma he ha => exact .comma he.relocate ha.relocate

end

theorem Parameters.relocate {ts rest : List Token} {ps : List Parameter}
    (h : Parameters ts ps rest) :
    Parameters (ts.map (Token.relocate f)) (ps.map (Parameter.relocate f))
      (rest.map (Token.relocate f)) := by
  induction h with
  | close => exact .close
  | plain _ ih => exact .plain ih
  | comma _ ih => exact .comma ih

theorem Function.relocate {ts rest : List Token} {d : Definition} (h : Function ts d rest) :
    Function (ts.map (Token.relocate f)) (d.relocate f) (rest.map (Token.relocate f)) := by
  obtain ⟨hp, hb⟩ := h
  exact .intro (hp.relocate f) (hb.relocate f)

/-- **Derivations move along with their tokens.** -/
theorem Functions.relocate {ts : List Token} {ds : List Definition} (h : Functions ts ds) :
    Functions (ts.map (Token.relocate f)) (ds.map (Definition.relocate f)) := by
  induction h with
  | nil => exact .nil
  | cons hf _ ih => exact .cons (hf.relocate f) ih

theorem bareWords_relocate (ts : List Token) :
    ∀ n, bareWords n (ts.map (Token.relocate f)) = bareWords n ts := by
  induction ts with
  | nil => exact fun n => rfl
  | cons t ts ih =>
    intro n
    simp only [List.map_cons, bareWords, Token.lexeme_relocate, next_relocate, ih]

end Grammar

/-! ## Moving what is read -/

namespace Parse

variable {ts rest : List Token}

/-- A failure leaves an end of the tokens. -/
theorem suffix_of_definitions {c : SyntaxCause} (h : definitions ts = .fail c rest) :
    rest <:+ ts := by
  cases definitions_predictive ts with
  | ok ds reads =>
    rw [reads _ (.inl rfl)] at h
    cases h
  | fail c arises fails completes =>
    rw [fails _ rfl] at h
    cases h
    exact List.suffix_append _ _

/-- **Reading commutes with moving tokens.** -/
theorem definitions_relocate {ds : List Definition} (h : definitions ts = .ok ds rest)
    (f : Location → Location) :
    definitions (ts.map (Token.relocate f)) = .ok (ds.map (Definition.relocate f)) [] := by
  obtain ⟨hds, hshort⟩ := definitionsUpTo_sound h
  have hshort' : Short 0 (ts.map (Token.relocate f)) := by
    rw [Short, bareWords_relocate]
    exact hshort
  exact definitions_complete (hds.relocate f) hshort' (Nat.le_refl _)

/-- **Failing commutes with moving tokens**: the cause stays, and what is left moves along. -/
theorem definitions_relocate_of_fail {c : SyntaxCause} (h : definitions ts = .fail c rest)
    (f : Location → Location) :
    definitions (ts.map (Token.relocate f)) = .fail c (rest.map (Token.relocate f)) := by
  have hlexemes : ts.map (·.lexeme) = (ts.map (Token.relocate f)).map (·.lexeme) := by
    rw [List.map_map]
    rfl
  have halike := definitions_blind _ _ hlexemes
  rw [h] at halike
  cases h' : definitions (ts.map (Token.relocate f)) with
  | ok ds rest' =>
    rw [h'] at halike
    cases halike
  | fail c' rest' =>
    rw [h'] at halike
    cases halike with
    | fail hrest =>
      -- what is left is as long an end of the moved tokens as it was of the others
      have hlength : rest'.length = (rest.map (Token.relocate f)).length := by
        rw [List.length_map, length_eq_of_lexemes hrest]
      have hsuffix := (suffix_of_definitions h).map (Token.relocate f)
      rw [(List.suffix_of_suffix_length_le (suffix_of_definitions h') hsuffix
        hlength.le).eq_of_length hlength]

/-! ## Tokens before others -/

/-- A definition is read without regard to what comes after it. -/
theorem definition_append {d : Definition} (h : definition ts = .ok d rest) (us : List Token) :
    definition (ts ++ us) = .ok d (rest ++ us) := by
  cases definition_predictive ts with
  | ok d reads =>
    rw [reads _ (.inl rfl)] at h
    cases h
    rw [List.append_assoc]
    exact reads _ (.inr trivial)
  | fail c arises fails completes =>
    rw [fails _ rfl] at h
    cases h

/-- **Tokens of a program before other tokens.** The program is read, and then what the others
spell. -/
theorem definitions_append {ds : List Definition} (h : definitions ts = .ok ds rest)
    (us : List Token) : definitions (ts ++ us) = (definitions us).map (ds ++ ·) := by
  obtain ⟨hds, hshort⟩ := definitionsUpTo_sound h
  clear h
  induction hds with
  | nil =>
    rw [List.nil_append]
    cases definitions us <;> rfl
  | @cons ts rest d ds hf _ ih =>
    have hlt := hf.length_lt
    have hfirst := definition_append (definition_complete hf hshort) us
    have hrest := ih (hshort.of_subset (hf.bareWords_subset 0))
    cases ts with
    | nil => simp at hlt
    | cons t ts =>
      rw [List.cons_append] at hfirst ⊢
      rw [definitions_cons, hfirst, Reply.andThen_ok, hrest]
      cases definitions us <;> rfl

end Parse

/-! ## Programs -/

namespace Program

/-- A failure is placed among the last tokens as if there were no others. -/
theorem failureLoc_append {ts rest : List Token} (hts : ts ≠ []) (f : Location → Location)
    (before : List Token) :
    Parser.failureLoc (before ++ ts.map (Token.relocate f)) (rest.map (Token.relocate f)) =
      f (Parser.failureLoc ts rest) := by
  cases rest with
  | cons t rest => rfl
  | nil =>
    have hlast := List.getLast?_eq_some_getLast hts
    have hlast' : (before ++ ts.map (Token.relocate f)).getLast? =
        some ((ts.getLast hts).relocate f) := by
      rw [List.getLast?_append, List.getLast?_map, hlast]
      rfl
    rw [List.map_nil, Parser.failureLoc_of_end hlast, Parser.failureLoc_of_end hlast']
    rfl

theorem exists_definitions_of_parse_error {tokens : List Token} {e : SyntaxError}
    (h : parse tokens = .error e) :
    ∃ rest, Parse.definitions tokens = .fail e.cause rest ∧
      e.loc = Parser.failureLoc tokens rest := by
  cases hread : Parse.definitions tokens with
  | ok ds rest =>
    obtain ⟨p, hp⟩ := exists_parse_of_definitions hread
    rw [hp] at h
    cases h
  | fail c rest =>
    rw [parse_of_definitions_fail hread] at h
    cases h
    exact ⟨rest, rfl, rfl⟩

section TwoTexts

variable {first second path : String} {p₁ : Program}

/-- The second text is read from its own tokens, moved down. -/
theorem definitions_newline (h₁ : parse (Token.scan first path) = .ok p₁) (second : String) :
    Parse.definitions (Token.scan (first ++ "\n" ++ second) path) =
      (Parse.definitions ((Token.scan second path).map
        (Token.relocate (.below (1 + first.toList.count '\n'))))).map (p₁.definitions ++ ·) := by
  obtain ⟨-, rest₁, hread⟩ := parse_eq_ok.1 h₁
  rw [Token.scan_newline, Parse.definitions_append hread]

theorem parse_newline_of_ok {p₂ : Program} (h₁ : parse (Token.scan first path) = .ok p₁)
    (h₂ : parse (Token.scan second path) = .ok p₂) :
    ∃ p, parse (Token.scan (first ++ "\n" ++ second) path) = .ok p ∧
      p.definitions = p₁.definitions ++
        p₂.definitions.map (.relocate (.below (1 + first.toList.count '\n'))) := by
  obtain ⟨-, rest₂, hread⟩ := parse_eq_ok.1 h₂
  have hwhole := definitions_newline h₁ second
  rw [Parse.definitions_relocate hread] at hwhole
  exact ⟨⟨_, _⟩, parse_eq_ok.2 ⟨rfl, _, hwhole⟩, rfl⟩

theorem parse_newline_of_error {e : SyntaxError} (h₁ : parse (Token.scan first path) = .ok p₁)
    (h₂ : parse (Token.scan second path) = .error e) :
    parse (Token.scan (first ++ "\n" ++ second) path) =
      .error ⟨e.cause, e.loc.below (1 + first.toList.count '\n')⟩ := by
  have hne : Token.scan second path ≠ [] := by
    intro hnil
    rw [hnil] at h₂
    cases h₂
  obtain ⟨rest₂, hread, hloc⟩ := exists_definitions_of_parse_error h₂
  have hwhole := definitions_newline h₁ second
  rw [Parse.definitions_relocate_of_fail hread] at hwhole
  rw [parse_of_definitions_fail hwhole, hloc, Token.scan_newline, failureLoc_append hne]

end TwoTexts

/-- **The program of two texts.** Let the first text be read as `p₁`, and let `n` be one more than
the number of its newlines. With a newline between them, the two texts are read as a program exactly
if the second text is; its definitions are then those of `p₁` and those of the second text, all `n`
lines further down. If the second text fails to be read, the two texts fail for the same cause, at
the place `n` lines further down. -/
theorem parse_concat {first path : String} {p₁ : Program}
    (h : parse (Token.scan first path) = .ok p₁) (second : String) :
    ((∃ p, parse (Token.scan (first ++ "\n" ++ second) path) = .ok p) ↔
        ∃ p₂, parse (Token.scan second path) = .ok p₂) ∧
      (∀ p₂, parse (Token.scan second path) = .ok p₂ →
        ∃ p, parse (Token.scan (first ++ "\n" ++ second) path) = .ok p ∧
          p.definitions = p₁.definitions ++
            p₂.definitions.map (.relocate (.below (1 + first.toList.count '\n')))) ∧
      ∀ e, parse (Token.scan second path) = .error e →
        parse (Token.scan (first ++ "\n" ++ second) path) =
          .error ⟨e.cause, e.loc.below (1 + first.toList.count '\n')⟩ := by
  refine ⟨⟨?_, ?_⟩, fun p₂ => parse_newline_of_ok h, fun e => parse_newline_of_error h⟩
  · rintro ⟨p, hp⟩
    cases h₂ : parse (Token.scan second path) with
    | ok p₂ => exact ⟨p₂, rfl⟩
    | error e =>
      rw [parse_newline_of_error h h₂] at hp
      cases hp
  · rintro ⟨p₂, h₂⟩
    obtain ⟨p, hp, -⟩ := parse_newline_of_ok h h₂
    exact ⟨p, hp⟩

/-- A first text that ends in an open comment, before a text whose first function is named `else`:
as a whole text, and cut off before its brace. -/
theorem parse_concat_comment :
    parse (Token.scan "f(x)\n\x7b x \x7d # if x" "s") = .ok ⟨some ⟨"s", 1, 1⟩,
      [⟨some ⟨"s", 1, 1⟩, "f", [⟨some ⟨"s", 1, 3⟩, "x"⟩], .var (some ⟨"s", 2, 3⟩) "x"⟩]⟩ ∧
    (∃ p,
      parse (Token.scan ("f(x)\n\x7b x \x7d # if x" ++ "\n" ++ "else() \x7b 1 \x7d") "s") = .ok p ∧
      p.definitions =
        [⟨some ⟨"s", 1, 1⟩, "f", [⟨some ⟨"s", 1, 3⟩, "x"⟩], .var (some ⟨"s", 2, 3⟩) "x"⟩,
          ⟨some ⟨"s", 3, 1⟩, "else", [], .literal (some ⟨"s", 3, 10⟩) 1⟩]) ∧
    parse (Token.scan ("f(x)\n\x7b x \x7d # if x" ++ "\n" ++ "else() \x7b 1") "s") =
      .error ⟨.endOfInput, ⟨"s", 3, 10⟩⟩ := by
  have h₁ : parse (Token.scan "f(x)\n\x7b x \x7d # if x" "s") = .ok ⟨some ⟨"s", 1, 1⟩,
      [⟨some ⟨"s", 1, 1⟩, "f", [⟨some ⟨"s", 1, 3⟩, "x"⟩],
        .var (some ⟨"s", 2, 3⟩) "x"⟩]⟩ := by cbv
  have h₂ : parse (Token.scan "else() \x7b 1 \x7d" "s") = .ok ⟨some ⟨"s", 1, 1⟩,
      [⟨some ⟨"s", 1, 1⟩, "else", [], .literal (some ⟨"s", 1, 10⟩) 1⟩]⟩ := by cbv
  have hcut : parse (Token.scan "else() \x7b 1" "s") =
      .error ⟨.endOfInput, ⟨"s", 1, 10⟩⟩ := by cbv
  exact ⟨h₁, (parse_concat h₁ _).2.1 _ h₂, (parse_concat h₁ _).2.2 _ hcut⟩

end Program

end Wordlet
