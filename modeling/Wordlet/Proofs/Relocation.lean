import Wordlet.Proofs.Erasure
import Wordlet.Proofs.Layout

/-!
# Layout carries no meaning

Blanks, tabs, line ends and comments lie between the lexemes of a text and move them; the path names
the text. All this shows in the locations of tokens and in nothing else. Two texts with the same
lexemes are read alike, and what they are read as cannot be told apart.

* `Reply.Alike`: two answers of parsers that agree but for locations.
* `Parse.definitions_blind`: **the parsers see lexemes only.**
* `Program.same_of_parse`: what is read from the same lexemes is the same program.
* `Program.alike_of_lexemes`: **two texts with the same lexemes mean the same** to the parser and
  in all that is done with a program.
-/

namespace Wordlet

/-! ## Answers that agree -/

namespace Reply

variable {α β : Type}

/-- The two answers agree but for locations: both are values, or both are failures for one cause,
and the same lexemes are left. -/
inductive Alike : Reply α → Reply α → Prop where
  | ok {a a' : α} {rest rest' : List Token} :
      rest.map (·.lexeme) = rest'.map (·.lexeme) → Alike (.ok a rest) (.ok a' rest')
  | fail {c : SyntaxCause} {rest rest' : List Token} :
      rest.map (·.lexeme) = rest'.map (·.lexeme) → Alike (.fail c rest) (.fail c rest')

theorem Alike.andThen {r r' : Reply α} (h : r.Alike r') {f f' : α → List Token → Reply β}
    (hf : ∀ a a' ts ts', ts.map (·.lexeme) = ts'.map (·.lexeme) → (f a ts).Alike (f' a' ts')) :
    (r.andThen f).Alike (r'.andThen f') := by
  cases h with
  | ok hrest => exact hf _ _ _ _ hrest
  | fail hrest => exact .fail hrest

theorem Alike.map {r r' : Reply α} (h : r.Alike r') (f f' : α → β) :
    (r.map f).Alike (r'.map f') := by
  cases h with
  | ok hrest => exact .ok hrest
  | fail hrest => exact .fail hrest

end Reply

/-! ## Parsers see lexemes only -/

namespace Parse

/-- The parser answers alike on all tokens with the same lexemes. -/
def Blind {α : Type} (p : Parser α) : Prop :=
  ∀ ts ts', ts.map (·.lexeme) = ts'.map (·.lexeme) → (p ts).Alike (p ts')

/-- Tokens with the same lexemes are none, or they begin with the same lexeme. -/
theorem cases_of_lexemes {ts ts' : List Token} (h : ts.map (·.lexeme) = ts'.map (·.lexeme)) :
    (ts = [] ∧ ts' = []) ∨
      ∃ l loc loc' us us', ts = ⟨l, loc⟩ :: us ∧ ts' = ⟨l, loc'⟩ :: us' ∧
        us.map (·.lexeme) = us'.map (·.lexeme) := by
  match ts, ts' with
  | [], [] => exact .inl ⟨rfl, rfl⟩
  | [], t' :: us' => cases h
  | t :: us, [] => cases h
  | ⟨l, loc⟩ :: us, ⟨l', loc'⟩ :: us' =>
    obtain ⟨rfl, hus⟩ := List.cons.inj h
    exact .inr ⟨l, loc, loc', us, us', rfl, rfl, hus⟩

theorem length_eq_of_lexemes {ts ts' : List Token} (h : ts.map (·.lexeme) = ts'.map (·.lexeme)) :
    ts.length = ts'.length := by
  simpa using congrArg List.length h

theorem symbol_blind (s : Symbol) (what : Expected) : Blind (symbol s what) := by
  intro ts ts' h
  obtain ⟨rfl, rfl⟩ | ⟨l, loc, loc', us, us', rfl, rfl, hus⟩ := cases_of_lexemes h
  · exact .fail rfl
  · rw [symbol, symbol]
    split
    · exact .ok hus
    · exact .fail h

/-- After a word, the rest may depend on the text of the word. -/
theorem word_andThen {α : Type} {what : Expected} {f f' : String × Location → Parser α}
    (hf : ∀ w loc loc' ts ts', ts.map (·.lexeme) = ts'.map (·.lexeme) →
      (f (w, loc) ts).Alike (f' (w, loc') ts'))
    {ts ts' : List Token} (h : ts.map (·.lexeme) = ts'.map (·.lexeme)) :
    ((word what ts).andThen f).Alike ((word what ts').andThen f') := by
  obtain ⟨rfl, rfl⟩ | ⟨l, loc, loc', us, us', rfl, rfl, hus⟩ := cases_of_lexemes h
  · exact .fail rfl
  · cases l with
    | word w => exact hf w loc loc' us us' hus
    | symbol s => exact .fail h

/-- Passing over a given lexeme, if it comes next, does so in both token lists or in neither. -/
theorem cases_of_after {after : List Token → Option (List Token)} {l : Lexeme}
    (hnil : after [] = none)
    (hcons : ∀ t rest, after (t :: rest) = if t.lexeme = l then some rest else none)
    {ts ts' : List Token} (h : ts.map (·.lexeme) = ts'.map (·.lexeme)) :
    (after ts = none ∧ after ts' = none) ∨
      ∃ rest rest', after ts = some rest ∧ after ts' = some rest' ∧
        rest.map (·.lexeme) = rest'.map (·.lexeme) := by
  obtain ⟨rfl, rfl⟩ | ⟨l', loc, loc', us, us', rfl, rfl, hus⟩ := cases_of_lexemes h
  · exact .inl ⟨hnil, hnil⟩
  · rw [hcons, hcons]
    by_cases hl : l' = l
    · exact .inr ⟨us, us', if_pos hl, if_pos hl, hus⟩
    · exact .inl ⟨if_neg hl, if_neg hl⟩

theorem after?_cases (s : Symbol) {ts ts' : List Token}
    (h : ts.map (·.lexeme) = ts'.map (·.lexeme)) :
    (after? s ts = none ∧ after? s ts' = none) ∨
      ∃ rest rest', after? s ts = some rest ∧ after? s ts' = some rest' ∧
        rest.map (·.lexeme) = rest'.map (·.lexeme) :=
  cases_of_after rfl (fun _ _ => rfl) h

theorem afterWord?_cases (w : String) {ts ts' : List Token}
    (h : ts.map (·.lexeme) = ts'.map (·.lexeme)) :
    (afterWord? w ts = none ∧ afterWord? w ts' = none) ∨
      ∃ rest rest', afterWord? w ts = some rest ∧ afterWord? w ts' = some rest' ∧
        rest.map (·.lexeme) = rest'.map (·.lexeme) :=
  cases_of_after rfl (fun _ _ => rfl) h

theorem skipComma_lexemes {ts ts' : List Token} (h : ts.map (·.lexeme) = ts'.map (·.lexeme)) :
    (skipComma ts).map (·.lexeme) = (skipComma ts').map (·.lexeme) := by
  unfold skipComma
  obtain ⟨hnone, hnone'⟩ | ⟨rest, rest', hsome, hsome', hrest⟩ := after?_cases .comma h
  · rw [hnone, hnone']
    exact h
  · rw [hsome, hsome']
    exact hrest

theorem parametersFrom_blind (comma : Bool) : Blind (parametersFrom comma) := by
  intro ts
  induction ts generalizing comma with
  | nil =>
    intro ts' h
    obtain rfl := List.map_eq_nil_iff.1 h.symm
    exact .fail rfl
  | cons t ts ih =>
    intro ts' h
    obtain ⟨h', -⟩ | ⟨l, loc, loc', us, us', ht, rfl, hus⟩ := cases_of_lexemes h
    · cases h'
    obtain ⟨rfl, rfl⟩ := List.cons.inj ht
    cases l with
    | word w => exact (ih true us' hus).map _ _
    | symbol s =>
      cases s with
      | closeParen => exact .ok hus
      | comma =>
        cases comma with
        | true => exact ih false us' hus
        | false => exact .fail h
      | openParen | openBrace | closeBrace | openBracket | closeBracket | colon => exact .fail h

section Inner

variable {inner : Parser Expr} (hinner : Blind inner)
include hinner

theorem blockOf_blind : Blind (blockOf inner) := by
  intro ts ts' h
  refine (symbol_blind _ _ ts ts' h).andThen fun loc loc' ts ts' h => ?_
  obtain ⟨hnone, hnone'⟩ | ⟨rest, rest', hsome, hsome', hrest⟩ := after?_cases .closeBrace h
  · rw [hnone, hnone']
    exact (hinner ts ts' h).andThen fun e e' ts ts' h => (symbol_blind _ _ ts ts' h).map _ _
  · rw [hsome, hsome']
    exact .ok hrest

theorem argumentsOf_blind (n : Nat) : Blind (argumentsOf inner n) := by
  induction n with
  | zero => exact fun ts ts' h => .fail h
  | succ n ih =>
    intro ts ts' h
    rw [argumentsOf, argumentsOf]
    obtain ⟨hnone, hnone'⟩ | ⟨rest, rest', hsome, hsome', hrest⟩ := after?_cases .closeParen h
    · rw [hnone, hnone']
      exact (hinner ts ts' h).andThen fun e e' ts ts' h => (ih _ _ (skipComma_lexemes h)).map _ _
    · rw [hsome, hsome']
      exact .ok hrest

theorem branchOf_alike (loc loc' : Location) {ts ts' : List Token}
    (h : ts.map (·.lexeme) = ts'.map (·.lexeme)) :
    (branchOf inner loc ts).Alike (branchOf inner loc' ts') := by
  refine (hinner ts ts' h).andThen fun c c' ts ts' h => ?_
  refine (blockOf_blind hinner ts ts' h).andThen fun t t' ts ts' h => ?_
  obtain ⟨hnone, hnone'⟩ | ⟨rest, rest', hsome, hsome', hrest⟩ := afterWord?_cases "else" h
  · rw [hnone, hnone']
    exact .ok h
  · rw [hsome, hsome']
    exact (blockOf_blind hinner rest rest' hrest).map _ _

end Inner

theorem bareWord_alike (w : String) (loc loc' : Location) {ts ts' : List Token}
    (h : ts.map (·.lexeme) = ts'.map (·.lexeme)) :
    (bareWord w loc ts).Alike (bareWord w loc' ts') := by
  unfold bareWord
  split
  · exact .ok h
  · split
    · exact .fail h
    · split
      · exact .ok h
      · exact .ok h

theorem expressionOf_blind {inner : Parser Expr} (hinner : Blind inner) :
    Blind (expressionOf inner) := by
  intro ts ts' h
  refine word_andThen (fun w loc loc' ts ts' h => ?_) h
  dsimp only
  split
  · exact branchOf_alike hinner loc loc' h
  · obtain ⟨hnone, hnone'⟩ | ⟨rest, rest', hsome, hsome', hrest⟩ := after?_cases .openParen h
    · rw [hnone, hnone']
      exact bareWord_alike w loc loc' h
    · rw [hsome, hsome']
      dsimp only
      -- the bound on the number of arguments is the same
      rw [length_eq_of_lexemes hrest]
      exact (argumentsOf_blind hinner _ rest rest' hrest).map _ _

theorem expressionUpTo_blind (n : Nat) : Blind (expressionUpTo n) := by
  induction n with
  | zero => exact fun ts ts' h => .fail h
  | succ n ih => exact expressionOf_blind ih

theorem expression_blind : Blind expression := by
  intro ts ts' h
  rw [expression, expression, length_eq_of_lexemes h]
  exact expressionUpTo_blind _ ts ts' h

theorem definition_blind : Blind definition := by
  intro ts ts' h
  refine word_andThen (fun name loc loc' ts ts' h => ?_) h
  refine (symbol_blind _ _ ts ts' h).andThen fun _ _ ts ts' h => ?_
  refine (parametersFrom_blind false ts ts' h).andThen fun ps ps' ts ts' h => ?_
  exact (blockOf_blind expression_blind ts ts' h).map _ _

theorem definitionsUpTo_blind (n : Nat) : Blind (definitionsUpTo n) := by
  induction n with
  | zero =>
    intro ts ts' h
    obtain ⟨rfl, rfl⟩ | ⟨l, loc, loc', us, us', rfl, rfl, -⟩ := cases_of_lexemes h
    · exact .ok rfl
    · exact .fail h
  | succ n ih =>
    intro ts ts' h
    obtain ⟨rfl, rfl⟩ | ⟨l, loc, loc', us, us', rfl, rfl, -⟩ := cases_of_lexemes h
    · exact .ok rfl
    · exact (definition_blind _ _ h).andThen fun d d' ts ts' h => (ih ts ts' h).map _ _

/-- **The parsers see lexemes only.** -/
theorem definitions_blind : Blind definitions := by
  intro ts ts' h
  rw [definitions, definitions, length_eq_of_lexemes h]
  exact definitionsUpTo_blind _ ts ts' h

end Parse

/-! ## Programs -/

namespace Program

/-- Token lists with the same lexemes are both read, or neither is, for the same cause and at the
same position. -/
theorem parse_cases {tokens tokens' : List Token}
    (h : tokens.map (·.lexeme) = tokens'.map (·.lexeme)) :
    (∃ p p', parse tokens = .ok p ∧ parse tokens' = .ok p') ∨
      ∃ e e', parse tokens = .error e ∧ parse tokens' = .error e' ∧ e.cause = e'.cause ∧
        (parseFrom tokens 0).position = (parseFrom tokens' 0).position := by
  have hlength := Parse.length_eq_of_lexemes h
  have halike := Parse.definitions_blind tokens tokens' h
  simp only [parse, parseFrom, Parser.run, List.drop_zero]
  generalize Parse.definitions tokens = r at halike ⊢
  generalize Parse.definitions tokens' = r' at halike ⊢
  cases halike with
  | ok hrest => exact .inl ⟨_, _, rfl, rfl⟩
  | fail hrest =>
    refine .inr ⟨_, _, rfl, rfl, rfl, ?_⟩
    dsimp only
    rw [hlength, Parse.length_eq_of_lexemes hrest]

/-- What is read from the same lexemes is the same program. -/
theorem same_of_parse {tokens tokens' : List Token}
    (h : tokens.map (·.lexeme) = tokens'.map (·.lexeme)) {p p' : Program}
    (hp : parse tokens = .ok p) (hp' : parse tokens' = .ok p') : p.same p' = true :=
  (parse_eq_ok_iff.1 hp).1.same (parse_eq_ok_iff.1 hp').1 h

/-- A program that was read holds expressions only. -/
theorem stray?_of_parse {source path : String} {p : Program}
    (h : parse (Token.scan source path) = .ok p) :
    ∀ d ∈ p.definitions, d.body.stray? = none :=
  fun d hd => d.body.stray?_of_spellable (spellable_of_parse h d hd).2.2

/-- **Layout carries no meaning.** Take two texts with the same lexemes, at any paths. Either both
are read, or reading fails in both for the same cause and at the same position. If they are read,
then as the same program up to locations; they are formatted to the same text; their call graphs
have the same text; the same issues are reported of them in the same order; and under every depth
limit their runs have the same value or the same fault, write the same and have the same events,
locations aside. -/
theorem alike_of_lexemes {source source' path path' : String}
    (h : (Token.scan source path).map (·.lexeme) = (Token.scan source' path').map (·.lexeme)) :
    (∃ p p', parse (Token.scan source path) = .ok p ∧ parse (Token.scan source' path') = .ok p' ∧
      p.same p' = true ∧
      (∃ text, p.format = .ok text ∧ p'.format = .ok text) ∧
      (∀ title, (p.callGraph title).text = (p'.callGraph title).text) ∧
      p.reports.map (·.issue) = p'.reports.map (·.issue) ∧
      ∀ maxDepth,
        (p.run maxDepth).outcome.result.mapError (·.fault) =
          (p'.run maxDepth).outcome.result.mapError (·.fault) ∧
        (p.run maxDepth).output = (p'.run maxDepth).output ∧
        (p.run maxDepth).events.map Event.erase = (p'.run maxDepth).events.map Event.erase) ∨
    ∃ e e', parse (Token.scan source path) = .error e ∧
      parse (Token.scan source' path') = .error e' ∧ e.cause = e'.cause ∧
      (parseFrom (Token.scan source path) 0).position =
        (parseFrom (Token.scan source' path') 0).position := by
  obtain ⟨p, p', hp, hp'⟩ | hfail := parse_cases h
  · left
    have hsame := same_of_parse h hp hp'
    have herase := (same_iff_erase p p').1 hsame
    refine ⟨p, p', hp, hp', hsame, ⟨_, format_eq (spellable_of_parse hp), ?_⟩, fun title => ?_, ?_,
      fun maxDepth => ?_⟩
    · rw [format_eq (spellable_of_parse hp'), ← p.layout_erase, herase, p'.layout_erase]
    · rw [← p.callGraph_erase, herase, p'.callGraph_erase]
    · rw [← p.issues_erase, herase, p'.issues_erase]
    · have hrun : (p.run maxDepth).erase = (p'.run maxDepth).erase := by
        rw [← run_erase (stray?_of_parse hp), herase, run_erase (stray?_of_parse hp')]
      refine ⟨?_, ?_, ?_⟩
      · rw [← Run.fault_erase, hrun, Run.fault_erase]
      · rw [← Run.output_erase, hrun, Run.output_erase]
      · rw [← Run.events_erase, hrun, Run.events_erase]
  · exact .inr hfail

/-- A text on one line, and the same lexemes at another path, with a comment before them, on lines
of their own. -/
theorem alike_of_lexemes_lines :
    ∃ p p',
      parse (Token.scan "main() \x7b print(add(1 2)) \x7d" "a") = .ok p ∧
      parse (Token.scan "# a sum\nmain()\n\x7b\n\tprint(add(1 2))\n\x7d\n" "b") = .ok p' ∧
      p.loc = some ⟨"a", 1, 1⟩ ∧ p'.loc = some ⟨"b", 2, 1⟩ ∧ p.same p' = true ∧
      (p.run none).output = ["3"] ∧ (p'.run none).output = ["3"] := by
  let sum : Program :=
    ⟨some ⟨"a", 1, 1⟩, [⟨some ⟨"a", 1, 1⟩, "main", [], .call (some ⟨"a", 1, 10⟩) "print"
      [.call (some ⟨"a", 1, 16⟩) "add"
        [.literal (some ⟨"a", 1, 20⟩) 1, .literal (some ⟨"a", 1, 22⟩) 2]]⟩]⟩
  have hsum : parse (Token.scan "main() \x7b print(add(1 2)) \x7d" "a") = .ok sum := by cbv
  have houtput : (sum.run none).output = ["3"] := by decide +kernel
  have hlexemes : (Token.scan "main() \x7b print(add(1 2)) \x7d" "a").map (·.lexeme) =
      (Token.scan "# a sum\nmain()\n\x7b\n\tprint(add(1 2))\n\x7d\n" "b").map (·.lexeme) := by cbv
  have hfirst : (Token.scan
      "# a sum\nmain()\n\x7b\n\tprint(add(1 2))\n\x7d\n" "b").head?.map (·.loc) =
      some ⟨"b", 2, 1⟩ := by cbv
  obtain ⟨p, p', hp, hp', hsame, -, -, -, hruns⟩ | ⟨e, e', he, -⟩ := alike_of_lexemes hlexemes
  · obtain rfl : sum = p := Except.ok.inj (hsum.symm.trans hp)
    have hloc : p'.loc = some ⟨"b", 2, 1⟩ := (parse_eq_ok.1 hp').1.trans hfirst
    exact ⟨sum, p', hp, hp', rfl, hloc, hsame, houtput, (hruns none).2.1 ▸ houtput⟩
  · rw [hsum] at he
    cases he

end Program

end Wordlet
