import Wordlet.Proofs.Erasure
import Wordlet.Proofs.RoundTrip

/-!
# The trees that are read

Not every tree is the reading of a text. What a text cannot give is said of each node alone: a name
with a character that ends words, a call or a variable with the name of the keyword, a variable
that would be a literal, a literal out of range, nothing where an expression must stand, and a node
that is no expression. Every other tree is read from some text, also one that its own layout does
not give back: the text with a space after each canonical lexeme.

* `Expr.spellableBlock_iff`: what a text can spell is a matter of the nodes, one by one.
* `lexemes_spaced`: **lexemes with a space after each are read as they are.**
* `Program.parse_spaced`: a spellable program is read from its spaced lexemes.
* `Program.exists_parse_iff_wellFormed`: **a tree is the reading of a text, locations apart, exactly
  if it is well formed.**
-/

namespace Wordlet

open Text (IsNumeral maxDigits)

/-! ## Well-formed trees -/

/-- The characters that no word holds. -/
def reserved : List Char :=
  ['(', ')', '\x7b', '\x7d', '[', ']', ',', ':', '#', ' ', '\t', '\n', '\r']

/-- A text that can name something: it is not empty and holds no reserved character. -/
def IsName (x : String) : Prop := x ≠ "" ∧ ∀ c ∈ x.toList, c ∉ reserved

namespace Expr

mutual

/-- The nodes of an expression: itself, and those of its parts. -/
def nodes : Expr → List Expr
  | empty loc => [empty loc]
  | literal loc v => [literal loc v]
  | var loc x => [var loc x]
  | call loc f es => call loc f es :: nodesIn es
  | branch loc c t e => branch loc c t e :: (c.nodes ++ t.nodes ++ e.nodes)
  | stray loc s es => stray loc s es :: nodesIn es

/-- The nodes of each of the expressions. -/
def nodesIn : List Expr → List Expr
  | [] => []
  | e :: es => e.nodes ++ nodesIn es

end

theorem nodesIn_eq_flatMap (es : List Expr) : nodesIn es = es.flatMap nodes := by
  induction es with
  | nil => rfl
  | cons e es ih => rw [nodesIn, ih, List.flatMap_cons]

/-- What a text asks of one node of an expression, its parts apart: names are names and not `if`,
no variable is a numeral that is in range or too long to be read, literals are in range, the
arguments of a call and the condition of a branch are not empty, and the node is an expression. -/
def Fits : Expr → Prop
  | empty _ => True
  | literal _ v => 0 ≤ v ∧ v ≤ 4294967295
  | var _ x =>
    IsName x ∧ x ≠ "if" ∧
      ¬∃ cs, IsNumeral x cs ∧ (Nat.ofDigitChars 10 cs 0 ≤ 4294967295 ∨ 4300 < cs.length)
  | call _ f es => IsName f ∧ f ≠ "if" ∧ ∀ e ∈ es, e.isEmpty = false
  | branch _ c _ _ => c.isEmpty = false
  | stray _ _ _ => False

end Expr

/-- The function and its parameters have names, and all nodes of its body fit. -/
def Definition.WellFormed (d : Definition) : Prop :=
  IsName d.name ∧ (∀ p ∈ d.parameters, IsName p.name) ∧ ∀ a ∈ d.body.nodes, a.Fits

/-- All definitions of the program are well formed. -/
def Program.WellFormed (p : Program) : Prop := ∀ d ∈ p.definitions, d.WellFormed

/-! Whether a tree is well formed can be computed. What is asked of the characters of a text is
decided by walking through the text. -/

instance (x : String) : Decidable (IsName x) :=
  let _ : Decidable (∀ c ∈ x.toList, c ∉ reserved) := List.decidableBAll _ _
  inferInstanceAs (Decidable (_ ∧ _))

instance (w : String) (cs : List Char) : Decidable (IsNumeral w cs) :=
  let _ : Decidable (∀ c ∈ cs, c.isDigit = true) := List.decidableBAll _ _
  inferInstanceAs (Decidable (_ ∧ _ ∧ _))

/-- The digits of a numeral are what follows its plus sign. -/
theorem exists_isNumeral_iff (x : String) (q : List Char → Prop) :
    (∃ cs, IsNumeral x cs ∧ q cs) ↔
      IsNumeral x (Text.dropPlus x.toList) ∧ q (Text.dropPlus x.toList) := by
  constructor
  · rintro ⟨cs, hcs, hq⟩
    rw [hcs.dropPlus_eq]
    exact ⟨hcs, hq⟩
  · intro h
    exact ⟨_, h⟩

instance (x : String) (q : List Char → Prop) [DecidablePred q] :
    Decidable (∃ cs, IsNumeral x cs ∧ q cs) :=
  decidable_of_iff _ (exists_isNumeral_iff x q).symm

instance Expr.decidableFits : (e : Expr) → Decidable e.Fits
  | empty _ => isTrue trivial
  | literal _ _ => inferInstanceAs (Decidable (_ ∧ _))
  | var _ x =>
    inferInstanceAs (Decidable (IsName x ∧ x ≠ "if" ∧ ¬∃ cs, IsNumeral x cs ∧
      (Nat.ofDigitChars 10 cs 0 ≤ 4294967295 ∨ 4300 < cs.length)))
  | call _ f es => inferInstanceAs (Decidable (IsName f ∧ f ≠ "if" ∧ ∀ e ∈ es, e.isEmpty = false))
  | branch _ c _ _ => inferInstanceAs (Decidable (c.isEmpty = false))
  | stray _ _ _ => isFalse id

instance (d : Definition) : Decidable d.WellFormed := inferInstanceAs (Decidable (_ ∧ _ ∧ _))

instance (p : Program) : Decidable p.WellFormed :=
  inferInstanceAs (Decidable (∀ d ∈ p.definitions, d.WellFormed))

/-! ## Spelling, node by node -/

theorem isLetter_iff (c : Char) : isLetter c = true ↔ c ∉ reserved := by
  constructor
  · intro hc hmem
    have hnone : ∀ c ∈ reserved, isLetter c = false := forall_mem_of_all (by decide)
    rw [hnone c hmem] at hc
    cases hc
  · intro hmem
    simp only [reserved, List.mem_cons, List.not_mem_nil, or_false, not_or] at hmem
    simp [isLetter, isGap, Symbol.ofChar?, hmem]

theorem isName_iff_isWord (x : String) : IsName x ↔ IsWord x := by
  have hne : x ≠ "" ↔ x.toList ≠ [] := by rw [ne_eq, ne_eq, String.toList_eq_nil_iff]
  rw [IsName, IsWord, hne]
  simp only [isLetter_iff]

namespace Expr

theorem spellable_iff (e : Expr) : e.Spellable ↔ e.isEmpty = false ∧ e.SpellableBlock := by
  constructor
  · intro he
    refine ⟨?_, .inr he⟩
    cases e with
    | empty => exact he.elim
    | literal | var | call | branch | stray => rfl
  · intro h
    exact h.2.spellable h.1

/-- A variable that fits is spelled as one: its name is no numeral that would be read otherwise. -/
theorem fits_var_iff (loc : Option Location) (x : String) :
    (var loc x).Fits ↔ (var loc x).Spellable := by
  rw [Fits, Spellable, isName_iff_isWord]
  refine and_congr_right fun _ => and_congr_right fun _ => ?_
  constructor
  · intro h cs hcs
    have hnot : ¬(Nat.ofDigitChars 10 cs 0 ≤ 4294967295 ∨ 4300 < cs.length) :=
      fun hor => h ⟨cs, hcs, hor⟩
    unfold maxDigits
    omega
  · rintro h ⟨cs, hcs, hor⟩
    obtain ⟨hlt, hle⟩ := h cs hcs
    unfold maxDigits at hle
    omega

/-- **What a text can spell is a matter of the nodes, one by one.** -/
theorem spellableBlock_iff (e : Expr) : e.SpellableBlock ↔ ∀ a ∈ e.nodes, a.Fits := by
  induction e using Expr.induction with
  | empty loc => simp [SpellableBlock, isEmpty, nodes, Fits]
  | literal loc v => simp [SpellableBlock, isEmpty, Spellable, nodes, Fits]
  | var loc x =>
    rw [nodes, List.forall_mem_singleton, fits_var_iff]
    simp [SpellableBlock, isEmpty]
  | call loc f es ih =>
    have hparts : SpellableAll es ↔
        (∀ e ∈ es, e.isEmpty = false) ∧ ∀ a ∈ nodesIn es, a.Fits := by
      rw [spellableAll_iff, nodesIn_eq_flatMap, List.forall_mem_flatMap, ← forall₂_and]
      exact forall₂_congr fun e he => by rw [spellable_iff, ih e he]
    rw [nodes, List.forall_mem_cons, Fits, isName_iff_isWord]
    simp only [SpellableBlock, isEmpty, Bool.false_eq_true, false_or, Spellable, hparts, and_assoc]
  | branch loc c t e ihc iht ihe =>
    have hblocks : (branch loc c t e).Spellable ↔
        c.Spellable ∧ t.SpellableBlock ∧ e.SpellableBlock := Iff.rfl
    rw [nodes, List.forall_mem_cons, List.forall_mem_append, List.forall_mem_append, Fits, ← ihc,
      ← iht, ← ihe, SpellableBlock, hblocks, spellable_iff c]
    simp only [isEmpty, Bool.false_eq_true, false_or, and_assoc]
  | stray loc s es => simp [SpellableBlock, isEmpty, Spellable, nodes, Fits]

end Expr

theorem Definition.wellFormed_iff (d : Definition) : d.WellFormed ↔ d.Spellable := by
  rw [WellFormed, Spellable, d.body.spellableBlock_iff]
  simp only [isName_iff_isWord]

/-! ## Locations are no part of it -/

theorem Expr.spellable_erase (e : Expr) : e.erase.Spellable ↔ e.Spellable := by
  induction e using Expr.induction with
  | empty | literal | var | stray => rfl
  | call loc f es ih =>
    have hparts : SpellableAll (eraseAll es) ↔ SpellableAll es := by
      rw [eraseAll_eq_map, spellableAll_iff, spellableAll_iff, List.forall_mem_map]
      exact forall₂_congr ih
    rw [erase, Spellable, Spellable, hparts]
  | branch loc c t e ihc iht ihe =>
    simp only [erase, Spellable, isEmpty_erase, ihc, iht, ihe]

theorem Definition.spellable_erase (d : Definition) : d.erase.Spellable ↔ d.Spellable := by
  have hparameters : (∀ p ∈ d.parameters.map Parameter.erase, IsWord p.name) ↔
      ∀ p ∈ d.parameters, IsWord p.name := List.forall_mem_map
  have hbody : d.body.erase.SpellableBlock ↔ d.body.SpellableBlock := by
    rw [Expr.SpellableBlock, Expr.SpellableBlock, Expr.isEmpty_erase, Expr.spellable_erase]
  exact and_congr_right fun _ => and_congr hparameters hbody

/-- Programs that are the same are spellable together. -/
theorem Program.spellable_of_same {p q : Program} (h : q.same p = true)
    (hq : ∀ d ∈ q.definitions, d.Spellable) : ∀ d ∈ p.definitions, d.Spellable := by
  have herase : ∀ ds : List Definition,
      (∀ d ∈ ds.map Definition.erase, d.Spellable) ↔ ∀ d ∈ ds, d.Spellable := by
    intro ds
    rw [List.forall_mem_map]
    exact forall₂_congr fun d _ => d.spellable_erase
  rw [← herase, ← (Program.same_iff q p).1 h, herase]
  exact hq

/-! ## A text for given lexemes -/

/-- The text of lexemes with a space after each. -/
def spaced (ls : List Lexeme) : List Char := ls.flatMap fun l => l.text.toList ++ [' ']

/-- All words among the lexemes are words of a text. -/
def Writable (ls : List Lexeme) : Prop := ∀ w, .word w ∈ ls → IsWord w

@[simp] theorem writable_nil : Writable [] := by simp [Writable]

@[simp] theorem writable_word {w : String} {ls : List Lexeme} :
    Writable (.word w :: ls) ↔ IsWord w ∧ Writable ls := by
  simp [Writable]

@[simp] theorem writable_symbol {s : Symbol} {ls : List Lexeme} :
    Writable (.symbol s :: ls) ↔ Writable ls := by
  simp [Writable]

@[simp] theorem writable_append {ls ls' : List Lexeme} :
    Writable (ls ++ ls') ↔ Writable ls ∧ Writable ls' := by
  simp only [Writable, List.mem_append, or_imp, forall_and]

theorem writable_commaLexemes {lss : List (List Lexeme)} (h : ∀ ls ∈ lss, Writable ls) :
    Writable (commaLexemes lss) := by
  induction lss with
  | nil => exact writable_nil
  | cons ls lss ih =>
    obtain ⟨hls, hlss⟩ := List.forall_mem_cons.1 h
    rw [commaLexemes, writable_append]
    refine ⟨hls, ?_⟩
    split
    · exact writable_nil
    · exact writable_symbol.2 (ih hlss)

/-- **Lexemes with a space after each are read as they are.** -/
theorem lexemes_spaced {ls : List Lexeme} (h : Writable ls) : lexemes (spaced ls) = ls := by
  induction ls with
  | nil => rfl
  | cons l ls ih =>
    rw [spaced, List.flatMap_cons, List.append_assoc]
    cases l with
    | word w =>
      obtain ⟨hw, hls⟩ := writable_word.1 h
      have hgap := delimited_gap (c := ' ') rfl (spaced ls)
      exact (lexemes_word hw hgap).trans (by rw [lexemes_gap rfl, ih hls])
    | symbol s =>
      have hls := ih (writable_symbol.1 h)
      have htext : (Lexeme.symbol s).text.toList = [s.char] := by simp [Lexeme.text]
      rw [htext, List.singleton_append, lexemes_symbol s.ofChar?_char, List.singleton_append,
        lexemes_gap rfl]
      exact congrArg _ hls

theorem hash_not_mem_spaced {ls : List Lexeme} (h : Writable ls) : '#' ∉ spaced ls := by
  intro hmem
  obtain ⟨l, hl, hc⟩ := List.mem_flatMap.1 hmem
  rcases List.mem_append.1 hc with hc | hc
  · cases l with
    | word w => exact absurd ((h w hl).2 _ hc) (by decide)
    | symbol s => cases s <;> exact absurd hc (by decide)
  · exact absurd hc (by decide)

/-- A scan of spaced lexemes finds these lexemes. -/
theorem Token.scan_spaced {ls : List Lexeme} (h : Writable ls) (path : String) :
    (Token.scan (String.ofList (spaced ls)) path).map (·.lexeme) = ls := by
  rw [Token.scan_lexemes, String.toList_ofList, uncomment_eq (hash_not_mem_spaced h),
    lexemes_spaced h]

/-! ## The words of canonical lexemes -/

theorem Expr.writable_lexemes (e : Expr) (he : e.SpellableBlock) : Writable e.lexemes := by
  induction e using Expr.induction with
  | empty => exact writable_nil
  | literal loc v =>
    have hv : 0 ≤ v := (he.spellable rfl).1
    exact writable_word.2 ⟨isWord_toString hv, writable_nil⟩
  | var loc x => exact writable_word.2 ⟨(he.spellable rfl).1, writable_nil⟩
  | call loc f es ih =>
    obtain ⟨hf, -, hes⟩ := he.spellable rfl
    have harguments : Writable (commaLexemes (lexemesAll es)) := by
      rw [lexemesAll_eq_map]
      refine writable_commaLexemes (List.forall_mem_map.2 fun a ha => ih a ha (.inr ?_))
      exact spellableAll_iff.1 hes a ha
    simp [lexemes, hf, harguments]
  | branch loc c t e ihc iht ihe =>
    obtain ⟨hc, ht, he⟩ := he.spellable rfl
    simp only [lexemes, writable_word, writable_symbol, writable_append]
    refine ⟨isWord_if, ihc (.inr hc), iht ht, ?_⟩
    split
    · exact writable_nil
    · simp [isWord_else, ihe he]
  | stray => exact writable_nil

theorem Definition.Spellable.writable_lexemes {d : Definition} (hd : d.Spellable) :
    Writable d.lexemes := by
  obtain ⟨hname, hparameters, hbody⟩ := hd
  have hps : Writable (commaLexemes (d.parameters.map ([.word ·.name]))) := by
    refine writable_commaLexemes (List.forall_mem_map.2 fun p hp => ?_)
    exact writable_word.2 ⟨hparameters p hp, writable_nil⟩
  simp [lexemes, hname, hps, d.body.writable_lexemes hbody]

theorem Program.writable_lexemes {p : Program} (hp : ∀ d ∈ p.definitions, d.Spellable) :
    Writable p.lexemes := by
  intro w hw
  obtain ⟨d, hd, hw⟩ := List.mem_flatMap.1 hw
  exact (hp d hd).writable_lexemes w hw

/-! ## The image of reading -/

/-- **A spellable program is read from its spaced lexemes.** -/
theorem Program.parse_spaced {p : Program} (hp : ∀ d ∈ p.definitions, d.Spellable)
    (path : String) : ∃ q,
      Program.parse (Token.scan (String.ofList (spaced p.lexemes)) path) = .ok q ∧
        q.same p = true :=
  Program.parse_lexemes hp (Token.scan_spaced (Program.writable_lexemes hp) path)

/-- **The trees that are read.** A program is the reading of some text, locations apart, if and only
if it is well formed: every function, parameter, call and variable has a name without reserved
characters, no call and no variable is named `if`, no variable is a numeral that is in range or too
long, every literal is in range, no argument and no condition is empty, and all nodes of bodies are
expressions. -/
theorem Program.exists_parse_iff_wellFormed (p : Program) (path : String) :
    (∃ source q, Program.parse (Token.scan source path) = .ok q ∧ q.same p = true) ↔
      p.WellFormed := by
  have hspell : p.WellFormed ↔ ∀ d ∈ p.definitions, d.Spellable :=
    forall₂_congr fun d _ => d.wellFormed_iff
  rw [hspell]
  constructor
  · rintro ⟨source, q, hread, hsame⟩
    exact Program.spellable_of_same hsame (Program.spellable_of_parse hread)
  · intro hp
    obtain ⟨q, hread, hsame⟩ := Program.parse_spaced hp path
    exact ⟨_, q, hread, hsame⟩

/-- Keywords and numerals may name functions and parameters, and `else` and numerals out of range
may be variables. -/
example : Program.WellFormed ⟨none, [⟨none, "if", [⟨none, "7"⟩, ⟨none, "else"⟩],
    .branch none (.var none "else") (.empty none)
      (.call none "7" [.var none "+4294967296", .var none "x\x0by"])⟩]⟩ := by
  decide +kernel

example : ¬Program.WellFormed ⟨none, [⟨none, "f", [], .var none "+04294967295"⟩]⟩ := by
  decide +kernel

end Wordlet
