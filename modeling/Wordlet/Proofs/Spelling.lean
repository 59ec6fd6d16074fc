import Wordlet.Proofs.Lexemes
import Wordlet.Proofs.Parse

/-!
# Trees that texts can spell

A tree that was read from a text has only names that are words, no variable that would be read as a
literal, no literal out of range, and nothing empty where the grammar asks for an expression. Such
trees are `Spellable`. Each has canonical lexemes, with a comma between arguments and no `else`
before an empty block.

* `Program.spellable_of_parse`: **what is read is spellable.**
* `Program.parse_lexemes`: **what is spellable is read** from any tokens that have its canonical
  lexemes, up to locations.
-/

namespace Wordlet

open Text (IsNumeral maxDigits)
open Grammar Parse

/-- Lexemes with a comma between them. -/
def commaLexemes : List (List Lexeme) → List Lexeme
  | [] => []
  | ls :: lss => ls ++ (if lss.isEmpty then [] else .symbol .comma :: commaLexemes lss)

theorem commaLexemes_cons_cons (ls ls' : List Lexeme) (lss : List (List Lexeme)) :
    commaLexemes (ls :: ls' :: lss) = ls ++ .symbol .comma :: commaLexemes (ls' :: lss) := rfl

theorem commaLexemes_singleton (ls : List Lexeme) : commaLexemes [ls] = ls := by
  simp [commaLexemes]

namespace Expr

mutual

/-- A text can spell the expression. -/
def Spellable : Expr → Prop
  | empty _ => False
  | literal _ v => 0 ≤ v ∧ v ≤ 4294967295
  | var _ x =>
    IsWord x ∧ x ≠ "if" ∧
      ∀ cs, IsNumeral x cs → 4294967295 < Nat.ofDigitChars 10 cs 0 ∧ cs.length ≤ maxDigits
  | call _ f es => IsWord f ∧ f ≠ "if" ∧ SpellableAll es
  | branch _ c t e =>
    c.Spellable ∧ (t.isEmpty = true ∨ t.Spellable) ∧ (e.isEmpty = true ∨ e.Spellable)
  | stray _ _ _ => False

/-- A text can spell each of the expressions. -/
def SpellableAll : List Expr → Prop
  | [] => True
  | e :: es => e.Spellable ∧ SpellableAll es

end

/-- A text can spell a block of the expression. -/
def SpellableBlock (e : Expr) : Prop := e.isEmpty = true ∨ e.Spellable

theorem SpellableBlock.spellable {e : Expr} (h : e.SpellableBlock) (he : e.isEmpty = false) :
    e.Spellable := by
  rcases h with h | h
  · rw [he] at h; cases h
  · exact h

theorem spellableAll_iff {es : List Expr} : SpellableAll es ↔ ∀ e ∈ es, e.Spellable := by
  induction es with
  | nil => simp [SpellableAll]
  | cons e es ih => simp [SpellableAll, ih]

mutual

/-- The canonical lexemes of an expression. -/
def lexemes : Expr → List Lexeme
  | empty _ => []
  | literal _ v => [.word (toString v)]
  | var _ x => [.word x]
  | call _ f es =>
    .word f :: .symbol .openParen :: (commaLexemes (lexemesAll es) ++ [.symbol .closeParen])
  | branch _ c t e =>
    .word "if" :: (c.lexemes ++ .symbol .openBrace :: (t.lexemes ++ .symbol .closeBrace ::
      (if e.isEmpty then [] else
        .word "else" :: .symbol .openBrace :: (e.lexemes ++ [.symbol .closeBrace]))))
  | stray _ _ _ => []

/-- The canonical lexemes of each of the expressions. -/
def lexemesAll : List Expr → List (List Lexeme)
  | [] => []
  | e :: es => e.lexemes :: lexemesAll es

end

theorem lexemesAll_eq_map (es : List Expr) : lexemesAll es = es.map lexemes := by
  induction es with
  | nil => rfl
  | cons e es ih => simp [lexemesAll, ih]

end Expr

/-- A text can spell the definition. -/
def Definition.Spellable (d : Definition) : Prop :=
  IsWord d.name ∧ (∀ p ∈ d.parameters, IsWord p.name) ∧ d.body.SpellableBlock

/-- The canonical lexemes of a definition. -/
def Definition.lexemes (d : Definition) : List Lexeme :=
  .word d.name :: .symbol .openParen :: (commaLexemes (d.parameters.map ([.word ·.name])) ++
    .symbol .closeParen :: .symbol .openBrace :: (d.body.lexemes ++ [.symbol .closeBrace]))

/-- The canonical lexemes of a program. -/
def Program.lexemes (p : Program) : List Lexeme := p.definitions.flatMap Definition.lexemes

/-! ## What is read is spellable -/

/-- All words among the tokens are words of a text. -/
def Worded (ts : List Token) : Prop := ∀ w loc, ⟨.word w, loc⟩ ∈ ts → IsWord w

theorem Worded.of_suffix {ts ts' : List Token} (h : Worded ts) (hs : ts' <:+ ts) : Worded ts' :=
  fun w loc hm => h w loc (hs.subset hm)

theorem Worded.tail {t : Token} {ts : List Token} (h : Worded (t :: ts)) : Worded ts :=
  h.of_suffix (List.suffix_cons t ts)

theorem Worded.head {w : String} {loc : Location} {ts : List Token}
    (h : Worded (⟨.word w, loc⟩ :: ts)) : IsWord w :=
  h w loc (by simp)

mutual

theorem spellable_of_expression {ts rest : List Token} {e : Expr} (h : Expression ts e rest)
    (hw : Worded ts) {n : Nat} (hs : Short (n + 1) ts)
    (hn : next rest ≠ some (.symbol .openParen)) : e.Spellable := by
  match h with
  | .literal _ hle => exact ⟨Int.natCast_nonneg _, by omega⟩
  | .var hif hlt =>
    exact ⟨hw.head, hif, fun cs hcs =>
      ⟨hlt cs hcs, hs _ (mem_bareWords_word n.succ_pos _ _ hn) cs hcs⟩⟩
  | .call hif ha => exact ⟨hw.head, hif, spellableAll_of_arguments ha hw.tail.tail hs.word.paren⟩
  | .branch hc ht _ =>
    have hs' := hs.word.of_subset (hc.bareWords_subset _)
    exact ⟨spellable_of_expression hc hw.tail hs.word (by simp [ht.next_eq]),
      spellableBlock_of_block ht (hw.tail.of_suffix hc.suffix) hs', .inl rfl⟩
  | .branchElse hc ht he =>
    have hs' := hs.word.of_subset (hc.bareWords_subset _)
    have hw' := hw.tail.of_suffix hc.suffix
    exact ⟨spellable_of_expression hc hw.tail hs.word (by simp [ht.next_eq]),
      spellableBlock_of_block ht hw' hs', spellableBlock_of_block he (hw'.of_suffix ht.suffix).tail
        (hs'.of_subset (ht.bareWords_subset _)).word⟩

theorem spellableBlock_of_block {ts rest : List Token} {e : Expr} (h : Block ts e rest)
    (hw : Worded ts) {n : Nat} (hs : Short n ts) : e.SpellableBlock := by
  match h with
  | .empty => exact .inl rfl
  | .expression he => exact .inr (spellable_of_expression he hw.tail hs.brace (by simp))

theorem spellableAll_of_arguments {ts rest : List Token} {es : List Expr}
    (h : Arguments ts es rest) (hw : Worded ts) {n : Nat} (hs : Short (n + 1) ts) :
    Expr.SpellableAll es := by
  match h with
  | .close => trivial
  | .plain he ha =>
    exact ⟨spellable_of_expression he hw hs (ha.next_ne (by decide)),
      spellableAll_of_arguments ha (hw.of_suffix he.suffix) (hs.of_subset (he.bareWords_subset _))⟩
  | .comma he ha =>
    exact ⟨spellable_of_expression he hw hs (by simp),
      spellableAll_of_arguments ha (hw.of_suffix he.suffix).tail
        (hs.of_subset (he.bareWords_subset _)).comma⟩

end

theorem isWord_of_parameters {ts rest : List Token} {ps : List Parameter}
    (h : Parameters ts ps rest) (hw : Worded ts) : ∀ p ∈ ps, IsWord p.name := by
  induction h with
  | close => simp
  | plain _ ih => exact List.forall_mem_cons.2 ⟨hw.head, ih hw.tail⟩
  | comma _ ih => exact List.forall_mem_cons.2 ⟨hw.head, ih hw.tail.tail⟩

theorem spellable_of_functions {ts : List Token} {ds : List Definition} (h : Functions ts ds)
    (hw : Worded ts) (hs : Short 0 ts) : ∀ d ∈ ds, d.Spellable := by
  induction h with
  | nil => simp
  | cons hf _ ih =>
    have hrest := ih (hw.of_suffix hf.suffix) (hs.of_subset (hf.bareWords_subset 0))
    refine List.forall_mem_cons.2 ⟨?_, hrest⟩
    obtain ⟨hp, hb⟩ := hf
    exact ⟨hw.head, isWord_of_parameters hp hw.tail.tail,
      spellableBlock_of_block hb (hw.tail.tail.of_suffix hp.suffix)
        (hs.word.paren.of_subset (hp.bareWords_subset 0))⟩

/-- **What is read from a text is spellable.** -/
theorem Program.spellable_of_parse {source path : String} {p : Program}
    (h : Program.parse (Token.scan source path) = .ok p) : ∀ d ∈ p.definitions, d.Spellable := by
  obtain ⟨⟨-, hds⟩, hs⟩ := Program.parse_eq_ok_iff.1 h
  exact spellable_of_functions hds (fun w loc => Token.isWord_of_mem_scan) hs

/-! ## What is spellable is read -/

/-- The lexemes at the front of the tokens are those of a first token and of others after it. -/
theorem exists_token {ts : List Token} {l : Lexeme} {ls : List Lexeme}
    (h : ts.map (·.lexeme) = l :: ls) :
    ∃ loc ts', ts = ⟨l, loc⟩ :: ts' ∧ ts'.map (·.lexeme) = ls := by
  obtain ⟨⟨l', loc⟩, ts', rfl, rfl, hts⟩ := List.map_eq_cons_iff.1 h
  exact ⟨loc, ts', rfl, hts⟩

/-- The expression is read from any tokens that begin with its canonical lexemes. The word `else`
may not follow, since it would belong to a branch without one. -/
def ReadBack (e : Expr) : Prop :=
  ∀ ts ls, ts.map (·.lexeme) = e.lexemes ++ ls → ls.head? ≠ some (.word "else") →
    ∃ e' rest, Reads ts e' rest ∧ rest.map (·.lexeme) = ls ∧ e'.erase = e.erase

theorem eq_empty_of_isEmpty {e : Expr} (h : e.isEmpty = true) : ∃ loc, e = .empty loc := by
  cases e <;> simp [Expr.isEmpty] at h
  exact ⟨_, rfl⟩

theorem ReadBack.block {t : Expr} (ht : t.isEmpty = true ∨ ReadBack t)
    {ts : List Token} {ls : List Lexeme}
    (h : ts.map (·.lexeme) =
      .symbol .openBrace :: (t.lexemes ++ .symbol .closeBrace :: ls)) :
    ∃ t' rest, Block ts t' rest ∧ (∀ {n}, Short n rest → Short n ts) ∧
      rest.map (·.lexeme) = ls ∧ t'.erase = t.erase := by
  obtain ⟨loc, ts₁, rfl, h1⟩ := exists_token h
  rcases ht with ht | ht
  · obtain ⟨tloc, rfl⟩ := eq_empty_of_isEmpty ht
    obtain ⟨cloc, rest, rfl, h2⟩ := exists_token h1
    exact ⟨_, rest, .empty, fun hs => hs, h2, rfl⟩
  · obtain ⟨t', ts₂, hr, h2, he⟩ := ht ts₁ _ h1 (by simp)
    obtain ⟨cloc, rest, rfl, h3⟩ := exists_token h2
    exact ⟨t', rest, .expression hr.derives, fun hs => hr.short hs, h3, he⟩

theorem ReadBack.arguments {es : List Expr} (hes : ∀ e ∈ es, ReadBack e) {ts : List Token}
    {ls : List Lexeme}
    (h : ts.map (·.lexeme) = commaLexemes (Expr.lexemesAll es) ++ .symbol .closeParen :: ls) :
    ∃ es' rest, Arguments ts es' rest ∧ (∀ {n}, Short (n + 1) rest → Short (n + 1) ts) ∧
      rest.map (·.lexeme) = ls ∧ Expr.eraseAll es' = Expr.eraseAll es := by
  induction es generalizing ts with
  | nil =>
    obtain ⟨loc, rest, rfl, h1⟩ := exists_token h
    exact ⟨[], rest, .close, fun hs => hs, h1, rfl⟩
  | cons e es ih =>
    cases es with
    | nil =>
      rw [Expr.lexemesAll, Expr.lexemesAll, commaLexemes_singleton] at h
      obtain ⟨e', ts₁, hr, h1, hee⟩ := hes e (by simp) ts _ h (by simp)
      obtain ⟨loc, rest, rfl, h2⟩ := exists_token h1
      exact ⟨[e'], rest, .plain hr.derives .close, fun hs => hr.short hs, h2,
        by simp [Expr.eraseAll, hee]⟩
    | cons e₂ es =>
      -- the canonical lexemes have a comma between arguments, and the rule with a comma applies
      rw [Expr.lexemesAll, Expr.lexemesAll, commaLexemes_cons_cons, List.append_assoc] at h
      obtain ⟨e', ts₁, hr, h1, hee⟩ := hes e (by simp) ts _ h (by simp)
      obtain ⟨loc, ts₂, rfl, h2⟩ := exists_token h1
      obtain ⟨es', rest, ha, hs, h3, hees⟩ := ih (fun x hx => hes x (by simp [hx])) h2
      exact ⟨e' :: es', rest, .comma hr.derives ha, fun hs' => hr.short (hs hs'), h3,
        by simp [Expr.eraseAll, hee, hees]⟩

theorem ReadBack.literal {loc : Option Location} {v : Int} (h0 : 0 ≤ v) (hle : v ≤ 4294967295) :
    ReadBack (.literal loc v) := by
  intro ts ls h _
  obtain ⟨n, rfl⟩ := Int.eq_ofNat_of_zero_le h0
  obtain ⟨tloc, rest, rfl, hrest⟩ := exists_token h
  have hn : n ≤ 4294967295 := by omega
  -- the decimal text of a number is a numeral that denotes it
  have hval : Nat.ofDigitChars 10 (Nat.toDigits 10 n) 0 = n := Nat.ofDigitChars_ten_toDigits
  refine ⟨.literal (some tloc) (Nat.ofDigitChars 10 (Nat.toDigits 10 n) 0), rest, ?_, hrest, ?_⟩
  · exact .literal (Text.isNumeral_repr n) (by rw [hval]; exact hn)
      (Text.length_toDigits_le_maxDigits hn)
  · rw [hval]; rfl

/-- **A spellable expression is read back.** -/
theorem readBack_of_spellable (e : Expr) (he : e.Spellable) : ReadBack e := by
  induction e using Expr.induction with
  | empty => exact he.elim
  | literal loc v => exact ReadBack.literal he.1 he.2
  | var loc x =>
    intro ts ls h _
    obtain ⟨hx, hif, hnum⟩ := he
    obtain ⟨tloc, rest, rfl, hrest⟩ := exists_token h
    exact ⟨_, rest, .var hif (fun cs hcs => (hnum cs hcs).1) (fun cs hcs => (hnum cs hcs).2),
      hrest, rfl⟩
  | call loc f es ih =>
    intro ts ls h _
    obtain ⟨hf, hif, hes⟩ := he
    rw [Expr.spellableAll_iff] at hes
    simp only [Expr.lexemes, List.cons_append, List.append_assoc] at h
    obtain ⟨floc, ts₁, rfl, h1⟩ := exists_token h
    obtain ⟨ploc, ts₂, rfl, h2⟩ := exists_token h1
    obtain ⟨es', rest, ha, hs, h3, hees⟩ := ReadBack.arguments (fun e he => ih e he (hes e he)) h2
    exact ⟨_, rest, .call hif ha hs, h3, by simp only [Expr.erase, hees]⟩
  | branch loc c t e ihc iht ihe =>
    intro ts ls h hls
    obtain ⟨hc, ht, he⟩ := he
    simp only [Expr.lexemes, List.cons_append, List.append_assoc] at h
    obtain ⟨loc', ts₁, rfl, h1⟩ := exists_token h
    -- a block follows the condition, not `else`
    obtain ⟨c', ts₂, hrc, h2, hce⟩ := ihc hc ts₁ _ h1 (by simp)
    obtain ⟨t', ts₃, hbt, hst, h3, hte⟩ := ReadBack.block (ht.imp_right iht) h2
    by_cases hempty : e.isEmpty = true
    · -- without `else`, what follows the branch follows its first block
      rw [if_pos hempty, List.nil_append] at h3
      have hn : next ts₃ ≠ some (.word "else") := by rw [next, h3]; exact hls
      obtain ⟨eloc, rfl⟩ := eq_empty_of_isEmpty hempty
      exact ⟨_, ts₃, .branch hrc hbt hst hn, h3, by simp only [Expr.erase, hce, hte]⟩
    · rw [if_neg hempty, List.cons_append, List.cons_append, List.append_assoc] at h3
      obtain ⟨eloc, ts₄, rfl, h4⟩ := exists_token h3
      obtain ⟨e', rest, hbe, hse, h5, hee⟩ := ReadBack.block (he.imp_right ihe) h4
      exact ⟨_, rest, .branchElse hrc hbt hst hbe hse, h5,
        by simp only [Expr.erase, hce, hte, hee]⟩
  | stray => exact he.elim

theorem readBack_parameters (ps : List Parameter) {ts : List Token} {ls : List Lexeme}
    (h : ts.map (·.lexeme) = commaLexemes (ps.map ([.word ·.name])) ++ .symbol .closeParen :: ls) :
    ∃ ps' rest, Parameters ts ps' rest ∧ rest.map (·.lexeme) = ls ∧
      ps'.map Parameter.erase = ps.map Parameter.erase := by
  induction ps generalizing ts with
  | nil =>
    obtain ⟨loc, rest, rfl, h1⟩ := exists_token h
    exact ⟨[], rest, .close, h1, rfl⟩
  | cons p ps ih =>
    obtain ⟨loc, ts₁, rfl, h1⟩ := exists_token h
    cases ps with
    | nil =>
      obtain ⟨cloc, rest, rfl, h2⟩ := exists_token h1
      exact ⟨_, rest, .plain .close, h2, rfl⟩
    | cons p₂ ps =>
      obtain ⟨cloc, ts₂, rfl, h2⟩ := exists_token h1
      obtain ⟨ps', rest, hp, h3, hps⟩ := ih h2
      exact ⟨_, rest, .comma hp, h3, by rw [List.map_cons, hps]; rfl⟩

theorem Definition.Spellable.readBack {d : Definition} (hd : d.Spellable) {ts : List Token}
    {ls : List Lexeme} (h : ts.map (·.lexeme) = d.lexemes ++ ls) :
    ∃ d' rest, Function ts d' rest ∧ (Short 0 rest → Short 0 ts) ∧
      rest.map (·.lexeme) = ls ∧ d'.erase = d.erase := by
  simp only [Definition.lexemes, List.cons_append, List.append_assoc] at h
  obtain ⟨loc, ts₁, rfl, h1⟩ := exists_token h
  obtain ⟨ploc, ts₂, rfl, h2⟩ := exists_token h1
  obtain ⟨ps', ts₃, hp, h3, hps⟩ := readBack_parameters d.parameters h2
  obtain ⟨body', rest, hb, hs, h4, hbody⟩ :=
    ReadBack.block (hd.2.2.imp_right (readBack_of_spellable d.body)) h3
  exact ⟨_, rest, .intro hp hb, fun hr => short_of_function hp (hs hr), h4,
    by simp only [Definition.erase, hps, hbody]⟩

theorem readBack_definitions {ds : List Definition} (hds : ∀ d ∈ ds, d.Spellable)
    {ts : List Token} (h : ts.map (·.lexeme) = ds.flatMap Definition.lexemes) :
    ∃ ds', Functions ts ds' ∧ Short 0 ts ∧
      ds'.map Definition.erase = ds.map Definition.erase := by
  induction ds generalizing ts with
  | nil =>
    obtain rfl : ts = [] := by simpa using h
    exact ⟨[], .nil, short_nil, rfl⟩
  | cons d ds ih =>
    rw [List.flatMap_cons] at h
    obtain ⟨d', rest, hf, hs, h1, hd⟩ := (hds d (by simp)).readBack h
    obtain ⟨ds', hfs, hs', hds'⟩ := ih (fun x hx => hds x (by simp [hx])) h1
    exact ⟨d' :: ds', .cons hf hfs, hs hs', by rw [List.map_cons, hd, hds', List.map_cons]⟩

/-- **What is spellable is read** from all tokens that have its canonical lexemes, wherever they
stand. -/
theorem Program.parse_lexemes {p : Program} (hp : ∀ d ∈ p.definitions, d.Spellable)
    {tokens : List Token} (h : tokens.map (·.lexeme) = p.lexemes) :
    ∃ q, Program.parse tokens = .ok q ∧ q.same p = true := by
  obtain ⟨ds, hds, hs, he⟩ := readBack_definitions hp h
  refine ⟨⟨tokens.head?.map (·.loc), ds⟩, ?_, (Program.same_iff _ p).2 he⟩
  exact Program.parse_eq_ok_iff.2 ⟨⟨rfl, hds⟩, hs⟩

end Wordlet
