import Wordlet.Proofs.Erasure
import Wordlet.Proofs.Layout

/-!
# Formatting and reading back

A program that was read from a text is formatted and read again. It comes back as it was, locations
apart, if and only if no variable and no called function in a body has a line end in its name. In
the header of a definition names may hold line ends: headers are not moved in.

One direction is the theory of layouts. For the other, line ends are counted: every name of a tree
is a word of the text it was read from (`Grammar.Functions.lineEnds_le`), and the layout has line
ends in its headers only (`Program.lineEnds_layout`), which leaves none for the bodies.

* `Program.format_parse_iff`: **the exact domain of the round trip.**
-/

namespace Wordlet

open Grammar

/-! ## Counting line ends -/

/-- The number of line ends that may stand in a word. -/
def lineEnds (cs : List Char) : Nat := cs.countP (· ∈ Text.wordLineEnds)

/-- The characters of words. -/
def Lexeme.wordChars : Lexeme → List Char
  | word w => w.toList
  | symbol _ => []

/-- The number of line ends in the words among lexemes. -/
def wordLineEnds (ls : List Lexeme) : Nat := lineEnds (ls.flatMap Lexeme.wordChars)

/-- The number of line ends in names. -/
def nameLineEnds (xs : List String) : Nat := lineEnds (xs.flatMap String.toList)

@[simp] theorem lineEnds_nil : lineEnds [] = 0 := rfl

@[simp] theorem lineEnds_append (cs cs' : List Char) :
    lineEnds (cs ++ cs') = lineEnds cs + lineEnds cs' :=
  List.countP_append

theorem lineEnds_cons (c : Char) (cs : List Char) :
    lineEnds (c :: cs) = lineEnds [c] + lineEnds cs :=
  lineEnds_append [c] cs

theorem lineEnds_eq_zero {cs : List Char} :
    lineEnds cs = 0 ↔ ∀ c ∈ cs, c ∉ Text.wordLineEnds := by
  simp [lineEnds, List.countP_eq_zero]

@[simp] theorem nameLineEnds_nil : nameLineEnds [] = 0 := rfl

@[simp] theorem nameLineEnds_cons (x : String) (xs : List String) :
    nameLineEnds (x :: xs) = lineEnds x.toList + nameLineEnds xs := by
  simp [nameLineEnds]

@[simp] theorem nameLineEnds_append (xs ys : List String) :
    nameLineEnds (xs ++ ys) = nameLineEnds xs + nameLineEnds ys := by
  simp [nameLineEnds]

@[simp] theorem wordLineEnds_word (w : String) (ls : List Lexeme) :
    wordLineEnds (.word w :: ls) = lineEnds w.toList + wordLineEnds ls := by
  simp [wordLineEnds, Lexeme.wordChars]

@[simp] theorem wordLineEnds_symbol (s : Symbol) (ls : List Lexeme) :
    wordLineEnds (.symbol s :: ls) = wordLineEnds ls := by
  simp [wordLineEnds, Lexeme.wordChars]

/-! ## Reading adds no line ends -/

theorem wordLineEnds_consWord (w : List Char) (ls : List Lexeme) :
    wordLineEnds (consWord w ls) = lineEnds w + wordLineEnds ls := by
  unfold consWord
  split
  · rename_i h; simp [h]
  · simp

theorem lineEnds_splitWord (cs : List Char) :
    lineEnds (splitWord cs).1 + wordLineEnds (splitWord cs).2 ≤ lineEnds cs := by
  induction cs with
  | nil => simp [splitWord, wordLineEnds]
  | cons c cs ih =>
    have hlex : wordLineEnds (lexemes cs) ≤ lineEnds cs := by
      rw [lexemes, wordLineEnds_consWord]
      exact ih
    have hwhole := lineEnds_cons c cs
    cases hsym : Symbol.ofChar? c with
    | some s =>
      rw [splitWord_symbol hsym]
      simp only [lineEnds_nil, wordLineEnds_symbol]
      omega
    | none =>
      by_cases hgap : isGap c = true
      · rw [splitWord_gap hgap]
        simp only [lineEnds_nil]
        omega
      · rw [splitWord_other hsym (by simpa using hgap)]
        have hcut := lineEnds_cons c (splitWord cs).1
        simp only
        omega

theorem lineEnds_uncomment_le (b : Bool) (cs : List Char) :
    lineEnds (uncomment b cs) ≤ lineEnds cs := by
  induction cs generalizing b with
  | nil => simp
  | cons c cs ih =>
    have hwhole := lineEnds_cons c cs
    have hkept := lineEnds_cons c (uncomment false cs)
    have htrue := ih true
    have hfalse := ih false
    rw [uncomment]
    split
    · split <;> omega
    · split <;> omega

/-- **The words of a scan** have no more line ends than the text. -/
theorem wordLineEnds_scan_le (source path : String) :
    wordLineEnds ((Token.scan source path).map (·.lexeme)) ≤ lineEnds source.toList := by
  have hsplit := lineEnds_splitWord (uncomment false source.toList)
  have hun := lineEnds_uncomment_le false source.toList
  rw [Token.scan_lexemes, lexemes, wordLineEnds_consWord]
  omega

namespace Grammar

/-- The line ends in the words of tokens. -/
def tokenLineEnds (ts : List Token) : Nat := wordLineEnds (ts.map (·.lexeme))

@[simp] theorem tokenLineEnds_word (w : String) (loc : Location) (ts : List Token) :
    tokenLineEnds (⟨.word w, loc⟩ :: ts) = lineEnds w.toList + tokenLineEnds ts :=
  wordLineEnds_word w _

@[simp] theorem tokenLineEnds_symbol (s : Symbol) (loc : Location) (ts : List Token) :
    tokenLineEnds (⟨.symbol s, loc⟩ :: ts) = tokenLineEnds ts :=
  wordLineEnds_symbol s _

mutual

/-- Every name in an expression is a word of its own among the tokens. -/
theorem Expression.lineEnds_le {ts rest : List Token} {e : Expr} (h : Expression ts e rest) :
    nameLineEnds e.names + tokenLineEnds rest ≤ tokenLineEnds ts := by
  match h with
  | .literal _ _ => simp [Expr.names, Expr.variableNames, Expr.callees]
  | .var _ _ => simp [Expr.names, Expr.variableNames, Expr.callees]
  | .call _ ha =>
    have hargs := Arguments.lineEnds_le ha
    simp only [Expr.names, Expr.variableNames, Expr.callees, nameLineEnds_append,
      nameLineEnds_cons, tokenLineEnds_word, tokenLineEnds_symbol] at hargs ⊢
    omega
  | .branch hc ht _ =>
    have h1 := Expression.lineEnds_le hc
    have h2 := Block.lineEnds_le ht
    simp only [Expr.names, Expr.variableNames, Expr.callees, nameLineEnds_append,
      nameLineEnds_nil, tokenLineEnds_word] at h1 h2 ⊢
    omega
  | .branchElse hc ht he =>
    have h1 := Expression.lineEnds_le hc
    have h2 := Block.lineEnds_le ht
    have h3 := Block.lineEnds_le he
    simp only [Expr.names, Expr.variableNames, Expr.callees, nameLineEnds_append,
      tokenLineEnds_word] at h1 h2 h3 ⊢
    omega

theorem Block.lineEnds_le {ts rest : List Token} {e : Expr} (h : Block ts e rest) :
    nameLineEnds e.names + tokenLineEnds rest ≤ tokenLineEnds ts := by
  match h with
  | .empty => simp [Expr.names, Expr.variableNames, Expr.callees]
  | .expression he =>
    have h1 := Expression.lineEnds_le he
    simp only [tokenLineEnds_symbol] at h1 ⊢
    exact h1

theorem Arguments.lineEnds_le {ts rest : List Token} {es : List Expr} (h : Arguments ts es rest) :
    nameLineEnds (Expr.variableNamesIn es ++ Expr.calleesIn es) + tokenLineEnds rest ≤
      tokenLineEnds ts := by
  match h with
  | .close => simp [Expr.variableNamesIn, Expr.calleesIn]
  | .plain he ha | .comma he ha =>
    have h1 := Expression.lineEnds_le he
    have h2 := Arguments.lineEnds_le ha
    simp only [Expr.names, Expr.variableNamesIn, Expr.calleesIn, nameLineEnds_append,
      tokenLineEnds_symbol] at h1 h2 ⊢
    omega

end

theorem Parameters.lineEnds_le {ts rest : List Token} {ps : List Parameter}
    (h : Parameters ts ps rest) :
    nameLineEnds (ps.map (·.name)) + tokenLineEnds rest ≤ tokenLineEnds ts := by
  induction h with
  | close => simp
  | plain _ ih | comma _ ih =>
    simp only [List.map_cons, nameLineEnds_cons, tokenLineEnds_word, tokenLineEnds_symbol]
    omega

end Grammar

namespace Definition

/-- The names in the header of a definition. -/
def headerNames (d : Definition) : List String := d.name :: d.parameterNames

/-- The names in the body of a definition. -/
def bodyNames (d : Definition) : List String := d.body.names

end Definition

/-- **Every name of a tree is a word of the text**, so that the names have no more line ends. -/
theorem Grammar.Functions.lineEnds_le {ts : List Token} {ds : List Definition}
    (h : Functions ts ds) :
    nameLineEnds (ds.flatMap Definition.headerNames) +
      nameLineEnds (ds.flatMap Definition.bodyNames) ≤ tokenLineEnds ts := by
  induction h with
  | nil => simp
  | cons hf _ ih =>
    obtain ⟨hp, hb⟩ := hf
    have h1 := hp.lineEnds_le
    have h2 := hb.lineEnds_le
    simp only [List.flatMap_cons, Definition.headerNames, Definition.bodyNames,
      Definition.parameterNames, List.cons_append, nameLineEnds_cons, nameLineEnds_append,
      tokenLineEnds_word, tokenLineEnds_symbol] at ih ⊢
    omega

/-! ## Line ends of the layout -/

theorem lineEnds_bracedBlock (text : List Char) : lineEnds (bracedBlock text) = 0 := by
  rw [lineEnds_eq_zero]
  intro c hc
  rcases mem_bracedBlock hc with hc | hc
  · have hnone : ∀ c ∈ layoutChars, c ∉ Text.wordLineEnds := forall_mem_of_all (by decide)
    exact hnone c hc
  · -- moving the text in has cut it at every line end
    intro hmem
    have hend := Text.isLineEnd_of_mem_wordLineEnds c hmem
    rcases Text.mem_indent hc with rfl | rfl | ⟨-, hno⟩
    · exact absurd hmem (by decide)
    · exact absurd hmem (by decide)
    · rw [hno] at hend
      cases hend

/-- Joining texts adds no line ends if the separator has none. -/
theorem lineEnds_intercalate {sep : List Char} (hsep : lineEnds sep = 0)
    (texts : List (List Char)) :
    lineEnds (List.intercalate sep texts) = lineEnds texts.flatten := by
  induction texts with
  | nil => simp
  | cons text texts ih =>
    cases texts with
    | nil => simp
    | cons text' texts =>
      rw [List.intercalate_cons_cons, lineEnds_append, lineEnds_append, hsep, List.flatten_cons,
        lineEnds_append, ih]
      omega

/-- Only the header of a definition has line ends in its layout. -/
theorem Definition.lineEnds_layout (d : Definition) :
    lineEnds d.layout = nameLineEnds d.headerNames := by
  have hparams : lineEnds (commaList (d.parameters.map (·.name.toList))) =
      nameLineEnds d.parameterNames := by
    have hsep : lineEnds [',', ' '] = 0 := by decide
    rw [commaList, lineEnds_intercalate hsep, nameLineEnds, parameterNames, List.flatMap_map,
      List.flatMap_def]
  have hopen : lineEnds ['('] = 0 := by decide
  have hspace : lineEnds [' '] = 0 := by decide
  have hclose : lineEnds ")".toList = 0 := by decide
  rw [layout, lineEnds_append, lineEnds_cons '(', lineEnds_append, lineEnds_append,
    lineEnds_cons ' ', lineEnds_bracedBlock, hparams, hopen, hspace, hclose, headerNames,
    nameLineEnds_cons]
  omega

/-- **Only headers have line ends in the layout of a program.** -/
theorem Program.lineEnds_layout (p : Program) :
    lineEnds p.layout = nameLineEnds (p.definitions.flatMap Definition.headerNames) := by
  have hsep : lineEnds ['\n', '\n'] = 0 := by decide
  rw [layout, lineEnds_intercalate hsep]
  induction p.definitions with
  | nil => rfl
  | cons d ds ih =>
    rw [List.map_cons, List.flatten_cons, lineEnds_append, ih, d.lineEnds_layout,
      List.flatMap_cons, nameLineEnds_append]

/-! ## Trees that differ in their locations only -/

theorem Expr.names_erase (e : Expr) : e.erase.names = e.names := by
  rw [names, names, variableNames_erase, callees_erase]

theorem Definition.headerNames_erase (d : Definition) : d.erase.headerNames = d.headerNames := by
  simp only [headerNames, erase, parameterNames, List.map_map]
  rfl

theorem Definition.bodyNames_erase (d : Definition) : d.erase.bodyNames = d.bodyNames := by
  rw [bodyNames, bodyNames, erase, Expr.names_erase]

/-- What is said of definitions without regard to their locations is the same of the definitions of
programs that are the same. -/
theorem Program.flatMap_congr_of_same {p q : Program} (h : q.same p = true)
    {m : Definition → List String} (hm : ∀ d, m d.erase = m d) :
    q.definitions.flatMap m = p.definitions.flatMap m := by
  have herase : ∀ ds : List Definition, ds.flatMap m = (ds.map Definition.erase).flatMap m := by
    intro ds
    rw [List.flatMap_map]
    simp only [hm]
  rw [herase, (Program.same_iff q p).1 h, ← herase]

/-! ## The round trip -/

theorem uncomment_eq {cs : List Char} (h : '#' ∉ cs) : uncomment false cs = cs := by
  induction cs with
  | nil => rfl
  | cons c cs ih =>
    rw [List.mem_cons, not_or] at h
    rw [uncomment, if_neg (by simp), if_neg (Ne.symm h.1), ih h.2]

theorem Definition.Spellable.mem_layout {d : Definition} (hd : d.Spellable) {c : Char}
    (h : c ∈ d.layout) : c ∈ layoutChars ∨ isLetter c = true := by
  obtain ⟨hname, hps, hbody⟩ := hd
  simp only [layout, List.mem_append, List.mem_cons] at h
  rcases h with h | rfl | (h | h) | rfl | h
  · exact .inr (hname.2 c h)
  · exact .inl (by decide)
  · rcases mem_commaList h with h | ⟨text, htext, h⟩
    · exact .inl h
    · obtain ⟨p, hp, rfl⟩ := List.mem_map.1 htext
      exact .inr ((hps p hp).2 c h)
  · obtain rfl : c = ')' := by simpa using h
    exact .inl (by decide)
  · exact .inl (by decide)
  · rcases mem_bracedBlock h with h | h
    · exact .inl h
    rcases Text.mem_indent h with rfl | rfl | ⟨h, -⟩
    · exact .inl (by decide)
    · exact .inl (by decide)
    · exact Expr.mem_layout hbody h

/-- **The characters of a layout** are its signs and letters. -/
theorem Program.mem_layout {p : Program} (hp : ∀ d ∈ p.definitions, d.Spellable) {c : Char}
    (h : c ∈ p.layout) : c ∈ layoutChars ∨ isLetter c = true := by
  rcases mem_intercalate h with h | ⟨text, htext, h⟩
  · obtain rfl : c = '\n' := by simpa using h
    exact .inl (by decide)
  · obtain ⟨d, hd, rfl⟩ := List.mem_map.1 htext
    exact (hp d hd).mem_layout h

theorem Program.hash_not_mem_layout {p : Program} (hp : ∀ d ∈ p.definitions, d.Spellable) :
    '#' ∉ p.layout := by
  intro h
  exact absurd (Program.mem_layout hp h) (by decide)

/-- **Reading the layout back** if no name in a body holds a line end. -/
theorem Program.parse_layout {p : Program} (hp : ∀ d ∈ p.definitions, d.Spellable)
    (hn : ∀ d ∈ p.definitions, d.body.Unbroken) (path : String) :
    ∃ q, Program.parse (Token.scan (String.ofList p.layout) path) = .ok q ∧ q.same p = true := by
  refine Program.parse_lexemes hp ?_
  rw [Token.scan_lexemes, String.toList_ofList, uncomment_eq (Program.hash_not_mem_layout hp),
    Program.lexemes_layout hp hn]

/-- **What the layout cannot give back.** If a program is read back from its layout, no name in a
body holds a line end. -/
theorem Program.unbroken_of_parse_layout {p q : Program} {path : String}
    (h : Program.parse (Token.scan (String.ofList p.layout) path) = .ok q)
    (hq : q.same p = true) : ∀ d ∈ p.definitions, d.body.Unbroken := by
  obtain ⟨⟨-, hds⟩, -⟩ := Program.parse_eq_ok_iff.1 h
  -- the names of `q` are words of the layout of `p`, which has line ends in its headers only
  have hnames := hds.lineEnds_le
  have hscan := wordLineEnds_scan_le (String.ofList p.layout) path
  rw [String.toList_ofList, p.lineEnds_layout] at hscan
  rw [Program.flatMap_congr_of_same hq Definition.headerNames_erase,
    Program.flatMap_congr_of_same hq Definition.bodyNames_erase] at hnames
  have hzero : nameLineEnds (p.definitions.flatMap Definition.bodyNames) = 0 := by
    unfold tokenLineEnds at hnames
    omega
  intro d hd x hx c hc
  refine lineEnds_eq_zero.1 hzero c ?_
  exact List.mem_flatMap.2 ⟨x, List.mem_flatMap.2 ⟨d, hd, hx⟩, hc⟩

/-- **The exact domain of the round trip.** A program that was read from a text can be formatted,
and the canonical text is read as the same program, locations apart, if and only if no variable and
no called function in a body has one of the line ends in its name that may stand in a word. -/
theorem Program.format_parse_iff {source path : String} {p : Program}
    (h : Program.parse (Token.scan source path) = .ok p) (path' : String) :
    ∃ text, p.format = .ok text ∧
      ((∃ q, Program.parse (Token.scan text path') = .ok q ∧ q.same p = true) ↔
        ∀ d ∈ p.definitions, ∀ x, x ∈ d.body.variableNames ∨ x ∈ d.body.callees →
          ∀ c ∈ x.toList, c ∉ Text.wordLineEnds) := by
  have hp := Program.spellable_of_parse h
  refine ⟨String.ofList p.layout, Program.format_eq hp, ?_⟩
  -- the names of an expression are those of its variables and of the functions it calls
  have hunbroken : (∀ d ∈ p.definitions, d.body.Unbroken) ↔
      ∀ d ∈ p.definitions, ∀ x, x ∈ d.body.variableNames ∨ x ∈ d.body.callees →
        ∀ c ∈ x.toList, c ∉ Text.wordLineEnds := by
    simp only [Expr.Unbroken, Expr.names, List.mem_append]
  refine Iff.trans ?_ hunbroken
  constructor
  · rintro ⟨q, hq, hsame⟩
    exact Program.unbroken_of_parse_layout hq hsame
  · intro hn
    exact Program.parse_layout hp hn path'

/-- Line ends in a header come back, one in a body does not. -/
theorem Program.format_parse_header_and_body :
    (∃ p text q, Program.parse (Token.scan
        "f\u2028(x\x0b) \x7b if g(+007,) \x7b\x7d else \x7belse\x7d \x7d" "s") = .ok p ∧
      p.format = .ok text ∧ Program.parse (Token.scan text "t") = .ok q ∧ q.same p = true) ∧
    ∃ p text, Program.parse (Token.scan "f(x\x0by) \x7b x\x0by \x7d" "s") = .ok p ∧
      p.format = .ok text ∧
      ¬∃ q, Program.parse (Token.scan text "t") = .ok q ∧ q.same p = true := by
  refine ⟨?_, ?_⟩
  · have hp : Program.parse (Token.scan
        "f\u2028(x\x0b) \x7b if g(+007,) \x7b\x7d else \x7belse\x7d \x7d" "s") = .ok
        ⟨some ⟨"s", 1, 1⟩, [⟨some ⟨"s", 1, 1⟩, "f\u2028", [⟨some ⟨"s", 1, 4⟩, "x\x0b"⟩],
          .branch (some ⟨"s", 1, 10⟩)
            (.call (some ⟨"s", 1, 13⟩) "g" [.literal (some ⟨"s", 1, 15⟩) 7])
            (.empty (some ⟨"s", 1, 22⟩)) (.var (some ⟨"s", 1, 31⟩) "else")⟩]⟩ := by cbv
    obtain ⟨text, htext, hiff⟩ := Program.format_parse_iff hp "t"
    obtain ⟨q, hq, hsame⟩ := hiff.2 (by
      intro d hd x hx
      obtain rfl := List.mem_singleton.1 hd
      have hnames : x = "else" ∨ x = "g" := by
        simpa [Expr.variableNames, Expr.variableNamesIn, Expr.callees, Expr.calleesIn] using hx
      rcases hnames with rfl | rfl
      · exact forall_mem_of_all (by decide)
      · exact forall_mem_of_all (by decide))
    exact ⟨_, text, q, hp, htext, hq, hsame⟩
  · have hp : Program.parse (Token.scan "f(x\x0by) \x7b x\x0by \x7d" "s") = .ok
        ⟨some ⟨"s", 1, 1⟩, [⟨some ⟨"s", 1, 1⟩, "f", [⟨some ⟨"s", 1, 3⟩, "x\x0by"⟩],
          .var (some ⟨"s", 1, 10⟩) "x\x0by"⟩]⟩ := by cbv
    obtain ⟨text, htext, hiff⟩ := Program.format_parse_iff hp "t"
    refine ⟨_, text, hp, htext, fun hread => ?_⟩
    exact hiff.1 hread _ (.head _) "x\x0by" (.inl (.head _)) '\x0b' (by decide) (by decide)

end Wordlet
