import Wordlet.Proofs.Spelling
import Wordlet.Report
import Wordlet.Syntax.Layout

/-!
# The lexemes of the canonical layout

The canonical text of a tree has the canonical lexemes of the tree, if moving blocks in cuts no
word. A block is moved in by cutting its text at every line end there is and putting it together
with newlines; a word of the block that holds some other line end (`Text.wordLineEnds`) comes out
in pieces.

* `Text.lexemes_indent`: **moving a text in keeps its lexemes** if it has no line ends but newlines.
* `Text.mem_indent`: a text that was moved in has no others.
* `Expr.laidOut_of_unbroken`, `Program.lexemes_layout`: **the layout is read as the canonical
  lexemes** if no name in a body holds a line end.
* `Program.format_eq`: a spellable program can be formatted.
-/

namespace Wordlet

namespace Text

/-- The line ends that may stand in a word: all but the newline and the carriage return. -/
def wordLineEnds : List Char :=
  ['\x0b', '\x0c', '\x1c', '\x1d', '\x1e', '\u0085', '\u2028', '\u2029']

theorem isLineEnd_of_mem_wordLineEnds : ∀ c ∈ wordLineEnds, isLineEnd c = true :=
  forall_mem_of_all (by decide)

theorem mem_wordLineEnds {c : Char} (h : isLineEnd c = true) :
    c = '\n' ∨ c = '\r' ∨ c ∈ wordLineEnds := by
  simp only [isLineEnd, Bool.or_eq_true, Bool.and_eq_true, decide_eq_true_eq] at h
  -- the line ends in the order of `wordLineEnds`, after the two that no word holds
  have heq : ∀ d : Char, c.toNat = d.toNat → c = d := fun d hd => Char.toNat_inj.1 hd
  have hcases : c.toNat = 10 ∨ c.toNat = 13 ∨ c.toNat = 11 ∨ c.toNat = 12 ∨ c.toNat = 28 ∨
      c.toNat = 29 ∨ c.toNat = 30 ∨ c.toNat = 133 ∨ c.toNat = 8232 ∨ c.toNat = 8233 := by omega
  rcases hcases with h | h | h | h | h | h | h | h | h | h
  · exact .inl (heq '\n' h)
  · exact .inr (.inl (heq '\r' h))
  · rw [heq '\x0b' h]; decide
  · rw [heq '\x0c' h]; decide
  · rw [heq '\x1c' h]; decide
  · rw [heq '\x1d' h]; decide
  · rw [heq '\x1e' h]; decide
  · rw [heq '\u0085' h]; decide
  · rw [heq '\u2028' h]; decide
  · rw [heq '\u2029' h]; decide

/-! ## Moving a text in -/

/-- A line with a tab before it unless it is empty. -/
def indentLine (line : List Char) : List Char := if line.isEmpty then line else '\t' :: line

/-- The lines of a text whose first line has been begun already: only the others are moved in. -/
def continueLines : List (List Char) → List Char
  | [] => []
  | line :: lines => line ++ lines.flatMap fun l => '\n' :: indentLine l

theorem intercalate_newline (line : List Char) (lines : List (List Char)) :
    List.intercalate ['\n'] (line :: lines) = line ++ lines.flatMap ('\n' :: ·) := by
  induction lines generalizing line with
  | nil => simp
  | cons l lines ih => rw [List.intercalate_cons_cons, ih l]; simp

theorem unifyNewlines_eq {cs : List Char} (h : '\r' ∉ cs) : unifyNewlines cs = cs := by
  unfold unifyNewlines
  induction cs with
  | nil => rfl
  | cons c cs ih =>
    rw [List.mem_cons, not_or] at h
    rw [unifyNewlinesFrom, if_neg (Ne.symm h.1), if_neg (by simp), ih h.2]

theorem indent_eq {cs line : List Char} {lines : List (List Char)}
    (h : splitLines cs = line :: lines) :
    indent cs = indentLine line ++ lines.flatMap fun l => '\n' :: indentLine l := by
  unfold indent
  rw [h, List.map_cons, intercalate_newline, List.flatMap_map]
  rfl

theorem lexemes_indentLine (line r : List Char) :
    lexemes (indentLine line ++ r) = lexemes (line ++ r) := by
  unfold indentLine
  split
  · rfl
  · exact lexemes_gap rfl _

/-- What follows decides how a text is cut only by how it is cut itself. -/
theorem splitWord_cons_congr {cs cs' : List Char} (h : splitWord cs = splitWord cs') (c : Char) :
    splitWord (c :: cs) = splitWord (c :: cs') := by
  simp only [splitWord, h]

theorem continueLines_consLines {c : Char} (h : isLineEnd c = false) (lines : List (List Char)) :
    continueLines (consLines c lines) = c :: continueLines lines := by
  unfold consLines
  rw [if_neg (by simp [h])]
  cases lines <;> simp [continueLines]

/-- The text in lines is cut as the text is, if newlines are its only line ends. A newline at the
very end is lost, which nothing shows if no word goes on after the text. -/
theorem splitWord_continueLines {cs : List Char} (h : ∀ c ∈ cs, isLineEnd c = true → c = '\n')
    {r : List Char} (hr : Delimited r) :
    splitWord (continueLines (cs.foldr consLines []) ++ r) = splitWord (cs ++ r) := by
  induction cs with
  | nil => rfl
  | cons c cs ih =>
    have ih := ih fun x hx => h x (List.mem_cons_of_mem c hx)
    rw [List.foldr_cons, List.cons_append]
    cases hc : isLineEnd c with
    | false =>
      rw [continueLines_consLines hc, List.cons_append]
      exact splitWord_cons_congr ih c
    | true =>
      obtain rfl := h c (by simp) hc
      rw [splitWord_gap rfl, lexemes, ← ih, ← lexemes]
      simp only [consLines, hc, if_true]
      cases cs.foldr consLines [] with
      | nil =>
        -- the newline at the very end, which no line comes after
        exact hr.splitWord_eq
      | cons line lines =>
        simp only [continueLines, List.nil_append, List.flatMap_cons, List.cons_append,
          List.append_assoc]
        rw [splitWord_gap rfl, lexemes_indentLine]

/-- **Moving a text in keeps its lexemes** if newlines are its only line ends. -/
theorem lexemes_indent {cs : List Char} (h : ∀ c ∈ cs, isLineEnd c = true → c = '\n')
    {r : List Char} (hr : Delimited r) : lexemes (indent cs ++ r) = lexemes (cs ++ r) := by
  have hcr : '\r' ∉ cs := fun hm => absurd (h _ hm rfl) (by decide)
  have hlines : splitLines cs = cs.foldr consLines [] := by rw [splitLines, unifyNewlines_eq hcr]
  have hcut : lexemes (cs ++ r) = lexemes (continueLines (splitLines cs) ++ r) := by
    rw [hlines]
    simp only [lexemes, splitWord_continueLines h hr]
  rw [hcut]
  cases hl : splitLines cs with
  | nil => simp [indent, hl, continueLines]
  | cons line lines =>
    rw [indent_eq hl, List.append_assoc, lexemes_indentLine, continueLines, List.append_assoc]

theorem mem_unifyNewlinesFrom {c : Char} {after : Bool} {cs : List Char}
    (h : c ∈ unifyNewlinesFrom after cs) : c = '\n' ∨ c ∈ cs := by
  induction cs generalizing after with
  | nil => simp [unifyNewlinesFrom] at h
  | cons x cs ih =>
    unfold unifyNewlinesFrom at h
    split at h
    · rcases List.mem_cons.1 h with h | h
      · exact .inl h
      · exact (ih h).imp_right (List.mem_cons_of_mem x)
    · split at h
      · exact (ih h).imp_right (List.mem_cons_of_mem x)
      · rcases List.mem_cons.1 h with h | h
        · exact .inr (by simp [h])
        · exact (ih h).imp_right (List.mem_cons_of_mem x)

theorem mem_consLines {c x : Char} {lines : List (List Char)} {line : List Char}
    (h : line ∈ consLines c lines) (hx : x ∈ line) :
    (x = c ∧ isLineEnd c = false) ∨ ∃ l ∈ lines, x ∈ l := by
  unfold consLines at h
  split at h
  · rcases List.mem_cons.1 h with rfl | h
    · simp at hx
    · exact .inr ⟨line, h, hx⟩
  · rename_i hc
    have hc' : isLineEnd c = false := by simpa using hc
    cases lines with
    | nil =>
      obtain rfl : line = [c] := by simpa using h
      exact .inl ⟨by simpa using hx, hc'⟩
    | cons l lines =>
      rcases List.mem_cons.1 h with rfl | h
      · rcases List.mem_cons.1 hx with hx | hx
        · exact .inl ⟨hx, hc'⟩
        · exact .inr ⟨l, by simp, hx⟩
      · exact .inr ⟨line, List.mem_cons_of_mem l h, hx⟩

theorem mem_of_mem_lines {x : Char} {cs line : List Char} (h : line ∈ cs.foldr consLines [])
    (hx : x ∈ line) : x ∈ cs ∧ isLineEnd x = false := by
  induction cs generalizing line with
  | nil => simp at h
  | cons c cs ih =>
    rcases mem_consLines h hx with ⟨rfl, hend⟩ | ⟨l, hl, hm⟩
    · exact ⟨by simp, hend⟩
    · exact ⟨List.mem_cons_of_mem c (ih hl hm).1, (ih hl hm).2⟩

theorem mem_indentLine {line : List Char} {c : Char} (h : c ∈ indentLine line) :
    c = '\t' ∨ c ∈ line := by
  unfold indentLine at h
  split at h
  · exact .inr h
  · exact List.mem_cons.1 h

/-- **The characters of a text that was moved in** are newlines, tabs and characters of the text
that end no line. -/
theorem mem_indent {cs : List Char} {c : Char} (h : c ∈ indent cs) :
    c = '\n' ∨ c = '\t' ∨ (c ∈ cs ∧ isLineEnd c = false) := by
  have hline : ∀ line ∈ splitLines cs, c ∈ indentLine line →
      c = '\t' ∨ (c ∈ cs ∧ isLineEnd c = false) := by
    intro line hl hm
    refine (mem_indentLine hm).imp_right fun hc => ?_
    -- a character of a line ends none, so it is no newline that stands for another line end
    obtain ⟨hu, hend⟩ := mem_of_mem_lines hl hc
    rcases mem_unifyNewlinesFrom hu with rfl | hcs
    · exact absurd hend (by decide)
    · exact ⟨hcs, hend⟩
  cases hl : splitLines cs with
  | nil => simp [indent, hl] at h
  | cons line lines =>
    rw [indent_eq hl, List.mem_append, List.mem_flatMap] at h
    rw [hl] at hline
    rcases h with h | ⟨l, hlmem, h⟩
    · exact .inr (hline line (by simp) h)
    · rcases List.mem_cons.1 h with h | h
      · exact .inl h
      · exact .inr (hline l (List.mem_cons_of_mem line hlmem) h)

end Text

/-! ## The characters of a layout -/

/-- The words and signs that a layout adds to the names and numbers of a tree. -/
def layoutChars : List Char := "if else(), \n\t\x7b\x7d".toList

theorem mem_bracedBlock {text : List Char} {c : Char} (h : c ∈ bracedBlock text) :
    c ∈ layoutChars ∨ c ∈ Text.indent text := by
  simp only [bracedBlock, List.mem_cons, List.mem_append, List.not_mem_nil, or_false] at h
  rcases h with rfl | rfl | h | rfl | rfl
  · exact .inl (by decide)
  · exact .inl (by decide)
  · exact .inr h
  · exact .inl (by decide)
  · exact .inl (by decide)

theorem mem_intercalate {sep : List Char} {texts : List (List Char)} {c : Char}
    (h : c ∈ List.intercalate sep texts) : c ∈ sep ∨ ∃ text ∈ texts, c ∈ text := by
  induction texts with
  | nil => simp at h
  | cons text texts ih =>
    cases texts with
    | nil => exact .inr ⟨text, by simp, by simpa using h⟩
    | cons text' texts =>
      rw [List.intercalate_cons_cons, List.mem_append, List.mem_append] at h
      rcases h with (h | h) | h
      · exact .inr ⟨text, by simp, h⟩
      · exact .inl h
      · rcases ih h with h | ⟨x, hx, hc⟩
        · exact .inl h
        · exact .inr ⟨x, List.mem_cons_of_mem _ hx, hc⟩

theorem mem_commaList {texts : List (List Char)} {c : Char} (h : c ∈ commaList texts) :
    c ∈ layoutChars ∨ ∃ text ∈ texts, c ∈ text := by
  have hsep : ∀ c ∈ [',', ' '], c ∈ layoutChars := forall_mem_of_all (by decide)
  exact (mem_intercalate h).imp_left (hsep c)

theorem isDigit_of_mem_toString {v : Int} (h : 0 ≤ v) {c : Char} (hc : c ∈ (toString v).toList) :
    c.isDigit = true := by
  obtain ⟨n, rfl⟩ := Int.eq_ofNat_of_zero_le h
  rw [show (toString (n : Int)).toList = Nat.toDigits 10 n from Nat.toList_repr] at hc
  exact Nat.isDigit_of_mem_toDigits (by decide) (by decide) hc

theorem isLineEnd_of_isDigit {c : Char} (h : c.isDigit = true) : Text.isLineEnd c = false := by
  simp only [Char.isDigit, Bool.and_eq_true, decide_eq_true_eq] at h
  obtain ⟨h1, h2⟩ := h
  have h1' : 48 ≤ c.toNat := h1
  have h2' : c.toNat ≤ 57 := h2
  simp only [Text.isLineEnd, Bool.or_eq_false_iff, Bool.and_eq_false_iff, decide_eq_false_iff_not]
  omega

theorem isLetter_of_isDigit {c : Char} (h : c.isDigit = true) : isLetter c = true := by
  have hne : ∀ d : Char, d.isDigit = false → c ≠ d := by
    rintro d hd rfl
    rw [h] at hd
    cases hd
  simp [isLetter, isGap, Symbol.ofChar?, hne '(' rfl, hne ')' rfl, hne '\x7b' rfl, hne '\x7d' rfl,
    hne '[' rfl, hne ']' rfl, hne ',' rfl, hne ':' rfl, hne ' ' rfl, hne '\t' rfl, hne '\n' rfl,
    hne '\r' rfl, hne '#' rfl]

theorem isWord_toString {v : Int} (h : 0 ≤ v) : IsWord (toString v) := by
  refine ⟨?_, fun c hc => isLetter_of_isDigit (isDigit_of_mem_toString h hc)⟩
  obtain ⟨n, rfl⟩ := Int.eq_ofNat_of_zero_le h
  rw [show (toString (n : Int)).toList = Nat.toDigits 10 n from Nat.toList_repr]
  exact Nat.toDigits_ne_nil

theorem isWord_if : IsWord "if" := ⟨by decide, forall_mem_of_all (by decide)⟩

theorem isWord_else : IsWord "else" := ⟨by decide, forall_mem_of_all (by decide)⟩

/-- Texts with commas between them are read as their lexemes with commas between them. -/
theorem lexemes_commaList {α : Type} {xs : List α} {text : α → List Char} {ls : α → List Lexeme}
    (h : ∀ x ∈ xs, ∀ r, Delimited r → lexemes (text x ++ r) = ls x ++ lexemes r) {r : List Char}
    (hr : Delimited r) :
    lexemes (commaList (xs.map text) ++ r) = commaLexemes (xs.map ls) ++ lexemes r := by
  unfold commaList
  induction xs with
  | nil => rfl
  | cons x xs ih =>
    obtain ⟨hx, hxs⟩ := List.forall_mem_cons.1 h
    cases xs with
    | nil => simp [commaLexemes_singleton, hx r hr]
    | cons y xs =>
      have hcomma := delimited_symbol (c := ',') rfl
      have hrest := ih hxs
      rw [List.map_cons] at hrest
      rw [List.map_cons, List.map_cons, List.intercalate_cons_cons]
      simp only [List.append_assoc, List.cons_append, List.nil_append]
      rw [hx _ (hcomma _), lexemes_symbol rfl, lexemes_gap rfl, hrest]
      simp [commaLexemes_cons_cons]

namespace Expr

/-- The names in an expression, of variables and of functions. -/
def names (e : Expr) : List String := e.variableNames ++ e.callees

@[simp] theorem mem_names_call {loc : Option Location} {f : String} {es : List Expr} {x : String} :
    x ∈ (call loc f es).names ↔ x = f ∨ ∃ e ∈ es, x ∈ e.names := by
  simp only [names, variableNames, callees, variableNamesIn_eq_flatMap, calleesIn_eq_flatMap,
    List.mem_append, List.mem_cons, List.mem_flatMap]
  grind

@[simp] theorem mem_names_branch {loc : Option Location} {c t e : Expr} {x : String} :
    x ∈ (branch loc c t e).names ↔ x ∈ c.names ∨ x ∈ t.names ∨ x ∈ e.names := by
  simp only [names, variableNames, callees, List.mem_append]
  grind

/-- The characters of a layout have a property if those of the names in the tree, the digits and
the signs of layouts have it. -/
theorem forall_mem_layout {q : Char → Prop} (hsigns : ∀ c ∈ layoutChars, q c)
    (hdigits : ∀ c, c.isDigit = true → q c) (e : Expr) (he : e.SpellableBlock)
    (hnames : ∀ x ∈ e.names, ∀ c ∈ x.toList, q c) : ∀ c ∈ e.layout, q c := by
  have hbraced : ∀ text, (∀ c ∈ text, q c) → ∀ c ∈ bracedBlock text, q c := by
    intro text htext c hc
    rcases mem_bracedBlock hc with hc | hc
    · exact hsigns c hc
    rcases Text.mem_indent hc with rfl | rfl | ⟨hc, -⟩
    · exact hsigns _ (by decide)
    · exact hsigns _ (by decide)
    · exact htext c hc
  have hsign : ∀ text : String, text.toList ⊆ layoutChars → ∀ c ∈ text.toList, q c :=
    fun text h c hc => hsigns c (h hc)
  induction e using Expr.induction with
  | empty => simp [layout]
  | literal loc v =>
    intro c hc
    exact hdigits c (isDigit_of_mem_toString (he.spellable rfl).1 hc)
  | var loc x => exact hnames x (by simp [names, variableNames])
  | call loc f es ih =>
    have hes := spellableAll_iff.1 (he.spellable rfl).2.2
    intro c hc
    simp only [layout, layouts_eq_map, List.mem_append, List.mem_cons] at hc
    rcases hc with hc | rfl | hc | hc
    · exact hnames f (by simp) c hc
    · exact hsigns _ (by decide)
    · rcases mem_commaList hc with hc | ⟨text, htext, hc⟩
      · exact hsigns c hc
      · obtain ⟨e, he, rfl⟩ := List.mem_map.1 htext
        exact ih e he (.inr (hes e he))
          (fun x hx => hnames x (mem_names_call.2 (.inr ⟨e, he, hx⟩))) c hc
    · obtain rfl : c = ')' := by simpa using hc
      exact hsigns _ (by decide)
  | branch loc c t e ihc iht ihe =>
    obtain ⟨hc, ht, he⟩ := he.spellable rfl
    have hqc := ihc (.inr hc) fun x hx => hnames x (mem_names_branch.2 (.inl hx))
    have hqt := hbraced _ (iht ht fun x hx => hnames x (mem_names_branch.2 (.inr (.inl hx))))
    have hqe := hbraced _ (ihe he fun x hx => hnames x (mem_names_branch.2 (.inr (.inr hx))))
    intro x hx
    simp only [layout, List.mem_append, List.mem_cons] at hx
    rcases hx with ((hx | hx) | rfl | hx) | hx
    · exact hsign "if " (by decide) x hx
    · exact hqc x hx
    · exact hsigns _ (by decide)
    · exact hqt x hx
    · split at hx
      · simp at hx
      · rcases List.mem_append.1 hx with hx | hx
        · exact hsign " else " (by decide) x hx
        · exact hqe x hx
  | stray => exact (he.spellable rfl).elim

theorem isWord_of_mem_names (e : Expr) (he : e.SpellableBlock) : ∀ x ∈ e.names, IsWord x := by
  induction e using Expr.induction with
  | empty | literal => simp [names, variableNames, callees]
  | var loc x =>
    intro y hy
    obtain rfl : y = x := by simpa [names, variableNames, callees] using hy
    exact (he.spellable rfl).1
  | call loc f es ih =>
    obtain ⟨hf, -, hes⟩ := he.spellable rfl
    intro x hx
    rcases mem_names_call.1 hx with rfl | ⟨e, hmem, hx⟩
    · exact hf
    · exact ih e hmem (.inr (spellableAll_iff.1 hes e hmem)) x hx
  | branch loc c t e ihc iht ihe =>
    obtain ⟨hc, ht, he⟩ := he.spellable rfl
    intro x hx
    rcases mem_names_branch.1 hx with hx | hx | hx
    · exact ihc (.inr hc) x hx
    · exact iht ht x hx
    · exact ihe he x hx
  | stray => exact (he.spellable rfl).elim

/-- The characters of a layout are its signs and letters. -/
theorem mem_layout {e : Expr} (he : e.SpellableBlock) {c : Char} (h : c ∈ e.layout) :
    c ∈ layoutChars ∨ isLetter c = true := by
  refine forall_mem_layout (q := fun c => c ∈ layoutChars ∨ isLetter c = true) ?_ ?_ e he ?_ c h
  · exact fun c hc => .inl hc
  · exact fun c hc => .inr (isLetter_of_isDigit hc)
  · exact fun x hx c hc => .inr ((isWord_of_mem_names e he x hx).2 c hc)

/-- No name in the expression holds a line end. -/
def Unbroken (e : Expr) : Prop := ∀ x ∈ e.names, ∀ c ∈ x.toList, c ∉ Text.wordLineEnds

/-- The line ends in the layout of an unbroken expression are newlines. -/
theorem Unbroken.isLineEnd_layout {e : Expr} (hn : e.Unbroken) (he : e.SpellableBlock) :
    ∀ c ∈ e.layout, Text.isLineEnd c = true → c = '\n' := by
  refine forall_mem_layout (forall_mem_of_all (by decide)) ?_ e he ?_
  · intro c hd hend
    rw [isLineEnd_of_isDigit hd] at hend
    cases hend
  · intro x hx c hc hend
    rcases Text.mem_wordLineEnds hend with rfl | rfl | h
    · rfl
    · -- a carriage return is no letter
      exact absurd ((isWord_of_mem_names e he x hx).2 _ hc) (by decide)
    · exact absurd h (hn x hx c hc)

/-! ## The lexemes of a layout -/

/-- Wherever its layout stands, the expression is read as its canonical lexemes. -/
def LaidOut (e : Expr) : Prop :=
  ∀ r, Delimited r → Wordlet.lexemes (e.layout ++ r) = e.lexemes ++ Wordlet.lexemes r

theorem LaidOut.block {t : Expr} (h : t.Spellable → t.LaidOut) (ht : t.SpellableBlock)
    (hn : t.Unbroken) (r : List Char) : Wordlet.lexemes (bracedBlock t.layout ++ r) =
      .symbol .openBrace :: (t.lexemes ++ .symbol .closeBrace :: Wordlet.lexemes r) := by
  have hlaid : t.LaidOut := by
    rcases ht with ht | ht
    · obtain ⟨loc, rfl⟩ := eq_empty_of_isEmpty ht
      exact fun r _ => rfl
    · exact h ht
  -- the closing brace stands on a line of its own
  have hr : Delimited ('\n' :: '\x7d' :: r) := delimited_gap rfl _
  simp only [bracedBlock, List.cons_append, List.append_assoc, List.nil_append]
  rw [lexemes_symbol rfl, lexemes_gap rfl, Text.lexemes_indent (hn.isLineEnd_layout ht) hr,
    hlaid _ hr, lexemes_gap rfl, lexemes_symbol rfl]

theorem lexemes_if (r : List Char) :
    Wordlet.lexemes ("if ".toList ++ r) = .word "if" :: Wordlet.lexemes r := by
  have hspace : Delimited (' ' :: r) := delimited_gap rfl r
  rw [← lexemes_gap (c := ' ') rfl r]
  exact lexemes_word isWord_if hspace

theorem lexemes_else (r : List Char) :
    Wordlet.lexemes (" else ".toList ++ r) = .word "else" :: Wordlet.lexemes r := by
  have hspace : Delimited (' ' :: r) := delimited_gap rfl r
  rw [← lexemes_gap (c := ' ') rfl r]
  exact (lexemes_gap rfl _).trans (lexemes_word isWord_else hspace)

/-- **The layout of an expression is read as its canonical lexemes** if no name in it holds a line
end. -/
theorem laidOut_of_unbroken (e : Expr) (he : e.Spellable) (hn : e.Unbroken) : e.LaidOut := by
  induction e using Expr.induction with
  | empty => exact he.elim
  | literal loc v => exact fun r hr => lexemes_word (isWord_toString he.1) hr
  | var loc x => exact fun r hr => lexemes_word he.1 hr
  | call loc f es ih =>
    obtain ⟨hf, -, hes⟩ := he
    have hargs : ∀ e ∈ es, e.LaidOut := by
      intro e hmem
      exact ih e hmem (spellableAll_iff.1 hes e hmem) fun x hx =>
        hn x (mem_names_call.2 (.inr ⟨e, hmem, hx⟩))
    have hopen := delimited_symbol (c := '(') rfl
    have hclose := delimited_symbol (c := ')') rfl
    intro r hr
    simp only [layout, layouts_eq_map, lexemes, lexemesAll_eq_map, List.append_assoc,
      List.cons_append, List.nil_append]
    rw [lexemes_word hf (hopen _), lexemes_symbol rfl, lexemes_commaList hargs (hclose _),
      lexemes_symbol rfl]
  | branch loc c t e ihc iht ihe =>
    obtain ⟨hc, ht, he⟩ := he
    have hnc : c.Unbroken := fun x hx => hn x (mem_names_branch.2 (.inl hx))
    have hnt : t.Unbroken := fun x hx => hn x (mem_names_branch.2 (.inr (.inl hx)))
    have hne : e.Unbroken := fun x hx => hn x (mem_names_branch.2 (.inr (.inr hx)))
    have hspace := delimited_gap (c := ' ') rfl
    intro r hr
    simp only [layout, lexemes, List.append_assoc, List.cons_append]
    rw [lexemes_if, ihc hc hnc _ (hspace _), lexemes_gap rfl, LaidOut.block (iht · hnt) ht hnt]
    -- neither the layout nor the lexemes have an `else` before an empty block
    split
    · simp
    · rw [List.append_assoc, lexemes_else, LaidOut.block (ihe · hne) he hne]
      simp
  | stray => exact he.elim

/-- A spellable expression has no node that is none. -/
theorem stray?_of_spellable (e : Expr) (he : e.SpellableBlock) : e.stray? = none := by
  induction e using Expr.induction with
  | empty | literal | var => rfl
  | call loc f es ih =>
    have hes := spellableAll_iff.1 (he.spellable rfl).2.2
    rw [stray?, strayIn?_eq_findSome?, List.findSome?_eq_none_iff]
    intro e hmem
    exact ih e hmem (.inr (hes e hmem))
  | branch loc c t e ihc iht ihe =>
    obtain ⟨hc, ht, he⟩ := he.spellable rfl
    rw [stray?, ihc (.inr hc), iht ht, ihe he]
    rfl
  | stray => exact (he.spellable rfl).elim

end Expr

/-! ## Definitions and programs -/

theorem Definition.lexemes_layout {d : Definition} (hd : d.Spellable) (hn : d.body.Unbroken)
    (r : List Char) : Wordlet.lexemes (d.layout ++ r) = d.lexemes ++ Wordlet.lexemes r := by
  obtain ⟨hname, hps, hbody⟩ := hd
  have hopen := delimited_symbol (c := '(') rfl
  have hclose := delimited_symbol (c := ')') rfl
  have hblock := Expr.LaidOut.block (fun h => d.body.laidOut_of_unbroken h hn) hbody hn r
  have hparams : ∀ p ∈ d.parameters, ∀ r, Delimited r →
      Wordlet.lexemes (p.name.toList ++ r) = [.word p.name] ++ Wordlet.lexemes r :=
    fun p hp r hr => lexemes_word (hps p hp) hr
  rw [layout, show ")".toList = [')'] from rfl]
  simp only [lexemes, List.append_assoc, List.cons_append, List.nil_append]
  rw [lexemes_word hname (hopen _), lexemes_symbol rfl, lexemes_commaList hparams (hclose _),
    lexemes_symbol rfl, lexemes_gap rfl, hblock]

namespace Program

theorem lexemes_definitions {ds : List Definition}
    (h : ∀ d ∈ ds, d.Spellable ∧ d.body.Unbroken) :
    Wordlet.lexemes (List.intercalate ['\n', '\n'] (ds.map Definition.layout)) =
      ds.flatMap Definition.lexemes := by
  induction ds with
  | nil => rfl
  | cons d ds ih =>
    obtain ⟨⟨hd, hn⟩, hds⟩ := List.forall_mem_cons.1 h
    cases ds with
    | nil =>
      have hone := Definition.lexemes_layout hd hn []
      simpa using hone
    | cons d' ds =>
      rw [List.map_cons, List.map_cons, List.intercalate_cons_cons]
      simp only [List.append_assoc, List.cons_append, List.nil_append]
      rw [Definition.lexemes_layout hd hn, lexemes_gap rfl, lexemes_gap rfl, ← List.map_cons,
        ih hds]
      rfl

/-- **The layout of a program is read as its canonical lexemes** if no name in a body holds a line
end. -/
theorem lexemes_layout {p : Program} (hp : ∀ d ∈ p.definitions, d.Spellable)
    (hn : ∀ d ∈ p.definitions, d.body.Unbroken) : Wordlet.lexemes p.layout = p.lexemes :=
  lexemes_definitions fun d hd => ⟨hp d hd, hn d hd⟩

/-- **A spellable program can be formatted.** -/
theorem format_eq {p : Program} (hp : ∀ d ∈ p.definitions, d.Spellable) :
    p.format = .ok (String.ofList p.layout) := by
  have hnone : p.definitions.findSome? (·.body.stray?) = none := by
    rw [List.findSome?_eq_none_iff]
    intro d hd
    exact d.body.stray?_of_spellable (hp d hd).2.2
  unfold format
  rw [hnone]

end Program

end Wordlet
