import Mathlib.Data.List.Chain
import Wordlet.Proofs.Lines

/-!
# Brace depth

The lines of a canonical text are a run of a counter. `Text.Indented n lines m` reads them one after
the other, with `n` braces open before the first and `m` after the last, and asks of each line what
the rules of the layout ask at its depth (`Text.Ruled`). Runs follow one another, and moving in
takes a run one deeper.

A tree is laid out by putting the texts of its parts behind each other. Where a part ends and the
next begins in the middle of a line, the two lines become one, which has the indentation of the
first: so `Text.WellLaid` keeps, beside the run from 0 to 0, what the ends of a text must be for
that.

* `Text.Indented.ruled`: **every line of a run** follows the rules at the number of braces open
  before it.
* `Text.WellLaid.join`, `Text.WellLaid.braced`: **the two steps of the layout**, on lines.
* `Text.Laid.append`, `Text.Laid.block`: the same on texts.
* `Text.Complete.append`: texts with an empty line between them.
-/

namespace Wordlet

namespace Text

open Wordlet.Digraph (joinLines)

/-! ## The rules for a line -/

/-- The number of tabs at the front of a line. -/
def leadingTabs (line : List Char) : Nat := (line.takeWhile (· = '\t')).length

/-- A line without the tabs at its front. -/
def content (line : List Char) : List Char := line.dropWhile (· = '\t')

/-- A line that begins, after its tabs, with a closing brace. -/
def BeginsClosing (line : List Char) : Prop := (content line).head? = some '\x7d'

instance (line : List Char) : Decidable (BeginsClosing line) :=
  inferInstanceAs (Decidable (_ = _))

/-- A line that ends with an opening brace. -/
def EndsOpening (line : List Char) : Prop := line.getLast? = some '\x7b'

/-- The rules for a line before which `depth` braces are open. -/
structure Ruled (depth : Nat) (line : List Char) : Prop where
  /-- An opening brace is the last character of its line. -/
  opening : '\x7b' ∉ line.dropLast
  /-- A closing brace is the first character after the tabs. -/
  closing : '\x7d' ∉ (content line).tail
  /-- The tabs are as many as the open braces, one less if the line begins with a closing one. -/
  indented : line ≠ [] → leadingTabs line + (if BeginsClosing line then 1 else 0) = depth

/-- The rule for two lines that follow each other: the line before an empty one opens a block and
the line after it closes one. -/
structure Neighbours (line next : List Char) : Prop where
  before : next = [] → EndsOpening line
  after : line = [] → BeginsClosing next

/-- The lines around an empty line are the braces of a block. -/
def InEmptyBlock (before after : List (List Char)) : Prop :=
  (∃ line ∈ before.getLast?, EndsOpening line) ∧ ∃ line ∈ after.head?, BeginsClosing line

variable {n m k depth : Nat} {line next a b : List Char} {lines lines' : List (List Char)}

theorem leadingTabs_cons {c : Char} (h : c ≠ '\t') (cs : List Char) :
    leadingTabs (c :: cs) = 0 := by
  simp [leadingTabs, h]

theorem content_cons {c : Char} (h : c ≠ '\t') (cs : List Char) : content (c :: cs) = c :: cs := by
  simp [content, h]

theorem leadingTabs_tab (cs : List Char) : leadingTabs ('\t' :: cs) = leadingTabs cs + 1 := by
  simp [leadingTabs]

theorem content_tab (cs : List Char) : content ('\t' :: cs) = content cs := by
  simp [content]

theorem beginsClosing_tab (cs : List Char) : BeginsClosing ('\t' :: cs) ↔ BeginsClosing cs := by
  unfold BeginsClosing
  rw [content_tab]

/-- A line that something may be put behind: it is not indented and opens no block. -/
structure Continuable (line : List Char) : Prop where
  front : ∃ c cs, line = c :: cs ∧ c ≠ '\t'
  opening : '\x7b' ∉ line

theorem Continuable.ne_nil (h : Continuable line) : line ≠ [] := by
  obtain ⟨c, cs, rfl, -⟩ := h.front
  exact List.cons_ne_nil c cs

theorem Continuable.append (ha : Continuable a) (hb : Continuable b) : Continuable (a ++ b) := by
  obtain ⟨⟨c, cs, rfl, hc⟩, hopen⟩ := ha
  exact ⟨⟨c, cs ++ b, rfl, hc⟩, List.not_mem_append hopen hb.opening⟩

theorem Continuable.beginsClosing_append (h : Continuable a) (b : List Char) :
    BeginsClosing (a ++ b) ↔ BeginsClosing a := by
  obtain ⟨c, cs, rfl, hc⟩ := h.front
  unfold BeginsClosing
  rw [List.cons_append, content_cons hc, content_cons hc]
  rfl

/-- **Two lines made one.** The rules hold at the depth of the first, if the second has no closing
brace, which would not be at the front any more. -/
theorem Ruled.append (ha : Ruled n a) (hb : Ruled m b) (hfront : Continuable a)
    (hclose : '\x7d' ∉ b) : Ruled n (a ++ b) := by
  obtain ⟨hopening, hclosing, hindented⟩ := ha
  refine ⟨?_, ?_, fun _ => ?_⟩
  · rw [List.dropLast_append]
    split
    · exact hopening
    · rw [List.mem_append, not_or]
      exact ⟨hfront.opening, hb.opening⟩
  · obtain ⟨c, cs, rfl, hc⟩ := hfront.front
    rw [content_cons hc, List.tail_cons] at hclosing
    rw [List.cons_append, content_cons hc, List.tail_cons, List.mem_append, not_or]
    exact ⟨hclosing, hclose⟩
  · have hind := hindented hfront.ne_nil
    rw [if_congr (hfront.beginsClosing_append b) rfl rfl]
    obtain ⟨c, cs, rfl, hc⟩ := hfront.front
    rw [leadingTabs_cons hc] at hind
    rw [List.cons_append, leadingTabs_cons hc]
    exact hind

/-- An empty line may stand anywhere. -/
theorem Ruled.nil (n : Nat) : Ruled n [] := ⟨by decide, by decide, fun hne => absurd rfl hne⟩

/-- A line that is moved in stands one deeper. -/
theorem Ruled.indentLine (h : Ruled n line) : Ruled (n + 1) (indentLine line) := by
  cases line with
  | nil => exact .nil (n + 1)
  | cons c cs =>
    have hmoved : Text.indentLine (c :: cs) = '\t' :: c :: cs := rfl
    obtain ⟨hopening, hclosing, hindented⟩ := h
    have hind := hindented (List.cons_ne_nil c cs)
    rw [hmoved]
    refine ⟨?_, ?_, fun _ => ?_⟩
    · rw [List.dropLast_cons_of_ne_nil (List.cons_ne_nil c cs), List.mem_cons, not_or]
      exact ⟨by decide, hopening⟩
    · rw [content_tab]
      exact hclosing
    · rw [leadingTabs_tab, if_congr (beginsClosing_tab (c :: cs)) rfl rfl]
      omega

/-! ## The rules for lines one after the other -/

/-- **A run of lines.** Each follows the rules at the depth that the lines before it lead to, from
`n` braces open before the first to `m` after the last. -/
inductive Indented : Nat → List (List Char) → Nat → Prop
  | nil (n : Nat) : Indented n [] n
  | cons {n m k : Nat} {line : List Char} {lines : List (List Char)} : Ruled n line →
      line.count '\x7b' + n = line.count '\x7d' + m → Indented m lines k →
      Indented n (line :: lines) k

namespace Indented

theorem append (h : Indented n lines m) (h' : Indented m lines' k) :
    Indented n (lines ++ lines') k := by
  induction h with
  | nil => exact h'
  | cons hline hcount _ ih => exact .cons hline hcount (ih h')

theorem split (h : Indented n (lines ++ lines') k) :
    ∃ m, Indented n lines m ∧ Indented m lines' k := by
  induction lines generalizing n with
  | nil => exact ⟨n, .nil n, h⟩
  | cons line lines ih =>
    cases h with
    | cons hline hcount hrest =>
      obtain ⟨m, hfront, hback⟩ := ih hrest
      exact ⟨m, .cons hline hcount hfront, hback⟩

/-- **The depth counts the braces.** -/
theorem count (h : Indented n lines m) :
    lines.flatten.count '\x7b' + n = lines.flatten.count '\x7d' + m := by
  induction h with
  | nil => rfl
  | cons _ hcount _ ih =>
    rw [List.flatten_cons, List.count_append, List.count_append]
    omega

/-- **The rules hold for each line** at the number of braces open before it. -/
theorem ruled {before after : List (List Char)} (h : Indented 0 (before ++ line :: after) k) :
    ∃ depth, before.flatten.count '\x7b' = before.flatten.count '\x7d' + depth ∧
      Ruled depth line := by
  obtain ⟨depth, hbefore, hline⟩ := h.split
  cases hline with
  | cons hline _ _ => exact ⟨depth, hbefore.count, hline⟩

/-- **Lines that are moved in** make a run one deeper. -/
theorem indentLine (h : Indented n lines m) :
    Indented (n + 1) (lines.map Text.indentLine) (m + 1) := by
  induction h with
  | nil n => exact .nil (n + 1)
  | @cons n m k line lines hline hcount _ ih =>
    have hbraces : ∀ c ≠ '\t', (Text.indentLine line).count c = line.count c := by
      intro c hc
      unfold Text.indentLine
      split
      · rfl
      · exact List.count_cons_of_ne hc.symm
    have hopen := hbraces '\x7b' (by decide)
    have hclose := hbraces '\x7d' (by decide)
    exact .cons hline.indentLine (by omega) ih

/-- **Two runs that share a line.** -/
theorem join {before after : List (List Char)} (h : Indented 0 (before ++ [a]) 0)
    (h' : Indented 0 (b :: after) 0) (hfront : Continuable a) (hclose : '\x7d' ∉ b) :
    Indented 0 (before ++ (a ++ b) :: after) 0 := by
  obtain ⟨n, hbefore, ha⟩ := h.split
  refine hbefore.append ?_
  cases ha with
  | cons hruled hcount hnil =>
    cases hnil
    cases h' with
    | cons hruled' hcount' hafter =>
      refine .cons (hruled.append hruled' hfront hclose) ?_ hafter
      rw [List.count_append, List.count_append]
      omega

end Indented

/-! ## Empty lines -/

theorem Continuable.neighbours_append (hfront : Continuable a) (h : Neighbours line a) :
    Neighbours line (a ++ b) := by
  obtain ⟨-, hafter⟩ := h
  refine ⟨fun hnil => ?_, fun hnil => ?_⟩
  · exact absurd (List.append_eq_nil_iff.1 hnil).1 hfront.ne_nil
  · exact (hfront.beginsClosing_append b).2 (hafter hnil)

theorem Neighbours.append (h : Neighbours b next) (hfront : Continuable a) :
    Neighbours (a ++ b) next := by
  obtain ⟨hbefore, -⟩ := h
  refine ⟨fun hnil => ?_, fun hnil => ?_⟩
  · have hlast : b.getLast? = some '\x7b' := hbefore hnil
    unfold EndsOpening
    rw [List.getLast?_append, hlast]
    rfl
  · exact absurd (List.append_eq_nil_iff.1 hnil).1 hfront.ne_nil

/-- Where two texts share a line, its neighbours are neighbours of a part of it. -/
theorem isChain_join {before after : List (List Char)} (h : (before ++ [a]).IsChain Neighbours)
    (h' : (b :: after).IsChain Neighbours) (hfront : Continuable a) :
    (before ++ (a ++ b) :: after).IsChain Neighbours := by
  obtain ⟨hbefore, -, hline⟩ := List.isChain_append.1 h
  obtain ⟨hnext, hafter⟩ := List.isChain_cons.1 h'
  refine List.isChain_append.2 ⟨hbefore, List.isChain_cons.2 ⟨?_, hafter⟩, ?_⟩
  · intro next hmem
    exact (hnext next hmem).append hfront
  · rintro line hmem _ ⟨⟩
    exact hfront.neighbours_append (hline line hmem a rfl)

theorem Neighbours.indentLine (h : Neighbours line next) :
    Neighbours (indentLine line) (indentLine next) := by
  have hnil : ∀ l, Text.indentLine l = [] → l = [] := by
    intro l hl
    cases l with
    | nil => rfl
    | cons c cs => cases hl
  obtain ⟨hbefore, hafter⟩ := h
  refine ⟨fun hempty => ?_, fun hempty => ?_⟩
  · have hlast : line.getLast? = some '\x7b' := hbefore (hnil next hempty)
    cases line with
    | nil => cases hlast
    | cons c cs => exact (List.getLast?_cons_cons).trans hlast
  · have hbegins := hafter (hnil line hempty)
    cases next with
    | nil => cases hbegins
    | cons c cs => exact (beginsClosing_tab (c :: cs)).2 hbegins

/-- **An empty line that is neither first nor last** is the one line of an empty block. -/
theorem inEmptyBlock {before after : List (List Char)}
    (h : (before ++ [] :: after).IsChain Neighbours) (hb : before ≠ []) (ha : after ≠ []) :
    InEmptyBlock before after := by
  obtain ⟨line, hline⟩ : ∃ line, before.getLast? = some line :=
    ⟨_, List.getLast?_eq_some_getLast hb⟩
  obtain ⟨next, rest, rfl⟩ := List.exists_cons_of_ne_nil ha
  obtain ⟨-, hafter, hbetween⟩ := List.isChain_append.1 h
  have hbefore : Neighbours line [] := hbetween line hline [] rfl
  have hnext : Neighbours [] next := (List.isChain_cons_cons.1 hafter).1
  exact ⟨⟨line, hline, hbefore.before rfl⟩, next, rfl, hnext.after rfl⟩

/-! ## The two steps of the layout -/

/-- **A text that is well laid out**, in lines: its lines follow the rules, and another such text
may stand before it or behind it on the same line. -/
structure WellLaid (lines : List (List Char)) : Prop where
  indented : Indented 0 lines 0
  chain : lines.IsChain Neighbours
  unbroken : Unbroken lines
  nonempty : lines ≠ []
  first : ∀ line ∈ lines.head?, '\x7d' ∉ line
  last : ∀ line ∈ lines.getLast?, Continuable line

namespace WellLaid

variable {a b : List Char} {lines before after : List (List Char)}

theorem getLast?_ne (h : WellLaid lines) : lines.getLast? ≠ some [] := by
  intro hlast
  exact (h.last [] hlast).ne_nil rfl

theorem splitLines_joinLines (h : WellLaid lines) : splitLines (joinLines lines) = lines :=
  Text.splitLines_joinLines h.unbroken h.getLast?_ne

/-- **One text behind the other.** -/
theorem join (h : WellLaid (before ++ [a])) (h' : WellLaid (b :: after)) :
    WellLaid (before ++ (a ++ b) :: after) := by
  have hfront : Continuable a := h.last a (by simp)
  have hclose : '\x7d' ∉ b := h'.first b rfl
  refine ⟨h.indented.join h'.indented hfront hclose, isChain_join h.chain h'.chain hfront,
    h.unbroken.join h'.unbroken, by simp, ?_, ?_⟩
  · intro line hmem
    cases before with
    | nil =>
      obtain rfl : a ++ b = line := by simpa using hmem
      exact List.not_mem_append (h.first a rfl) hclose
    | cons first before => exact h.first line hmem
  · intro line hmem
    cases after with
    | nil =>
      obtain rfl : a ++ b = line := by simpa using hmem
      exact hfront.append (h'.last b rfl)
    | cons next after =>
      rw [List.getLast?_append_of_ne_nil _ (List.cons_ne_nil (a ++ b) _),
        List.getLast?_cons_cons] at hmem
      exact h'.last line (by rw [List.getLast?_cons_cons]; exact hmem)

/-- **Braces around lines** that stand one deeper. -/
theorem braced (h : Indented 1 lines 1) (hchain : lines.IsChain Neighbours)
    (hunbroken : Unbroken lines) : WellLaid (['\x7b'] :: (lines ++ [['\x7d']])) := by
  have hopen : Ruled 0 ['\x7b'] := ⟨by decide, by decide, by decide⟩
  have hclose : Ruled 1 ['\x7d'] := ⟨by decide, by decide, by decide⟩
  have hfirst (line : List Char) : Neighbours ['\x7b'] line :=
    ⟨fun _ => rfl, fun hnil => absurd hnil (List.cons_ne_nil _ _)⟩
  have hlast (line : List Char) : Neighbours line ['\x7d'] :=
    ⟨fun hnil => absurd hnil (List.cons_ne_nil _ _), fun _ => rfl⟩
  refine ⟨?_, ?_, ?_, List.cons_ne_nil _ _, ?_, ?_⟩
  · have hend : Indented 1 [['\x7d']] 0 := .cons hclose rfl (.nil 0)
    exact .cons hopen rfl (h.append hend)
  · refine List.isChain_cons.2 ⟨fun line _ => hfirst line, List.isChain_append.2 ⟨hchain, ?_, ?_⟩⟩
    · exact List.isChain_singleton _
    · rintro line - _ ⟨⟩
      exact hlast line
  · unfold Unbroken at hunbroken ⊢
    have hbrace : ∀ c ∈ ['\x7d'], isLineEnd c = false := List.forall_mem_singleton.2 rfl
    rw [List.forall_mem_cons, List.forall_mem_append]
    exact ⟨List.forall_mem_singleton.2 rfl, hunbroken, List.forall_mem_singleton.2 hbrace⟩
  · rintro _ ⟨⟩
    decide
  · intro line hmem
    rw [← List.cons_append, List.getLast?_concat] at hmem
    cases hmem
    exact ⟨⟨'\x7d', [], rfl, by decide⟩, by decide⟩

end WellLaid

/-- A character that is no tab, no brace and no line end. -/
def IsPlain (c : Char) : Prop := c ≠ '\t' ∧ c ≠ '\x7b' ∧ c ≠ '\x7d' ∧ isLineEnd c = false

instance : DecidablePred IsPlain := fun _ => inferInstanceAs (Decidable (_ ∧ _))

theorem isPlain_of_isLetter {c : Char} (h : isLetter c = true) (hend : c ∉ Text.wordLineEnds) :
    IsPlain c := by
  have hne : ∀ d, isLetter d = false → c ≠ d := by
    rintro d hd rfl
    rw [h] at hd
    cases hd
  refine ⟨hne '\t' rfl, hne '\x7b' rfl, hne '\x7d' rfl, ?_⟩
  by_contra hc
  rcases mem_wordLineEnds (by simpa using hc) with hc | hc | hc
  · exact hne '\n' rfl hc
  · exact hne '\r' rfl hc
  · exact hend hc

/-- A line without indentation, braces and line ends. -/
theorem wellLaid_plain {line : List Char} (h : ∀ c ∈ line, IsPlain c) (hne : line ≠ []) :
    WellLaid [line] := by
  have hopen : '\x7b' ∉ line := fun hm => (h _ hm).2.1 rfl
  have hclose : '\x7d' ∉ line := fun hm => (h _ hm).2.2.1 rfl
  obtain ⟨c, cs, rfl⟩ := List.exists_cons_of_ne_nil hne
  have htab : c ≠ '\t' := (h c (.head _)).1
  have hcount : (c :: cs).count '\x7b' + 0 = (c :: cs).count '\x7d' + 0 := by
    rw [List.count_eq_zero_of_not_mem hopen, List.count_eq_zero_of_not_mem hclose]
  have hruled : Ruled 0 (c :: cs) := by
    refine ⟨fun hm => hopen (List.dropLast_subset _ hm), fun hm => ?_, fun _ => ?_⟩
    · rw [content_cons htab] at hm
      exact hclose (List.mem_of_mem_tail hm)
    · have hbegins : ¬BeginsClosing (c :: cs) := by
        unfold BeginsClosing
        rw [content_cons htab, List.head?_cons, Option.some_inj]
        exact (h c (.head _)).2.2.1
      rw [leadingTabs_cons htab, if_neg hbegins]
  refine ⟨.cons hruled hcount (.nil 0), List.isChain_singleton _, ?_, List.cons_ne_nil _ _, ?_, ?_⟩
  · intro line hline x hx
    obtain rfl := List.mem_singleton.1 hline
    exact (h x hx).2.2.2
  · rintro _ ⟨⟩
    exact hclose
  · rintro _ ⟨⟩
    exact ⟨⟨c, cs, rfl, htab⟩, hopen⟩

/-- The text of lines that are well laid out. -/
def Laid (text : List Char) : Prop := ∃ lines, WellLaid lines ∧ text = joinLines lines

theorem Laid.plain {text : List Char} (h : ∀ c ∈ text, IsPlain c) (hne : text ≠ []) :
    Laid text :=
  ⟨[text], wellLaid_plain h hne, by simp [joinLines]⟩

/-- **Texts behind each other** are laid out as they were. -/
theorem Laid.append {text text' : List Char} (h : Laid text) (h' : Laid text') :
    Laid (text ++ text') := by
  obtain ⟨lines, hlines, rfl⟩ := h
  obtain ⟨lines', hlines', rfl⟩ := h'
  obtain ⟨before, a, rfl⟩ := (List.eq_nil_or_concat' lines).resolve_left hlines.nonempty
  obtain ⟨b, after, rfl⟩ := List.exists_cons_of_ne_nil hlines'.nonempty
  exact ⟨_, hlines.join hlines', joinLines_append_joinLines before a b after⟩

/-- **A block** stands in lines of its own between its braces. -/
theorem exists_lines_bracedBlock {text : List Char} (h : text = [] ∨ Laid text) :
    ∃ body, WellLaid (['\x7b'] :: (body ++ [['\x7d']])) ∧
      bracedBlock text = joinLines (['\x7b'] :: (body ++ [['\x7d']])) := by
  rcases h with rfl | ⟨lines, hlines, rfl⟩
  · refine ⟨[[]], WellLaid.braced (.cons (.nil 1) rfl (.nil 1)) ?_ ?_, bracedBlock_nil⟩
    · exact List.isChain_singleton _
    · exact List.forall_mem_singleton.2 nofun
  · refine ⟨lines.map indentLine, WellLaid.braced hlines.indented.indentLine ?_ ?_, ?_⟩
    · exact (List.isChain_map indentLine).2 (hlines.chain.imp fun _ _ h => h.indentLine)
    · exact hlines.unbroken.indentLine
    · exact bracedBlock_joinLines hlines.unbroken hlines.getLast?_ne hlines.nonempty

theorem Laid.block {text : List Char} (h : text = [] ∨ Laid text) : Laid (bracedBlock text) := by
  obtain ⟨body, hbody, heq⟩ := exists_lines_bracedBlock h
  exact ⟨_, hbody, heq⟩

/-- Texts with commas between them go on a text as they are. -/
theorem Laid.append_commaList {text : List Char} {texts : List (List Char)} (h : Laid text)
    (htexts : ∀ t ∈ texts, Laid t) : Laid (text ++ commaList texts) := by
  have hcomma : Laid [',', ' '] := .plain (forall_mem_of_all (by decide)) (by decide)
  induction texts generalizing text with
  | nil => simpa [commaList] using h
  | cons t texts ih =>
    obtain ⟨ht, hrest⟩ := List.forall_mem_cons.1 htexts
    cases texts with
    | nil => simpa [commaList] using h.append ht
    | cons t' texts =>
      have hnext := ih ((h.append ht).append hcomma) hrest
      unfold commaList at hnext ⊢
      rw [List.intercalate_cons_cons]
      simpa only [List.append_assoc] using hnext

/-! ## Texts after each other -/

/-- **A text of whole functions**, in lines: they follow the rules, and the last is not empty. -/
structure Complete (lines : List (List Char)) : Prop where
  indented : Indented 0 lines 0
  unbroken : Unbroken lines
  nonempty : lines ≠ []
  ended : lines.getLast? ≠ some []

theorem WellLaid.complete {lines : List (List Char)} (h : WellLaid lines) : Complete lines :=
  ⟨h.indented, h.unbroken, h.nonempty, h.getLast?_ne⟩

/-- **Two such texts** with an empty line between them. -/
theorem Complete.append {lines lines' : List (List Char)} (h : Complete lines)
    (h' : Complete lines') : Complete (lines ++ [[]] ++ lines') := by
  have hempty : Indented 0 [[]] 0 := .cons (.nil 0) rfl (.nil 0)
  refine ⟨(h.indented.append hempty).append h'.indented, ?_, ?_, ?_⟩
  · have hleft := h.unbroken
    have hright := h'.unbroken
    unfold Unbroken at hleft hright ⊢
    rw [List.forall_mem_append, List.forall_mem_append, List.forall_mem_singleton]
    exact ⟨⟨hleft, nofun⟩, hright⟩
  · exact List.append_ne_nil_of_right_ne_nil _ h'.nonempty
  · rw [List.getLast?_append_of_ne_nil _ h'.nonempty]
    exact h'.ended

end Text

end Wordlet
