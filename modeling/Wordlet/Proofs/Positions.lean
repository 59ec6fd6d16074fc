import Mathlib.Algebra.GroupWithZero.Nat
import Mathlib.Data.List.DropRight
import Wordlet.Proofs.Lexemes

/-!
# Where tokens stand

A scan moves its column over a word only when the word has ended, and counts every character of a
comment as one column. Still every token stands where the text before it says: its line counts the
newlines before it, and its column adds up the widths of the characters since the last of them.

* `Location.after`: the place that follows a text.
* `lexemeAt?`: the lexeme that begins at some place of a text, said of the characters around it.
* `Scan.At.push`: **the state of a scan agrees with the text it has read**, one character after the
  other.
* `Token.scan_eq_filterMap`: the tokens of a text are those that begin at its offsets.
* `Location.after_lt`: a token takes a column, so what begins later stands later.
* `Token.scan_locations`: **tokens stand at their true places**, each after the one before.
-/

namespace Wordlet

/-! ## Places -/

/-- The characters after the last newline of a text. -/
def lastLine (cs : List Char) : List Char := cs.rtakeWhile (· ≠ '\n')

/-- The columns that a character takes. -/
def width (c : Char) : Nat := if c = '\t' then 4 else if c = '\r' then 0 else 1

/-- The place that follows the text `before`: one line after each newline, and as many columns as
its last line is wide. -/
def Location.after (path : String) (before : List Char) : Location :=
  ⟨path, (1 + before.count '\n' : Nat), (1 + ((lastLine before).map width).sum : Nat)⟩

/-- The place `l` is before the place `m`: on an earlier line, or on the same line in an earlier
column. -/
def Location.Before (l m : Location) : Prop :=
  l.line < m.line ∨ l.line = m.line ∧ l.column < m.column

/-- The lexeme that begins with the first character of `rest`, after the text `before`. None does
while a comment is open, which is the case if the line has a `#`. Otherwise a symbol begins a
lexeme, and so does a letter that follows no letter: it begins the word of all letters from there
on. -/
def lexemeAt? (before rest : List Char) : Option Lexeme :=
  match rest with
  | [] => none
  | c :: cs =>
    if '#' ∈ lastLine before then none
    else
      match Symbol.ofChar? c with
      | some s => some (.symbol s)
      | none =>
        if isLetter c && !before.getLast?.any isLetter then
          some (.word (String.ofList ((c :: cs).takeWhile isLetter)))
        else none

@[simp] theorem lastLine_nil : lastLine [] = [] := rfl

@[simp] theorem lastLine_newline (cs : List Char) : lastLine (cs ++ ['\n']) = [] :=
  List.rtakeWhile_concat_neg _ _ _ (by simp)

theorem lastLine_concat (cs : List Char) {c : Char} (hc : c ≠ '\n') :
    lastLine (cs ++ [c]) = lastLine cs ++ [c] :=
  List.rtakeWhile_concat_pos _ _ _ (by simpa using hc)

/-- As long as no newline comes, the line goes on. -/
theorem lastLine_append {cs ds : List Char} (h : '\n' ∉ ds) :
    lastLine (cs ++ ds) = lastLine cs ++ ds := by
  induction ds using List.reverseRecOn with
  | nil => simp
  | append_singleton ds d ih =>
    simp only [List.mem_append, List.mem_singleton, not_or] at h
    rw [← List.append_assoc, lastLine_concat _ (Ne.symm h.2), ih h.1, List.append_assoc]

/-- Only a newline begins a line. -/
theorem count_newline_concat (cs : List Char) {c : Char} (hc : c ≠ '\n') :
    (cs ++ [c]).count '\n' = cs.count '\n' := by
  have hcount : [c].count '\n' = 0 := List.count_eq_zero.2 (by simpa using Ne.symm hc)
  rw [List.count_append, hcount, Nat.add_zero]

/-- A character widens its line by its own width. -/
theorem sum_width_concat (cs : List Char) {c : Char} (hc : c ≠ '\n') :
    ((lastLine (cs ++ [c])).map width).sum = ((lastLine cs).map width).sum + width c := by
  rw [lastLine_concat cs hc, List.map_append, List.sum_append]
  simp

theorem not_isLetter_newline : isLetter '\n' = false := rfl

theorem not_isLetter_of_symbol {c : Char} {s : Symbol} (h : Symbol.ofChar? c = some s) :
    isLetter c = false := by
  simp [isLetter, h]

theorem not_isLetter_of_gap {c : Char} (h : isGap c = true) : isLetter c = false := by
  simp [isLetter, h]

theorem width_of_symbol {c : Char} {s : Symbol} (h : Symbol.ofChar? c = some s) : width c = 1 := by
  have htab : c ≠ '\t' := by rintro rfl; cases h
  have hreturn : c ≠ '\r' := by rintro rfl; cases h
  simp [width, htab, hreturn]

theorem width_of_isLetter {c : Char} (h : isLetter c = true) : width c = 1 := by
  have htab : c ≠ '\t' := by rintro rfl; cases h
  have hreturn : c ≠ '\r' := by rintro rfl; cases h
  simp [width, htab, hreturn]

/-! ## The state of a scan -/

namespace Scan

@[simp] theorem path_endWord (s : Scan) : s.endWord.path = s.path := by
  unfold endWord
  split <;> rfl

@[simp] theorem line_endWord (s : Scan) : s.endWord.line = s.line := by
  unfold endWord
  split <;> rfl

@[simp] theorem column_endWord (s : Scan) : s.endWord.column = s.column + s.pending.length := by
  unfold endWord
  split
  · rename_i h; simp [h]
  · rename_i h; simp [h, advance, emit]

/-- The scan `s` of the text at `path` agrees with the text `before` that it has read. A comment is
open if the line has a `#`, and then no word is pending. Otherwise the pending word is made of the
letters that the text ends with, and the column is where it began. -/
structure At (path : String) (before : List Char) (s : Scan) : Prop where
  path_eq : s.path = path
  line_eq : s.line = 1 + before.count '\n'
  comment_iff : s.inComment = true ↔ '#' ∈ lastLine before
  pending_of_comment : s.inComment = true → s.pending = []
  pending_eq : s.inComment = false → s.pending.reverse = before.rtakeWhile isLetter
  column_eq : s.inComment = false →
    s.column + s.pending.length = 1 + ((lastLine before).map width).sum

theorem at_start (path : String) : At path [] (start path) where
  path_eq := rfl
  line_eq := rfl
  comment_iff := by simp [start]
  pending_of_comment := fun _ => rfl
  pending_eq := fun _ => rfl
  column_eq := fun _ => rfl

section Step

variable {path : String} {before : List Char} {s : Scan}

/-- The place of the next token, once the pending word has ended. -/
theorem At.loc_endWord (h : At path before s) (hs : s.inComment = false) :
    s.endWord.loc = Location.after path before := by
  simp only [loc, path_endWord, line_endWord, column_endWord, h.path_eq, h.line_eq,
    h.column_eq hs, Location.after]

/-- The place where the pending word began. -/
theorem At.loc_of_pending (h : At path before s) (hs : s.inComment = false)
    (hp : s.pending = []) : s.loc = Location.after path before := by
  rw [← h.loc_endWord hs, endWord_of_pending hp]

/-- A newline outside a comment or at its end. -/
theorem At.newline (h : At path before s) {s' : Scan} (hpath : s'.path = s.path)
    (hline : s'.line = s.line + 1) (hcolumn : s'.column = 1) (hpending : s'.pending = [])
    (hcomment : s'.inComment = false) : At path (before ++ ['\n']) s' where
  path_eq := hpath.trans h.path_eq
  line_eq := by
    rw [hline, h.line_eq, List.count_append]
    rfl
  comment_iff := by simp [hcomment]
  pending_of_comment := fun _ => hpending
  pending_eq := fun _ => by
    rw [hpending, List.rtakeWhile_concat_neg _ _ _ (by simp [not_isLetter_newline])]
    rfl
  column_eq := fun _ => by simp [hcolumn, hpending]

/-- Any other character outside a comment that is no letter: the pending word ends, the column moves
past both, and a `#` opens a comment. -/
theorem At.separator (h : At path before s) (hs : s.inComment = false) {c : Char} (hc : c ≠ '\n')
    (hletter : isLetter c = false) {s' : Scan} (hpath : s'.path = s.path)
    (hline : s'.line = s.line) (hcolumn : s'.column = s.column + s.pending.length + width c)
    (hpending : s'.pending = []) (hcomment : s'.inComment = decide (c = '#')) :
    At path (before ++ [c]) s' where
  path_eq := hpath.trans h.path_eq
  line_eq := by rw [hline, h.line_eq, count_newline_concat before hc]
  comment_iff := by
    have hnot : '#' ∉ lastLine before := fun hmem => by simp [h.comment_iff.2 hmem] at hs
    rw [hcomment, lastLine_concat before hc]
    simp [hnot, eq_comm]
  pending_of_comment := fun _ => hpending
  pending_eq := fun _ => by
    rw [hpending, List.rtakeWhile_concat_neg _ _ _ (by simp [hletter])]
    rfl
  column_eq := fun _ => by
    have hbefore := h.column_eq hs
    rw [hcolumn, hpending, sum_width_concat before hc, List.length_nil]
    omega

/-- A letter outside a comment. -/
theorem At.letter (h : At path before s) (hs : s.inComment = false) {c : Char}
    (hletter : isLetter c = true) :
    At path (before ++ [c]) { s with pending := c :: s.pending } := by
  have hc : c ≠ '\n' := by rintro rfl; cases hletter
  have hhash : '#' ≠ c := by rintro rfl; cases hletter
  refine ⟨h.path_eq, ?_, ?_, fun htrue => ?_, fun _ => ?_, fun _ => ?_⟩
  · rw [count_newline_concat before hc]
    exact h.line_eq
  · rw [lastLine_concat before hc]
    simpa [hhash] using h.comment_iff
  · simp [hs] at htrue
  · rw [List.rtakeWhile_concat_pos _ _ _ hletter, ← h.pending_eq hs, List.reverse_cons]
  · have hbefore := h.column_eq hs
    have hwidth := width_of_isLetter hletter
    rw [sum_width_concat before hc, List.length_cons]
    dsimp only
    omega

/-- A character of a comment that does not end it: the column no longer matters. -/
theorem At.comment (h : At path before s) (hs : s.inComment = true) {c : Char} (hc : c ≠ '\n') :
    At path (before ++ [c]) (s.advance 1) where
  path_eq := h.path_eq
  line_eq := by rw [count_newline_concat before hc]; exact h.line_eq
  comment_iff := by
    rw [lastLine_concat before hc]
    simp [advance, hs, h.comment_iff.1 hs]
  pending_of_comment := fun _ => h.pending_of_comment hs
  pending_eq := fun hfalse => by simp [advance, hs] at hfalse
  column_eq := fun hfalse => by simp [advance, hs] at hfalse

theorem push_of_symbol (hs : s.inComment = false) {c : Char} {sym : Symbol}
    (hc : Symbol.ofChar? c = some sym) : s.push c = (s.endWord.emit (.symbol sym)).advance 1 := by
  simp only [push, hs, Bool.false_eq_true, if_false, pushCode, hc]

theorem push_of_gap (hs : s.inComment = false) {c : Char} (hc : isGap c = true) :
    s.push c = if c = '\n' then s.endWord.newline else s.endWord.advance (width c) := by
  have hpush : s.push c = s.pushCode c := by simp [push, hs]
  simp only [isGap, Bool.or_eq_true, decide_eq_true_eq] at hc
  rcases hc with ((rfl | rfl) | rfl) | rfl <;> exact hpush

/-- A carriage return ends the pending word and takes no column. -/
theorem push_return {s : Scan} (hs : s.inComment = false) : s.push '\r' = s.endWord := by
  rw [push_of_gap hs rfl, if_neg (by decide)]
  rfl

/-- In a comment a carriage return takes a column. -/
theorem push_return_of_comment {s : Scan} (hs : s.inComment = true) :
    s.push '\r' = s.advance 1 := by
  rw [push, if_pos hs, pushComment, if_neg (by decide)]

theorem push_of_hash (hs : s.inComment = false) :
    s.push '#' = { s.endWord.advance 1 with inComment := true } := by
  rw [push, hs]
  rfl

/-- **The state of a scan agrees with the text it has read**, one character after the other. -/
theorem At.push (h : At path before s) (c : Char) : At path (before ++ [c]) (s.push c) := by
  cases hs : s.inComment with
  | true =>
    rw [Scan.push, if_pos hs, pushComment]
    split
    · rename_i hc
      rw [hc]
      exact h.newline rfl rfl rfl (h.pending_of_comment hs) rfl
    · rename_i hc
      exact h.comment hs hc
  | false =>
    by_cases hhash : c = '#'
    · rw [hhash, push_of_hash hs]
      exact h.separator hs (by decide) rfl (path_endWord s) (line_endWord s)
        (congrArg (· + 1) (column_endWord s)) (pending_endWord s) rfl
    cases hsym : Symbol.ofChar? c with
    | some sym =>
      have hc : c ≠ '\n' := by rintro rfl; cases hsym
      rw [push_of_symbol hs hsym]
      refine h.separator hs hc (not_isLetter_of_symbol hsym) (path_endWord s) (line_endWord s) ?_
        (pending_endWord s) ?_
      · rw [width_of_symbol hsym]
        exact congrArg (· + 1) (column_endWord s)
      · rw [decide_eq_false hhash]
        exact (inComment_endWord s).trans hs
    | none =>
      cases hgap : isGap c with
      | true =>
        rw [push_of_gap hs hgap]
        split
        · rename_i hc
          rw [hc]
          exact h.newline (path_endWord s) (congrArg (· + 1) (line_endWord s)) rfl
            (pending_endWord s) ((inComment_endWord s).trans hs)
        · rename_i hc
          refine h.separator hs hc (not_isLetter_of_gap hgap) (path_endWord s) (line_endWord s)
            (congrArg (· + width c) (column_endWord s)) (pending_endWord s) ?_
          rw [decide_eq_false hhash]
          exact (inComment_endWord s).trans hs
      | false =>
        rw [push_letter hs hsym hgap hhash]
        exact h.letter hs (by simp [isLetter, hsym, hgap, hhash])

end Step

/-! ## The tokens of a scan -/

/-- The pending word as a token, once it goes on with the letters that `cs` begins with. -/
def pendingToken (s : Scan) (cs : List Char) : List Token :=
  if s.pending = [] then []
  else [⟨.word (String.ofList (s.pending.reverse ++ cs.takeWhile isLetter)), s.loc⟩]

theorem pendingToken_of_nil {s : Scan} (h : s.pending = []) (cs : List Char) :
    s.pendingToken cs = [] := if_pos h

theorem tokens_endWord (s : Scan) :
    s.endWord.tokens.toList = s.tokens.toList ++ s.pendingToken [] := by
  unfold endWord pendingToken
  split
  · rename_i h; simp [h]
  · rename_i h; simp [h, emit, advance, loc]

/-- A character that is no letter ends the pending word. -/
theorem pendingToken_cons {c : Char} (hc : isLetter c = false) (s : Scan) (cs : List Char) :
    s.pendingToken (c :: cs) = s.pendingToken [] := by
  unfold pendingToken
  rw [List.takeWhile_cons_of_neg (by simp [hc]), List.takeWhile_nil]

end Scan

/-- The token that begins with the first character of `rest`, after the text `before`. -/
def tokenAt? (path : String) (before rest : List Char) : Option Token :=
  (lexemeAt? before rest).map (⟨·, Location.after path before⟩)

/-- The tokens that begin in `rest`, after the text `before`: those of its offsets in the whole. -/
def tokensFrom (path : String) (before rest : List Char) : List Token :=
  (List.range' before.length rest.length).filterMap fun i =>
    tokenAt? path ((before ++ rest).take i) ((before ++ rest).drop i)

@[simp] theorem tokensFrom_nil (path : String) (before : List Char) :
    tokensFrom path before [] = [] := rfl

theorem tokensFrom_cons (path : String) (before : List Char) (c : Char) (cs : List Char) :
    tokensFrom path before (c :: cs) =
      (tokenAt? path before (c :: cs)).toList ++ tokensFrom path (before ++ [c]) cs := by
  have hfirst : tokenAt? path ((before ++ c :: cs).take before.length)
      ((before ++ c :: cs).drop before.length) = tokenAt? path before (c :: cs) := by
    rw [List.take_left, List.drop_left]
  have hwhole : before ++ [c] ++ cs = before ++ c :: cs := by simp
  have hlength : (before ++ [c]).length = before.length + 1 := by simp
  rw [tokensFrom, tokensFrom, List.length_cons, List.range'_succ, List.filterMap_cons, hfirst,
    hwhole, hlength]
  cases tokenAt? path before (c :: cs) <;> rfl

/-! One character outside a comment: it begins a token if it is a symbol, or a letter while no word
is pending. -/

section Begin

variable {before : List Char} {c : Char}

theorem lexemeAt?_of_comment (h : '#' ∈ lastLine before) (rest : List Char) :
    lexemeAt? before rest = none := by
  unfold lexemeAt?
  split
  · rfl
  · exact if_pos h

theorem lexemeAt?_symbol (h : '#' ∉ lastLine before) {sym : Symbol}
    (hc : Symbol.ofChar? c = some sym) (cs : List Char) :
    lexemeAt? before (c :: cs) = some (.symbol sym) := by
  simp only [lexemeAt?, if_neg h, hc]

theorem lexemeAt?_separator (hsym : Symbol.ofChar? c = none) (hc : isLetter c = false)
    (cs : List Char) : lexemeAt? before (c :: cs) = none := by
  simp [lexemeAt?, hsym, hc]

theorem lexemeAt?_letter (h : '#' ∉ lastLine before) (hc : isLetter c = true) (cs : List Char) :
    lexemeAt? before (c :: cs) =
      if before.rtakeWhile isLetter = [] then
        some (.word (String.ofList (c :: cs.takeWhile isLetter)))
      else none := by
  have hsym : Symbol.ofChar? c = none := ((inWord_iff c).1 (inWord_of_isLetter hc)).1
  have hfirst : before.getLast?.any isLetter = false ↔ before.rtakeWhile isLetter = [] := by
    cases before using List.reverseRecOn with
    | nil => simp
    | append_singleton before b _ => simp [List.rtakeWhile_concat]
  simp only [lexemeAt?, if_neg h, hsym, hc, Bool.true_and, List.takeWhile_cons, if_true,
    ← hfirst, Bool.not_eq_true']

end Begin

namespace Scan

variable {path : String} {before : List Char} {s : Scan}

/-- **What one character adds**: the token that begins with it, if one does. A word counts from its
first letter on, as the pending one. -/
theorem At.tokens_push (h : At path before s) (c : Char) (cs : List Char) :
    (s.push c).tokens.toList ++ (s.push c).pendingToken cs =
      s.tokens.toList ++ s.pendingToken (c :: cs) ++ (tokenAt? path before (c :: cs)).toList := by
  cases hs : s.inComment with
  | true =>
    have hp := h.pending_of_comment hs
    obtain ⟨-, hpending, -⟩ := push_comment hs c
    have htokens : (s.push c).tokens = s.tokens := by
      rw [Scan.push, if_pos hs, pushComment]
      split <;> rfl
    rw [htokens, pendingToken_of_nil (hpending.trans hp), pendingToken_of_nil hp, tokenAt?,
      lexemeAt?_of_comment (h.comment_iff.1 hs)]
    simp
  | false =>
    have hopen : '#' ∉ lastLine before := fun hmem => by simp [h.comment_iff.2 hmem] at hs
    by_cases hhash : c = '#'
    · have hpending := (push_hash hs).2.1
      rw [hhash, pendingToken_of_nil hpending, push_of_hash hs, pendingToken_cons rfl, tokenAt?,
        lexemeAt?_separator rfl rfl, ← tokens_endWord]
      simp [advance]
    cases hsym : Symbol.ofChar? c with
    | some sym =>
      have hpending := (push_symbol hs hsym).2.1
      rw [pendingToken_of_nil hpending, push_of_symbol hs hsym,
        pendingToken_cons (not_isLetter_of_symbol hsym), tokenAt?, lexemeAt?_symbol hopen hsym,
        ← tokens_endWord, ← h.loc_endWord hs]
      simp [advance, emit]
    | none =>
      cases hgap : isGap c with
      | true =>
        have hpending := (push_gap hs hgap).2.1
        have htokens : (s.push c).tokens = s.endWord.tokens := by
          rw [push_of_gap hs hgap]
          split <;> rfl
        rw [pendingToken_of_nil hpending, htokens, pendingToken_cons (not_isLetter_of_gap hgap),
          tokenAt?, lexemeAt?_separator hsym (not_isLetter_of_gap hgap), ← tokens_endWord]
        simp
      | false =>
        have hletter : isLetter c = true := by simp [isLetter, hsym, hgap, hhash]
        rw [push_letter hs hsym hgap hhash, tokenAt?, lexemeAt?_letter hopen hletter,
          ← h.pending_eq hs]
        by_cases hp : s.pending = []
        · -- the letter begins a word at the present place
          simp [pendingToken, hp, ← h.loc_of_pending hs hp, loc]
        · -- the letter goes on with the pending word
          simp [pendingToken, hp, List.takeWhile_cons_of_pos hletter, loc]

/-- **What a scan reads from a text**: the pending word, and the tokens that begin in the text. -/
theorem At.tokens_foldl (cs : List Char) : ∀ {before : List Char} {s : Scan}, At path before s →
    (cs.foldl Scan.push s).endWord.tokens.toList =
      s.tokens.toList ++ s.pendingToken cs ++ tokensFrom path before cs := by
  induction cs with
  | nil =>
    intro before s _
    rw [List.foldl_nil, tokens_endWord, tokensFrom_nil, List.append_nil]
  | cons c cs ih =>
    intro before s h
    rw [List.foldl_cons, ih (h.push c), h.tokens_push c cs, tokensFrom_cons, List.append_assoc]

end Scan

/-- **The tokens of a text are those that begin at its offsets.** -/
theorem Token.scan_eq_tokensFrom (source path : String) :
    Token.scan source path = tokensFrom path [] source.toList := by
  have h := (Scan.at_start path).tokens_foldl source.toList
  rw [Scan.pendingToken_of_nil (by rfl)] at h
  exact h

/-! ## The order of places -/

/-- **What begins later stands later**, if there is something between that has a width. -/
theorem Location.after_lt (path : String) (before : List Char) {c : Char} (hc : 0 < width c)
    (between : List Char) :
    (Location.after path before).Before (Location.after path (before ++ c :: between)) := by
  unfold Location.Before Location.after
  dsimp only
  by_cases hnewline : '\n' ∈ c :: between
  · left
    have hpos := List.count_pos_iff.2 hnewline
    rw [List.count_append]
    omega
  · right
    have hcount := List.count_eq_zero.2 hnewline
    rw [List.count_append, hcount, lastLine_append hnewline, List.map_append, List.sum_append,
      List.map_cons, List.sum_cons]
    omega

/-- Where a lexeme begins there is a character that has a width. -/
theorem exists_of_lexemeAt? {before rest : List Char} {l : Lexeme}
    (h : lexemeAt? before rest = some l) : ∃ c cs, rest = c :: cs ∧ 0 < width c := by
  cases rest with
  | nil => cases h
  | cons c cs =>
    refine ⟨c, cs, rfl, ?_⟩
    cases hsym : Symbol.ofChar? c with
    | some s => rw [width_of_symbol hsym]; exact Nat.one_pos
    | none =>
      cases hc : isLetter c with
      | true => rw [width_of_isLetter hc]; exact Nat.one_pos
      | false => rw [lexemeAt?_separator hsym hc] at h; cases h

/-- The lexeme that begins somewhere is spelled there. -/
theorem isPrefix_of_lexemeAt? {before rest : List Char} {l : Lexeme}
    (h : lexemeAt? before rest = some l) : l.text.toList <+: rest := by
  unfold lexemeAt? at h
  split at h
  · cases h
  rename_i c cs
  split at h
  · cases h
  split at h
  · rename_i s hsym
    cases h
    have htext : (Lexeme.symbol s).text.toList = [c] := by
      simp [Lexeme.text, Symbol.char_of_ofChar? hsym]
    rw [htext]
    exact List.prefix_append [c] cs
  · split at h
    · cases h
      have htext : (Lexeme.word (String.ofList ((c :: cs).takeWhile isLetter))).text.toList =
          (c :: cs).takeWhile isLetter := String.toList_ofList
      rw [htext]
      exact List.takeWhile_prefix isLetter
    · cases h

theorem Token.scan_pairwise (source path : String) :
    (Token.scan source path).Pairwise fun t u => t.loc.Before u.loc := by
  rw [Token.scan_eq_tokensFrom, tokensFrom, List.pairwise_filterMap]
  refine (List.pairwise_lt_range' ..).imp ?_
  intro i j hij t ht u hu
  obtain ⟨l, hl, rfl⟩ := Option.map_eq_some_iff.1 ht
  obtain ⟨m, -, rfl⟩ := Option.map_eq_some_iff.1 hu
  -- the text before the later token holds the first character of the earlier one
  obtain ⟨c, cs, hrest, hwidth⟩ := exists_of_lexemeAt? hl
  obtain ⟨k, rfl⟩ : ∃ k, j = i + (k + 1) := ⟨j - i - 1, by omega⟩
  rw [List.take_add, hrest, List.take_succ_cons]
  exact Location.after_lt path _ hwidth _

theorem Location.Before.ne {l m : Location} (h : l.Before m) : l ≠ m := by
  rintro rfl
  unfold Location.Before at h
  omega

/-- **Tokens stand at their true places.** The tokens of a text are those that begin at its offsets,
in order. The one that begins at offset `i` is spelled there; its line is one more than the number
of newlines before `i`, and its column one more than the width of what lies between the last of them
and `i`. So each token stands after the one before it, and no two stand at the same place. -/
theorem Token.scan_locations (source path : String) :
    (Token.scan source path = (List.range source.toList.length).filterMap fun i =>
      (lexemeAt? (source.toList.take i) (source.toList.drop i)).map
        (⟨·, Location.after path (source.toList.take i)⟩)) ∧
      (∀ i l, lexemeAt? (source.toList.take i) (source.toList.drop i) = some l →
        l.text.toList <+: source.toList.drop i) ∧
      ((Token.scan source path).Pairwise fun t u => t.loc.Before u.loc) ∧
      ((Token.scan source path).map (·.loc)).Nodup := by
  have horder := Token.scan_pairwise source path
  refine ⟨?_, fun i l => isPrefix_of_lexemeAt?, horder, ?_⟩
  · rw [Token.scan_eq_tokensFrom, List.range_eq_range']
    rfl
  · exact List.pairwise_map.2 (horder.imp Location.Before.ne)

/-- Tabs are four columns wide, carriage returns none, and a comment ends with its line. -/
example : (Token.scan "\ta\r b#\t#c\n\r\td" "p").map (·.loc) =
    [⟨"p", 1, 5⟩, ⟨"p", 1, 7⟩, ⟨"p", 2, 5⟩] := by cbv

end Wordlet
