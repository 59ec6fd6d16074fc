import Wordlet.Proofs.Positions

/-!
# Scans that go on

A scan that has read one text can go on with another. After a newline it stands at the start of a
line, and after the end of a text or a carriage return no word is pending: from there on it does
what a new scan does, some lines further down. Only while a comment is open may the columns differ;
the newline that ends the comment makes up for it.

* `GoesOn`: one scan does as another one does, after other tokens and further down, with a rule for
  each small operation.
* `GoesOn.push`, `GoesOn.foldl`: **what is read by one is read by the other**, character by
  character.
* `Token.scan_newline`: the tokens of two texts with a newline between them.
* `Scan.readAll_eq_join`: **one scan for several texts** reads them as one text with carriage
  returns between them.
-/

namespace Wordlet

/-! ## Further down -/

/-- The place `n` lines further down. -/
def Location.below (n : Nat) (l : Location) : Location := { l with line := l.line + n }

/-- The token at the place that `f` gives it. -/
def Token.relocate (f : Location → Location) (t : Token) : Token := { t with loc := f t.loc }

@[simp] theorem Token.lexeme_relocate (f : Location → Location) (t : Token) :
    (t.relocate f).lexeme = t.lexeme := rfl

theorem Location.below_zero : Location.below 0 = id := by
  funext l
  simp [Location.below]

theorem Token.relocate_id : Token.relocate id = id := rfl

namespace Scan

/-- The scan `s'` does as `s` does, after the tokens `before` and `n` lines further down. The
columns need not agree while a comment is open, where no word is pending. -/
structure GoesOn (n : Nat) (before : List Token) (s s' : Scan) : Prop where
  path_eq : s'.path = s.path
  line_eq : s'.line = s.line + n
  comment_eq : s'.inComment = s.inComment
  pending_eq : s'.pending = s.pending
  pending_of_comment : s.inComment = true → s.pending = []
  column_eq : s.inComment = false → s'.column = s.column
  tokens_eq : s'.tokens.toList = before ++ s.tokens.toList.map (Token.relocate (.below n))

/-- A scan does as it does. -/
theorem GoesOn.refl {s : Scan} (h : s.inComment = true → s.pending = []) : GoesOn 0 [] s s where
  path_eq := rfl
  line_eq := rfl
  comment_eq := rfl
  pending_eq := rfl
  pending_of_comment := h
  column_eq := fun _ => rfl
  tokens_eq := by rw [Location.below_zero, Token.relocate_id, List.map_id, List.nil_append]

section Rules

variable {n : Nat} {before : List Token} {s s' : Scan}

/-! A rule for each small operation. -/

theorem GoesOn.loc_eq (h : GoesOn n before s s') (hs : s.inComment = false) :
    s'.loc = s.loc.below n := by
  simp [loc, Location.below, h.path_eq, h.line_eq, h.column_eq hs]

theorem GoesOn.advance (h : GoesOn n before s s') (k : Nat) :
    GoesOn n before (s.advance k) (s'.advance k) :=
  { h with column_eq := fun hs => congrArg (· + k) (h.column_eq hs) }

theorem GoesOn.newline (h : GoesOn n before s s') : GoesOn n before s.newline s'.newline :=
  { h with
    line_eq := by simp only [Scan.newline, h.line_eq]; omega
    column_eq := fun _ => rfl }

theorem GoesOn.emit (h : GoesOn n before s s') (hs : s.inComment = false) (l : Lexeme) :
    GoesOn n before (s.emit l) (s'.emit l) :=
  { h with tokens_eq := by simp [Scan.emit, h.tokens_eq, h.loc_eq hs, Token.relocate] }

theorem GoesOn.endWord (h : GoesOn n before s s') : GoesOn n before s.endWord s'.endWord := by
  cases hp : s.pending with
  | nil =>
    rw [endWord_of_pending hp, endWord_of_pending (h.pending_eq.trans hp)]
    exact h
  | cons c cs =>
    -- a word is pending, so no comment is open
    have hs : s.inComment = false := by
      by_contra hs
      rw [h.pending_of_comment (by simpa using hs)] at hp
      cases hp
    simp only [Scan.endWord, h.pending_eq, hp]
    exact { (h.emit hs _).advance _ with
      pending_eq := rfl
      pending_of_comment := fun _ => rfl }

theorem GoesOn.letter (h : GoesOn n before s s') (hs : s.inComment = false) (c : Char) :
    GoesOn n before { s with pending := c :: s.pending } { s' with pending := c :: s'.pending } :=
  { h with
    pending_eq := congrArg (c :: ·) h.pending_eq
    pending_of_comment := fun htrue => by simp [hs] at htrue }

theorem GoesOn.openComment (h : GoesOn n before s s') (hp : s.pending = []) :
    GoesOn n before { s with inComment := true } { s' with inComment := true } :=
  { h with
    comment_eq := rfl
    pending_of_comment := fun _ => hp
    column_eq := fun hfalse => by cases hfalse }

/-- A comment ends with its line, and in the next line the columns agree again. -/
theorem GoesOn.closeComment (h : GoesOn n before s s') :
    GoesOn n before { s.newline with inComment := false } { s'.newline with inComment := false } :=
  { h.newline with
    comment_eq := rfl
    pending_of_comment := fun hfalse => by cases hfalse
    column_eq := fun _ => rfl }

/-- **What is read by one scan is read by the other.** -/
theorem GoesOn.push (h : GoesOn n before s s') (c : Char) :
    GoesOn n before (s.push c) (s'.push c) := by
  cases hs : s.inComment with
  | true =>
    rw [Scan.push, Scan.push, if_pos hs, if_pos (h.comment_eq.trans hs), pushComment, pushComment]
    split
    · exact h.closeComment
    · exact h.advance 1
  | false =>
    have hs' := h.comment_eq.trans hs
    by_cases hhash : c = '#'
    · rw [hhash, push_of_hash hs, push_of_hash hs']
      exact (h.endWord.advance 1).openComment (pending_endWord s)
    cases hsym : Symbol.ofChar? c with
    | some sym =>
      rw [push_of_symbol hs hsym, push_of_symbol hs' hsym]
      exact (h.endWord.emit ((inComment_endWord s).trans hs) _).advance 1
    | none =>
      cases hgap : isGap c with
      | true =>
        rw [push_of_gap hs hgap, push_of_gap hs' hgap]
        split
        · exact h.endWord.newline
        · exact h.endWord.advance _
      | false =>
        rw [push_letter hs hsym hgap hhash, push_letter hs' hsym hgap hhash]
        exact h.letter hs c

theorem GoesOn.foldl (cs : List Char) : ∀ {s s' : Scan}, GoesOn n before s s' →
    GoesOn n before (cs.foldl Scan.push s) (cs.foldl Scan.push s') := by
  induction cs with
  | nil => exact fun h => h
  | cons c cs ih => exact fun h => ih (h.push c)

end Rules

/-! ## After a newline -/

/-- After a newline a scan does as a new one does, below the lines that it has read. -/
theorem At.goesOn_newline {path : String} {before : List Char} {s : Scan} (h : At path before s) :
    GoesOn (1 + before.count '\n') s.endWord.tokens.toList (start path) (s.push '\n') := by
  have hnext := h.push '\n'
  -- the newline ends the pending word, or the comment in which no word is pending
  have htokens : (s.push '\n').tokens = s.endWord.tokens := by
    cases hs : s.inComment with
    | true =>
      have hend := endWord_of_pending (h.pending_of_comment hs)
      rw [Scan.push, if_pos hs, pushComment, if_pos rfl, hend]
      rfl
    | false =>
      rw [push_of_gap hs rfl, if_pos rfl]
      rfl
  have hcomment : (s.push '\n').inComment = false := by
    have hiff := hnext.comment_iff
    simpa using hiff
  have hpending : (s.push '\n').pending = [] := by
    have hword := hnext.pending_eq hcomment
    rw [List.rtakeWhile_concat_neg _ _ _ (by simp [not_isLetter_newline])] at hword
    simpa using hword
  have hcolumn := hnext.column_eq hcomment
  rw [hpending, lastLine_newline] at hcolumn
  exact {
    path_eq := hnext.path_eq
    line_eq := by
      rw [hnext.line_eq, List.count_append]
      simp [start]
      omega
    comment_eq := hcomment
    pending_eq := hpending
    pending_of_comment := fun _ => rfl
    column_eq := fun _ => hcolumn
    tokens_eq := by simp [htokens, start] }

end Scan

/-- The state of a scan agrees with all the text it has read. -/
theorem Scan.at_foldl (path : String) (cs : List Char) :
    At path cs (cs.foldl push (start path)) := by
  induction cs using List.reverseRecOn with
  | nil => exact at_start path
  | append_singleton cs c ih =>
    rw [List.foldl_append]
    exact ih.push c

/-- **The tokens of two texts with a newline between them**: those of the first, and those of the
second below its lines. -/
theorem Token.scan_newline (first second path : String) :
    Token.scan (first ++ "\n" ++ second) path = Token.scan first path ++
      (Token.scan second path).map (Token.relocate (.below (1 + first.toList.count '\n'))) := by
  have hstart := (Scan.at_foldl path first.toList).goesOn_newline
  have hread := (hstart.foldl second.toList).endWord.tokens_eq
  have htext : (first ++ "\n" ++ second).toList = first.toList ++ '\n' :: second.toList := by simp
  rw [Token.scan, Scan.read, htext, List.foldl_append, List.foldl_cons]
  exact hread

/-! ## One scan for several texts -/

namespace Scan

variable {before : List Token} {s s' : Scan}

/-- Tokens that one scan forgets come before those that it reads next. -/
theorem GoesOn.clear (h : GoesOn 0 before s s') :
    GoesOn 0 (before ++ s.tokens.toList) s.clear s' :=
  { h with
    tokens_eq := by
      rw [h.tokens_eq, Location.below_zero, Token.relocate_id, List.map_id]
      simp [Scan.clear] }

/-- A scan at the end of its text does as one that goes on over a carriage return: outside comments
that has no width, and inside a comment the columns do not matter. -/
theorem GoesOn.carriageReturn (h : GoesOn 0 before s s') :
    GoesOn 0 (before ++ s.endWord.tokens.toList) s.endWord.clear (s'.push '\r') := by
  have hend := h.endWord.clear
  cases hs : s'.inComment with
  | true =>
    have hopen : s.inComment = true := h.comment_eq ▸ hs
    have hword := endWord_of_pending (h.pending_eq.trans (h.pending_of_comment hopen))
    rw [hword] at hend
    rw [push_return_of_comment hs]
    refine { hend with column_eq := fun hfalse => ?_ }
    rw [show s.endWord.clear.inComment = s.endWord.inComment from rfl, inComment_endWord,
      hopen] at hfalse
    cases hfalse
  | false =>
    rw [push_return hs]
    exact hend

/-- **One scan goes through further texts as another one goes through their characters** with a
carriage return before each. -/
theorem GoesOn.readAll (sources : List String) : ∀ {before : List Token} {s s' : Scan},
    GoesOn 0 before s s' →
      GoesOn 0
        (before ++ s.endWord.tokens.toList ++
          (s.endWord.readAll sources).flatMap (·.tokens.toList))
        ((s.endWord.readAll sources).getLastD s.endWord).clear
        ((sources.flatMap fun source => '\r' :: source.toList).foldl Scan.push s').endWord := by
  induction sources with
  | nil =>
    intro before s s' h
    rw [Scan.readAll, List.flatMap_nil, List.append_nil]
    exact h.endWord.clear
  | cons source sources ih =>
    intro before s s' h
    have hrest := ih (h.carriageReturn.foldl source.toList)
    rw [Scan.readAll, List.flatMap_cons, List.getLastD_cons, List.flatMap_cons, List.foldl_append,
      List.foldl_cons, ← List.append_assoc]
    exact hrest

/-- A text after a first one, and others after it. -/
theorem toList_join (source : String) (sources : List String) :
    ("\r".intercalate (source :: sources)).toList =
      source.toList ++ sources.flatMap fun source => '\r' :: source.toList := by
  rw [String.toList_intercalate]
  induction sources generalizing source with
  | nil => simp
  | cons source' sources ih =>
    rw [List.map_cons, List.map_cons, List.intercalate_cons_cons, ← List.map_cons, ih]
    simp

/-- **One scan for several texts.** Let one scan read some texts in turn. The tokens of all of them,
one after the other, are those of the one text that has the texts joined by carriage returns, places
included. At the end the scan stands on the same line as a new scan after that text, it is in a
comment if the other is, and if no comment is open it stands in the same column. -/
theorem readAll_eq_join (path : String) (sources : List String) :
    ((start path).readAll sources).flatMap (·.tokens.toList) =
        Token.scan ("\r".intercalate sources) path ∧
      (((start path).readAll sources).getLastD (start path)).line =
        ((start path).read ("\r".intercalate sources)).line ∧
      (((start path).readAll sources).getLastD (start path)).inComment =
        ((start path).read ("\r".intercalate sources)).inComment ∧
      (((start path).read ("\r".intercalate sources)).inComment = false →
        (((start path).readAll sources).getLastD (start path)).column =
          ((start path).read ("\r".intercalate sources)).column) := by
  cases sources with
  | nil => exact ⟨rfl, rfl, rfl, fun _ => rfl⟩
  | cons source sources =>
    have hself : (start path).inComment = true → (start path).pending = [] := fun _ => rfl
    have hall := ((GoesOn.refl hself).foldl source.toList).readAll sources
    rw [← List.foldl_append, ← toList_join] at hall
    have htokens := hall.tokens_eq
    rw [show ∀ u : Scan, u.clear.tokens.toList = [] from fun _ => rfl, List.map_nil,
      List.append_nil, List.nil_append] at htokens
    rw [Scan.readAll, List.flatMap_cons, List.getLastD_cons]
    refine ⟨htokens.symm, hall.line_eq.symm, hall.comment_eq.symm, fun hs => ?_⟩
    exact (hall.column_eq (hall.comment_eq.symm.trans hs)).symm

-- a comment that is open at the end of a text goes on in the next one
example : ((start "s").readAll ["a(#", "b\nc"]).flatMap (·.tokens.toList) =
    [⟨.word "a", ⟨"s", 1, 1⟩⟩, ⟨.symbol .openParen, ⟨"s", 1, 2⟩⟩, ⟨.word "c", ⟨"s", 2, 1⟩⟩] := by
  cbv

end Scan

end Wordlet
