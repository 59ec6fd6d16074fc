import Wordlet.Token.Scan

/-!
# The lexemes of a text

Where tokens stand depends on the layout of a text; which lexemes there are can be said without it.
A text without its comments (`uncomment`) is cut into words and symbols from its end to its front
(`splitWord`): each character is put before the lexemes of the characters after it.

* `Token.scan_lexemes`: **the lexemes of a scan** are those of the text without comments.
* `isWord_of_mem_lexemes`: words are not empty and hold letters only.
* `lexemes_symbol`, `lexemes_gap`, `lexemes_word`: the lexemes of a text from its front, as far as
  no word is cut.
-/

namespace Wordlet

/-- A character between words that is no symbol. -/
def isGap (c : Char) : Bool := c = ' ' || c = '\t' || c = '\n' || c = '\r'

/-- A character that is neither a symbol nor a gap. Outside comments these make up the words. -/
def inWord (c : Char) : Bool := (Symbol.ofChar? c).isNone && !isGap c

/-- A character of words. -/
def isLetter (c : Char) : Bool := (Symbol.ofChar? c).isNone && !isGap c && c != '#'

/-- A property that can be decided holds of all characters of a text if a computation says so. -/
theorem forall_mem_of_all {q : Char → Prop} [DecidablePred q] {cs : List Char}
    (h : cs.all (fun c => decide (q c)) = true) : ∀ c ∈ cs, q c := by
  intro c hc
  exact of_decide_eq_true (List.all_eq_true.1 h c hc)

/-- A text that is one word. -/
def IsWord (w : String) : Prop := w.toList ≠ [] ∧ ∀ c ∈ w.toList, isLetter c = true

/-- The text without comments, where `inComment` says that one is open at its beginning. A comment
ends before the newline. -/
def uncomment (inComment : Bool) : List Char → List Char
  | [] => []
  | c :: cs =>
    if inComment then if c = '\n' then c :: uncomment false cs else uncomment true cs
    else if c = '#' then uncomment true cs
    else c :: uncomment false cs

/-- The word `w`, if there is one, before other lexemes. -/
def consWord (w : List Char) (ls : List Lexeme) : List Lexeme :=
  if w = [] then ls else .word (String.ofList w) :: ls

/-- The letters that a text begins with, and the lexemes after them. -/
def splitWord : List Char → List Char × List Lexeme
  | [] => ([], [])
  | c :: cs =>
    match Symbol.ofChar? c with
    | some s => ([], .symbol s :: consWord (splitWord cs).1 (splitWord cs).2)
    | none =>
      if isGap c then ([], consWord (splitWord cs).1 (splitWord cs).2)
      else (c :: (splitWord cs).1, (splitWord cs).2)

/-- The lexemes of a text without comments. -/
def lexemes (cs : List Char) : List Lexeme := consWord (splitWord cs).1 (splitWord cs).2

@[simp] theorem consWord_nil (ls : List Lexeme) : consWord [] ls = ls := rfl

@[simp] theorem lexemes_nil : lexemes [] = [] := rfl

@[simp] theorem uncomment_nil (b : Bool) : uncomment b [] = [] := rfl

theorem consWord_append (w : List Char) (ls ls' : List Lexeme) :
    consWord w ls ++ ls' = consWord w (ls ++ ls') := by
  unfold consWord
  split <;> rfl

theorem splitWord_symbol {c : Char} {s : Symbol} (h : Symbol.ofChar? c = some s) (cs : List Char) :
    splitWord (c :: cs) = ([], .symbol s :: lexemes cs) := by
  simp only [splitWord, h, lexemes]

theorem Symbol.char_of_ofChar? {c : Char} {s : Symbol} (h : ofChar? c = some s) : s.char = c := by
  grind [ofChar?, char]

theorem ofChar?_of_isGap {c : Char} (h : isGap c = true) : Symbol.ofChar? c = none := by
  simp only [isGap, Bool.or_eq_true, decide_eq_true_eq] at h
  rcases h with ((rfl | rfl) | rfl) | rfl <;> rfl

theorem splitWord_gap {c : Char} (h : isGap c = true) (cs : List Char) :
    splitWord (c :: cs) = ([], lexemes cs) := by
  simp only [splitWord, ofChar?_of_isGap h, h, if_true, lexemes]

theorem splitWord_other {c : Char} (hs : Symbol.ofChar? c = none) (h : isGap c = false)
    (cs : List Char) : splitWord (c :: cs) = (c :: (splitWord cs).1, (splitWord cs).2) := by
  simp [splitWord, hs, h]

/-- A comment ends before a newline or with the text, so no word goes on after it. -/
theorem splitWord_uncomment_true (cs : List Char) : (splitWord (uncomment true cs)).1 = [] := by
  induction cs with
  | nil => rfl
  | cons c cs ih =>
    rw [uncomment, if_pos rfl]
    split
    · rename_i hc; rw [hc, splitWord_gap rfl]
    · exact ih

/-! ## Scanning -/

namespace Scan

/-- The lexemes read so far, without the pending word. -/
def lexemes (s : Scan) : List Lexeme := s.tokens.toList.map (·.lexeme)

@[simp] theorem lexemes_emit (s : Scan) (l : Lexeme) : (s.emit l).lexemes = s.lexemes ++ [l] := by
  simp [lexemes, emit]

@[simp] theorem lexemes_advance (s : Scan) (n : Nat) : (s.advance n).lexemes = s.lexemes := rfl

@[simp] theorem lexemes_newline (s : Scan) : s.newline.lexemes = s.lexemes := rfl

@[simp] theorem lexemes_endWord (s : Scan) :
    s.endWord.lexemes = s.lexemes ++ consWord s.pending.reverse [] := by
  unfold endWord
  cases h : s.pending with
  | nil => simp
  | cons c cs =>
    have hne : (c :: cs).reverse ≠ [] := by simp
    simp only [consWord, if_neg hne]
    simp [lexemes, emit, advance]

@[simp] theorem pending_endWord (s : Scan) : s.endWord.pending = [] := by
  unfold endWord
  split
  · assumption
  · rfl

theorem endWord_of_pending {s : Scan} (h : s.pending = []) : s.endWord = s := by
  simp [endWord, h]

@[simp] theorem inComment_endWord (s : Scan) : s.endWord.inComment = s.inComment := by
  unfold endWord
  split <;> rfl

/-! One character outside a comment: a symbol, a gap, the start of a comment or a letter. -/

theorem push_symbol {s : Scan} (hs : s.inComment = false) {c : Char} {sym : Symbol}
    (hc : Symbol.ofChar? c = some sym) :
    (s.push c).lexemes = s.endWord.lexemes ++ [.symbol sym] ∧ (s.push c).pending = [] ∧
      (s.push c).inComment = false := by
  have hpush : s.push c = (s.endWord.emit (.symbol sym)).advance 1 := by
    simp only [push, hs, Bool.false_eq_true, if_false, pushCode, hc]
  rw [hpush]
  exact ⟨lexemes_emit s.endWord _, pending_endWord s, (inComment_endWord s).trans hs⟩

theorem push_gap {s : Scan} (hs : s.inComment = false) {c : Char} (hc : isGap c = true) :
    (s.push c).lexemes = s.endWord.lexemes ∧ (s.push c).pending = [] ∧
      (s.push c).inComment = false := by
  have hpush : s.push c = s.pushCode c := by simp [push, hs]
  simp only [isGap, Bool.or_eq_true, decide_eq_true_eq] at hc
  rcases hc with ((rfl | rfl) | rfl) | rfl
  · rw [hpush, show s.pushCode ' ' = s.endWord.advance 1 from rfl]
    exact ⟨rfl, pending_endWord s, (inComment_endWord s).trans hs⟩
  · rw [hpush, show s.pushCode '\t' = s.endWord.advance tabWidth from rfl]
    exact ⟨rfl, pending_endWord s, (inComment_endWord s).trans hs⟩
  · rw [hpush, show s.pushCode '\n' = s.endWord.newline from rfl]
    exact ⟨rfl, pending_endWord s, (inComment_endWord s).trans hs⟩
  · rw [hpush, show s.pushCode '\r' = s.endWord from rfl]
    exact ⟨rfl, pending_endWord s, (inComment_endWord s).trans hs⟩

theorem push_hash {s : Scan} (hs : s.inComment = false) :
    (s.push '#').lexemes = s.endWord.lexemes ∧ (s.push '#').pending = [] ∧
      (s.push '#').inComment = true := by
  have hpush : s.push '#' = { s.endWord.advance 1 with inComment := true } := by
    rw [push, hs]; rfl
  rw [hpush]
  exact ⟨rfl, pending_endWord s, rfl⟩

theorem push_letter {s : Scan} (hs : s.inComment = false) {c : Char}
    (hsym : Symbol.ofChar? c = none) (hgap : isGap c = false) (hhash : c ≠ '#') :
    s.push c = { s with pending := c :: s.pending } := by
  simp only [isGap, Bool.or_eq_false_iff, decide_eq_false_iff_not] at hgap
  obtain ⟨⟨⟨h1, h2⟩, h3⟩, h4⟩ := hgap
  simp [push, hs, pushCode, hsym, hhash, h1, h2, h3, h4]

theorem push_comment {s : Scan} (hs : s.inComment = true) (c : Char) :
    (s.push c).lexemes = s.lexemes ∧ (s.push c).pending = s.pending ∧
      (s.push c).inComment = decide (c ≠ '\n') := by
  rw [push, if_pos hs, pushComment]
  split
  · rename_i hc; exact ⟨rfl, rfl, by simp [hc]⟩
  · rename_i hc; exact ⟨rfl, rfl, by simp [hc, advance, hs]⟩

/-- **What a scan reads from a text.** The lexemes of the text without comments follow those read
before, and the pending word goes on with the letters at the front. No word is pending in a
comment. -/
theorem lexemes_foldl (cs : List Char) : ∀ s : Scan, (s.inComment = true → s.pending = []) →
    (cs.foldl push s).endWord.lexemes = s.lexemes ++
      consWord (s.pending.reverse ++ (splitWord (uncomment s.inComment cs)).1)
        (splitWord (uncomment s.inComment cs)).2 := by
  induction cs with
  | nil => intro s _; simp [splitWord]
  | cons c cs ih =>
    intro s hs
    rw [List.foldl_cons]
    cases hc : s.inComment with
    | true =>
      -- nothing is read in a comment; the newline that ends it is a gap
      have hp := hs hc
      obtain ⟨h1, h2, h3⟩ := push_comment hc c
      rw [ih _ (fun _ => h2.trans hp), h1, h2, h3, hp]
      by_cases hn : c = '\n'
      · rw [hn, uncomment, if_pos rfl, if_pos rfl, splitWord_gap rfl]
        simp [Wordlet.lexemes]
      · simp [uncomment, hn]
    | false =>
      by_cases hhash : c = '#'
      · -- the pending word ends here, and no word goes on after the comment
        obtain ⟨h1, h2, h3⟩ := push_hash hc
        rw [hhash, ih _ (fun _ => h2), h1, h2, h3, lexemes_endWord, uncomment, if_neg (by simp),
          if_pos rfl, splitWord_uncomment_true, List.append_assoc, consWord_append]
        simp
      rw [uncomment, if_neg (by simp), if_neg hhash]
      cases hsym : Symbol.ofChar? c with
      | some sym =>
        obtain ⟨h1, h2, h3⟩ := push_symbol hc hsym
        rw [ih _ (fun _ => h2), h1, h2, h3, lexemes_endWord, splitWord_symbol hsym,
          List.append_assoc, List.append_assoc, consWord_append]
        simp [Wordlet.lexemes]
      | none =>
        by_cases hgap : isGap c = true
        · obtain ⟨h1, h2, h3⟩ := push_gap hc hgap
          rw [ih _ (fun _ => h2), h1, h2, h3, lexemes_endWord, splitWord_gap hgap,
            List.append_assoc, consWord_append]
          simp [Wordlet.lexemes]
        · -- a letter moves from the front of the text to the end of the pending word
          have hgap' : isGap c = false := by simpa using hgap
          rw [push_letter hc hsym hgap' hhash, ih _ (by simp [hc]),
            splitWord_other hsym hgap']
          simp [Scan.lexemes, hc]

end Scan

/-- **The lexemes of a scan** are those of the text without its comments, wherever it is located. -/
theorem Token.scan_lexemes (source path : String) :
    (Token.scan source path).map (·.lexeme) = lexemes (uncomment false source.toList) := by
  have h := Scan.lexemes_foldl source.toList (Scan.start path) (by simp [Scan.start])
  simpa [Scan.lexemes, Scan.start, Token.scan, Scan.read, lexemes] using h

/-! ## Words -/

theorem hash_not_mem_uncomment (b : Bool) (cs : List Char) : '#' ∉ uncomment b cs := by
  induction cs generalizing b with
  | nil => simp
  | cons c cs ih =>
    rw [uncomment]
    split
    · split
      · rename_i hc; simp [hc, ih]
      · exact ih true
    · split
      · exact ih true
      · rename_i hc; simp [ih, Ne.symm hc]

theorem isWord_consWord {w : List Char} {ls : List Lexeme} (hw : ∀ c ∈ w, isLetter c = true)
    (hls : ∀ x, .word x ∈ ls → IsWord x) : ∀ x, .word x ∈ consWord w ls → IsWord x := by
  intro x hx
  unfold consWord at hx
  split at hx
  · exact hls x hx
  · rename_i hne
    rcases List.mem_cons.1 hx with h | h
    · cases h
      exact ⟨by simpa using hne, by simpa using hw⟩
    · exact hls x h

theorem isWord_splitWord {cs : List Char} (h : '#' ∉ cs) :
    (∀ c ∈ (splitWord cs).1, isLetter c = true) ∧ ∀ w, .word w ∈ (splitWord cs).2 → IsWord w := by
  induction cs with
  | nil => simp [splitWord]
  | cons c cs ih =>
    obtain ⟨h1, h2⟩ := ih fun hm => h (List.mem_cons_of_mem c hm)
    have hall := isWord_consWord h1 h2
    cases hsym : Symbol.ofChar? c with
    | some s =>
      rw [splitWord_symbol hsym]
      refine ⟨by simp, fun w hw => ?_⟩
      rcases List.mem_cons.1 hw with hw | hw
      · simp at hw
      · exact hall w hw
    | none =>
      by_cases hgap : isGap c = true
      · rw [splitWord_gap hgap]
        exact ⟨by simp, hall⟩
      · have hgap' : isGap c = false := by simpa using hgap
        have hc : c ≠ '#' := fun hc => h (by simp [hc])
        rw [splitWord_other hsym hgap']
        refine ⟨?_, h2⟩
        intro x hx
        rcases List.mem_cons.1 hx with rfl | hx
        · simp [isLetter, hsym, hgap', hc]
        · exact h1 x hx

/-- **Words of a text** are not empty and hold letters only. -/
theorem isWord_of_mem_lexemes {cs : List Char} (h : '#' ∉ cs) {w : String}
    (hw : .word w ∈ lexemes cs) : IsWord w :=
  isWord_consWord (isWord_splitWord h).1 (isWord_splitWord h).2 w hw

theorem Token.isWord_of_mem_scan {source path w : String} {loc : Location}
    (h : ⟨.word w, loc⟩ ∈ Token.scan source path) : IsWord w := by
  have hm := List.mem_map_of_mem (f := (·.lexeme)) h
  rw [Token.scan_lexemes] at hm
  exact isWord_of_mem_lexemes (hash_not_mem_uncomment false _) hm

/-! ## Lexemes from the front -/

/-- No word goes on at the front of the text. -/
def Delimited (cs : List Char) : Prop := (splitWord cs).1 = []

theorem lexemes_symbol {c : Char} {s : Symbol} (h : Symbol.ofChar? c = some s) (cs : List Char) :
    lexemes (c :: cs) = .symbol s :: lexemes cs := by
  rw [lexemes, splitWord_symbol h, consWord_nil]

theorem lexemes_gap {c : Char} (h : isGap c = true) (cs : List Char) :
    lexemes (c :: cs) = lexemes cs := by
  rw [lexemes, splitWord_gap h, consWord_nil]

theorem delimited_symbol {c : Char} {s : Symbol} (h : Symbol.ofChar? c = some s)
    (cs : List Char) : Delimited (c :: cs) := by
  rw [Delimited, splitWord_symbol h]

theorem delimited_gap {c : Char} (h : isGap c = true) (cs : List Char) : Delimited (c :: cs) := by
  rw [Delimited, splitWord_gap h]

theorem Delimited.splitWord_eq {cs : List Char} (h : Delimited cs) :
    splitWord cs = ([], lexemes cs) := by
  rw [lexemes, h, consWord_nil, ← h]

theorem inWord_iff (c : Char) : inWord c = true ↔ Symbol.ofChar? c = none ∧ isGap c = false := by
  simp only [inWord, Bool.and_eq_true, Option.isNone_iff_eq_none, Bool.not_eq_true']

theorem inWord_of_isLetter {c : Char} (h : isLetter c = true) : inWord c = true := by
  simp only [isLetter, Bool.and_eq_true] at h
  simp only [inWord, h, Bool.and_self]

theorem splitWord_letters {w : List Char} (hw : ∀ c ∈ w, inWord c = true) {cs : List Char}
    (h : Delimited cs) : splitWord (w ++ cs) = (w, lexemes cs) := by
  induction w with
  | nil => exact h.splitWord_eq
  | cons c w ih =>
    obtain ⟨hc, hw⟩ := List.forall_mem_cons.1 hw
    obtain ⟨hsym, hgap⟩ := (inWord_iff c).1 hc
    rw [List.cons_append, splitWord_other hsym hgap, ih hw]

/-- A word at the front of a text is its first lexeme, if it ends there. -/
theorem lexemes_word {w : String} (hw : IsWord w) {cs : List Char} (h : Delimited cs) :
    lexemes (w.toList ++ cs) = .word w :: lexemes cs := by
  have hletters : ∀ c ∈ w.toList, inWord c = true := fun c hc => inWord_of_isLetter (hw.2 c hc)
  rw [lexemes, splitWord_letters hletters h, consWord, if_neg hw.1, String.ofList_toList]

end Wordlet
