import Mathlib.Data.List.SplitBy
import Wordlet.Proofs.Lexemes

/-!
# The pieces of a text

What the tokens of a text are can be said in two sentences. Take the comments out of the text. Then
cut what is left wherever two neighbours are not both characters of words: each piece is a symbol,
a gap, or a word that could not be longer.

* `withoutComments_eq`: taking out comments at once or on the way is the same.
* `lexemes_flatten`: **pieces give their lexemes one by one**, as long as no two words touch.
* `lexemes_eq_pieces`: the lexemes of a text are those of its pieces.
* `Token.scan_eq_pieces`: **a scan reads the pieces of the text without comments**, and no character
  is lost on the way.
-/

namespace Wordlet

/-! ## Comments -/

/-- The first `#` of a text ends the code before it. -/
theorem exists_code {cs : List Char} (h : '#' ∈ cs) :
    ∃ comment, (∀ c ∈ cs.takeWhile (· ≠ '#'), c ≠ '#') ∧
      cs.dropWhile (· ≠ '#') = '#' :: comment := by
  obtain ⟨code, comment, rfl, hcode⟩ := List.eq_append_cons_of_mem h
  have hne : ∀ c ∈ code, c ≠ '#' := fun c hc heq => hcode (heq ▸ hc)
  have hall : ∀ c ∈ code, decide (c ≠ '#') = true := fun c hc => decide_eq_true (hne c hc)
  refine ⟨comment, ?_, ?_⟩
  · rw [List.takeWhile_append_of_pos hall, List.takeWhile_cons_of_neg (by simp), List.append_nil]
    exact hne
  · rw [List.dropWhile_append_of_pos hall, List.dropWhile_cons_of_neg (by simp)]

/-- The text without its comments. A comment is a `#` that stands in no other comment, and all that
follows it up to the next newline, which stays, or to the end of the text. -/
def withoutComments (cs : List Char) : List Char :=
  if '#' ∈ cs then
    cs.takeWhile (· ≠ '#') ++ withoutComments ((cs.dropWhile (· ≠ '#')).dropWhile (· ≠ '\n'))
  else cs
termination_by cs.length
decreasing_by
  rename_i h
  obtain ⟨comment, -, hdrop⟩ := exists_code h
  have hcomment := (List.dropWhile_sublist (l := cs) (· ≠ '#')).length_le
  have hline := (List.dropWhile_sublist (l := comment) (· ≠ '\n')).length_le
  rw [hdrop, List.length_cons] at hcomment
  rw [hdrop, List.dropWhile_cons_of_pos (by simp)]
  omega

theorem uncomment_append {as : List Char} (h : ∀ c ∈ as, c ≠ '#') (bs : List Char) :
    uncomment false (as ++ bs) = as ++ uncomment false bs := by
  induction as with
  | nil => rfl
  | cons a as ih =>
    obtain ⟨ha, has⟩ := List.forall_mem_cons.1 h
    rw [List.cons_append, uncomment, if_neg (by simp), if_neg ha, ih has, List.cons_append]

/-- An open comment reaches to the next newline. -/
theorem uncomment_true (cs : List Char) :
    uncomment true cs = uncomment false (cs.dropWhile (· ≠ '\n')) := by
  induction cs with
  | nil => rfl
  | cons c cs ih =>
    rw [uncomment, if_pos rfl]
    by_cases hc : c = '\n'
    · rw [if_pos hc, List.dropWhile_cons_of_neg (by simp [hc]), uncomment, if_neg (by simp),
        if_neg (by simp [hc])]
    · rw [if_neg hc, ih, List.dropWhile_cons_of_pos (by simp [hc])]

/-- **Taking out comments at once or on the way is the same.** -/
theorem withoutComments_eq (cs : List Char) : withoutComments cs = uncomment false cs := by
  induction cs using withoutComments.induct with
  | case1 cs h ih =>
    obtain ⟨comment, hcode, hdrop⟩ := exists_code h
    have hsplit : cs = cs.takeWhile (· ≠ '#') ++ '#' :: comment := by
      rw [← hdrop, List.takeWhile_append_dropWhile]
    have hcomment : uncomment false ('#' :: comment) = uncomment true comment := by
      rw [uncomment, if_neg (by simp), if_pos rfl]
    rw [withoutComments, if_pos h, ih, hdrop, List.dropWhile_cons_of_pos (by simp),
      ← uncomment_true, ← hcomment, ← uncomment_append hcode, ← hsplit]
  | case2 cs h =>
    have hcode : ∀ c ∈ cs, c ≠ '#' := fun c hc heq => h (heq ▸ hc)
    have hwhole := uncomment_append hcode []
    rw [withoutComments, if_neg h]
    simpa using hwhole.symm

/-! ## Pieces -/

/-- The text cut wherever two neighbours are not both characters of words. -/
def pieces (cs : List Char) : List (List Char) := cs.splitBy fun a b => inWord a && inWord b

/-- The lexeme that a piece stands for: that of its symbol, none for a gap, or the piece as a
word. -/
def lexeme? : List Char → Option Lexeme
  | [] => none
  | c :: cs =>
    match Symbol.ofChar? c with
    | some s => some (.symbol s)
    | none => if isGap c then none else some (.word (String.ofList (c :: cs)))

/-- Either a piece is one character that is in no word, or all its characters are in one. -/
def IsPiece (p : List Char) : Prop :=
  (∃ c, p = [c] ∧ inWord c = false) ∨ p ≠ [] ∧ ∀ c ∈ p, inWord c = true

theorem isPiece_of_isChain {p : List Char} (hne : p ≠ [])
    (h : p.IsChain fun a b => (inWord a && inWord b) = true) : IsPiece p := by
  induction p with
  | nil => exact absurd rfl hne
  | cons c p ih =>
    cases p with
    | nil =>
      cases hc : inWord c with
      | true => exact .inr ⟨hne, by simp [hc]⟩
      | false => exact .inl ⟨c, rfl, hc⟩
    | cons d p =>
      obtain ⟨hcd, htail⟩ := List.isChain_cons_cons.1 h
      obtain ⟨hc, hd⟩ := Bool.and_eq_true_iff.1 hcd
      refine .inr ⟨hne, List.forall_mem_cons.2 ⟨hc, ?_⟩⟩
      rcases ih (by simp) htail with ⟨x, hx, hfalse⟩ | ⟨-, hall⟩
      · obtain ⟨rfl, -⟩ := List.cons.inj hx
        rw [hd] at hfalse
        cases hfalse
      · exact hall

theorem isPiece_of_mem_pieces {cs p : List Char} (hp : p ∈ pieces cs) : IsPiece p :=
  isPiece_of_isChain (List.ne_nil_of_mem_splitBy hp) (List.isChain_of_mem_splitBy hp)

/-- A text that begins with no character of a word is delimited at its front, and its first
character gives its lexeme, if it has one, before the others. -/
theorem lexemes_of_not_inWord {c : Char} (h : inWord c = false) (cs : List Char) :
    Delimited (c :: cs) ∧ lexemes (c :: cs) = (lexeme? [c]).toList ++ lexemes cs := by
  cases hsym : Symbol.ofChar? c with
  | some s =>
    refine ⟨delimited_symbol hsym cs, ?_⟩
    rw [lexemes_symbol hsym]
    simp [lexeme?, hsym]
  | none =>
    have hgap : isGap c = true := by simpa [inWord, hsym] using h
    refine ⟨delimited_gap hgap cs, ?_⟩
    rw [lexemes_gap hgap]
    simp [lexeme?, hsym, hgap]

theorem lexeme?_word {w : List Char} (hne : w ≠ []) (hw : ∀ c ∈ w, inWord c = true) :
    lexeme? w = some (.word (String.ofList w)) := by
  cases w with
  | nil => exact absurd rfl hne
  | cons c w =>
    obtain ⟨hsym, hgap⟩ := (inWord_iff c).1 (hw c (by simp))
    simp [lexeme?, hsym, hgap]

/-- **Pieces give their lexemes one by one**, as long as no two words touch. -/
theorem lexemes_flatten {ps : List (List Char)} (hps : ∀ p ∈ ps, IsPiece p)
    (hcut : ps.IsChain fun p q => ∃ hp hq, (inWord (p.getLast hp) && inWord (q.head hq)) = false) :
    lexemes ps.flatten = ps.filterMap lexeme? := by
  induction ps with
  | nil => rfl
  | cons p ps ih =>
    obtain ⟨hp, hps⟩ := List.forall_mem_cons.1 hps
    have hrest := ih hps hcut.tail
    rw [List.flatten_cons]
    rcases hp with ⟨c, rfl, hc⟩ | ⟨hne, hw⟩
    · -- a character that is in no word stands alone
      obtain ⟨-, hfront⟩ := lexemes_of_not_inWord hc ps.flatten
      rw [List.singleton_append, hfront, hrest, List.filterMap_cons]
      cases lexeme? [c] <;> rfl
    · -- after a word the next piece, if there is one, is none
      have hdelimited : Delimited ps.flatten := by
        cases ps with
        | nil => rfl
        | cons q qs =>
          obtain ⟨⟨hp', hq, hpq⟩, -⟩ := List.isChain_cons_cons.1 hcut
          have hlast := hw _ (List.getLast_mem hp')
          rw [hlast, Bool.true_and] at hpq
          obtain ⟨c, q', rfl⟩ := List.exists_cons_of_ne_nil hq
          exact (lexemes_of_not_inWord hpq _).1
      rw [lexemes, splitWord_letters hw hdelimited, consWord, if_neg hne, hrest,
        List.filterMap_cons, lexeme?_word hne hw]

/-- **The lexemes of a text are those of its pieces.** -/
theorem lexemes_eq_pieces (cs : List Char) : lexemes cs = (pieces cs).filterMap lexeme? := by
  have hjoin : (pieces cs).flatten = cs := List.flatten_splitBy _ cs
  have hlexemes := lexemes_flatten (fun _ => isPiece_of_mem_pieces)
    (List.isChain_getLast_head_splitBy (fun a b => inWord a && inWord b) cs)
  rwa [hjoin] at hlexemes

/-! ## Nothing is lost -/

/-- The text of the lexeme of a piece is the piece, without its gap. -/
theorem text_lexeme? {p : List Char} (hp : IsPiece p) :
    (lexeme? p).toList.flatMap (·.text.toList) = p.filter (!isGap ·) := by
  rcases hp with ⟨c, rfl, hc⟩ | ⟨hne, hw⟩
  · cases hsym : Symbol.ofChar? c with
    | some s =>
      have hgap : isGap c = false := by
        by_contra h
        rw [ofChar?_of_isGap (by simpa using h)] at hsym
        cases hsym
      have hchar : s.char = c := Symbol.char_of_ofChar? hsym
      simp [lexeme?, hsym, hgap, Lexeme.text, hchar]
    | none =>
      have hgap : isGap c = true := by simpa [inWord, hsym] using hc
      simp [lexeme?, hsym, hgap]
  · have hall : ∀ c ∈ p, (!isGap c) = true := by
      intro c hc
      simp [((inWord_iff c).1 (hw c hc)).2]
    rw [lexeme?_word hne hw, List.filter_eq_self.2 hall]
    simp [Lexeme.text]

/-- The texts of the lexemes, put together, are the text without its gaps. -/
theorem texts_filterMap_lexeme? {ps : List (List Char)} (hps : ∀ p ∈ ps, IsPiece p) :
    (ps.filterMap lexeme?).flatMap (·.text.toList) = ps.flatten.filter (!isGap ·) := by
  induction ps with
  | nil => rfl
  | cons p ps ih =>
    obtain ⟨hp, hps⟩ := List.forall_mem_cons.1 hps
    have hfirst : (p :: ps).filterMap lexeme? = (lexeme? p).toList ++ ps.filterMap lexeme? := by
      rw [List.filterMap_cons]
      cases lexeme? p <;> rfl
    rw [hfirst, List.flatMap_append, text_lexeme? hp, ih hps, List.flatten_cons, List.filter_append]

/-- **A scan reads the pieces of the text without comments.** The lexemes of the tokens are those of
the pieces, in order: each symbol, and each run of characters between symbols and gaps that could
not be longer, as one word. So every word is not empty and holds neither symbol nor gap, and all
characters outside comments that are no gaps stand in the tokens, once and in their order. -/
theorem Token.scan_eq_pieces (source path : String) :
    (Token.scan source path).map (·.lexeme) =
        (pieces (withoutComments source.toList)).filterMap lexeme? ∧
      (∀ w loc, ⟨.word w, loc⟩ ∈ Token.scan source path →
        w ≠ "" ∧ ∀ c ∈ w.toList, inWord c = true) ∧
      (Token.scan source path).flatMap (·.lexeme.text.toList) =
        (withoutComments source.toList).filter (!isGap ·) := by
  have hlexemes : (Token.scan source path).map (·.lexeme) =
      (pieces (withoutComments source.toList)).filterMap lexeme? := by
    rw [Token.scan_lexemes, ← withoutComments_eq, lexemes_eq_pieces]
  refine ⟨hlexemes, ?_, ?_⟩
  · intro w loc hw
    obtain ⟨hne, hletters⟩ := Token.isWord_of_mem_scan hw
    exact ⟨fun h => hne (by rw [h]; rfl), fun c hc => inWord_of_isLetter (hletters c hc)⟩
  · have hpieces : ∀ p ∈ pieces (withoutComments source.toList), IsPiece p :=
      fun _ => isPiece_of_mem_pieces
    have htexts := texts_filterMap_lexeme? hpieces
    rw [← hlexemes, List.flatMap_map, pieces, List.flatten_splitBy] at htexts
    exact htexts

/-- A comment ends the word before it, and the newline after it stays. -/
example : (Token.scan "ab#c(d\n\te,f" "").map (·.lexeme) =
    [.word "ab", .word "e", .symbol .comma, .word "f"] := by cbv

end Wordlet
