import Wordlet.Proofs.Overwriting
import Wordlet.Proofs.Positions

/-!
# Carriage returns before newlines

A text may end its lines with a carriage return and a newline, in which case a file that holds it is
read without the carriage returns. A scan need not care: outside a comment a carriage return ends
the word before it and takes no column, and inside one it takes a column of a line that ends there.
So the newline that follows leaves the scan as it would have without the carriage return.

* `Scan.push_return_newline`: **a carriage return before a newline** changes nothing for a scan.
* `Token.scan_filter`: the tokens of a text are those of the text without its carriage returns.
* `Files.scan_readSource`: **a text and a file that holds it have the same tokens.**
-/

namespace Wordlet

/-! ## Texts -/

namespace Text

/-- Each carriage return of the text is directly followed by a newline. -/
def ReturnsBeforeNewlines (cs : List Char) : Prop :=
  ∀ before after, cs = before ++ '\r' :: after → after.head? = some '\n'

theorem returnsBeforeNewlines_nil : ReturnsBeforeNewlines [] := by
  intro before after h
  simp at h

/-- A text is looked through from its front. -/
theorem returnsBeforeNewlines_cons {c : Char} {cs : List Char} :
    ReturnsBeforeNewlines (c :: cs) ↔
      (c = '\r' → cs.head? = some '\n') ∧ ReturnsBeforeNewlines cs := by
  constructor
  · intro h
    refine ⟨fun hc => h [] cs (by rw [hc]; rfl), fun before after hcs => ?_⟩
    apply h (c :: before) after
    rw [hcs, List.cons_append]
  · rintro ⟨hc, hrest⟩ before after h
    cases before with
    | nil =>
      obtain ⟨rfl, rfl⟩ := List.cons.inj h
      exact hc rfl
    | cons b before => exact hrest before after (List.cons.inj h).2

instance decidableReturnsBeforeNewlines : DecidablePred ReturnsBeforeNewlines
  | [] => isTrue returnsBeforeNewlines_nil
  | _ :: cs =>
    have := decidableReturnsBeforeNewlines cs
    decidable_of_iff' _ returnsBeforeNewlines_cons

/-- **Making all line ends newlines** drops the carriage returns, if newlines follow them. -/
theorem unifyNewlines_eq_filter {cs : List Char} (h : ReturnsBeforeNewlines cs) :
    unifyNewlines cs = cs.filter (· ≠ '\r') := by
  unfold unifyNewlines
  induction cs with
  | nil => rfl
  | cons c cs ih =>
    obtain ⟨hnext, htail⟩ := returnsBeforeNewlines_cons.1 h
    have hrest := ih htail
    by_cases hc : c = '\r'
    · subst hc
      obtain ⟨rest, rfl⟩ := List.head?_eq_some_iff.1 (hnext rfl)
      -- the newline that is due here stands for the one that comes, which is passed over
      have hnewline : unifyNewlinesFrom false ('\n' :: rest) =
          '\n' :: unifyNewlinesFrom false rest := rfl
      rw [List.filter_cons_of_neg (by simp), ← hrest, hnewline]
      rfl
    · rw [unifyNewlinesFrom, if_neg hc, if_neg (by simp), hrest,
        List.filter_cons_of_pos (by simpa using hc)]

end Text

/-- **The text of a file** that holds a text whose carriage returns stand before newlines. -/
theorem sourceText_of_returns {text : String} (h : Text.ReturnsBeforeNewlines text.toList) :
    sourceText (Text.encodeUtf8 text) = .ok (String.ofList (text.toList.filter (· ≠ '\r'))) := by
  rw [sourceText, Text.decodeUtf8_encodeUtf8]
  simp only [Text.unifyNewlines_eq_filter h]

/-! ## Scans -/

namespace Scan

/-- **A carriage return before a newline** changes nothing for a scan. -/
theorem push_return_newline (s : Scan) : (s.push '\r').push '\n' = s.push '\n' := by
  cases hs : s.inComment with
  | true =>
    -- the column that the carriage return takes is given up at the newline
    have hopen : (s.advance 1).inComment = true := hs
    rw [push_return_of_comment hs, push, if_pos hopen, push, if_pos hs, pushComment, if_pos rfl,
      pushComment, if_pos rfl]
    rfl
  | false =>
    have hclosed : s.endWord.inComment = false := (inComment_endWord s).trans hs
    rw [push_return hs, push_of_gap hclosed rfl, if_pos rfl, push_of_gap hs rfl, if_pos rfl,
      endWord_of_pending (pending_endWord s)]

/-- **Reading on without the carriage returns**, from any state of a scan. -/
theorem foldl_push_filter {cs : List Char} (h : Text.ReturnsBeforeNewlines cs) (s : Scan) :
    (cs.filter (· ≠ '\r')).foldl push s = cs.foldl push s := by
  induction cs generalizing s with
  | nil => rfl
  | cons c cs ih =>
    obtain ⟨hnext, htail⟩ := Text.returnsBeforeNewlines_cons.1 h
    have hrest := ih htail
    by_cases hc : c = '\r'
    · subst hc
      obtain ⟨rest, rfl⟩ := List.head?_eq_some_iff.1 (hnext rfl)
      calc
        ((('\r' :: '\n' :: rest).filter (· ≠ '\r')).foldl push s)
          = ('\n' :: rest).foldl push s := by rw [List.filter_cons_of_neg (by simp), hrest]
        _ = rest.foldl push ((s.push '\r').push '\n') := by
          rw [List.foldl_cons, push_return_newline]
    · rw [List.filter_cons_of_pos (by simpa using hc), List.foldl_cons, List.foldl_cons, hrest]

end Scan

namespace Token

/-- A text and the text without its carriage returns have the same tokens. -/
theorem scan_filter {text : String} (h : Text.ReturnsBeforeNewlines text.toList) (path : String) :
    scan (String.ofList (text.toList.filter (· ≠ '\r'))) path = scan text path := by
  unfold scan Scan.read
  rw [String.toList_ofList, Scan.foldl_push_filter h]

/-- What a token is, and its line and column, whatever the path. -/
def spot (t : Token) : Lexeme × Int × Int := (t.lexeme, t.loc.line, t.loc.column)

/-- The path of a text shows in the paths of its tokens alone. -/
theorem map_spot_scan (source path path' : String) :
    (scan source path).map spot = (scan source path').map spot := by
  have hspot : ∀ before rest, (tokenAt? path before rest).map spot =
      (tokenAt? path' before rest).map spot := by
    intro before rest
    unfold tokenAt?
    rw [Option.map_map, Option.map_map]
    rfl
  rw [scan_eq_tokensFrom, scan_eq_tokensFrom, tokensFrom, tokensFrom, List.map_filterMap,
    List.map_filterMap]
  simp only [hspot]

end Token

/-! ## Files -/

/-- **A text and a file that holds it have the same tokens.** Let each carriage return of a text be
directly followed by a newline. A file that holds the text, under a name with the right end, is read
as the text without its carriage returns, which has a newline for each carriage return and newline.
Its tokens and those of the text itself are of the same kinds, with the same texts, in the same
lines and columns. -/
theorem Files.scan_readSource {fs : Files} {path : Raw} {extension text : String}
    {names : List Raw} (hext : (Raw.ofString extension).pieces <:+ path.pieces)
    (hfile : fs.resolve path = .file names (Text.encodeUtf8 text))
    (htext : Text.ReturnsBeforeNewlines text.toList) (path' : String) :
    ∃ source, fs.readSource path extension = .ok source ∧
      source.toList = text.toList.filter (· ≠ '\r') ∧
      (Token.scan text path').map Token.spot = (Token.scan source path.shown).map Token.spot := by
  refine ⟨String.ofList (text.toList.filter (· ≠ '\r')), ?_, String.toList_ofList, ?_⟩
  · unfold readSource
    rw [if_neg (not_not.2 (List.isSuffixOf_iff_suffix.2 hext)), hfile]
    simp only [sourceText_of_returns htext]
  · rw [Token.scan_filter htext]
    exact Token.map_spot_scan text path' path.shown

/-- Carriage returns after a word, after a symbol, in a comment, in an empty line and at the end. -/
theorem Files.scan_readSource_everywhere :
    ∃ (fs : Files) (text source : String),
      text = "f\r\n(x)\r\n#\tg h\r\n\r\n\t\x7b x # y\r\n\x7d\r\n" ∧
      fs.resolve "d/a.id" = .file ["d", "a.id"] (Text.encodeUtf8 text) ∧
      fs.readSource "d/a.id" ".id" = .ok source ∧
      source.toList = "f\n(x)\n#\tg h\n\n\t\x7b x # y\n\x7d\n".toList ∧
      (Token.scan text "").map Token.spot = (Token.scan source "d/a.id").map Token.spot := by
  let text := "f\r\n(x)\r\n#\tg h\r\n\r\n\t\x7b x # y\r\n\x7d\r\n"
  let fs : Files := ⟨[], [(["d", "a.id"], .file (Text.encodeUtf8 text))]⟩
  have hplace : fs.resolve "d/a.id" = .file ["d", "a.id"] (Text.encodeUtf8 text) := by
    decide +kernel
  have hext : (Raw.ofString ".id").pieces <:+ (Raw.ofString "d/a.id").pieces := by decide
  obtain ⟨source, hread, hsource, htokens⟩ := Files.scan_readSource hext hplace (by decide) ""
  rw [Raw.shown_ofString] at htokens
  exact ⟨fs, text, source, rfl, hplace, hread, hsource.trans (by decide), htokens⟩

end Wordlet
