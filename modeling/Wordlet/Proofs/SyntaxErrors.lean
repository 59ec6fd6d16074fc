import Wordlet.Proofs.Prediction
import Wordlet.Proofs.Relocation
import Wordlet.Proofs.RoundTrip

/-!
# Where reading fails

A failed reading stands at the first token that no program can have there, or at the end of tokens
that a program can begin with. The numerals that are too long are the one exception: they are
refused after they were taken, for a reason that is none of the grammar, and with no location.

* `Program.exists_of_parseFrom_error`: what a failure says of the tokens before it and after it.
* `Program.parse_error_earliest`: **syntax errors have the correct-prefix property.**
* `Program.parse_scan_located`: **a text is read, or it fails at one of its tokens, or it has a
  numeral that is too long.**
-/

namespace Wordlet

open Text (IsNumeral maxDigits)
open Grammar

/-- A cause in the grammar is the end of input exactly if it arises there. -/
theorem SyntaxCause.Arises.eq_endOfInput_iff {used rest : List Token} {c : SyntaxCause}
    (h : c.Arises used rest) (hc : c.isLocated = true) : c = .endOfInput ↔ rest = [] := by
  cases c with
  | endOfInput => exact ⟨fun _ => h, fun _ => rfl⟩
  | expected what => exact ⟨nofun, fun hnil => absurd hnil h⟩
  | numeralTooLong n => cases hc

/-- Among the causes that lie in the grammar, one is worded as the end of input. -/
theorem SyntaxCause.message_eq_iff {c : SyntaxCause} (h : c.isLocated = true) :
    c.message = "unexpected end of input" ↔ c = .endOfInput := by
  cases c with
  | endOfInput => simp [message]
  | expected what => cases what <;> decide
  | numeralTooLong n => cases h

namespace Parser

theorem failureLoc_of_end {tokens : List Token} {t : Token} (h : tokens.getLast? = some t) :
    failureLoc tokens [] = t.loc := by
  rw [failureLoc, h]
  rfl

/-- A failure is placed at a token, if there is one. -/
theorem exists_failureLoc {used rest : List Token} (h : used ++ rest ≠ []) :
    ∃ t ∈ used ++ rest, failureLoc (used ++ rest) rest = t.loc := by
  cases rest with
  | cons t rest => exact ⟨t, by simp, rfl⟩
  | nil =>
    have hlast := List.getLast?_eq_some_getLast h
    exact ⟨_, List.getLast_mem h, failureLoc_of_end hlast⟩

end Parser

namespace Program

variable {tokens : List Token} {e : SyntaxError} {k : Nat}

/-! ## Failures and their tokens -/

theorem exists_parse_of_definitions {ds : List Definition} {rest : List Token}
    (h : Parse.definitions tokens = .ok ds rest) : ∃ p, parse tokens = .ok p :=
  ⟨⟨tokens.head?.map (·.loc), ds⟩, parse_eq_ok.2 ⟨rfl, rest, h⟩⟩

theorem parse_of_definitions_fail {c : SyntaxCause} {rest : List Token}
    (h : Parse.definitions tokens = .fail c rest) :
    parse tokens = .error ⟨c, Parser.failureLoc tokens rest⟩ := by
  simp only [parse, parseFrom, Parser.run, List.drop_zero, h]
  rfl

/-- **A failure and its tokens.** The failure stands between the tokens `used` that were taken and
the `rest`. Its cause arises there; no program begins with the tokens taken and the next one; and if
the cause lies in the grammar, then some program begins with the tokens taken. -/
theorem exists_of_parseFrom_error (h : parseFrom tokens 0 = ⟨.error e, k⟩) :
    ∃ used rest, tokens = used ++ rest ∧ k = used.length ∧
      e.loc = Parser.failureLoc tokens rest ∧ e.cause.Arises used rest ∧
      (∀ rest' p, next rest' = next rest → parse (used ++ rest') ≠ .ok p) ∧
      (e.cause.isLocated = true → ∃ more p, parse (used ++ more) = .ok p) := by
  simp only [parseFrom, Parser.run, List.drop_zero] at h
  cases Parse.definitions_predictive tokens with
  | ok ds reads =>
    rw [reads _ (.inl rfl)] at h
    cases h
  | @fail used rest c arises fails completes =>
    rw [fails rest rfl] at h
    cases h
    refine ⟨used, rest, rfl, by simp, rfl, arises, fun rest' p hnext => ?_, fun hc => ?_⟩
    · rw [parse_of_definitions_fail (fails rest' hnext)]
      simp
    · obtain ⟨more, -, hmore⟩ := completes hc
      obtain ⟨ds, hds⟩ := hmore [] rfl
      rw [List.append_nil] at hds
      exact ⟨more, exists_parse_of_definitions hds⟩

/-- The empty list of tokens is read, as a program with no definitions. -/
theorem ne_nil_of_parseFrom_error (h : parseFrom tokens 0 = ⟨.error e, k⟩) : tokens ≠ [] := by
  rintro rfl
  cases h

/-- Without numerals that are too long, every failure lies in the grammar. -/
theorem isLocated_of_arises {used rest : List Token} {c : SyntaxCause} (h : c.Arises used rest)
    (hshort : ∀ w loc, ⟨.word w, loc⟩ ∈ used → ∀ cs, IsNumeral w cs → cs.length ≤ maxDigits) :
    c.isLocated = true := by
  cases c with
  | endOfInput => rfl
  | expected what => rfl
  | numeralTooLong n =>
    obtain ⟨before, w, loc, cs, rfl, hw, rfl, hlong, -⟩ := h
    have hle := hshort w loc (by simp) cs hw
    omega

/-- **Syntax errors have the correct-prefix property.** Let reading fail at the position `k` of
tokens with no numeral of more than 4300 digits. The failure lies in the grammar. It is the end of
input exactly if `k` is the number of tokens; it is located at the last token then, and at the token
`k` otherwise. The tokens before `k` can be completed to a program, and those up to and with `k`
cannot. So the end of input is reported exactly if the tokens can be completed to a program. -/
theorem parse_error_earliest (h : parseFrom tokens 0 = ⟨.error e, k⟩)
    (hshort : ∀ w loc, ⟨.word w, loc⟩ ∈ tokens → ∀ cs, IsNumeral w cs → cs.length ≤ 4300) :
    e.cause.isLocated = true ∧
      (e.cause.message = "unexpected end of input" ↔ k = tokens.length) ∧
      (k = tokens.length → ∃ t, tokens.getLast? = some t ∧ e.loc = t.loc) ∧
      (k ≠ tokens.length → ∃ t, tokens[k]? = some t ∧ e.loc = t.loc) ∧
      (∃ more p, parse (tokens.take k ++ more) = .ok p) ∧
      (k < tokens.length → ∀ more p, parse (tokens.take (k + 1) ++ more) ≠ .ok p) ∧
      (e.cause.message = "unexpected end of input" ↔ ∃ more p, parse (tokens ++ more) = .ok p) := by
  have hne := ne_nil_of_parseFrom_error h
  obtain ⟨used, rest, rfl, rfl, hloc, harises, hno, hbegins⟩ := exists_of_parseFrom_error h
  have hlocated : e.cause.isLocated = true :=
    isLocated_of_arises harises fun w loc hw => hshort w loc (List.mem_append_left rest hw)
  have hend : e.cause.message = "unexpected end of input" ↔ rest = [] := by
    rw [SyntaxCause.message_eq_iff hlocated]
    exact harises.eq_endOfInput_iff hlocated
  obtain ⟨more, p, hp⟩ := hbegins hlocated
  refine ⟨hlocated, ?_⟩
  cases rest with
  | nil =>
    rw [List.append_nil] at hne hloc ⊢
    have hlast := List.getLast?_eq_some_getLast hne
    rw [Parser.failureLoc_of_end hlast] at hloc
    have hmessage := hend.2 rfl
    refine ⟨by simp [hmessage], fun _ => ⟨_, hlast, hloc⟩, fun hk => absurd rfl hk, ?_,
      fun hk => absurd hk (Nat.lt_irrefl _), fun _ => ⟨more, p, hp⟩, fun _ => hmessage⟩
    rw [List.take_length]
    exact ⟨more, p, hp⟩
  | cons t rest =>
    have hlt : used.length < (used ++ t :: rest).length := by simp
    have hmessage : e.cause.message ≠ "unexpected end of input" :=
      fun hm => absurd (hend.1 hm) (List.cons_ne_nil t rest)
    -- the tokens that were taken and the next one begin no program
    have hstop : ∀ more p, parse (used ++ t :: more) ≠ .ok p := fun more p => hno (t :: more) p rfl
    refine ⟨?_, fun hk => absurd hk (Nat.ne_of_lt hlt), fun _ => ⟨t, by simp, hloc⟩, ?_, ?_, ?_⟩
    · exact ⟨fun hm => absurd hm hmessage, fun hk => absurd hk (Nat.ne_of_lt hlt)⟩
    · rw [List.take_left]
      exact ⟨more, p, hp⟩
    · intro _ more p
      have htake : (used ++ t :: rest).take (used.length + 1) = used ++ [t] := by
        rw [List.take_length_add_append]
        rfl
      rw [htake, List.append_assoc]
      exact hstop more p
    · refine ⟨fun hm => absurd hm hmessage, ?_⟩
      rintro ⟨more, p, hp⟩
      rw [List.append_assoc] at hp
      exact absurd hp (hstop (rest ++ more) p)

/-- A colon where an argument of a call in the condition of a branch should come: the tokens before
it begin a program, and with it they do not. -/
theorem parse_error_earliest_colon :
    ∃ tokens e k,
      tokens = Token.scan "main() \x7b if f(1, : )" "s" ∧
      parseFrom tokens 0 = ⟨.error e, k⟩ ∧ k = 9 ∧ tokens.length = 11 ∧
      e = ⟨.expected .word, ⟨"s", 1, 18⟩⟩ ∧
      (∃ more p, parse (tokens.take 9 ++ more) = .ok p) ∧
      ∀ more p, parse (tokens.take 10 ++ more) ≠ .ok p := by
  have hfail : parseFrom (Token.scan "main() \x7b if f(1, : )" "s") 0 =
      ⟨.error ⟨.expected .word, ⟨"s", 1, 18⟩⟩, 9⟩ := by cbv
  have hwords : (Token.scan "main() \x7b if f(1, : )" "s").all
      (·.lexeme.text.toList.length ≤ 4) = true := by cbv
  obtain ⟨-, -, -, -, hbegins, hstop, -⟩ := parse_error_earliest hfail fun w loc hw cs hcs => by
    have hlen : w.toList.length ≤ 4 := of_decide_eq_true (List.all_eq_true.1 hwords _ hw)
    have hle := hcs.length_le
    omega
  have hlength : (Token.scan "main() \x7b if f(1, : )" "s").length = 11 := by cbv
  exact ⟨_, _, _, rfl, hfail, rfl, hlength, rfl, hbegins, hstop (by rw [hlength]; decide)⟩

/-! ## Numerals that are too long -/

/-- A bare numeral is refused if it has more than 4300 digits. Otherwise it is a literal when its
value is at most `4294967295`, and a variable when it is greater. -/
theorem expression_numeral {w : String} {cs : List Char} (hcs : IsNumeral w cs) (loc : Location)
    {rest : List Token} (hn : next rest ≠ some (.symbol .openParen)) :
    Parse.expression (⟨.word w, loc⟩ :: rest) =
      if 4300 < cs.length then .fail (.numeralTooLong cs.length) rest
      else if Nat.ofDigitChars 10 cs 0 ≤ 4294967295 then
        .ok (.literal (some loc) (Nat.ofDigitChars 10 cs 0)) rest
      else .ok (.var (some loc) w) rest := by
  rw [Parse.expression_bare (ne_if_of_isNumeral hcs) loc hn]
  split
  · rename_i hlong
    exact Parse.bareWord_long hcs loc rest hlong
  · rename_i hle
    exact Parse.bareWord_numeral hcs loc rest (Nat.not_lt.1 hle)

theorem isWord_of_isNumeral {w : String} {cs : List Char} (h : IsNumeral w cs) : IsWord w := by
  obtain ⟨hne, hdigit, hw | hw⟩ := h
  · rw [IsWord, hw]
    exact ⟨hne, fun c hc => isLetter_of_isDigit (hdigit c hc)⟩
  · rw [IsWord, hw]
    refine ⟨by simp, fun c hc => ?_⟩
    rcases List.mem_cons.1 hc with rfl | hc
    · decide
    · exact isLetter_of_isDigit (hdigit c hc)

/-- The lexemes of a function whose body is the word `w`. -/
def wordFunction (w : String) : List Lexeme :=
  [.word "main", .symbol .openParen, .symbol .closeParen, .symbol .openBrace, .word w,
    .symbol .closeBrace]

theorem scan_wordFunction {w : String} (hw : IsWord w) (path : String) :
    (Token.scan ("main()\x7b" ++ w ++ "\x7d") path).map (·.lexeme) = wordFunction w := by
  have hmain : IsWord "main" := ⟨by decide, forall_mem_of_all (by decide)⟩
  have hsource : ("main()\x7b" ++ w ++ "\x7d").toList =
      "main".toList ++ '(' :: ')' :: '\x7b' :: (w.toList ++ ['\x7d']) := by
    simp
  have hhash : '#' ∉ w.toList := fun hmem => absurd (hw.2 '#' hmem) (by decide)
  have hclose : Delimited ['\x7d'] := delimited_symbol rfl []
  rw [Token.scan_lexemes, uncomment_eq (by simp [hhash]), hsource,
    lexemes_word hmain (delimited_symbol rfl _), lexemes_symbol rfl, lexemes_symbol rfl,
    lexemes_symbol rfl, lexemes_word hw hclose, lexemes_symbol rfl, lexemes_nil]
  rfl

theorem definitions_wordFunction {w : String} {cs : List Char} (hcs : IsNumeral w cs)
    (hlong : 4300 < cs.length) :
    Parse.definitions ((wordFunction w).map Token.anywhere) =
      .fail (.numeralTooLong cs.length) [.anywhere (.symbol .closeBrace)] := by
  have hbody : Parse.expression ([.word w, .symbol .closeBrace].map Token.anywhere) =
      .fail (.numeralTooLong cs.length) [.anywhere (.symbol .closeBrace)] :=
    (expression_numeral hcs _ (by simp [Token.anywhere])).trans (if_pos hlong)
  have hdefinition : Parse.definition ((wordFunction w).map Token.anywhere) =
      .fail (.numeralTooLong cs.length) [.anywhere (.symbol .closeBrace)] := by
    change Reply.map _ (Reply.andThen (Parse.expression _) _) = _
    rw [hbody, Reply.andThen_fail, Reply.map_fail]
  rw [wordFunction, List.map_cons] at hdefinition ⊢
  rw [Parse.definitions_cons, hdefinition, Reply.andThen_fail]

/-- **A numeral that is too long fails the reading of its text**, whatever its value is. -/
theorem parse_scan_long {w : String} {cs : List Char} (hcs : IsNumeral w cs)
    (hlong : 4300 < cs.length) (path : String) :
    ∃ e, parse (Token.scan ("main()\x7b" ++ w ++ "\x7d") path) = .error e ∧
      e.cause = .numeralTooLong cs.length := by
  -- where the tokens are located plays no part in how they are read
  have hlexemes : (Token.scan ("main()\x7b" ++ w ++ "\x7d") path).map (·.lexeme) =
      ((wordFunction w).map Token.anywhere).map (·.lexeme) :=
    scan_wordFunction (isWord_of_isNumeral hcs) path
  have hfail := parse_of_definitions_fail (definitions_wordFunction hcs hlong)
  obtain ⟨p, p', -, hp'⟩ | ⟨e, e', he, he', hcause, -⟩ := parse_cases hlexemes
  · rw [hfail] at hp'
    cases hp'
  · rw [hfail] at he'
    cases he'
    exact ⟨e, he, hcause⟩

theorem isNumeral_zeros {n : Nat} (hn : 0 < n) :
    IsNumeral (String.ofList (List.replicate n '0')) (List.replicate n '0') := by
  refine ⟨?_, fun c hc => ?_, .inl String.toList_ofList⟩
  · rw [Ne, List.replicate_eq_nil_iff]
    omega
  · rw [List.eq_of_mem_replicate hc]
    rfl

theorem ofDigitChars_zeros (n : Nat) : Nat.ofDigitChars 10 (List.replicate n '0') 0 = 0 := by
  induction n with
  | zero => rfl
  | succ n ih =>
    rw [List.replicate_succ, Nat.ofDigitChars_cons]
    exact ih

/-- **Reading a text fails at one of its tokens, or at a numeral that is too long.** Either there is
a program, or there is an error that is located at one of the tokens, or the text has a numeral of
more than 4300 digits that is not called. A bare numeral of no more digits is a literal when its
value is at most `4294967295`, and a variable when it is greater. -/
theorem parse_scan_located (source path : String) :
    ((∃ p, parse (Token.scan source path) = .ok p) ∨
      (∃ e, parse (Token.scan source path) = .error e ∧ e.cause.isLocated = true ∧
        ∃ t ∈ Token.scan source path, e.loc = t.loc) ∨
      ∃ e before w loc after cs, parse (Token.scan source path) = .error e ∧
        Token.scan source path = before ++ ⟨.word w, loc⟩ :: after ∧
        next after ≠ some (.symbol .openParen) ∧ IsNumeral w cs ∧ 4300 < cs.length ∧
        e.cause = .numeralTooLong cs.length) ∧
    ∀ w cs loc rest, IsNumeral w cs → next rest ≠ some (.symbol .openParen) →
      Parse.expression (⟨.word w, loc⟩ :: rest) =
        if 4300 < cs.length then .fail (.numeralTooLong cs.length) rest
        else if Nat.ofDigitChars 10 cs 0 ≤ 4294967295 then
          .ok (.literal (some loc) (Nat.ofDigitChars 10 cs 0)) rest
        else .ok (.var (some loc) w) rest := by
  refine ⟨?_, fun w cs loc rest hcs hn => expression_numeral hcs loc hn⟩
  cases hreading : parseFrom (Token.scan source path) 0 with
  | mk outcome k =>
    have hparse : parse (Token.scan source path) = outcome := by rw [parse, hreading]
    cases outcome with
    | ok p => exact .inl ⟨p, hparse⟩
    | error e =>
      right
      have hne := ne_nil_of_parseFrom_error hreading
      obtain ⟨used, rest, htokens, -, hloc, harises, -⟩ := exists_of_parseFrom_error hreading
      rw [htokens] at hne hloc
      obtain ⟨t, ht, htloc⟩ := Parser.exists_failureLoc hne
      cases hc : e.cause with
      | numeralTooLong n =>
        rw [hc] at harises
        obtain ⟨before, w, loc, cs, rfl, hcs, rfl, hlong, hn⟩ := harises
        rw [List.append_assoc] at htokens
        exact .inr ⟨e, before, w, loc, rest, cs, hparse, htokens, hn, hcs, hlong, hc⟩
      | endOfInput | expected what =>
        refine .inl ⟨e, hparse, by rw [hc]; rfl, t, ?_, hloc.trans htloc⟩
        rwa [htokens]

/-- Zero, written with 4301 digits, is no literal. The failure has no location. -/
theorem parse_scan_long_zero :
    ∃ w cs e, w = String.ofList (List.replicate 4301 '0') ∧ IsNumeral w cs ∧
      Nat.ofDigitChars 10 cs 0 = 0 ∧
      parse (Token.scan ("main()\x7b" ++ w ++ "\x7d") "t.id") = .error e ∧
      e.cause = .numeralTooLong 4301 ∧ e.cause.isLocated = false := by
  have hcs := isNumeral_zeros (show 0 < 4301 by omega)
  obtain ⟨e, he, hcause⟩ := parse_scan_long hcs (by rw [List.length_replicate]; omega) "t.id"
  rw [List.length_replicate] at hcause
  exact ⟨_, _, e, rfl, hcs, ofDigitChars_zeros _, he, hcause, by rw [hcause]; rfl⟩

end Program

end Wordlet
