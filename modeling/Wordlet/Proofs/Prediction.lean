import Wordlet.Proofs.Descent

/-!
# Parsers that see one token ahead

The answer of a parser at some tokens depends on those it takes and on the lexeme that comes next,
and on nothing after it. And where a parser fails for a reason of the grammar, what it took before
can be completed: it fails as early as possible. Both are said together of a parser and its input
(`Predictive`), with a rule for each way in which parsers are put together.

* `Predictive.andThen`, `Predictive.ifNext`, `Predictive.step`: **the rules.**
* `expression_predictive`, `block_predictive`, `definition_predictive`, `definitions_predictive`:
  **the parsers of the grammar are predictive.**
-/

namespace Wordlet

open Text (IsNumeral maxDigits)
open Grammar

/-- A token of the lexeme `l`, at a place that plays no part. -/
def Token.anywhere (l : Lexeme) : Token := ⟨l, Location.start ""⟩

/-- Where the cause of a failure arises, after the tokens `used` and with `rest` left: the end of
input at the end, an unexpected token at a token, and a numeral that is too long right after it. -/
def SyntaxCause.Arises (used rest : List Token) : SyntaxCause → Prop
  | .endOfInput => rest = []
  | .expected _ => rest ≠ []
  | .numeralTooLong n => ∃ before w loc cs, used = before ++ [⟨.word w, loc⟩] ∧ IsNumeral w cs ∧
      cs.length = n ∧ maxDigits < n ∧ next rest ≠ some (.symbol .openParen)

theorem SyntaxCause.Arises.append {used rest : List Token} {c : SyntaxCause}
    (h : c.Arises used rest) (first : List Token) : c.Arises (first ++ used) rest := by
  cases c with
  | endOfInput => exact h
  | expected what => exact h
  | numeralTooLong n =>
    obtain ⟨before, w, loc, cs, rfl, hw⟩ := h
    exact ⟨first ++ before, w, loc, cs, by rw [List.append_assoc], hw⟩

namespace Parse

/-- The tokens can follow an expression: they begin with no opening parenthesis, which would make a
call of a word, and with no `else`, which would belong to a branch without one. -/
def Apart (ts : List Token) : Prop :=
  next ts ≠ some (.symbol .openParen) ∧ next ts ≠ some (.word "else")

/-- The parser `p` is predictive at its input. It takes some tokens and leaves the rest. Whatever
comes in place of the rest, the answer is the same as long as the next lexeme is; a success also if
what comes may `follow`. A failure has its cause where it arises, and if the cause lies in the
grammar, the tokens that were taken can be completed: with `more` after them the parser succeeds,
before all that may follow. What completes no tokens at all begins with the lexeme `start`. -/
inductive Predictive {α : Type} (start : Lexeme) (follow : List Token → Prop) (p : Parser α) :
    List Token → Prop where
  | ok {used rest : List Token} (a : α)
      (reads : ∀ rest', next rest' = next rest ∨ follow rest' → p (used ++ rest') = .ok a rest') :
      Predictive start follow p (used ++ rest)
  | fail {used rest : List Token} (c : SyntaxCause)
      (arises : c.Arises used rest)
      (fails : ∀ rest', next rest' = next rest → p (used ++ rest') = .fail c rest')
      (completes : c.isLocated = true → ∃ more, (used = [] → next more = some start) ∧
        ∀ tail, follow tail → ∃ a, p (used ++ (more ++ tail)) = .ok a tail) :
      Predictive start follow p (used ++ rest)

theorem next_append_congr {ts ts' : List Token} (h : next ts = next ts') (used : List Token) :
    next (used ++ ts) = next (used ++ ts') := by
  cases used with
  | nil => exact h
  | cons t used => rfl

theorem next_append_of_some {ts : List Token} {l : Lexeme} (h : next ts = some l)
    (tail : List Token) : next (ts ++ tail) = some l := by
  cases ts with
  | nil => cases h
  | cons t ts => exact h

theorem eq_nil_of_next {ts : List Token} (h : next ts = none) : ts = [] := by
  cases ts with
  | nil => rfl
  | cons t ts => cases h

theorem exists_of_next {ts : List Token} {l : Lexeme} (h : next ts = some l) :
    ∃ loc rest, ts = ⟨l, loc⟩ :: rest := by
  cases ts with
  | nil => cases h
  | cons t ts =>
    obtain rfl := Option.some.inj h
    exact ⟨t.loc, ts, rfl⟩

namespace Predictive

variable {α β : Type} {start start' : Lexeme} {follow follow' : List Token → Prop}
  {p : Parser α} {ts : List Token}

/-- Where a parser succeeds, it takes some tokens, and only the next lexeme matters besides. -/
theorem exists_of_ok (h : Predictive start follow p ts) {a : α} {rest : List Token}
    (hp : p ts = .ok a rest) :
    ∃ used, ts = used ++ rest ∧ ∀ rest', next rest' = next rest → p (used ++ rest') = .ok a rest' := by
  cases h with
  | @ok used rest' b reads =>
    rw [reads _ (.inl rfl)] at hp
    cases hp
    exact ⟨used, rfl, fun us hus => reads us (.inl hus)⟩
  | fail _ _ fails _ =>
    rw [fails _ rfl] at hp
    cases hp

/-- What is left is an end of the tokens. -/
theorem length_le (h : Predictive start follow p ts) {a : α} {rest : List Token}
    (hp : p ts = .ok a rest) : rest.length ≤ ts.length := by
  obtain ⟨used, rfl, -⟩ := h.exists_of_ok hp
  rw [List.length_append]
  omega

/-- Less may follow. -/
theorem mono (h : Predictive start follow p ts) (hsub : ∀ us, follow' us → follow us) :
    Predictive start follow' p ts := by
  cases h with
  | ok a reads => exact .ok a fun us hus => reads us (hus.imp_right (hsub us))
  | fail c arises fails completes =>
    refine .fail c arises fails fun hc => ?_
    obtain ⟨more, hmore, hreads⟩ := completes hc
    exact ⟨more, hmore, fun tail htail => hreads tail (hsub tail htail)⟩

/-- A parser that takes nothing. -/
theorem pure (a : α) (ts : List Token) : Predictive start follow (fun ts => .ok a ts) ts := by
  rw [← List.nil_append ts]
  exact .ok a fun _ _ => rfl

/-- The tokens `first` before those of another parser. -/
theorem step {q : Parser α} (first : List Token) (hfirst : first ≠ [])
    (h : Predictive start' follow p ts) (hq : ∀ us, q (first ++ us) = p us) :
    Predictive start follow q (first ++ ts) := by
  have hassoc : ∀ used us, q (first ++ used ++ us) = p (used ++ us) := by
    intro used us
    rw [List.append_assoc, hq]
  cases h with
  | @ok used rest a reads =>
    rw [← List.append_assoc]
    refine .ok a fun rest' hrest' => ?_
    rw [hassoc]
    exact reads rest' hrest'
  | @fail used rest c arises fails completes =>
    rw [← List.append_assoc]
    refine .fail c (arises.append first) (fun rest' hrest' => ?_) fun hc => ?_
    · rw [hassoc]
      exact fails rest' hrest'
    · obtain ⟨more, -, hmore⟩ := completes hc
      refine ⟨more, fun hnil => absurd (List.append_eq_nil_iff.1 hnil).1 hfirst, ?_⟩
      intro tail htail
      rw [hassoc]
      exact hmore tail htail

theorem map (h : Predictive start follow p ts) (f : α → β) :
    Predictive start follow (fun ts => (p ts).map f) ts := by
  cases h with
  | ok a reads =>
    refine .ok (f a) fun rest' hrest' => ?_
    rw [reads rest' hrest', Reply.map_ok]
  | fail c arises fails completes =>
    refine .fail c arises (fun rest' hrest' => ?_) fun hc => ?_
    · rw [fails rest' hrest', Reply.map_fail]
    · obtain ⟨more, hstart, hmore⟩ := completes hc
      refine ⟨more, hstart, fun tail htail => ?_⟩
      obtain ⟨a, ha⟩ := hmore tail htail
      exact ⟨f a, by rw [ha, Reply.map_ok]⟩

/-- **One parser after another.** The first takes some token when it succeeds. What follows the
second may follow the first, unless the second takes some token too; and so may what completes the
second, which can be run from scratch. -/
theorem andThen {f : α → Parser β} (h : Predictive start follow p ts) (second : Lexeme)
    (htakes : ∀ a rest, p ts = .ok a rest → rest.length < ts.length)
    (hf : ∀ a rest, p ts = .ok a rest → Predictive second follow' (f a) rest)
    (hfollow : ∀ a rest b, p ts = .ok a rest → f a rest = .ok b rest →
      ∀ us, follow' us → follow us)
    (hstart : ∀ us, next us = some second → follow us)
    (hscratch : ∃ more, ∀ tail, follow' tail →
      follow (more ++ tail) ∧ ∀ a, ∃ b, f a (more ++ tail) = .ok b tail) :
    Predictive start follow' (fun ts => (p ts).andThen f) ts := by
  cases h with
  | @ok used rest a reads =>
    have hp := reads rest (.inl rfl)
    have hused : used ≠ [] := by
      rintro rfl
      exact Nat.lt_irrefl _ (htakes a rest hp)
    cases hf a rest hp with
    | @ok used' rest' b reads' =>
      rw [← List.append_assoc]
      refine .ok b fun us hus => ?_
      have hnext : next (used' ++ us) = next (used' ++ rest') ∨ follow (used' ++ us) := by
        cases used' with
        | nil =>
          rcases hus with hus | hus
          · exact .inl hus
          · exact .inr (hfollow a _ b hp (reads' _ (.inl rfl)) us hus)
        | cons t used' => exact .inl rfl
      rw [List.append_assoc, reads _ hnext]
      exact reads' us hus
    | @fail used' rest' c arises fails completes =>
      rw [← List.append_assoc]
      refine .fail c (arises.append used) (fun us hus => ?_) fun hc => ?_
      · have hnext : next (used' ++ us) = next (used' ++ rest') := next_append_congr hus used'
        rw [List.append_assoc, reads _ (.inl hnext)]
        exact fails us hus
      · obtain ⟨more, hmore, hreads⟩ := completes hc
        refine ⟨more, fun hnil => absurd (List.append_eq_nil_iff.1 hnil).1 hused, ?_⟩
        intro tail htail
        have hnext : next (used' ++ (more ++ tail)) = next (used' ++ rest') ∨
            follow (used' ++ (more ++ tail)) := by
          cases used' with
          | nil => exact .inr (hstart _ (next_append_of_some (hmore rfl) tail))
          | cons t used' => exact .inl rfl
        obtain ⟨b, hb⟩ := hreads tail htail
        refine ⟨b, ?_⟩
        rw [List.append_assoc, reads _ hnext]
        exact hb
  | @fail used rest c arises fails completes =>
    refine .fail c arises (fun us hus => by rw [fails us hus, Reply.andThen_fail]) fun hc => ?_
    obtain ⟨more, hmore, hreads⟩ := completes hc
    obtain ⟨more', hscratch⟩ := hscratch
    refine ⟨more ++ more', fun hnil => next_append_of_some (hmore hnil) more', ?_⟩
    intro tail htail
    obtain ⟨hfollow', hf'⟩ := hscratch tail htail
    obtain ⟨a, ha⟩ := hreads _ hfollow'
    obtain ⟨b, hb⟩ := hf' a
    refine ⟨b, ?_⟩
    rw [List.append_assoc, ha, Reply.andThen_ok, hb]

/-- One parser after another that anything may follow. -/
theorem andThen_of_any {f : α → Parser β} (h : Predictive start (fun _ => True) p ts)
    (second : Lexeme) (htakes : ∀ a rest, p ts = .ok a rest → rest.length < ts.length)
    (hf : ∀ a rest, p ts = .ok a rest → Predictive second follow' (f a) rest)
    (hscratch : ∃ more, ∀ tail, follow' tail → ∀ a, ∃ b, f a (more ++ tail) = .ok b tail) :
    Predictive start follow' (fun ts => (p ts).andThen f) ts := by
  obtain ⟨more, hmore⟩ := hscratch
  refine h.andThen second htakes hf (fun _ _ _ _ _ _ _ => trivial) (fun _ _ => trivial) ?_
  exact ⟨more, fun tail htail => ⟨trivial, hmore tail htail⟩⟩

/-- **One parser or another**, as the lexeme `l` comes next or not. Where the second takes nothing,
what may follow does not begin with `l`. -/
theorem ifNext {after : List Token → Option (List Token)} {l : Lexeme}
    (hsome : ∀ {us rest}, after us = some rest ↔ ∃ loc, us = ⟨l, loc⟩ :: rest)
    (hnone : ∀ {us}, after us = none ↔ next us ≠ some l) {f g : Parser α}
    (hf : ∀ rest, after ts = some rest → Predictive start follow f rest)
    (hg : after ts = none → Predictive start follow g ts) (hstart : start ≠ l)
    (hfollow : ∀ a, g ts = .ok a ts → ∀ us, follow us → next us ≠ some l) :
    Predictive start follow (fun ts =>
      match after ts with
      | some rest => f rest
      | none => g ts) ts := by
  cases hafter : after ts with
  | some rest =>
    obtain ⟨loc, rfl⟩ := hsome.1 hafter
    refine step [⟨l, loc⟩] (by simp) (hf rest hafter) fun us => ?_
    have hafter' : after ([⟨l, loc⟩] ++ us) = some us := hsome.2 ⟨loc, rfl⟩
    rw [hafter']
  | none =>
    have hnext := hnone.1 hafter
    cases hg hafter with
    | @ok used rest a reads =>
      refine .ok a fun us hus => ?_
      have hne : next (used ++ us) ≠ some l := by
        cases used with
        | nil =>
          rcases hus with hus | hus
          · rwa [List.nil_append, hus]
          · exact hfollow a (reads rest (.inl rfl)) us hus
        | cons t used => exact hnext
      rw [hnone.2 hne]
      exact reads us hus
    | @fail used rest c arises fails completes =>
      refine .fail c arises (fun us hus => ?_) fun hc => ?_
      · have hne : next (used ++ us) ≠ some l := by rwa [next_append_congr hus used]
        rw [hnone.2 hne]
        exact fails us hus
      · obtain ⟨more, hmore, hreads⟩ := completes hc
        refine ⟨more, hmore, fun tail htail => ?_⟩
        have hne : next (used ++ (more ++ tail)) ≠ some l := by
          cases used with
          | nil =>
            rw [List.nil_append, next_append_of_some (hmore rfl) tail]
            exact fun h => hstart (Option.some.inj h)
          | cons t used => exact hnext
        rw [hnone.2 hne]
        exact hreads tail htail

/-- A parser that answers like another one on all tokens but none, if it is given some and takes
some of them. -/
theorem congr {q : Parser α} (h : Predictive start follow p ts) (hts : ts ≠ [])
    (htakes : ∀ a, p ts ≠ .ok a ts) (hq : ∀ us, us ≠ [] → q us = p us) :
    Predictive start follow q ts := by
  cases h with
  | @ok used rest a reads =>
    have hused : used ≠ [] := by
      rintro rfl
      exact htakes a (reads rest (.inl rfl))
    refine .ok a fun us hus => ?_
    rw [hq _ (by simp [hused])]
    exact reads us hus
  | @fail used rest c arises fails completes =>
    refine .fail c arises (fun us hus => ?_) fun hc => ?_
    · have hne : used ++ us ≠ [] := by
        intro hnil
        obtain ⟨rfl, rfl⟩ := List.append_eq_nil_iff.1 hnil
        exact hts (eq_nil_of_next hus.symm)
      rw [hq _ hne]
      exact fails us hus
    · obtain ⟨more, hmore, hreads⟩ := completes hc
      refine ⟨more, hmore, fun tail htail => ?_⟩
      have hne : used ++ (more ++ tail) ≠ [] := by
        intro hnil
        obtain ⟨hused, hrest⟩ := List.append_eq_nil_iff.1 hnil
        obtain ⟨rfl, -⟩ := List.append_eq_nil_iff.1 hrest
        cases hmore hused
      rw [hq _ hne]
      exact hreads tail htail

end Predictive

/-! ## The parsers of the grammar -/

/-- The cause of a failure where something else is asked for than what comes next. -/
def missing (what : Expected) : Option Lexeme → SyntaxCause
  | none => .endOfInput
  | some _ => .expected what

theorem missing_arises (what : Expected) (ts : List Token) :
    (missing what (next ts)).Arises [] ts := by
  cases ts with
  | nil => exact (rfl : ([] : List Token) = [])
  | cons t ts => exact List.cons_ne_nil t ts

/-- A parser that fails on the spot, and would take what begins with the lexeme `start`. -/
theorem Predictive.missing {α : Type} {start : Lexeme} {follow : List Token → Prop} {p : Parser α}
    {ts : List Token} (what : Expected)
    (hfails : ∀ us, next us = next ts → p us = .fail (missing what (next us)) us)
    (hscratch : ∃ more, next more = some start ∧
      ∀ tail, follow tail → ∃ a, p (more ++ tail) = .ok a tail) :
    Predictive start follow p ts := by
  rw [← List.nil_append ts]
  refine .fail _ (missing_arises what ts) (fun us hus => ?_) fun _ => ?_
  · rw [List.nil_append, hfails us hus, hus]
  · obtain ⟨more, hmore, hreads⟩ := hscratch
    exact ⟨more, fun _ => hmore, hreads⟩

theorem symbol_of_next_ne {s : Symbol} {ts : List Token} (h : next ts ≠ some (.symbol s))
    (what : Expected) : symbol s what ts = .fail (missing what (next ts)) ts := by
  cases ts with
  | nil => rfl
  | cons t ts =>
    have hne : t.lexeme ≠ .symbol s := fun heq => h (congrArg some heq)
    rw [symbol, if_neg hne]
    rfl

theorem word_of_next_ne {ts : List Token} (h : ∀ w, next ts ≠ some (.word w)) (what : Expected) :
    word what ts = .fail (missing what (next ts)) ts := by
  cases ts with
  | nil => rfl
  | cons t ts =>
    obtain ⟨l, loc⟩ := t
    cases l with
    | word w => exact absurd rfl (h w)
    | symbol s => rfl

theorem symbol_predictive (s : Symbol) (what : Expected) (ts : List Token) :
    Predictive (.symbol s) (fun _ => True) (symbol s what) ts := by
  by_cases h : next ts = some (.symbol s)
  · obtain ⟨loc, rest, rfl⟩ := exists_of_next h
    rw [← List.singleton_append]
    exact .ok loc fun us _ => symbol_eq_ok.2 rfl
  · refine .missing what (fun us hus => symbol_of_next_ne (by rwa [hus]) what) ?_
    exact ⟨[.anywhere (.symbol s)], rfl, fun tail _ => ⟨_, symbol_eq_ok.2 rfl⟩⟩

theorem word_predictive (what : Expected) (ts : List Token) :
    Predictive (.word "x") (fun _ => True) (word what) ts := by
  by_cases h : ∃ w, next ts = some (.word w)
  · obtain ⟨w, hw⟩ := h
    obtain ⟨loc, rest, rfl⟩ := exists_of_next hw
    rw [← List.singleton_append]
    exact .ok (w, loc) fun us _ => rfl
  · refine .missing what (fun us hus => word_of_next_ne (fun w hw => h ⟨w, ?_⟩) what) ?_
    · rw [← hus, hw]
    · exact ⟨[.anywhere (.word "x")], rfl, fun tail _ => ⟨_, rfl⟩⟩

theorem parametersFrom_predictive (ts : List Token) : ∀ comma,
    Predictive (.symbol .closeParen) (fun _ => True) (parametersFrom comma) ts := by
  -- wherever parameters are read, a closing parenthesis ends them
  have hscratch : ∀ comma, ∃ more, next more = some (.symbol .closeParen) ∧
      ∀ tail, True → ∃ ps, parametersFrom comma (more ++ tail) = .ok ps tail := fun comma =>
    ⟨[.anywhere (.symbol .closeParen)], rfl, fun tail _ => ⟨[], rfl⟩⟩
  induction ts with
  | nil =>
    intro comma
    refine .missing .closeParenOrWord (fun us hus => ?_) (hscratch comma)
    rw [eq_nil_of_next hus]
    rfl
  | cons t ts ih =>
    intro comma
    obtain ⟨l, loc⟩ := t
    have hstuck : ∀ s, s ≠ .closeParen → (s = .comma → comma = false) →
        Predictive (.symbol .closeParen) (fun _ => True) (parametersFrom comma)
          (⟨.symbol s, loc⟩ :: ts) := by
      intro s hclose hcomma
      refine .missing .closeParenOrWord (fun us hus => ?_) (hscratch comma)
      obtain ⟨loc', us, rfl⟩ := exists_of_next hus
      cases s with
      | closeParen => exact absurd rfl hclose
      | comma => simp [parametersFrom, hcomma rfl, Parse.missing]
      | openParen | openBrace | closeBrace | openBracket | closeBracket | colon => rfl
    cases l with
    | word w => exact .step [⟨.word w, loc⟩] (by simp) ((ih true).map _) fun us => rfl
    | symbol s =>
      by_cases hclose : s = .closeParen
      · rw [hclose, ← List.singleton_append]
        exact .ok [] fun us _ => rfl
      · by_cases hcomma : s = .comma ∧ comma = true
        · obtain ⟨rfl, rfl⟩ := hcomma
          exact .step [⟨.symbol .comma, loc⟩] (by simp) (ih false) fun us => rfl
        · exact hstuck s hclose fun hs => by simpa [hs] using hcomma

theorem apart_symbol {s : Symbol} (hs : s ≠ .openParen) {us : List Token}
    (h : next us = some (.symbol s)) : Apart us := by
  rw [Apart, h]
  exact ⟨by simpa using hs, by simp⟩

theorem apart_x {us : List Token} (h : next us = some (.word "x")) : Apart us := by
  rw [Apart, h]
  exact ⟨by simp, by decide⟩

section Parts

variable {ts : List Token}

/-- A block is read by reading its expression from fewer tokens. -/
theorem block_predictive_of
    (h : ∀ us : List Token, us.length < ts.length → Predictive (.word "x") Apart expression us) :
    Predictive (.symbol .openBrace) (fun _ => True) block ts := by
  refine (symbol_predictive .openBrace .openBrace ts).andThen_of_any (.word "x")
    (fun loc rest hopen => ?_) (fun loc rest hopen => ?_)
    ⟨[.anywhere (.symbol .closeBrace)], fun tail _ loc => ⟨_, rfl⟩⟩
  · rw [symbol_eq_ok.1 hopen]
    exact Nat.lt_succ_self _
  · rw [symbol_eq_ok.1 hopen] at h
    have hinner : Predictive (.word "x") (fun _ => True)
        (fun ts => (expression ts).andThen fun e ts =>
          (symbol .closeBrace .closeBrace ts).map fun _ => e) rest := by
      refine (h rest (Nat.lt_succ_self _)).andThen (.symbol .closeBrace)
        (fun e us => length_lt_of_expression)
        (fun e us _ => (symbol_predictive .closeBrace .closeBrace us).map _) ?_
        (fun us => apart_symbol (by decide)) ?_
      · -- the closing brace is taken
        intro e us b _ hclose
        obtain ⟨cloc, hclose, -⟩ := Reply.map_eq_ok.1 hclose
        have hlen := congrArg List.length (symbol_eq_ok.1 hclose)
        rw [List.length_cons] at hlen
        omega
      · refine ⟨[.anywhere (.symbol .closeBrace)], fun tail _ => ⟨?_, fun e => ⟨e, rfl⟩⟩⟩
        exact apart_symbol (by decide) rfl
    refine .ifNext after?_eq_some after?_eq_none (fun us _ => .pure _ us) (fun _ => hinner)
      (by decide) ?_
    -- an expression takes some token, and so nothing can follow at once
    intro b hb
    obtain ⟨e, us, he, hclose⟩ := Reply.andThen_eq_ok.1 hb
    obtain ⟨cloc, hclose, -⟩ := Reply.map_eq_ok.1 hclose
    have hlt := length_lt_of_expression he
    rw [symbol_eq_ok.1 hclose, List.length_cons] at hlt
    omega

/-- A comma may come before the tokens of a parser that takes some, but no comma first. -/
theorem skipComma_predictive {α : Type} {start : Lexeme} {p : Parser α}
    (h : ∀ us : List Token, us.length ≤ ts.length → Predictive start (fun _ => True) p us)
    (hstart : start ≠ .symbol .comma)
    (htakes : ∀ {us a rest}, p us = .ok a rest → rest.length < us.length) :
    Predictive start (fun _ => True) (fun ts => p (skipComma ts)) ts := by
  have hskip : (fun ts => p (skipComma ts)) = fun ts =>
      match after? .comma ts with
      | some rest => p rest
      | none => p ts := by
    funext us
    unfold skipComma
    cases after? .comma us <;> rfl
  rw [hskip]
  refine .ifNext after?_eq_some after?_eq_none (fun rest hafter => h rest ?_)
    (fun _ => h ts (Nat.le_refl _)) hstart (fun a hp => absurd (htakes hp) (Nat.lt_irrefl _))
  obtain ⟨loc, rfl⟩ := after?_eq_some.1 hafter
  exact Nat.le_succ _

/-- Arguments are read by reading an expression, and arguments from fewer tokens. -/
theorem arguments_predictive_of {n : Nat} : ∀ {ts : List Token}, ts.length ≤ n →
    (∀ us : List Token, us.length ≤ ts.length → Predictive (.word "x") Apart expression us) →
      Predictive (.word "x") (fun _ => True) arguments ts := by
  induction n with
  | zero =>
    intro ts hn _
    obtain rfl : ts = [] := List.length_eq_zero_iff.1 (by omega)
    refine .missing .word (fun us hus => ?_) ?_
    · rw [eq_nil_of_next hus]
      rfl
    · refine ⟨[.anywhere (.word "x"), .anywhere (.symbol .closeParen)], rfl,
        fun tail _ => ⟨_, rfl⟩⟩
  | succ n ih =>
    intro ts hn h
    have hmore : Predictive (.word "x") (fun _ => True)
        (fun ts => (expression ts).andThen fun e ts =>
          (arguments (skipComma ts)).map (e :: ·)) ts := by
      refine (h ts (Nat.le_refl _)).andThen (.word "x")
        (fun e us => length_lt_of_expression) (fun e us he => ?_) ?_
        (fun us => apart_x) ?_
      · have hlt := length_lt_of_expression he
        refine (skipComma_predictive (fun us' hus' => ?_) (by decide)
          length_lt_of_arguments).map _
        exact ih (by omega) fun vs hvs => h vs (by omega)
      · intro e us b _ hb
        obtain ⟨es, hes, -⟩ := Reply.map_eq_ok.1 hb
        have hlt := length_lt_of_arguments hes
        have hskip := length_skipComma_le us
        omega
      · refine ⟨[.anywhere (.symbol .closeParen)], fun tail _ => ⟨?_, fun e => ⟨[e], ?_⟩⟩⟩
        · exact apart_symbol (by decide) rfl
        · rfl
    rw [funext arguments_eq]
    refine .ifNext after?_eq_some after?_eq_none (fun us _ => .pure [] us) (fun _ => hmore)
      (by decide) ?_
    intro es hes
    obtain ⟨e, us, he, hmap⟩ := Reply.andThen_eq_ok.1 hes
    obtain ⟨es', hes', -⟩ := Reply.map_eq_ok.1 hmap
    have hlt := length_lt_of_expression he
    have hlt' := length_lt_of_arguments hes'
    have hskip := length_skipComma_le us
    omega

/-- A branch is read by reading its condition and its blocks. -/
theorem branch_predictive_of (loc : Location)
    (h : ∀ us : List Token, us.length ≤ ts.length → Predictive (.word "x") Apart expression us) :
    Predictive (.word "x") Apart (branchOf expression loc) ts := by
  have hblock : ∀ us : List Token, us.length ≤ ts.length →
      Predictive (.symbol .openBrace) (fun _ => True) block us :=
    fun us hus => block_predictive_of fun vs hvs => h vs (by omega)
  -- an `else` is taken with its block, and what may follow is none
  have halternative : ∀ (c t : Expr) (us : List Token), us.length ≤ ts.length →
      Predictive (.symbol .openBrace) Apart (fun ts =>
        match afterWord? "else" ts with
        | some ts => (block ts).map fun e => Expr.branch (some loc) c t e
        | none => .ok (Expr.branch (some loc) c t (.empty (some loc))) ts) us := by
    intro c t us hus
    refine .ifNext afterWord?_eq_some afterWord?_eq_none (fun vs hvs => ?_)
      (fun _ => .pure _ us) (by decide) (fun _ _ vs hvs => hvs.2)
    obtain ⟨eloc, rfl⟩ := afterWord?_eq_some.1 hvs
    rw [List.length_cons] at hus
    exact ((hblock vs (by omega)).map _).mono fun _ _ => trivial
  have hno : ∀ (c t : Expr) (tail : List Token), Apart tail →
      (match afterWord? "else" tail with
        | some ts => (block ts).map fun e => Expr.branch (some loc) c t e
        | none => .ok (Expr.branch (some loc) c t (.empty (some loc))) tail) =
        .ok (Expr.branch (some loc) c t (.empty (some loc))) tail := by
    intro c t tail htail
    rw [afterWord?_eq_none.2 htail.2]
  refine (h ts (Nat.le_refl _)).andThen (.symbol .openBrace)
    (fun c us => length_lt_of_expression) (fun c us hc => ?_)
    (fun _ _ _ _ _ _ => id) (fun us => apart_symbol (by decide)) ?_
  · have hlt := length_lt_of_expression hc
    refine (hblock us (by omega)).andThen_of_any (.symbol .openBrace)
      (fun t vs => length_lt_of_block) (fun t vs ht => halternative c t vs ?_)
      ⟨[], fun tail htail t => ⟨_, hno c t tail htail⟩⟩
    have hlt' := length_lt_of_block ht
    omega
  · refine ⟨[.anywhere (.symbol .openBrace), .anywhere (.symbol .closeBrace)],
      fun tail htail => ⟨apart_symbol (by decide) rfl, fun c => ⟨_, hno c _ tail htail⟩⟩⟩

end Parts

/-- A bare word is read without regard to what comes after it: as an expression, unless it is a
numeral that is too long. -/
theorem bareWord_cases (w : String) (loc : Location) :
    (∃ e, ∀ us, bareWord w loc us = .ok e us) ∨
      ∃ cs, IsNumeral w cs ∧ maxDigits < cs.length ∧
        ∀ us, bareWord w loc us = .fail (.numeralTooLong cs.length) us := by
  by_cases hnumeral : ∃ cs, IsNumeral w cs
  · obtain ⟨cs, hcs⟩ := hnumeral
    by_cases hlong : maxDigits < cs.length
    · exact .inr ⟨cs, hcs, hlong, fun us => bareWord_long hcs loc us hlong⟩
    have hread := fun us => bareWord_numeral hcs loc us (Nat.not_lt.1 hlong)
    left
    by_cases hle : Nat.ofDigitChars 10 cs 0 ≤ 4294967295
    · exact ⟨_, fun us => by rw [hread, if_pos hle]⟩
    · exact ⟨_, fun us => by rw [hread, if_neg hle]⟩
  · have hnone := Text.wordDigits?_eq_none_iff.2 fun cs hcs => hnumeral ⟨cs, hcs⟩
    exact .inl ⟨.var (some loc) w, fun us => by simp only [bareWord, hnone]⟩

theorem expression_bare {w : String} (hif : w ≠ "if") (loc : Location) {us : List Token}
    (hn : next us ≠ some (.symbol .openParen)) :
    expression (⟨.word w, loc⟩ :: us) = bareWord w loc us := by
  rw [expression_eq]
  exact expressionOf_bare hif hn

theorem bareWord_predictive {w : String} (hif : w ≠ "if") (loc : Location) {ts : List Token}
    (hn : next ts ≠ some (.symbol .openParen)) :
    Predictive (.word "x") Apart expression ([⟨.word w, loc⟩] ++ ts) := by
  rcases bareWord_cases w loc with ⟨e, he⟩ | ⟨cs, hcs, hlong, hfail⟩
  · refine .ok e fun us hus => ?_
    have hopen : next us ≠ some (.symbol .openParen) := by
      rcases hus with hus | hus
      · rwa [hus]
      · exact hus.1
    rw [List.singleton_append, expression_bare hif loc hopen, he]
  · refine .fail (.numeralTooLong cs.length) ⟨[], w, loc, cs, rfl, hcs, rfl, hlong, hn⟩
      (fun us hus => ?_) fun hc => ?_
    · rw [List.singleton_append, expression_bare hif loc (by rwa [hus]), hfail]
    · cases hc

/-- **Expressions are predictive.** -/
theorem expression_predictive (ts : List Token) :
    Predictive (.word "x") Apart expression ts := by
  -- the parts of an expression are read from fewer tokens
  have hall : ∀ (n : Nat) (ts : List Token), ts.length < n →
      Predictive (.word "x") Apart expression ts := by
    intro n
    induction n with
    | zero => intro ts hn; omega
    | succ n ih =>
      intro ts hn
      by_cases hword : ∃ w, next ts = some (.word w)
      · obtain ⟨w, hw⟩ := hword
        obtain ⟨loc, ts, rfl⟩ := exists_of_next hw
        rw [List.length_cons] at hn
        by_cases hif : w = "if"
        · rw [hif, expression_eq]
          exact .step [⟨.word "if", loc⟩] (by simp)
            (branch_predictive_of loc fun us hus => ih us (by omega)) fun us => expressionOf_if
        by_cases hopen : next ts = some (.symbol .openParen)
        · obtain ⟨ploc, ts, rfl⟩ := exists_of_next hopen
          rw [List.length_cons] at hn
          have harguments : Predictive (.word "x") (fun _ => True) arguments ts :=
            arguments_predictive_of (Nat.le_refl _) fun us hus => ih us (by omega)
          have hcall := (harguments.map (Expr.call (some loc) w)).mono
            fun us (_ : Apart us) => trivial
          rw [expression_eq]
          exact .step [⟨.word w, loc⟩, ⟨.symbol .openParen, ploc⟩] (by simp) hcall
            fun us => expressionOf_call hif ploc
        · exact bareWord_predictive hif loc hopen
      · refine .missing .word (fun us hus => ?_) ?_
        · have hno : ∀ w, next us ≠ some (.word w) := fun w hw => hword ⟨w, by rw [← hus, hw]⟩
          rw [expression_eq, expressionOf, word_of_next_ne hno, Reply.andThen_fail]
        · refine ⟨[.anywhere (.word "x")], rfl, fun tail htail =>
            ⟨.var (some (Location.start "")) "x", ?_⟩⟩
          rw [List.singleton_append, Token.anywhere, expression_bare (by decide) _ htail.1]
          rfl
  exact hall _ ts (Nat.lt_succ_self _)

theorem block_predictive (ts : List Token) :
    Predictive (.symbol .openBrace) (fun _ => True) block ts :=
  block_predictive_of fun us _ => expression_predictive us

/-- **A definition is predictive.** -/
theorem definition_predictive (ts : List Token) :
    Predictive (.word "x") (fun _ => True) definition ts := by
  refine (word_predictive .functionName ts).andThen_of_any (.symbol .openParen)
    (fun name us hname => ?_) (fun name us _ => ?_)
    ⟨[.anywhere (.symbol .openParen), .anywhere (.symbol .closeParen),
      .anywhere (.symbol .openBrace), .anywhere (.symbol .closeBrace)],
      fun tail _ name => ⟨_, rfl⟩⟩
  · rw [word_eq_ok.1 hname]
    exact Nat.lt_succ_self _
  refine (symbol_predictive .openParen .openParen us).andThen_of_any (.symbol .closeParen)
    (fun loc vs hopen => ?_) (fun loc vs _ => ?_)
    ⟨[.anywhere (.symbol .closeParen), .anywhere (.symbol .openBrace),
      .anywhere (.symbol .closeBrace)], fun tail _ loc => ⟨_, rfl⟩⟩
  · rw [symbol_eq_ok.1 hopen]
    exact Nat.lt_succ_self _
  exact (parametersFrom_predictive vs false).andThen_of_any (.symbol .openBrace)
    (fun ps rest => length_lt_of_parameters) (fun ps rest _ => (block_predictive rest).map _)
    ⟨[.anywhere (.symbol .openBrace), .anywhere (.symbol .closeBrace)],
      fun tail _ ps => ⟨_, rfl⟩⟩

/-- **Programs are predictive**, and nothing may follow them. -/
theorem definitions_predictive (ts : List Token) :
    Predictive (.word "x") (· = []) definitions ts := by
  have hall : ∀ (n : Nat) (ts : List Token), ts.length < n →
      Predictive (.word "x") (· = []) definitions ts := by
    intro n
    induction n with
    | zero => intro ts hn; omega
    | succ n ih =>
      intro ts hn
      cases ts with
      | nil =>
        change Predictive _ _ _ ([] ++ [])
        refine .ok [] fun us hus => ?_
        obtain rfl : us = [] := hus.elim eq_nil_of_next id
        rfl
      | cons t ts =>
        have hone : Predictive (.word "x") (· = []) (fun ts => (definition ts).andThen fun d ts =>
            (definitions ts).map (d :: ·)) (t :: ts) := by
          refine (definition_predictive (t :: ts)).andThen_of_any (.word "x")
            (fun d rest => length_lt_of_definition) (fun d rest hd => (ih rest ?_).map _)
            ⟨[], fun tail htail d => ⟨[d], ?_⟩⟩
          · have hlt := length_lt_of_definition hd
            omega
          · rw [htail]
            rfl
        refine hone.congr (by simp) (fun ds hds => ?_) fun us hus => ?_
        · obtain ⟨d, rest, hd, hds⟩ := Reply.andThen_eq_ok.1 hds
          obtain ⟨ds, hds, -⟩ := Reply.map_eq_ok.1 hds
          have hlt := length_lt_of_definition hd
          have hle := (ih rest (by omega)).length_le hds
          omega
        · obtain ⟨u, us, rfl⟩ := List.exists_cons_of_ne_nil hus
          exact definitions_cons u us
  exact hall _ ts (Nat.lt_succ_self _)

end Parse

end Wordlet
