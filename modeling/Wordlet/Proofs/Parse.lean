import Mathlib.Data.List.Basic
import Wordlet.Proofs.Grammar
import Wordlet.Token.Scan

/-!
# The parser accepts exactly the grammar

* `expressionUpTo_sound`, `blockOf_sound`, `argumentsOf_sound`, `definitions_sound`: what a parser
  gives is derived from the tokens it takes.
* `expression_complete`, `block_complete`, `arguments_complete`, `definitions_complete`: what is
  derived is given, if no bare numeral in it is too long. The bounds of the parsers on nesting and
  on numbers of arguments and definitions are never met.
* `Program.parse_iff_derives`: **the parser accepts exactly the grammar**, and the tree is the only
  one.
-/

namespace Wordlet

open Text (IsNumeral maxDigits)
open Grammar

/-! ## Answers of parsers -/

theorem Reply.andThen_eq_ok {α β : Type} {r : Reply α} {f : α → List Token → Reply β} {b : β}
    {rest : List Token} :
    r.andThen f = .ok b rest ↔ ∃ a ts, r = .ok a ts ∧ f a ts = .ok b rest := by
  cases r with
  | ok a ts => exact ⟨fun h => ⟨a, ts, rfl, h⟩, by rintro ⟨_, _, h, h'⟩; cases h; exact h'⟩
  | fail c ts => simp

/-- What goes on after an answer matters only for the tree and the tokens of that answer. -/
theorem Reply.andThen_congr {α β : Type} {r : Reply α} {f g : α → List Token → Reply β}
    (h : ∀ a rest, r = .ok a rest → f a rest = g a rest) : r.andThen f = r.andThen g := by
  cases r with
  | ok a rest => exact h a rest rfl
  | fail c rest => rfl

theorem Reply.map_eq_ok {α β : Type} {r : Reply α} {f : α → β} {b : β} {rest : List Token} :
    r.map f = .ok b rest ↔ ∃ a, r = .ok a rest ∧ f a = b := by
  cases r with
  | ok a ts => exact ⟨by rintro ⟨⟩; exact ⟨a, rfl, rfl⟩, by rintro ⟨_, h, rfl⟩; cases h; rfl⟩
  | fail c ts => simp

namespace Parse

theorem symbol_eq_ok {s : Symbol} {what : Expected} {ts rest : List Token} {loc : Location} :
    symbol s what ts = .ok loc rest ↔ ts = ⟨.symbol s, loc⟩ :: rest := by
  cases ts with
  | nil => simp [symbol]
  | cons t ts =>
    obtain ⟨l, tloc⟩ := t
    by_cases hl : l = .symbol s
    · simp [symbol, hl]
    · simp [symbol, hl]

theorem word_eq_ok {what : Expected} {ts rest : List Token} {w : String} {loc : Location} :
    word what ts = .ok (w, loc) rest ↔ ts = ⟨.word w, loc⟩ :: rest := by
  cases ts with
  | nil => simp [word]
  | cons t ts =>
    obtain ⟨l, tloc⟩ := t
    cases l <;> simp [word, and_assoc]

theorem after?_eq_some {s : Symbol} {ts rest : List Token} :
    after? s ts = some rest ↔ ∃ loc, ts = ⟨.symbol s, loc⟩ :: rest := by
  cases ts with
  | nil => simp [after?]
  | cons t ts =>
    obtain ⟨l, tloc⟩ := t
    by_cases hl : l = .symbol s
    · simp [after?, hl]
    · simp [after?, hl]

theorem after?_eq_none {s : Symbol} {ts : List Token} :
    after? s ts = none ↔ next ts ≠ some (.symbol s) := by
  cases ts <;> simp [after?]

theorem afterWord?_eq_some {w : String} {ts rest : List Token} :
    afterWord? w ts = some rest ↔ ∃ loc, ts = ⟨.word w, loc⟩ :: rest := by
  cases ts with
  | nil => simp [afterWord?]
  | cons t ts =>
    obtain ⟨l, tloc⟩ := t
    by_cases hl : l = .word w
    · simp [afterWord?, hl]
    · simp [afterWord?, hl]

theorem afterWord?_eq_none {w : String} {ts : List Token} :
    afterWord? w ts = none ↔ next ts ≠ some (.word w) := by
  cases ts <;> simp [afterWord?]

@[simp] theorem afterWord?_self (w : String) (loc : Location) (ts : List Token) :
    afterWord? w (⟨.word w, loc⟩ :: ts) = some ts := by
  simp [afterWord?]

@[simp] theorem skipComma_comma (loc : Location) (ts : List Token) :
    skipComma (⟨.symbol .comma, loc⟩ :: ts) = ts := rfl

/-- A comma is skipped if it comes next, and nothing else is. -/
theorem skipComma_eq (ts : List Token) :
    (∃ loc, ts = ⟨.symbol .comma, loc⟩ :: skipComma ts) ∨ skipComma ts = ts := by
  unfold skipComma
  cases h : after? .comma ts with
  | none => right; rfl
  | some rest => left; exact after?_eq_some.1 h

theorem skipComma_of_next_ne {ts : List Token} (h : next ts ≠ some (.symbol .comma)) :
    skipComma ts = ts := by
  rw [skipComma, after?_eq_none.2 h]; rfl

theorem bareWord_numeral {w : String} {cs : List Char} (hcs : IsNumeral w cs) (loc : Location)
    (ts : List Token) (hlen : cs.length ≤ maxDigits) :
    bareWord w loc ts =
      if Nat.ofDigitChars 10 cs 0 ≤ 4294967295 then
        .ok (.literal (some loc) (Nat.ofDigitChars 10 cs 0)) ts
      else .ok (.var (some loc) w) ts := by
  have hds := Text.wordDigits?_eq_some_iff.2 ⟨cs, hcs, rfl⟩
  simp only [bareWord, hds, List.length_map, Nat.not_lt.2 hlen, if_false,
    Text.ofDigits_map_digitOf, maxLiteral]

theorem bareWord_long {w : String} {cs : List Char} (hcs : IsNumeral w cs) (loc : Location)
    (ts : List Token) (hlong : maxDigits < cs.length) :
    bareWord w loc ts = .fail (.numeralTooLong cs.length) ts := by
  have hds := Text.wordDigits?_eq_some_iff.2 ⟨cs, hcs, rfl⟩
  simp only [bareWord, hds, List.length_map, hlong, if_true]

/-! ## Short numerals -/

/-- No bare numeral of the tokens has more digits than are read, while `n` braces are open. -/
def Short (n : Nat) (ts : List Token) : Prop :=
  ∀ w ∈ bareWords n ts, ∀ cs, IsNumeral w cs → cs.length ≤ maxDigits

theorem short_nil {n : Nat} : Short n [] := by simp [Short, bareWords]

theorem Short.of_subset {n m : Nat} {ts ts' : List Token} (h : Short n ts)
    (hsub : bareWords m ts' ⊆ bareWords n ts) : Short m ts' :=
  fun w hw => h w (hsub hw)

theorem Short.word {n : Nat} {w : String} {loc : Location} {ts : List Token}
    (h : Short n (⟨.word w, loc⟩ :: ts)) : Short n ts :=
  h.of_subset (bareWords_word_subset n w loc ts)

theorem Short.brace {n : Nat} {loc : Location} {ts : List Token}
    (h : Short n (⟨.symbol .openBrace, loc⟩ :: ts)) : Short (n + 1) ts := h

theorem Short.comma {n : Nat} {loc : Location} {ts : List Token}
    (h : Short n (⟨.symbol .comma, loc⟩ :: ts)) : Short n ts := h

theorem Short.paren {n : Nat} {loc : Location} {ts : List Token}
    (h : Short n (⟨.symbol .openParen, loc⟩ :: ts)) : Short n ts := h

theorem Short.cons_word {n : Nat} {w : String} {loc : Location} {ts : List Token} (h : Short n ts)
    (hw : 0 < n → next ts ≠ some (.symbol .openParen) →
      ∀ cs, IsNumeral w cs → cs.length ≤ maxDigits) : Short n (⟨.word w, loc⟩ :: ts) := by
  intro x hx
  simp only [bareWords] at hx
  split at hx
  · rename_i hbare
    rcases List.mem_cons.1 hx with rfl | hx
    · exact hw hbare.1 hbare.2
    · exact h x hx
  · exact h x hx

/-! ## Soundness -/

/-- The tokens begin with an expression, and a bare numeral that is too long, if there is one, comes
after it. -/
structure Reads (ts : List Token) (e : Expr) (rest : List Token) : Prop where
  derives : Expression ts e rest
  short : ∀ {n}, Short (n + 1) rest → Short (n + 1) ts

namespace Reads

variable {w : String} {loc : Location} {ts ts₁ ts₂ rest : List Token}

theorem literal {cs : List Char} (hcs : IsNumeral w cs)
    (hle : Nat.ofDigitChars 10 cs 0 ≤ 4294967295) (hlen : cs.length ≤ maxDigits) :
    Reads (⟨.word w, loc⟩ :: ts) (.literal (some loc) (Nat.ofDigitChars 10 cs 0)) ts :=
  ⟨.literal hcs hle, fun hs => hs.cons_word fun _ _ _ hcs' => hcs.unique hcs' ▸ hlen⟩

theorem var (hif : w ≠ "if") (hlt : ∀ cs, IsNumeral w cs → 4294967295 < Nat.ofDigitChars 10 cs 0)
    (hlen : ∀ cs, IsNumeral w cs → cs.length ≤ maxDigits) :
    Reads (⟨.word w, loc⟩ :: ts) (.var (some loc) w) ts :=
  ⟨.var hif hlt, fun hs => hs.cons_word fun _ _ => hlen⟩

theorem call (hif : w ≠ "if") {ploc : Location} {es : List Expr} (hes : Arguments ts es rest)
    (hs : ∀ {n}, Short (n + 1) rest → Short (n + 1) ts) :
    Reads (⟨.word w, loc⟩ :: ⟨.symbol .openParen, ploc⟩ :: ts) (.call (some loc) w es) rest :=
  ⟨.call hif hes, fun h => Short.cons_word (hs h) fun _ hn => absurd rfl hn⟩

theorem branch {c t : Expr} (hc : Reads ts c ts₁) (ht : Block ts₁ t rest)
    (hs : ∀ {n}, Short n rest → Short n ts₁) (hn : next rest ≠ some (.word "else")) :
    Reads (⟨.word "if", loc⟩ :: ts) (.branch (some loc) c t (.empty (some loc))) rest :=
  ⟨.branch hc.derives ht hn, fun h => (hc.short (hs h)).cons_word fun _ _ _ hcs =>
    absurd rfl (ne_if_of_isNumeral hcs)⟩

theorem branchElse {eloc : Location} {c t e : Expr} (hc : Reads ts c ts₁)
    (ht : Block ts₁ t (⟨.word "else", eloc⟩ :: ts₂))
    (hs : ∀ {n}, Short n (⟨.word "else", eloc⟩ :: ts₂) → Short n ts₁) (he : Block ts₂ e rest)
    (hs' : ∀ {n}, Short n rest → Short n ts₂) :
    Reads (⟨.word "if", loc⟩ :: ts) (.branch (some loc) c t e) rest := by
  refine ⟨.branchElse hc.derives ht he, fun {n} h => ?_⟩
  have helse : Short (n + 1) (⟨.word "else", eloc⟩ :: ts₂) :=
    (hs' h).cons_word fun _ _ _ hcs => absurd rfl (ne_else_of_isNumeral hcs)
  exact (hc.short (hs helse)).cons_word fun _ _ _ hcs => absurd rfl (ne_if_of_isNumeral hcs)

end Reads

/-- **A bare word** is a literal when it is a numeral of at most `4294967295`, and a variable
otherwise. -/
theorem bareWord_sound {w : String} {loc : Location} {ts rest : List Token} {e : Expr}
    (hif : w ≠ "if") (h : bareWord w loc ts = .ok e rest) :
    Reads (⟨.word w, loc⟩ :: ts) e rest := by
  unfold bareWord at h
  split at h
  · -- the word is no numeral at all
    rename_i hnone
    cases h
    have hw := Text.wordDigits?_eq_none_iff.1 hnone
    exact .var hif (fun cs hcs => absurd hcs (hw cs)) fun cs hcs => absurd hcs (hw cs)
  · rename_i ds hds
    obtain ⟨cs, hcs, rfl⟩ := Text.wordDigits?_eq_some_iff.1 hds
    rw [Text.ofDigits_map_digitOf, List.length_map] at h
    split at h
    · -- a numeral that is too long is refused
      simp at h
    rename_i hlen
    split at h
    · rename_i hle
      cases h
      exact .literal hcs hle (Nat.not_lt.1 hlen)
    · rename_i hlt
      cases h
      refine .var hif (fun cs' hcs' => ?_) fun cs' hcs' => ?_
      · rw [← hcs.unique hcs']; exact Nat.lt_of_not_le hlt
      · rw [← hcs.unique hcs']; exact Nat.not_lt.1 hlen

section Sound

variable {inner : Parser Expr} (hin : ∀ {ts e rest}, inner ts = .ok e rest → Reads ts e rest)

include hin

theorem blockOf_sound {ts rest : List Token} {e : Expr} (h : blockOf inner ts = .ok e rest) :
    Block ts e rest ∧ ∀ {n}, Short n rest → Short n ts := by
  obtain ⟨loc, ts₁, h1, h⟩ := Reply.andThen_eq_ok.1 h
  rw [symbol_eq_ok.1 h1]
  split at h
  · rename_i ts₂ h2
    obtain ⟨cloc, rfl⟩ := after?_eq_some.1 h2
    cases h
    exact ⟨.empty, fun hs => hs⟩
  · obtain ⟨e', ts₂, h2, h⟩ := Reply.andThen_eq_ok.1 h
    obtain ⟨cloc, h3, rfl⟩ := Reply.map_eq_ok.1 h
    rw [symbol_eq_ok.1 h3] at h2
    exact ⟨.expression (hin h2).derives, fun hs => (hin h2).short hs⟩

theorem argumentsOf_sound : ∀ {m : Nat} {ts rest : List Token} {es : List Expr},
    argumentsOf inner m ts = .ok es rest →
      Arguments ts es rest ∧ ∀ {n}, Short (n + 1) rest → Short (n + 1) ts := by
  intro m
  induction m with
  | zero => intro ts rest es h; simp [argumentsOf] at h
  | succ m ih =>
    intro ts rest es h
    rw [argumentsOf] at h
    split at h
    · rename_i ts₁ h1
      obtain ⟨loc, rfl⟩ := after?_eq_some.1 h1
      cases h
      exact ⟨.close, fun hs => hs⟩
    · obtain ⟨e, ts₁, h1, h⟩ := Reply.andThen_eq_ok.1 h
      obtain ⟨es, h2, rfl⟩ := Reply.map_eq_ok.1 h
      have he := hin h1
      obtain ⟨hes, hshort⟩ := ih h2
      -- the comma that was skipped, if any, tells which rule derives the arguments
      rcases skipComma_eq ts₁ with ⟨loc, h3⟩ | h3
      · rw [h3] at he
        exact ⟨.comma he.derives hes, fun hs => he.short (hshort hs)⟩
      · rw [h3] at hes hshort
        exact ⟨.plain he.derives hes, fun hs => he.short (hshort hs)⟩

theorem branchOf_sound {loc : Location} {ts rest : List Token} {e : Expr}
    (h : branchOf inner loc ts = .ok e rest) : Reads (⟨.word "if", loc⟩ :: ts) e rest := by
  obtain ⟨c, ts₁, hc, h⟩ := Reply.andThen_eq_ok.1 h
  obtain ⟨t, ts₂, ht, h⟩ := Reply.andThen_eq_ok.1 h
  obtain ⟨hb, hshort⟩ := blockOf_sound hin ht
  split at h
  · rename_i ts₃ h1
    obtain ⟨eloc, rfl⟩ := afterWord?_eq_some.1 h1
    obtain ⟨e', he, rfl⟩ := Reply.map_eq_ok.1 h
    obtain ⟨hb', hshort'⟩ := blockOf_sound hin he
    exact .branchElse (hin hc) hb hshort hb' hshort'
  · rename_i h1
    cases h
    exact .branch (hin hc) hb hshort (afterWord?_eq_none.1 h1)

theorem expressionOf_sound {ts rest : List Token} {e : Expr}
    (h : expressionOf inner ts = .ok e rest) : Reads ts e rest := by
  obtain ⟨⟨w, loc⟩, ts₁, h1, h⟩ := Reply.andThen_eq_ok.1 h
  rw [word_eq_ok.1 h1]
  dsimp only at h
  split at h
  · rename_i hif; subst hif; exact branchOf_sound hin h
  · rename_i hif
    split at h
    · rename_i ts₂ h2
      obtain ⟨ploc, rfl⟩ := after?_eq_some.1 h2
      obtain ⟨es, h3, rfl⟩ := Reply.map_eq_ok.1 h
      obtain ⟨hes, hshort⟩ := argumentsOf_sound hin h3
      exact .call hif hes hshort
    · exact bareWord_sound hif h

end Sound

theorem expressionUpTo_sound {n : Nat} : ∀ {ts rest : List Token} {e : Expr},
    expressionUpTo n ts = .ok e rest → Reads ts e rest := by
  induction n with
  | zero => intro ts rest e h; simp [expressionUpTo] at h
  | succ n ih => intro ts rest e h; exact expressionOf_sound ih h

theorem parametersFrom_sound : ∀ {ts rest : List Token} {ps : List Parameter} {comma : Bool},
    parametersFrom comma ts = .ok ps rest → Parameters ts ps rest ∨
      comma = true ∧ ∃ loc ts₁, ts = ⟨.symbol .comma, loc⟩ :: ts₁ ∧ Parameters ts₁ ps rest := by
  intro ts
  induction ts with
  | nil => intro rest ps comma h; simp [parametersFrom] at h
  | cons t ts ih =>
    intro rest ps comma h
    obtain ⟨l, loc⟩ := t
    cases l with
    | word w =>
      obtain ⟨ps, h1, rfl⟩ := Reply.map_eq_ok.1 h
      -- after a name one comma may be passed over
      rcases ih h1 with hp | ⟨-, cloc, ts₁, rfl, hp⟩
      · exact .inl (.plain hp)
      · exact .inl (.comma hp)
    | symbol s =>
      cases s <;> simp only [parametersFrom] at h
      case closeParen => cases h; exact .inl .close
      case comma =>
        split at h
        · rename_i hc
          rcases ih h with hp | ⟨hf, -⟩
          · exact .inr ⟨hc, _, _, rfl, hp⟩
          · simp at hf
        · simp at h
      all_goals simp at h

/-- Outside braces no word is bare. -/
theorem short_of_parameters {ts rest : List Token} {ps : List Parameter}
    (h : Parameters ts ps rest) (hs : Short 0 rest) : Short 0 ts := by
  induction h with
  | close => exact hs
  | plain _ ih => exact (ih hs).cons_word fun hn => absurd hn (Nat.lt_irrefl 0)
  | comma _ ih => exact Short.cons_word (ih hs) fun hn => absurd hn (Nat.lt_irrefl 0)

theorem short_of_function {w : String} {loc ploc : Location} {ts rest : List Token}
    {ps : List Parameter} (hp : Parameters ts ps rest) (hs : Short 0 rest) :
    Short 0 (⟨.word w, loc⟩ :: ⟨.symbol .openParen, ploc⟩ :: ts) := by
  have hps : Short 0 ts := short_of_parameters hp hs
  exact Short.cons_word hps fun hn => absurd hn (Nat.lt_irrefl 0)

theorem definition_sound {ts rest : List Token} {d : Definition}
    (h : definition ts = .ok d rest) : Function ts d rest ∧ (Short 0 rest → Short 0 ts) := by
  obtain ⟨⟨name, loc⟩, ts₁, h1, h⟩ := Reply.andThen_eq_ok.1 h
  obtain ⟨ploc, ts₂, h2, h⟩ := Reply.andThen_eq_ok.1 h
  obtain ⟨ps, ts₃, h3, h⟩ := Reply.andThen_eq_ok.1 h
  obtain ⟨body, h4, rfl⟩ := Reply.map_eq_ok.1 h
  rw [word_eq_ok.1 h1, symbol_eq_ok.1 h2]
  obtain ⟨hb, hshort⟩ := blockOf_sound expressionUpTo_sound h4
  rcases parametersFrom_sound h3 with hp | ⟨hf, -⟩
  · exact ⟨.intro hp hb, fun hs => short_of_function hp (hshort hs)⟩
  · simp at hf

theorem definitionsUpTo_sound {n : Nat} : ∀ {ts rest : List Token} {ds : List Definition},
    definitionsUpTo n ts = .ok ds rest → Functions ts ds ∧ Short 0 ts := by
  induction n with
  | zero =>
    intro ts rest ds h
    cases ts with
    | nil => cases h; exact ⟨.nil, short_nil⟩
    | cons t ts => simp [definitionsUpTo] at h
  | succ n ih =>
    intro ts rest ds h
    cases ts with
    | nil => cases h; exact ⟨.nil, short_nil⟩
    | cons t ts =>
      obtain ⟨d, ts₁, h1, h⟩ := Reply.andThen_eq_ok.1 h
      obtain ⟨ds, h2, rfl⟩ := Reply.map_eq_ok.1 h
      obtain ⟨hs, hshort⟩ := ih h2
      obtain ⟨hd, hshort'⟩ := definition_sound h1
      exact ⟨.cons hd hs, hshort' hshort⟩

/-! ## Completeness -/

section Steps

variable {inner : Parser Expr} {loc : Location} {w : String} {ts : List Token}

theorem expressionOf_bare (hif : w ≠ "if") (hn : next ts ≠ some (.symbol .openParen)) :
    expressionOf inner (⟨.word w, loc⟩ :: ts) = bareWord w loc ts := by
  simp [expressionOf, word, hif, after?_eq_none.2 hn]

theorem expressionOf_call (hif : w ≠ "if") (ploc : Location) :
    expressionOf inner (⟨.word w, loc⟩ :: ⟨.symbol .openParen, ploc⟩ :: ts) =
      (argumentsOf inner (ts.length + 1) ts).map (.call (some loc) w) := by
  simp [expressionOf, word, hif, after?]

theorem expressionOf_if :
    expressionOf inner (⟨.word "if", loc⟩ :: ts) = branchOf inner loc ts := by
  simp [expressionOf, word]

theorem blockOf_empty (cloc : Location) :
    blockOf inner (⟨.symbol .openBrace, loc⟩ :: ⟨.symbol .closeBrace, cloc⟩ :: ts) =
      .ok (.empty (some loc)) ts := by
  simp [blockOf, symbol, after?]

theorem blockOf_expression {rest : List Token} {cloc : Location} {e : Expr}
    (hn : next ts ≠ some (.symbol .closeBrace))
    (h : inner ts = .ok e (⟨.symbol .closeBrace, cloc⟩ :: rest)) :
    blockOf inner (⟨.symbol .openBrace, loc⟩ :: ts) = .ok e rest := by
  simp [blockOf, symbol, after?_eq_none.2 hn, h]

end Steps

mutual

/-- **A derived expression is read**, whatever the bound on nesting is, as long as it exceeds the
number of tokens. No opening parenthesis may come next. -/
theorem expression_complete {ts rest : List Token} {e : Expr} (h : Expression ts e rest)
    {k : Nat} (hs : Short (k + 1) ts) (hn : next rest ≠ some (.symbol .openParen)) {n : Nat}
    (hlen : ts.length < n) : expressionUpTo n ts = .ok e rest := by
  obtain ⟨n, rfl⟩ : ∃ m, n = m + 1 := ⟨n - 1, by omega⟩
  rw [expressionUpTo]
  match h with
  | .literal hw hle =>
    have hshort := hs _ (mem_bareWords_word k.succ_pos _ _ hn) _ hw
    rw [expressionOf_bare (ne_if_of_isNumeral hw) hn, bareWord_numeral hw _ _ hshort, if_pos hle]
  | .var (w := w) hif hlt =>
    rw [expressionOf_bare hif hn]
    by_cases hw : ∃ cs, IsNumeral w cs
    · -- a numeral that is too large is a variable
      obtain ⟨cs, hcs⟩ := hw
      have hshort := hs _ (mem_bareWords_word k.succ_pos _ _ hn) _ hcs
      rw [bareWord_numeral hcs _ _ hshort, if_neg (Nat.not_le.2 (hlt cs hcs))]
    · have hnone := Text.wordDigits?_eq_none_iff.2 fun cs hcs => hw ⟨cs, hcs⟩
      simp only [bareWord, hnone]
  | .call hif ha =>
    have hargs := arguments_complete ha (n := n) hs.word.paren (by simp at hlen; omega)
      (Nat.lt_succ_self _)
    rw [expressionOf_call hif, hargs, Reply.map_ok]
  | .branch hc ht hne =>
    have hl := hc.length_lt
    have hs1 := hs.word.of_subset (hc.bareWords_subset _)
    -- the condition ends where a block begins, which is with no opening parenthesis
    have hcond := expression_complete hc (n := n) hs.word (by simp [ht.next_eq])
      (by simp at hlen; omega)
    have hthen := block_complete ht (n := n) hs1 (by simp at hlen; omega)
    simp only [expressionOf_if, branchOf, hcond, hthen, Reply.andThen_ok,
      afterWord?_eq_none.2 hne]
  | .branchElse hc ht he =>
    have hl := hc.length_lt
    have hl' := ht.length_lt
    have hs1 := hs.word.of_subset (hc.bareWords_subset _)
    have hs2 := (hs1.of_subset (ht.bareWords_subset _)).word
    have hcond := expression_complete hc (n := n) hs.word (by simp [ht.next_eq])
      (by simp at hlen; omega)
    have hthen := block_complete ht (n := n) hs1 (by simp at hlen; omega)
    have helse := block_complete he (n := n) hs2 (by simp at hlen hl'; omega)
    simp only [expressionOf_if, branchOf, hcond, hthen, Reply.andThen_ok, afterWord?_self, helse,
      Reply.map_ok]

theorem block_complete {ts rest : List Token} {e : Expr} (h : Block ts e rest) {k : Nat}
    (hs : Short k ts) {n : Nat} (hlen : ts.length ≤ n) :
    blockOf (expressionUpTo n) ts = .ok e rest := by
  match h with
  | .empty => exact blockOf_empty _
  | .expression he =>
    obtain ⟨w, hw⟩ := he.next_eq
    exact blockOf_expression (by simp [hw])
      (expression_complete he hs.brace (by simp) (by simp at hlen; omega))

theorem arguments_complete {ts rest : List Token} {es : List Expr} (h : Arguments ts es rest)
    {k : Nat} (hs : Short (k + 1) ts) {n m : Nat} (hn : ts.length < n) (hm : ts.length < m) :
    argumentsOf (expressionUpTo n) m ts = .ok es rest := by
  obtain ⟨m, rfl⟩ : ∃ i, m = i + 1 := ⟨m - 1, by omega⟩
  rw [argumentsOf]
  match h with
  | .close => simp [after?]
  | .plain he ha =>
    obtain ⟨w, hw⟩ := he.next_eq
    have hl := he.length_lt
    have hfirst := expression_complete he hs (ha.next_ne (by decide)) hn
    have hrest := arguments_complete ha (hs.of_subset (he.bareWords_subset _)) (n := n) (m := m)
      (by omega) (by omega)
    have hskip := skipComma_of_next_ne (ha.next_ne (by decide))
    simp [after?_eq_none.2, hw, hfirst, hskip, hrest]
  | .comma he ha =>
    obtain ⟨w, hw⟩ := he.next_eq
    have hl := he.length_lt
    have hfirst := expression_complete he hs (by simp) hn
    have hs' := (hs.of_subset (he.bareWords_subset _)).comma
    have hrest := arguments_complete ha hs' (n := n) (m := m) (by simp at hl; omega)
      (by simp at hl; omega)
    simp [after?_eq_none.2, hw, hfirst, hrest]

end

/-- The comma flag plays no part where parameters begin, which is never with a comma. -/
theorem parameters_complete {ts rest : List Token} {ps : List Parameter}
    (h : Parameters ts ps rest) : ∀ comma, parametersFrom comma ts = .ok ps rest := by
  induction h with
  | close => intro comma; rfl
  | plain _ ih => intro comma; simp [parametersFrom, ih]
  | comma _ ih => intro comma; simp [parametersFrom, ih]

theorem definition_complete {ts rest : List Token} {d : Definition} (h : Function ts d rest)
    (hs : Short 0 ts) : definition ts = .ok d rest := by
  obtain ⟨hp, hb⟩ := h
  have hs' := hs.word.paren.of_subset (hp.bareWords_subset 0)
  simp only [definition, word, symbol, if_true, Reply.andThen_ok, parameters,
    parameters_complete hp]
  -- the bound on nesting is taken anew from the tokens inside the block
  cases hb with
  | empty => rw [block, blockOf_empty, Reply.map_ok]
  | expression he =>
    obtain ⟨w, hw⟩ := he.next_eq
    have hbody : expression _ = _ :=
      expression_complete he hs'.brace (by simp) (Nat.lt_succ_self _)
    rw [block, blockOf_expression (by simp [hw]) hbody, Reply.map_ok]

theorem definitions_complete {ts : List Token} {ds : List Definition} (h : Functions ts ds)
    (hs : Short 0 ts) {n : Nat} (hlen : ts.length ≤ n) : definitionsUpTo n ts = .ok ds [] := by
  induction h generalizing n with
  | nil => cases n <;> rfl
  | @cons ts rest d ds hf _ ih =>
    have hl := hf.length_lt
    obtain ⟨n, rfl⟩ : ∃ m, n = m + 1 := ⟨n - 1, by omega⟩
    have hfirst := definition_complete hf hs
    have hrest := ih (hs.of_subset (hf.bareWords_subset 0)) (n := n) (by omega)
    cases ts with
    | nil => simp at hl
    | cons t ts => rw [definitionsUpTo, hfirst, Reply.andThen_ok, hrest, Reply.map_ok]

end Parse

/-- A program is read when its definitions are; it is located at the first token. -/
theorem Program.parse_eq_ok {tokens : List Token} {p : Program} :
    parse tokens = .ok p ↔
      p.loc = tokens.head?.map (·.loc) ∧
        ∃ rest, Parse.definitions tokens = .ok p.definitions rest := by
  simp only [parse, parseFrom, Parser.run, List.drop_zero]
  cases Parse.definitions tokens with
  | ok ds rest =>
    constructor
    · intro h
      cases h
      exact ⟨rfl, rest, rfl⟩
    · rintro ⟨hloc, rest', h⟩
      cases h
      simp only [Except.map, ← hloc]
  | fail c rest => simp [Except.map]

/-- **Exactly the programs of the grammar are read**, as long as no bare numeral is too long. -/
theorem Program.parse_eq_ok_iff {tokens : List Token} {p : Program} :
    parse tokens = .ok p ↔ Derives tokens p ∧ Parse.Short 0 tokens := by
  rw [Program.parse_eq_ok]
  constructor
  · rintro ⟨hloc, rest, h⟩
    obtain ⟨hds, hs⟩ := Parse.definitionsUpTo_sound h
    exact ⟨⟨hloc, hds⟩, hs⟩
  · rintro ⟨⟨hloc, hds⟩, hs⟩
    exact ⟨hloc, [], Parse.definitions_complete hds hs (Nat.le_refl _)⟩

/-- **The parser accepts exactly the grammar.** If no word between braces that is not called is a
numeral of more than 4300 digits, then the tokens are read as `p` exactly if they derive `p`; and
all programs that they derive, or that other tokens with the same lexemes derive, are the same up to
locations. -/
theorem Program.parse_iff_derives (tokens : List Token)
    (hshort : ∀ w ∈ bareWords 0 tokens, ∀ cs, IsNumeral w cs → cs.length ≤ 4300) :
    (∀ p, parse tokens = .ok p ↔ Derives tokens p) ∧
      ∀ p q tokens', tokens'.map (·.lexeme) = tokens.map (·.lexeme) →
        Derives tokens p → Derives tokens' q → p.same q = true := by
  constructor
  · intro p
    rw [Program.parse_eq_ok_iff]
    exact ⟨fun h => h.1, fun h => ⟨h, hshort⟩⟩
  · intro p q tokens' hts hp hq
    exact hp.same hq hts.symm

/-- A numeral with a plus and zeros before it, a variable `else`, an empty block and optional
commas: the tokens are read, hence derived, and only in this way. -/
theorem Program.parse_iff_derives_sample :
    ∃ tokens p,
      tokens = Token.scan "f(x y,) \x7b if g(+007 else) \x7b\x7d else \x7bx\x7d \x7d" "s" ∧
      (∀ w ∈ bareWords 0 tokens, ∀ cs, IsNumeral w cs → cs.length ≤ 4300) ∧
      Program.parse tokens = .ok p ∧ Derives tokens p ∧
      ∀ q, Derives tokens q → p.same q = true := by
  have hwords : bareWords 0 (Token.scan
      "f(x y,) \x7b if g(+007 else) \x7b\x7d else \x7bx\x7d \x7d" "s") =
      ["if", "+007", "else", "else", "x"] := by cbv
  have hshort : ∀ w ∈ bareWords 0 (Token.scan
      "f(x y,) \x7b if g(+007 else) \x7b\x7d else \x7bx\x7d \x7d" "s"),
      ∀ cs, IsNumeral w cs → cs.length ≤ 4300 := by
    rw [hwords]
    intro w hw cs hcs
    have hlen : ∀ w ∈ ["if", "+007", "else", "else", "x"], w.toList.length ≤ 4300 := by decide
    exact Nat.le_trans hcs.length_le (hlen w hw)
  have hp : Program.parse (Token.scan
      "f(x y,) \x7b if g(+007 else) \x7b\x7d else \x7bx\x7d \x7d" "s") = .ok
      ⟨some ⟨"s", 1, 1⟩, [⟨some ⟨"s", 1, 1⟩, "f",
        [⟨some ⟨"s", 1, 3⟩, "x"⟩, ⟨some ⟨"s", 1, 5⟩, "y"⟩],
        .branch (some ⟨"s", 1, 11⟩) (.call (some ⟨"s", 1, 14⟩) "g"
            [.literal (some ⟨"s", 1, 16⟩) 7, .var (some ⟨"s", 1, 21⟩) "else"])
          (.empty (some ⟨"s", 1, 27⟩)) (.var (some ⟨"s", 1, 36⟩) "x")⟩]⟩ := by cbv
  obtain ⟨hiff, huniq⟩ := Program.parse_iff_derives _ hshort
  have hd := (hiff _).1 hp
  exact ⟨_, _, rfl, hshort, hp, hd, fun q hq => huniq _ q _ rfl hd hq⟩

end Wordlet
