import Wordlet.Proofs.Concatenation

/-!
# Reading on from where a reading stopped

A reading that ended, well or not, leaves the position that it reached, and the next one starts
there. No parser looks behind the tokens that it is given. What does look behind is the place of a
failure at the end of input, which is the last token of all, and the place of the program, which is
the first token of all. The last token is also the last of those that are left, as long as there are
any, and without tokens nothing fails; so only the place of the program tells a resumed reading from
one of the tokens that are left.

* `Parser.failureLoc_drop`: **the place of a failure** is the same among all tokens as among those
  that are left.
* `Program.parseFrom_resumes`: what one reading keeps.
* `Program.parseAgain_resumes`: **every reading in turn** reads the tokens that are left.
-/

namespace Wordlet

/-- A program takes all tokens. -/
theorem Parse.rest_of_definitions {ts rest : List Token} {ds : List Definition}
    (h : definitions ts = .ok ds rest) : rest = [] := by
  obtain ⟨hds, hshort⟩ := definitionsUpTo_sound h
  have hall : definitions ts = .ok ds [] := definitions_complete hds hshort (Nat.le_refl _)
  rw [h] at hall
  exact (Reply.ok.inj hall).2

/-- **The place of a failure** among all tokens is its place among those from some position on, if
there are any. -/
theorem Parser.failureLoc_drop {tokens : List Token} {start : Nat} (h : tokens.drop start ≠ [])
    (rest : List Token) : failureLoc tokens rest = failureLoc (tokens.drop start) rest := by
  have hlast : (tokens.drop start).getLast? = tokens.getLast? := by
    rw [List.getLast?_drop, if_neg (fun hle => h (List.drop_eq_nil_of_le hle))]
  unfold failureLoc
  rw [hlast]

namespace Program

variable {tokens : List Token} {start : Nat}

/-- The reading `r` resumes the tokens at the position `start`: it gives the definitions or the
error, and comes as far, as reading the tokens from `start` on by themselves. It does not pass the
last token, ends there if it gives a program, and locates the program at the first token of all. -/
structure Resumes (tokens : List Token) (start : Nat) (r : Reading Program) : Prop where
  definitions : r.outcome.map (·.definitions) =
    (parseFrom (tokens.drop start) 0).outcome.map (·.definitions)
  position : r.position = start + (parseFrom (tokens.drop start) 0).position
  le_length : r.position ≤ tokens.length
  position_of_ok : ∀ p, r.outcome = .ok p → r.position = tokens.length
  loc_of_ok : ∀ p, r.outcome = .ok p → p.loc = tokens.head?.map (·.loc)

theorem parseFrom_of_ok {ds : List Definition} {rest : List Token}
    (h : Parse.definitions (tokens.drop start) = .ok ds rest) :
    parseFrom tokens start = ⟨.ok ⟨tokens.head?.map (·.loc), ds⟩, tokens.length⟩ := by
  rw [Parse.rest_of_definitions h] at h
  simp only [parseFrom, Parser.run, h]
  rfl

theorem parseFrom_of_fail {c : SyntaxCause} {rest : List Token}
    (h : Parse.definitions (tokens.drop start) = .fail c rest) :
    parseFrom tokens start =
      ⟨.error ⟨c, Parser.failureLoc tokens rest⟩, tokens.length - rest.length⟩ := by
  simp only [parseFrom, Parser.run, h]
  rfl

/-- **One reading** from a position among the tokens resumes them there. -/
theorem parseFrom_resumes (hstart : start ≤ tokens.length) :
    Resumes tokens start (parseFrom tokens start) := by
  have hlength : (tokens.drop start).length = tokens.length - start := List.length_drop
  cases hread : Parse.definitions (tokens.drop start) with
  | ok ds rest =>
    have hfresh : parseFrom (tokens.drop start) 0 =
        ⟨.ok ⟨(tokens.drop start).head?.map (·.loc), ds⟩, (tokens.drop start).length⟩ :=
      parseFrom_of_ok hread
    have hend : tokens.length = start + (tokens.drop start).length := by omega
    rw [parseFrom_of_ok hread]
    refine ⟨by rw [hfresh]; rfl, by rw [hfresh]; exact hend, Nat.le_refl _, fun p _ => rfl, ?_⟩
    rintro p ⟨⟩
    rfl
  | fail c rest =>
    have hfresh : parseFrom (tokens.drop start) 0 =
        ⟨.error ⟨c, Parser.failureLoc (tokens.drop start) rest⟩,
          (tokens.drop start).length - rest.length⟩ := parseFrom_of_fail hread
    -- without tokens nothing fails, so there is a last token
    have hne : tokens.drop start ≠ [] := by
      intro hnil
      rw [hnil] at hread
      cases hread
    have hrest := (Parse.suffix_of_definitions hread).length_le
    have hend : tokens.length - rest.length =
        start + ((tokens.drop start).length - rest.length) := by omega
    rw [parseFrom_of_fail hread]
    refine ⟨?_, by rw [hfresh]; exact hend, Nat.sub_le _ _, nofun, nofun⟩
    rw [hfresh, Parser.failureLoc_drop hne]

/-- The positions at which readings in turn start, the last of them being where they end. -/
def positions (start : Nat) (readings : List (Reading Program)) : List Nat :=
  start :: readings.map (·.position)

/-- Readings in turn, from any position among the tokens. -/
theorem parseAgain_resumes_from (times : Nat) : ∀ start, start ≤ tokens.length →
    (positions start (parseAgain tokens times start)).IsChain (· ≤ ·) ∧
      (∀ k ∈ positions start (parseAgain tokens times start), k ≤ tokens.length) ∧
      List.Forall₂ (Resumes tokens) (positions start (parseAgain tokens times start)).dropLast
        (parseAgain tokens times start) := by
  induction times with
  | zero =>
    intro start hstart
    exact ⟨.singleton start, List.forall_mem_singleton.2 hstart, .nil⟩
  | succ times ih =>
    intro start hstart
    have hone := parseFrom_resumes hstart
    obtain ⟨hchain, hbound, hresumes⟩ := ih _ hone.le_length
    have hle : start ≤ (parseFrom tokens start).position := by
      rw [hone.position]
      exact Nat.le_add_right _ _
    exact ⟨.cons_cons hle hchain, List.forall_mem_cons.2 ⟨hstart, hbound⟩, .cons hone hresumes⟩

theorem length_parseAgain (times : Nat) :
    ∀ start, (parseAgain tokens times start).length = times := by
  induction times with
  | zero => exact fun start => rfl
  | succ times ih => exact fun start => congrArg (· + 1) (ih _)

/-- **Resuming a parser is parsing the remaining tokens.** However often tokens are read in turn,
and whichever of the readings fail, each of them resumes the tokens at the position where the one
before came to stand. The positions never decrease, and none of them passes the last token. -/
theorem parseAgain_resumes (tokens : List Token) (times : Nat) :
    (parseAgain tokens times 0).length = times ∧
      (positions 0 (parseAgain tokens times 0)).Pairwise (· ≤ ·) ∧
      (∀ k ∈ positions 0 (parseAgain tokens times 0), k ≤ tokens.length) ∧
      List.Forall₂ (Resumes tokens) (positions 0 (parseAgain tokens times 0)).dropLast
        (parseAgain tokens times 0) := by
  obtain ⟨hchain, hbound, hresumes⟩ := parseAgain_resumes_from times 0 (Nat.zero_le tokens.length)
  exact ⟨length_parseAgain times 0, List.isChain_iff_pairwise.1 hchain, hbound, hresumes⟩

/-- A failure at the word where a parenthesis is due, a program that begins with this word, and a
program without definitions at the end of the tokens. -/
theorem parseAgain_resumes_word :
    ∃ tokens readings, tokens = Token.scan "f g(x) \x7b x \x7d" "s" ∧
      readings = parseAgain tokens 3 0 ∧
      readings.map (·.outcome.toOption.map (·.definitions.map (·.name))) =
        [none, some ["g"], some []] ∧
      positions 0 readings = [0, 1, 8, 8] ∧ 8 ≤ tokens.length ∧
      List.Forall₂ (Resumes tokens) [0, 1, 8] readings := by
  have hnames : (parseAgain (Token.scan "f g(x) \x7b x \x7d" "s") 3 0).map
      (·.outcome.toOption.map (·.definitions.map (·.name))) = [none, some ["g"], some []] := by cbv
  have hpositions : positions 0 (parseAgain (Token.scan "f g(x) \x7b x \x7d" "s") 3 0) =
      [0, 1, 8, 8] := by cbv
  obtain ⟨-, -, hbound, hresumes⟩ :=
    parseAgain_resumes (Token.scan "f g(x) \x7b x \x7d" "s") 3
  rw [hpositions] at hbound hresumes
  exact ⟨_, _, rfl, rfl, hnames, hpositions, hbound 8 (by decide), hresumes⟩

end Program

end Wordlet
