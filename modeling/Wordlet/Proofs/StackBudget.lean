import Wordlet.Proofs.DepthLimit
import Wordlet.Syntax.Parse
import Wordlet.Token.Scan

/-!
# The stack that a depth limit sets aside

A depth limit sets aside eight frames of the stack for each call that it allows. What a call takes
depends on how deep it stands in the body that makes it: two frames for each expression around it,
two for itself and one for the body of its callee. So eight frames are enough for a call that stands
at most three deep, and no number of frames is enough for all programs.

* `Expr.Frugal`: a body in which no call takes more than `perCall` frames and no expression more
  than `perBody`.
* `Expr.eval_covered`: **an evaluation whose calls and bodies are frugal does not use up its
  stack** before the depth limit stops it.
* `Program.run_frugal`: the same of runs; the run is then the one without a limit, unless this nests
  calls deeper.
* `Program.run_exhausted_deep_call`: a program with a call thirty-two deep uses up its stack, though
  the limit allows all of its calls.
-/

namespace Wordlet

/-! ## What a body takes -/

namespace Expr

/-- `e.HasAt n e'`: the expression `e'` stands in `e` at level `n`, where `e` is at level one. -/
inductive HasAt : Expr → Nat → Expr → Prop where
  | self (e : Expr) : HasAt e 1 e
  | argument {loc : Option Location} {f : String} {es : List Expr} {a e : Expr} {n : Nat} :
      a ∈ es → HasAt a n e → HasAt (.call loc f es) (n + 1) e
  | condition {loc : Option Location} {c t a e : Expr} {n : Nat} :
      HasAt c n e → HasAt (.branch loc c t a) (n + 1) e
  | consequent {loc : Option Location} {c t a e : Expr} {n : Nat} :
      HasAt t n e → HasAt (.branch loc c t a) (n + 1) e
  | alternative {loc : Option Location} {c t a e : Expr} {n : Nat} :
      HasAt a n e → HasAt (.branch loc c t a) (n + 1) e

/-- No call of a defined function in `e` takes more than `perCall` frames until the body of its
callee is reached, and no expression in `e` more than `perBody`. -/
structure Frugal (perCall perBody : Nat) (e : Expr) : Prop where
  calls : ∀ n loc f es, e.HasAt n (.call loc f es) → Native.find? f = none → 2 * n + 1 ≤ perCall
  nodes : ∀ n e', e.HasAt n e' → 2 * n ≤ perBody

/-- The stack is enough for `e` at `depth`: for every expression in it, and for every call in it
with the `limit - depth - 1` calls that may still be nested in that one and the last body. -/
structure Covered (limit perCall perBody stack depth : Nat) (e : Expr) : Prop where
  nodes : ∀ n e', e.HasAt n e' → 2 * n ≤ stack
  calls : depth < limit → ∀ n loc f es, e.HasAt n (.call loc f es) → Native.find? f = none →
    2 * n + 1 + ((limit - depth - 1) * perCall + perBody) ≤ stack

variable {limit perCall perBody stack depth : Nat}

/-- A frugal body is covered by what is set aside for the calls that are left and for itself. -/
theorem Frugal.covered {e : Expr} (h : e.Frugal perCall perBody)
    (hstack : (limit - depth) * perCall + perBody ≤ stack) :
    e.Covered limit perCall perBody stack depth := by
  refine ⟨?_, ?_⟩
  · intro n e' he
    have hn := h.nodes n e' he
    omega
  · intro hlt n loc f es he hf
    have hn := h.calls n loc f es he hf
    -- one of the calls that are left is the one at hand
    obtain ⟨left, hleft⟩ : ∃ left, limit - depth = left + 1 := ⟨limit - depth - 1, by omega⟩
    rw [hleft, Nat.add_one_mul] at hstack
    rw [hleft, Nat.add_sub_cancel]
    omega

/-- What stands in a part of an expression stands in the expression one level deeper. -/
theorem HasAt.of_part {e a : Expr} (ha : a ∈ e.parts) {n : Nat} {e' : Expr} (h : a.HasAt n e') :
    e.HasAt (n + 1) e' := by
  cases e with
  | call loc f es => exact .argument ha h
  | branch loc c t e =>
    simp only [parts, List.mem_cons, List.not_mem_nil, or_false] at ha
    rcases ha with rfl | rfl | rfl
    · exact .condition h
    · exact .consequent h
    · exact .alternative h
  | empty | literal | var | stray => cases ha

/-- A part of a covered expression is covered by two frames less. -/
theorem Covered.of_part {e a : Expr} (h : e.Covered limit perCall perBody (stack + 2) depth)
    (ha : a ∈ e.parts) : a.Covered limit perCall perBody stack depth := by
  refine ⟨?_, ?_⟩
  · intro n e' he'
    have hn := h.nodes _ _ (he'.of_part ha)
    omega
  · intro hlt n loc f es he' hf
    have hn := h.calls hlt _ _ _ _ (he'.of_part ha) hf
    omega

/-- A call that is allowed leaves enough for the body of its callee. -/
theorem Covered.body {loc : Option Location} {f : String} {es : List Expr}
    (h : (call loc f es).Covered limit perCall perBody (stack + 2) depth)
    (hf : Native.find? f = none) (hlt : depth < limit) {body : Expr}
    (hbody : body.Frugal perCall perBody) :
    ∃ left, stack = left + 1 ∧ body.Covered limit perCall perBody left (depth + 1) := by
  have hcall := h.calls hlt 1 loc f es (.self _) hf
  refine ⟨stack - 1, by omega, hbody.covered ?_⟩
  rw [Nat.sub_add_eq]
  omega

end Expr

/-! ## Evaluations -/

/-- The stack did not stop the evaluation. -/
abbrev Outcome.SparesStack {α : Type} (o : Outcome α) : Prop :=
  o.Holds (fun _ => True) (fun _ => True) fun err =>
    ¬(err.fault = .stackExhausted ∨ err.fault = .stackTooLarge)

theorem Fault.spares_stack_of_isLimit {err : EvalError} (h : err.fault.isLimit = false) :
    ¬(err.fault = .stackExhausted ∨ err.fault = .stackTooLarge) :=
  not_or.2 ⟨ne_of_isLimit h rfl, ne_of_isLimit h rfl⟩

/-- **An evaluation does not use up its stack** if the stack covers the expression and the bodies of
all functions are frugal. The induction is on the stack. -/
theorem Expr.eval_covered {table : Table} {limit : Int} {perCall perBody : Nat}
    (hbody : ∀ f d, table.find? f = some d → d.body.Frugal perCall perBody) (stack depth : Nat)
    (frame : Frame) {e : Expr} (he : e.Covered limit.toNat perCall perBody stack depth) :
    (eval ⟨table, some limit⟩ stack depth frame e).SparesStack := by
  induction stack using Nat.strongRecOn generalizing depth frame e with
  | ind stack ih =>
    have hself := he.nodes 1 e (.self e)
    obtain ⟨stack, rfl⟩ : ∃ n, stack = n + 2 := ⟨stack - 2, by omega⟩
    refine holds_eval_step (fun _ => Fault.spares_stack_of_isLimit)
      (fun a ha => ih stack (by omega) depth frame (he.of_part ha)) ?_
    rintro loc f es rfl args
    refine holds_invoke (fun _ => Fault.spares_stack_of_isLimit) (by simp) ?_
    intro hallowed hf d hd
    have hlt : depth < limit.toNat := by
      simp only [Context.forbids, decide_eq_false_iff_not] at hallowed
      omega
    -- the body of the callee finds what was set aside for it
    obtain ⟨left, rfl, hcovered⟩ := he.body hf hlt (hbody f d hd)
    refine ⟨by simp, ?_⟩
    intro left' hleft
    obtain rfl : left = left' := by omega
    exact ih left (by omega) (depth + 1) _ hcovered

/-! ## Runs -/

/-- The event does not begin a call deeper than `limit`. -/
def Event.within (limit : Nat) : Event → Bool
  | enter _ k _ _ => k ≤ limit
  | exit _ _ _ => true

theorem Event.le_of_within {limit : Nat} {es : List Event} (h : es.all (within limit) = true)
    {f : String} {k : Nat} {args : List Int} {loc : Option Location}
    (hmem : .enter f k args loc ∈ es) : k ≤ limit := by
  have henter := List.all_eq_true.1 h _ hmem
  exact of_decide_eq_true henter

/-- The tokens of a text that is given by its characters. -/
theorem Token.scan_ofList (cs : List Char) (path : String) :
    scan (String.ofList cs) path =
      (cs.foldl Scan.push (Scan.start path)).endWord.tokens.toList := by
  rw [scan, Scan.read, String.toList_ofList]

namespace Program

theorem framesPerCall_le_stackFor (d : Nat) :
    d * framesPerCall + defaultStack ≤ stackFor (some (d : Int)) := by
  simp only [stackFor, demandedStack, framesPerCall, defaultStack]
  omega

/-- A run of frugal functions is not out of stack. -/
theorem not_outOfStack_of_frugal {p : Program} {perCall perBody d : Nat}
    (hp : ∀ g ∈ p.definitions, g.body.Frugal perCall perBody)
    (hstack : d * perCall + perBody ≤ d * framesPerCall + defaultStack)
    (hfits : demandedStack (some (d : Int)) ≤ largestStack) :
    ¬(p.run (some (d : Int))).OutOfStack := by
  have hbody : ∀ f g, p.table.find? f = some g → g.body.Frugal perCall perBody :=
    fun f g hg => hp g (Program.find?_table hg).1
  have hspares : (p.run (some (d : Int))).outcome.SparesStack := by
    refine run_holds_of_stackFor (by simp) (by simp) (fun h => absurd hfits (Int.not_le.2 h)) ?_
    intro g hg _
    have hle := framesPerCall_le_stackFor d
    refine Expr.eval_covered hbody _ 0 _ ((hbody _ g hg).covered ?_)
    rw [Nat.sub_zero, Int.toNat_natCast]
    omega
  rintro ⟨err, herr, hfault⟩
  exact hspares.error err herr hfault

/-- **The stack of a depth limit is enough for frugal functions.** Let no call of a defined function
take more than `perCall` frames and no body more than `perBody`, and let the stack that the limit
`d` sets aside hold `d` such calls and a body: for a body of up to five hundred expressions inside
one another and calls that stand at most three deep this is so whatever the limit is. Then the run
under `d` never uses up its stack; and if the run without a limit nests no call deeper than `d` and
has stack enough itself, the two are the same. -/
theorem run_frugal {p : Program} {perCall perBody d : Nat}
    (hp : ∀ g ∈ p.definitions, g.body.Frugal perCall perBody)
    (hstack : d * perCall + perBody ≤ d * framesPerCall + defaultStack)
    (hfits : demandedStack (some (d : Int)) ≤ largestStack) :
    (∀ loc, (p.run (some (d : Int))).outcome.result ≠ .error ⟨.stackExhausted, loc⟩) ∧
    (¬(p.run none).OutOfStack →
      (∀ f k args loc, .enter f k args loc ∈ Act.events 0 (p.run none).outcome.acts → k ≤ d) →
      p.run (some (d : Int)) = p.run none) := by
  have hshort := not_outOfStack_of_frugal hp hstack hfits
  refine ⟨?_, ?_⟩
  · intro loc hex
    exact hshort ⟨_, hex, .inl rfl⟩
  · intro hlong hshallow
    obtain ⟨hbegun, htrunc⟩ := run_truncated_outcome (by simp) hshort hlong
    rcases htrunc with ⟨heq, -⟩ | ⟨-, f, args, loc, after, htrace, -⟩
    · exact Run.eq_of_outcome hbegun heq
    · -- a run that was cut would have been about to enter a call at depth `d + 1`
      have hmem : .enter f (d + 1) args loc ∈ Act.events 0 (p.run none).outcome.acts := by
        rw [Act.mem_events_iff, htrace]
        simp
      have hle := hshallow f (d + 1) args loc hmem
      omega

/-- A recursion through a branch takes five frames a call; under a limit that allows its calls it
ends as without one. -/
theorem run_frugal_countdown :
    ∃ p : Program, (∀ g ∈ p.definitions, g.body.Frugal 5 8) ∧
      (p.run none).outcome.result = .ok (some 0) ∧ p.run (some 5) = p.run none := by
  have hcountdown : ∀ p : Program, (∀ g ∈ p.definitions, g.body.Frugal 5 8) →
      (p.run none).outcome.result = .ok (some 0) →
      (Act.events 0 (p.run none).outcome.acts).all (Event.within 5) = true →
      p.run (some 5) = p.run none := by
    intro p hp hresult hdepth
    refine (run_frugal (d := 5) hp (by decide) (by decide)).2 (Run.not_outOfStack_of_ok hresult) ?_
    intro f k args loc hmem
    exact Event.le_of_within hdepth hmem
  have hsub : Native.find? "sub" = some .sub := by decide
  have hequal : Native.find? "equal" = some .equal := by decide
  have hfrugal : ∀ g ∈ [(⟨none, "main", [], .call none "f" [.literal none 3]⟩ : Definition),
      ⟨none, "f", [⟨none, "n"⟩], .branch none (.call none "equal" [.var none "n", .literal none 0])
        (.literal none 0) (.call none "f" [.call none "sub" [.var none "n", .literal none 1]])⟩],
      g.body.Frugal 5 8 := by
    intro g hg
    refine ⟨?_, ?_⟩
    · intro n loc f es h hf
      grind [cases Expr.HasAt]
    · intro n e h
      grind [cases Expr.HasAt]
  refine ⟨⟨none, _⟩, hfrugal, ?_, hcountdown _ hfrugal ?_ ?_⟩
  · decide +kernel
  · decide +kernel
  · decide +kernel

/-- The characters of a text whose function `f` calls itself inside thirty-one branches, twenty-five
times. -/
def deepCalls : List Char :=
  "main() \x7b f(25) \x7d f(n) \x7b if equal(n 0) \x7b 0 \x7d else \x7b ".toList ++
    (List.replicate 30 "if 1\x7b".toList).flatten ++ "f(sub(n 1))".toList ++
    List.replicate 30 '\x7d' ++ " \x7d \x7d".toList

/-- What the text does when it is run: without a limit it ends with a value and nests no call deeper
than twenty-seven, and under the limit twenty-seven it uses up its stack. -/
theorem deepCalls_runs :
    ((Program.parse (Token.scan (String.ofList deepCalls) "t.id")).toOption.any fun p =>
      decide ((p.run (some 27)).outcome.result = .error ⟨.stackExhausted, none⟩) &&
      decide ((p.run none).outcome.result = .ok (some 0)) &&
      (Act.events 0 (p.run none).outcome.acts).all (Event.within 27)) = true := by
  rw [Token.scan_ofList]
  decide +kernel

/-- **Eight frames for a call are not always enough.** A program read from a text nests no call
deeper than twenty-seven and ends with a value; under the limit twenty-seven it uses up its
stack. -/
theorem run_exhausted_deep_call :
    ∃ p, Program.parse (Token.scan (String.ofList deepCalls) "t.id") = .ok p ∧
      demandedStack (some 27) ≤ largestStack ∧
      (p.run (some 27)).outcome.result = .error ⟨.stackExhausted, none⟩ ∧
      (p.run none).outcome.result = .ok (some 0) ∧
      ∀ f k args loc, .enter f k args loc ∈ Act.events 0 (p.run none).outcome.acts → k ≤ 27 := by
  have hruns := deepCalls_runs
  cases hp : Program.parse (Token.scan (String.ofList deepCalls) "t.id") with
  | error e =>
    rw [hp] at hruns
    cases hruns
  | ok p =>
    rw [hp] at hruns
    simp only [Except.toOption, Option.any_some, Bool.and_eq_true, decide_eq_true_eq] at hruns
    obtain ⟨⟨hshort, hlong⟩, hdepth⟩ := hruns
    refine ⟨p, rfl, by decide, hshort, hlong, ?_⟩
    intro f k args loc hmem
    exact Event.le_of_within hdepth hmem

end Program

end Wordlet
