import Wordlet.Eval.Session
import Wordlet.Proofs.Brackets
import Wordlet.Proofs.Relocation
import Wordlet.Proofs.StackBudget

/-!
# A depth limit makes every evaluation end

Nothing that an evaluation goes through gets smaller at every step. The arguments of a call are
smaller than the call, but at the same depth; the body of its callee is one call deeper, but may be
of any size. Under a depth limit both together cannot go on for ever: the depth that is left comes
first, and the height of the expression second. Written as one number this is a stack that is never
used up (`Expr.stackBound`), so that with this stack or any larger one there is one and the same
outcome.

* `Expr.Ends`: an expression comes to an outcome which the stack has no part in.
* `Expr.exists_ends_of_limit`: **under a depth limit every evaluation ends**, whatever the functions
  call and however negative the limit is.
* `Expr.eval_error_allowed`: an error is one of the language, apart from two that only trees built
  by hand can lead to.
* `Program.run_ends_of_limit`: both, of runs and of the steps of a session.
* `Program.step_overflow_countdown`: a session may overflow its stack for all that.
-/

namespace Wordlet

/-! ## Heights -/

namespace Expr

mutual

/-- The number of expressions inside one another. -/
def height : Expr → Nat
  | call _ _ es => heightAll es + 1
  | branch _ c t e => max c.height (max t.height e.height) + 1
  | _ => 1

/-- The largest height in a list of expressions. -/
def heightAll : List Expr → Nat
  | [] => 0
  | e :: es => max e.height (heightAll es)

end

theorem height_le_heightAll {e : Expr} {es : List Expr} (h : e ∈ es) : e.height ≤ heightAll es := by
  induction es with
  | nil => cases h
  | cons a es ih =>
    rw [heightAll]
    rcases List.mem_cons.1 h with rfl | h
    · exact Nat.le_max_left _ _
    · exact Nat.le_trans (ih h) (Nat.le_max_right _ _)

theorem height_pos (e : Expr) : 0 < e.height := by
  cases e <;> simp [height]

theorem height_lt_of_mem_parts {e a : Expr} (ha : a ∈ e.parts) : a.height < e.height := by
  cases e with
  | call loc f es => exact Nat.lt_succ_of_le (height_le_heightAll ha)
  | branch loc c t e =>
    simp only [parts, List.mem_cons, List.not_mem_nil, or_false] at ha
    rw [height]
    rcases ha with rfl | rfl | rfl <;> omega
  | empty | literal | var | stray => cases ha

theorem HasAt.le_height {e e' : Expr} {n : Nat} (h : e.HasAt n e') : n ≤ e.height := by
  induction h with
  | self e => exact e.height_pos
  | @argument loc f es a e n ha _ ih =>
    have hlt : a.height < (call loc f es).height := height_lt_of_mem_parts ha
    omega
  | @condition loc c t a e n _ ih | @consequent loc c t a e n _ ih
  | @alternative loc c t a e n _ ih =>
    rw [height]
    omega

/-- What an expression takes is twice its height. -/
theorem frugal_of_height_le {e : Expr} {h : Nat} (hle : e.height ≤ h) :
    e.Frugal (2 * h + 1) (2 * h) := by
  refine ⟨?_, ?_⟩
  · intro n loc f es hat _
    have hn := hat.le_height
    omega
  · intro n e' hat
    have hn := hat.le_height
    omega

end Expr

/-- The largest height of a body. -/
def Table.height (t : Table) : Nat := Expr.heightAll (t.latest.map (·.body))

theorem Table.height_body_le {t : Table} {f : String} {d : Definition} (h : t.find? f = some d) :
    d.body.height ≤ t.height :=
  Expr.height_le_heightAll (List.mem_map.2 ⟨d, List.mem_of_find?_eq_some h, rfl⟩)

/-! ## Evaluations that end -/

namespace Expr

/-- The stack for an expression under a limit: what the expression takes itself, and what the
highest body takes for each call that the limit allows and for the last body. -/
def stackBound (t : Table) (limit : Int) (e : Expr) : Nat :=
  2 * e.height + 1 + (limit.toNat * (2 * t.height + 1) + 2 * t.height)

theorem covered_of_stackBound_le {t : Table} {limit : Int} {e : Expr} {stack : Nat}
    (h : e.stackBound t limit ≤ stack) (depth : Nat) :
    e.Covered limit.toNat (2 * t.height + 1) (2 * t.height) stack depth := by
  unfold stackBound at h
  refine ⟨?_, ?_⟩
  · intro n e' hat
    have hn := hat.le_height
    omega
  · intro _ n loc f es hat _
    have hn := hat.le_height
    have hleft : (limit.toNat - depth - 1) * (2 * t.height + 1) ≤
        limit.toNat * (2 * t.height + 1) := Nat.mul_le_mul_right _ (by omega)
    omega

/-- **A stack as large as the bound is not used up.** -/
theorem not_exhausted_of_stackBound_le {t : Table} {limit : Int} {e : Expr} {stack : Nat}
    (h : e.stackBound t limit ≤ stack) (depth : Nat) (frame : Frame) :
    ¬(eval ⟨t, some limit⟩ stack depth frame e).Exhausted := by
  have hbody : ∀ f d, t.find? f = some d → d.body.Frugal (2 * t.height + 1) (2 * t.height) :=
    fun f d hd => frugal_of_height_le (Table.height_body_le hd)
  have hspares := eval_covered hbody stack depth frame (covered_of_stackBound_le h depth)
  intro hex
  exact hspares.error _ hex (.inl rfl)

/-- The evaluation of `e` ends with the outcome `o`: every stack that is large enough leads to it,
and is not used up. -/
def Ends (cx : Context) (depth : Nat) (frame : Frame) (e : Expr) (o : Outcome (Option Int)) :
    Prop :=
  ¬o.Exhausted ∧ ∃ enough, ∀ stack, enough ≤ stack → eval cx stack depth frame e = o

/-- An evaluation ends if some stack is not used up. -/
theorem ends_of_not_exhausted {cx : Context} {stack depth : Nat} {frame : Frame} {e : Expr}
    (h : ¬(eval cx stack depth frame e).Exhausted) :
    e.Ends cx depth frame (eval cx stack depth frame e) := by
  refine ⟨h, stack, ?_⟩
  intro stack' hle
  exact eval_settles cx hle depth frame e h

/-- An evaluation that ends has this outcome with every stack that is not used up. -/
theorem Ends.eq_or_exhausted {cx : Context} {depth : Nat} {frame : Frame} {e : Expr}
    {o : Outcome (Option Int)} (h : e.Ends cx depth frame o) (stack : Nat) :
    eval cx stack depth frame e = o ∨ (eval cx stack depth frame e).Exhausted := by
  obtain ⟨-, enough, henough⟩ := h
  by_cases hex : (eval cx stack depth frame e).Exhausted
  · exact .inr hex
  · have hmore := eval_settles cx (Nat.le_max_left stack enough) depth frame e hex
    rw [henough _ (Nat.le_max_right stack enough)] at hmore
    exact .inl hmore.symm

/-- **Under a depth limit every evaluation ends.** -/
theorem exists_ends_of_limit (t : Table) (limit : Int) (depth : Nat) (frame : Frame) (e : Expr) :
    ∃ o, e.Ends ⟨t, some limit⟩ depth frame o :=
  ⟨_, ends_of_not_exhausted (not_exhausted_of_stackBound_le (Nat.le_refl _) depth frame)⟩

end Expr

/-! ## Errors -/

/-- The error is one of the language. If there are stray nodes, one of them may lack a part, and if
there are numbers out of range, one may be too long to be written. -/
def EvalError.Allowed (strays large : Prop) (err : EvalError) : Prop :=
  err.fault.isForeign = false ∨ ((∃ part, err.fault = .missingPart part) ∧ strays) ∨
    (err.fault = .numberTooLong ∧ large)

theorem EvalError.Allowed.mono {strays strays' large large' : Prop} {err : EvalError}
    (h : err.Allowed strays large) (hs : strays → strays') (hl : large → large') :
    err.Allowed strays' large' :=
  h.imp_right (Or.imp (And.imp_right hs) (And.imp_right hl))

/-- An evaluation that has begun is not refused its stack or its limit, and names the end of its
stack in the language. -/
theorem invariant_notRefused (cx : Context) :
    Invariant cx (fun _ _ => True) (fun _ => True) (fun _ => True)
      (fun err => err.fault ≠ .stackTooLarge ∧ err.fault ≠ .limitWithoutValue ∧
        err.fault ≠ .stackOverflow) where
  exhausted := by simp
  literal _ := trivial
  var _ := by simp
  branch _ := by simp
  call _ := by simp
  stray _ := Stray.outcome_holds (by simp) (by simp) (by simp)
  native _ _ _ _ := Native.outcome_holds (by simp) (by simp) (by simp)
  unknown _ _ _ := by simp
  arity _ _ _ _ := by simp
  body _ _ _ := trivial
  called _ _ _ := trivial

/-- Only a stray node lacks a part. -/
theorem invariant_noMissingPart {cx : Context}
    (hcx : ∀ f d, cx.table.find? f = some d → d.body.stray? = none) :
    Invariant cx (fun _ e => e.stray? = none) (fun _ => True) (fun _ => True)
      (fun err => ∀ part, err.fault ≠ .missingPart part) where
  exhausted := by simp
  literal _ := trivial
  var _ := by simp
  branch h := by
    obtain ⟨hc, ht, he⟩ := Expr.stray?_branch.1 h
    exact ⟨hc, ht, he, by simp⟩
  call h := ⟨fun e he => ⟨Expr.stray?_call.1 h e he, by simp⟩, by simp⟩
  stray h := by cases h
  native _ _ _ _ := Native.outcome_holds (by simp) (by simp) (by simp)
  unknown _ _ _ := by simp
  arity _ _ _ _ := by simp
  body hd _ _ := hcx _ _ hd
  called _ _ _ := trivial

namespace Expr

/-- **What the error of an evaluation can be.** It is one of the language, unless there is a stray
node or a number out of range in what is evaluated. -/
theorem eval_error_allowed (cx : Context) (stack depth : Nat) (frame : Frame) (e : Expr)
    {err : EvalError} (h : (eval cx stack depth frame e).result = .error err) :
    err.Allowed (∃ a ∈ e :: cx.table.latest.map (·.body), a.stray? ≠ none)
      (¬frame.InRange ∨ ∃ a ∈ e :: cx.table.latest.map (·.body), ¬a.LiteralsInRange) := by
  have hmem : ∀ {f d}, cx.table.find? f = some d → d.body ∈ cx.table.latest.map (·.body) :=
    fun hd => List.mem_map.2 ⟨_, List.mem_of_find?_eq_some hd, rfl⟩
  obtain ⟨hlarge, hlimit, hover⟩ :=
    ((invariant_notRefused cx).eval stack depth frame e trivial).error _ h
  cases hfault : err.fault with
  | missingPart part =>
    refine .inr (.inl ⟨⟨part, hfault⟩, ?_⟩)
    by_contra hnone
    push Not at hnone
    obtain ⟨he, hbodies⟩ := List.forall_mem_cons.1 hnone
    have hinv : Invariant cx _ _ _ _ := invariant_noMissingPart fun f d hd => hbodies _ (hmem hd)
    exact (hinv.eval stack depth frame e he).error _ h part hfault
  | numberTooLong =>
    refine .inr (.inr ⟨hfault, ?_⟩)
    by_contra hsmall
    push Not at hsmall
    obtain ⟨hframe, hall⟩ := hsmall
    obtain ⟨he, hbodies⟩ := List.forall_mem_cons.1 hall
    have hinv : Invariant cx _ _ _ _ := invariant_inRange fun f d hd => hbodies _ (hmem hd)
    exact (hinv.eval stack depth frame e ⟨hframe, he⟩).error _ h hfault
  | stackTooLarge => exact absurd hfault hlarge
  | limitWithoutValue => exact absurd hfault hlimit
  | stackOverflow => exact absurd hfault hover
  | _ => exact .inl (by rw [hfault]; rfl)

end Expr

/-! ## Runs -/

namespace Program

/-- What the error of a run can be, if there is a stack for its limit. -/
theorem run_error_allowed {p : Program} {maxDepth : Option Int}
    (hfits : demandedStack maxDepth ≤ largestStack) {err : EvalError}
    (h : (p.run maxDepth).outcome.result = .error err) :
    err.Allowed (∃ d ∈ p.definitions, d.body.stray? ≠ none)
      (∃ d ∈ p.definitions, ¬d.body.LiteralsInRange) := by
  have hholds : (p.run maxDepth).outcome.Holds (fun _ => True) (fun _ => True)
      (EvalError.Allowed (∃ d ∈ p.definitions, d.body.stray? ≠ none)
        (∃ d ∈ p.definitions, ¬d.body.LiteralsInRange)) := by
    refine run_holds (.inl rfl) (fun _ _ => .inl rfl) ?_ ?_
    · intro hlt
      exact absurd hfits (Int.not_le.2 hlt)
    intro main hmain _ stack
    -- what is evaluated are bodies of the program, that of the entry point among them
    have hmem : ∀ a ∈ main.body :: p.table.latest.map (·.body),
        ∃ d ∈ p.definitions, d.body = a := by
      intro a ha
      rcases List.mem_cons.1 ha with rfl | ha
      · exact ⟨main, (find?_table hmain).1, rfl⟩
      · obtain ⟨d, hd, rfl⟩ := List.mem_map.1 ha
        exact ⟨d, List.mem_reverse.1 hd, rfl⟩
    refine ⟨fun _ _ => trivial, fun _ _ => trivial, ?_⟩
    intro err herr
    refine (Expr.eval_error_allowed _ _ _ _ _ herr).mono ?_ ?_
    · rintro ⟨a, ha, hstray⟩
      obtain ⟨d, hd, rfl⟩ := hmem a ha
      exact ⟨d, hd, hstray⟩
    · rintro (hframe | ⟨a, ha, hlarge⟩)
      · exact absurd (Frame.inRange_nil entryPoint) hframe
      · obtain ⟨d, hd, rfl⟩ := hmem a ha
        exact ⟨d, hd, hlarge⟩
  exact hholds.error err h

/-- The run of a program that was read has no error but those of the language. -/
theorem run_error_not_foreign {source path : String} {p : Program}
    (hp : parse (Token.scan source path) = .ok p) {maxDepth : Option Int}
    (hfits : demandedStack maxDepth ≤ largestStack) {err : EvalError}
    (h : (p.run maxDepth).outcome.result = .error err) : err.fault.isForeign = false := by
  rcases run_error_allowed hfits h with hown | ⟨-, d, hd, hstray⟩ | ⟨-, d, hd, hlarge⟩
  · exact hown
  · exact absurd (stray?_of_parse hp d hd) hstray
  · exact absurd (spellable_of_parse hp d hd).2.2.literalsInRange hlarge

/-- A run comes to what the body of the entry point ends with, unless it has too little stack. -/
theorem run_eq_or_exhausted {p : Program} {body : Expr} (hbody : p.entryBody = .ok body)
    {maxDepth : Option Int} (hfits : demandedStack maxDepth ≤ largestStack)
    {o : Outcome (Option Int)}
    (ho : body.Ends ⟨p.table, maxDepth⟩ 0 (.ofBindings entryPoint []) o) :
    (p.run maxDepth).outcome = o ∨ (p.run maxDepth).outcome.Exhausted := by
  rw [run_of_entryBody_ok hbody, if_neg (Int.not_lt.2 hfits)]
  exact ho.eq_or_exhausted _

/-- **A depth limit makes every run end.** Let the limit be any integer for which there is a stack.

* The body of the entry point, however its functions call one another, ends with an outcome that no
  stack has a part in. The run has this outcome, or its stack was too small, which is an error of
  the language like going too deep.
* If the run fails, then with an error of the language; a stray node that lacks a part and a number
  that is too long to be written are the exceptions. Neither is in a program that was read.
* In a session with this limit every expression ends in every frame, whatever the functions of the
  session are, and its error is one of the language but for the same two exceptions. The step that
  evaluates it has this outcome, or overflows the stack: no limit makes that larger outside of a
  run, and there it is no error of the language. -/
theorem run_ends_of_limit (p : Program) (limit : Int)
    (hfits : demandedStack (some limit) ≤ largestStack) :
    (∀ body, p.entryBody = .ok body →
      ∃ o, body.Ends ⟨p.table, some limit⟩ 0 (.ofBindings entryPoint []) o ∧
        ((p.run (some limit)).outcome = o ∨ (p.run (some limit)).outcome.Exhausted)) ∧
    (∀ err, (p.run (some limit)).outcome.result = .error err →
      err.Allowed (∃ d ∈ p.definitions, d.body.stray? ≠ none)
        (∃ d ∈ p.definitions, ¬d.body.LiteralsInRange)) ∧
    (∀ source path, parse (Token.scan source path) = .ok p →
      ∀ err, (p.run (some limit)).outcome.result = .error err → err.fault.isForeign = false) ∧
    ∀ (s : Session) (e : Expr) (frame : Frame), s.maxDepth = some limit →
      ∃ o, e.Ends ⟨s.table, some limit⟩ s.depth frame o ∧
        (∀ err, o.result = .error err →
          err.Allowed (∃ a ∈ e :: s.table.latest.map (·.body), a.stray? ≠ none)
            (¬frame.InRange ∨ ∃ a ∈ e :: s.table.latest.map (·.body), ¬a.LiteralsInRange)) ∧
        ((s.step (.evaluate e frame)).1 = o ∨
          (s.step (.evaluate e frame)).1.result = .error ⟨.stackOverflow, none⟩) := by
  refine ⟨?_, fun err => run_error_allowed hfits, fun _ _ hp err => run_error_not_foreign hp hfits,
    ?_⟩
  · intro body hbody
    obtain ⟨o, ho⟩ :=
      body.exists_ends_of_limit p.table limit 0 (.ofBindings entryPoint [])
    exact ⟨o, ho, run_eq_or_exhausted hbody hfits ho⟩
  · intro s e frame hs
    obtain ⟨o, ho⟩ := e.exists_ends_of_limit s.table limit s.depth frame
    refine ⟨o, ho, ?_, ?_⟩
    · intro err herr
      obtain ⟨-, enough, henough⟩ := ho
      rw [← henough enough (Nat.le_refl _)] at herr
      exact Expr.eval_error_allowed _ _ _ _ _ herr
    · rw [Session.step, hs]
      rcases ho.eq_or_exhausted defaultStack with heq | hex
      · rw [heq]
        exact .inl (Outcome.unguarded_of_not_exhausted ho.1)
      · exact .inr hex.result_unguarded

/-- A function that calls itself for ever is stopped by the limit and not by the stack, in a run and
in the session after it. -/
theorem run_ends_of_limit_forever :
    ∃ (p : Program) (s : Session) (o o' : Outcome (Option Int)),
      demandedStack (some 3) ≤ largestStack ∧ s.maxDepth = some 3 ∧ s.table = p.table ∧
      (Expr.call none "f" []).Ends ⟨p.table, some 3⟩ 0 (.ofBindings entryPoint []) o ∧
      (p.run (some 3)).outcome = o ∧ o.result = .error ⟨.tooDeep, none⟩ ∧
      (Expr.call none "g" []).Ends ⟨p.table, some 3⟩ 0 (.ofBindings "h" []) o' ∧
      (s.step (.evaluate (.call none "g" []) (.ofBindings "h" []))).1 = o' ∧
      o'.result = .error ⟨.tooDeep, none⟩ := by
  let p : Program := ⟨none, [⟨none, "main", [], .call none "f" []⟩,
    ⟨none, "f", [], .call none "g" []⟩, ⟨none, "g", [], .call none "f" []⟩]⟩
  let s : Session := ((Session.start (some 3)).step (.run p)).2
  have hrun : (p.run (some 3)).outcome.result = .error ⟨.tooDeep, none⟩ := by decide +kernel
  have hstep : (s.step (.evaluate (.call none "g" []) (.ofBindings "h" []))).1.result =
      .error ⟨.tooDeep, none⟩ := by decide +kernel
  obtain ⟨hends, -, -, hsession⟩ := run_ends_of_limit p 3 (by decide)
  obtain ⟨o, ho, ho_eq⟩ := hends (.call none "f" []) rfl
  obtain ⟨o', ho', -, ho'_eq⟩ := hsession s (.call none "g" []) (.ofBindings "h" []) rfl
  obtain rfl := ho_eq.resolve_right fun hex => by cases hrun.symm.trans hex
  obtain rfl := ho'_eq.resolve_right fun hover => by cases hstep.symm.trans hover
  exact ⟨p, s, _, _, by decide, rfl, rfl, ho, rfl, hrun, ho', rfl, hstep⟩

/-- A program whose body is no literal, but a node that spells the kind of one. -/
def bareNode : Program := ⟨none, [⟨none, "main", [], .stray none (.other "literal") []⟩]⟩

/-- The characters of a program that counts down from three hundred. -/
def countdown : List Char :=
  "main() \x7b count(300) \x7d ".toList ++
    "count(n) \x7b if equal(n 0) \x7b 0 \x7d else \x7b count(sub(n 1)) \x7d \x7d".toList

/-- What becomes of the countdown in a session with the limit five thousand: the run gives zero, and
to evaluate the body of its entry point once more overflows the stack. -/
theorem countdown_steps :
    ((parse (Token.scan (String.ofList countdown) "t.id")).toOption.any fun p =>
      let s := (Session.start (some 5000)).step (.run p)
      decide (s.1.result = .ok (some 0)) &&
      p.entryBody.toOption.any fun body =>
        decide ((s.2.step (.evaluate body (.ofBindings entryPoint []))).1.result =
          .error ⟨.stackOverflow, none⟩)) = true := by
  rw [Token.scan_ofList]
  decide +kernel

/-- **A limit does not make all errors those of the language.** After a run under the limit five
thousand which gives zero, the session is asked for the value of the body that was run: the limit
allows its calls, but the stack of the session is not made larger for them, and nothing turns its
overflow into an error of the language. Trees built by hand also fail in other ways in a run: the
node of `bareNode` is asked for its value, which it lacks, and the integer that `longPrint` writes
is too long. -/
theorem step_overflow_countdown :
    (¬∀ (source path : String) (p : Program) (limit : Int) (e : Expr) (frame : Frame),
      parse (Token.scan source path) = .ok p → demandedStack (some limit) ≤ largestStack →
      ∀ err, (((Session.start (some limit)).step (.run p)).2.step (.evaluate e frame)).1.result =
        .error err → err.fault.isForeign = false) ∧
    (∃ p body, parse (Token.scan (String.ofList countdown) "t.id") = .ok p ∧
      p.entryBody = .ok body ∧ (p.run (some 5000)).outcome.result = .ok (some 0) ∧
      (((Session.start (some 5000)).step (.run p)).2.step
        (.evaluate body (.ofBindings entryPoint []))).1.result = .error ⟨.stackOverflow, none⟩) ∧
    (bareNode.run (some 5)).outcome.result = .error ⟨.missingPart "value", none⟩ ∧
    (longPrint.run (some 5)).outcome.result = .error ⟨.numberTooLong, none⟩ := by
  obtain ⟨p, body, hp, hbody, hrun, hstep⟩ : ∃ p body,
      parse (Token.scan (String.ofList countdown) "t.id") = .ok p ∧
      p.entryBody = .ok body ∧ (p.run (some 5000)).outcome.result = .ok (some 0) ∧
      (((Session.start (some 5000)).step (.run p)).2.step
        (.evaluate body (.ofBindings entryPoint []))).1.result = .error ⟨.stackOverflow, none⟩ := by
    have hsteps := countdown_steps
    cases hp : parse (Token.scan (String.ofList countdown) "t.id") with
    | error e =>
      rw [hp] at hsteps
      cases hsteps
    | ok p =>
      rw [hp] at hsteps
      simp only [Except.toOption, Option.any_some, Bool.and_eq_true, decide_eq_true_eq] at hsteps
      obtain ⟨hrun, hbody⟩ := hsteps
      cases hentry : p.entryBody with
      | error e =>
        rw [hentry] at hbody
        cases hbody
      | ok body =>
        rw [hentry] at hbody
        exact ⟨p, body, rfl, hentry, hrun, of_decide_eq_true hbody⟩
  refine ⟨?_, ⟨p, body, hp, hbody, hrun, hstep⟩, by decide +kernel, by decide +kernel⟩
  intro h
  cases h (String.ofList countdown) "t.id" p 5000 body (.ofBindings entryPoint []) hp (by decide) _
    hstep

end Program

end Wordlet
