import Wordlet.Proofs.DepthLimit

/-!
# The calls of an evaluation

The acts of an evaluation are calls, and each holds what its inside did. Only the last of them can
have been cut short, and none has if the evaluation gave a value.

* `Act.Orderly`: the acts are the calls of an evaluation, in order.
* `Expr.eval_orderly`, `Program.run_orderly`: **the acts of every evaluation and of every run are
  orderly.**
* `Act.Orderly.continues`: what follows the beginning of a call in a trace is the trace of its
  inside, then its end; nothing follows a call that was cut short.
-/

namespace Wordlet

/-- The acts are calls that an evaluation makes while `depth` calls are open around it. Each is
allowed and holds what its inside did; `ended` says that the last has returned, as all before it
have. -/
inductive Act.Orderly (cx : Context) : (depth : Nat) → (ended : Bool) → List Act → Prop where
  | nil {depth : Nat} : Orderly cx depth true []
  | returned {depth stack : Nat} {ended : Bool} {loc : Option Location} {f : String}
      {args : List Int} {inner as : List Act} {v : Option Int} :
      cx.forbids (depth + 1) = false →
      Expr.callee cx stack depth loc f args = ⟨inner, .ok v⟩ →
      (Native.find? f = none → Orderly cx (depth + 1) true inner) → Orderly cx depth ended as →
      Orderly cx depth ended (.call loc f args inner (.returned v) :: as)
  | cutShort {depth stack : Nat} {ended : Bool} {loc : Option Location} {f : String}
      {args : List Int} {inner : List Act} {err : EvalError} :
      cx.forbids (depth + 1) = false →
      Expr.callee cx stack depth loc f args = ⟨inner, .error err⟩ →
      (Native.find? f = none → Orderly cx (depth + 1) ended inner) →
      Orderly cx depth false [.call loc f args inner .cutShort]

theorem Act.Orderly.append {cx : Context} {depth : Nat} {ended : Bool} {as bs : List Act}
    (has : Act.Orderly cx depth true as) (hbs : Act.Orderly cx depth ended bs) :
    Act.Orderly cx depth ended (as ++ bs) := by
  generalize hended : true = ended' at has
  induction has with
  | nil => exact hbs
  | returned hallowed hcallee hinner _ _ ih =>
    exact .returned hallowed hcallee hinner (ih hbs hended)
  | cutShort => cases hended

/-! ## Outcomes -/

namespace Outcome

variable {α β : Type} {cx : Context} {depth : Nat}

/-- The acts of the outcome are orderly, and all have returned if it has a value. -/
def Orderly (cx : Context) (depth : Nat) (o : Outcome α) : Prop :=
  ∃ ended, Act.Orderly cx depth ended o.acts ∧ ∀ v, o.result = .ok v → ended = true

theorem Orderly.of_ok {o : Outcome α} (h : o.Orderly cx depth) {v : α} (hv : o.result = .ok v) :
    Act.Orderly cx depth true o.acts := by
  obtain ⟨ended, hacts, hended⟩ := h
  rw [hended v hv] at hacts
  exact hacts

theorem Orderly.of_nil {o : Outcome α} (h : o.acts = []) : o.Orderly cx depth := by
  refine ⟨true, ?_, fun _ _ => rfl⟩
  rw [h]
  exact .nil

theorem Orderly.andThen {o : Outcome α} (ho : o.Orderly cx depth) {f : α → Outcome β}
    (hf : ∀ a, (f a).Orderly cx depth) : (o.andThen f).Orderly cx depth := by
  cases hr : o.result with
  | error e =>
    obtain ⟨ended, hacts, -⟩ := ho
    rw [andThen_of_error hr]
    exact ⟨ended, hacts, by simp⟩
  | ok a =>
    obtain ⟨ended, hacts, hended⟩ := hf a
    rw [andThen_of_ok hr]
    exact ⟨ended, (ho.of_ok hr).append hacts, hended⟩

/-- A call is orderly if its inside is, or if it is a call of a native. -/
theorem orderly_ofCall {stack : Nat} {loc : Option Location} {f : String} {args : List Int}
    (hallowed : cx.forbids (depth + 1) = false)
    (hinner : Native.find? f = none →
      (Expr.callee cx stack depth loc f args).Orderly cx (depth + 1)) :
    (ofCall loc f args (Expr.callee cx stack depth loc f args)).Orderly cx depth := by
  unfold ofCall
  cases hr : (Expr.callee cx stack depth loc f args).result with
  | ok v =>
    have hcallee : Expr.callee cx stack depth loc f args =
        ⟨(Expr.callee cx stack depth loc f args).acts, .ok v⟩ := by rw [← hr]
    exact ⟨true, .returned hallowed hcallee (fun hf => (hinner hf).of_ok hr) .nil, fun _ _ => rfl⟩
  | error err =>
    have hcallee : Expr.callee cx stack depth loc f args =
        ⟨(Expr.callee cx stack depth loc f args).acts, .error err⟩ := by rw [← hr]
    obtain ⟨ended, hacts⟩ : ∃ ended, Native.find? f = none →
        Act.Orderly cx (depth + 1) ended (Expr.callee cx stack depth loc f args).acts := by
      by_cases hf : Native.find? f = none
      · obtain ⟨ended, hacts, -⟩ := hinner hf
        exact ⟨ended, fun _ => hacts⟩
      · exact ⟨true, fun h => absurd h hf⟩
    exact ⟨false, .cutShort hallowed hcallee hacts, by simp⟩

end Outcome

/-- Evaluating a stray node makes no call. -/
theorem Stray.outcome_acts (loc : Option Location) (node : Stray) :
    (node.outcome loc).acts = [] := by
  have hholds : (node.outcome loc).Holds (fun _ => False) (fun _ => True) fun _ => True :=
    Stray.outcome_holds trivial (fun _ => trivial) (fun _ => trivial)
  exact List.eq_nil_iff_forall_not_mem.2 hholds.acts

/-! ## Evaluations and runs -/

namespace Expr

open Outcome

theorem orderly_evalArguments {cx : Context} {depth : Nat} {eval : Expr → Outcome (Option Int)}
    {f : String} {es : List Expr} (h : ∀ e ∈ es, (eval e).Orderly cx depth) (index : Nat) :
    (evalArguments eval f index es).Orderly cx depth := by
  induction es generalizing index with
  | nil => exact .of_nil rfl
  | cons e es ih =>
    obtain ⟨he, hes⟩ := List.forall_mem_cons.1 h
    rw [evalArguments]
    refine he.andThen fun v => ?_
    cases v with
    | none => exact .of_nil rfl
    | some v => exact (ih hes (index + 1)).andThen fun vs => .of_nil rfl

/-- The inside of a call is orderly if evaluations with less stack are. -/
theorem callee_orderly {cx : Context} {stack : Nat}
    (ih : ∀ stack' < stack, ∀ depth frame e, (eval cx stack' depth frame e).Orderly cx depth)
    {f : String} (hf : Native.find? f = none) (depth : Nat) (loc : Option Location)
    (args : List Int) : (callee cx stack depth loc f args).Orderly cx (depth + 1) := by
  unfold callee
  rw [hf]
  dsimp only
  split
  · exact .of_nil rfl
  split
  · exact .of_nil rfl
  cases stack with
  | zero => exact .of_nil rfl
  | succ stack => exact ih stack (Nat.lt_succ_self _) (depth + 1) _ _

/-- **The acts of every evaluation are orderly.** The induction is on the stack. -/
theorem eval_orderly (cx : Context) (stack depth : Nat) (frame : Frame) (e : Expr) :
    (eval cx stack depth frame e).Orderly cx depth := by
  induction stack using Nat.strongRecOn generalizing depth frame e with
  | ind stack ih =>
    by_cases hstack : stack < 2
    · rw [eval_exhausted hstack]
      exact .of_nil rfl
    obtain ⟨stack, rfl⟩ : ∃ n, stack = n + 2 := ⟨stack - 2, by omega⟩
    cases e with
    | empty loc => exact .of_nil rfl
    | literal loc v => exact .of_nil rfl
    | var loc x =>
      rw [eval]
      split
      · exact .of_nil rfl
      · exact .of_nil rfl
    | branch loc c t e =>
      rw [eval_branch]
      refine (ih stack (by omega) depth frame c).andThen fun v => ?_
      cases v with
      | none => exact .of_nil rfl
      | some v =>
        rw [choose]
        split
        · exact ih stack (by omega) depth frame t
        · exact ih stack (by omega) depth frame e
    | call loc f es =>
      rw [eval_call]
      have hargs : ∀ e ∈ es, (eval cx stack depth frame e).Orderly cx depth :=
        fun e _ => ih stack (by omega) depth frame e
      refine (orderly_evalArguments hargs 1).andThen fun args => ?_
      unfold invoke
      split
      · exact .of_nil rfl
      rename_i hallowed
      refine orderly_ofCall (by simpa using hallowed) fun hf => ?_
      exact callee_orderly (fun stack' hlt => ih stack' (by omega)) hf depth loc args
    | stray loc node es => exact .of_nil (node.outcome_acts loc)

end Expr

/-- The acts of every run are orderly. -/
theorem Program.run_orderly (p : Program) (maxDepth : Option Int) :
    (p.run maxDepth).outcome.Orderly ⟨p.table, maxDepth⟩ 0 := by
  cases hbody : p.entryBody with
  | error e =>
    rw [run_of_entryBody_error hbody]
    exact .of_nil rfl
  | ok body =>
    rw [run_of_entryBody_ok hbody]
    dsimp only
    split
    · exact .of_nil rfl
    · exact Expr.eval_orderly _ _ 0 _ body

/-! ## Natives -/

/-- The inside of a call of a native. -/
theorem Expr.callee_of_find? {f : String} {n : Native} (hn : Native.find? f = some n) (cx : Context)
    (stack depth : Nat) (loc : Option Location) (args : List Int) :
    callee cx stack depth loc f args = n.outcome loc args := by
  unfold callee
  rw [hn]

/-- The acts inside a call of a native write values and nothing else. -/
theorem Native.eq_write_of_mem_outcome {n : Native} {loc : Option Location} {args : List Int}
    {a : Act} (h : a ∈ (n.outcome loc args).acts) : ∃ v, a = .write v := by
  have hholds : (n.outcome loc args).Holds (fun a => ∃ v, a = .write v) (fun v => ∀ x ∈ v, True)
      fun _ => True :=
    Native.outcome_holds (fun v _ => ⟨trivial, v, rfl⟩) (fun _ => trivial) (fun _ _ _ => trivial)
  exact hholds.acts a h

/-- Nothing is entered inside a call of a native. -/
theorem Native.boundary_not_mem_trace {f : String} {n : Native} (hn : Native.find? f = some n)
    {cx : Context} {stack depth : Nat} {loc : Option Location} {args : List Int}
    {inner : List Act} {result : Except EvalError (Option Int)}
    (hcallee : Expr.callee cx stack depth loc f args = ⟨inner, result⟩) (k : Nat) (e : Event) :
    .boundary e ∉ Act.trace k inner := by
  rw [Expr.callee_of_find? hn] at hcallee
  have hwrites : ∀ a ∈ (n.outcome loc args).acts, ∃ v, a = .write v :=
    fun a ha => Native.eq_write_of_mem_outcome ha
  rw [hcallee] at hwrites
  clear hcallee
  induction inner with
  | nil => simp [Act.trace]
  | cons a as ih =>
    obtain ⟨⟨v, rfl⟩, has⟩ := List.forall_mem_cons.1 hwrites
    simp [Act.trace, Act.traceOf, ih has]

/-- A call inside which there is a boundary of a call is no call of a native. -/
theorem Native.find?_eq_none_of_boundary {f : String} {cx : Context} {stack depth : Nat}
    {loc : Option Location} {args : List Int} {inner : List Act}
    {result : Except EvalError (Option Int)}
    (hcallee : Expr.callee cx stack depth loc f args = ⟨inner, result⟩) {k : Nat} {e : Event}
    (he : .boundary e ∈ Act.trace k inner) : Native.find? f = none := by
  cases hn : Native.find? f with
  | none => rfl
  | some n => exact absurd he (Native.boundary_not_mem_trace hn hcallee k e)

/-! ## Traces -/

/-- An element of two lists joined stands in the first or in the second. -/
theorem append_eq_append_cons {α : Type} {as bs cs ds : List α} {x : α}
    (h : as ++ bs = cs ++ x :: ds) :
    (∃ zs, as = cs ++ x :: zs ∧ ds = zs ++ bs) ∨ (∃ zs, cs = as ++ zs ∧ bs = zs ++ x :: ds) := by
  rcases List.append_eq_append_iff.1 h with ⟨zs, hcs, hbs⟩ | ⟨zs, has, hds⟩
  · exact .inr ⟨zs, hcs, hbs⟩
  · cases zs with
    | nil => exact .inr ⟨[], by simpa using has.symm, by simpa using hds.symm⟩
    | cons y zs =>
      rw [List.cons_append, List.cons.injEq] at hds
      obtain ⟨rfl, hds⟩ := hds
      exact .inl ⟨zs, has, hds⟩

/-- What goes on after a call of `f` was entered at depth `k`: its inside happens and it ends. If it
is cut short, then nothing follows, and `halted` holds. -/
def Continues (cx : Context) (loc : Option Location) (f : String) (args : List Int) (k : Nat)
    (after : List Moment) (halted : Prop) : Prop :=
  ∃ stack depth inner result rest, k = depth + 1 ∧
    Expr.callee cx stack depth loc f args = ⟨inner, result⟩ ∧
    after = Act.trace k inner ++
      ((Act.exitEvent f k (Outcome.ending result)).map .boundary ++ rest) ∧
    ∀ e, result = .error e → rest = [] ∧ halted

theorem Continues.append {cx : Context} {loc : Option Location} {f : String} {args : List Int}
    {k : Nat} {after more : List Moment} {halted halted' : Prop}
    (h : Continues cx loc f args k after halted) (hmore : halted → more = [] ∧ halted') :
    Continues cx loc f args k (after ++ more) halted' := by
  obtain ⟨stack, depth, inner, result, rest, hk, hcallee, rfl, herror⟩ := h
  refine ⟨stack, depth, inner, result, rest ++ more, hk, hcallee, by simp, ?_⟩
  intro e he
  obtain ⟨hrest, hhalted⟩ := herror e he
  obtain ⟨hnil, hhalted'⟩ := hmore hhalted
  exact ⟨by rw [hrest, hnil, List.append_nil], hhalted'⟩

/-- **What goes on after a call was entered**, in the trace of orderly acts. -/
theorem Act.Orderly.continues {cx : Context} {depth : Nat} {ended : Bool} {as : List Act}
    (h : Act.Orderly cx depth ended as) {before after : List Moment} {f : String} {k : Nat}
    {args : List Int} {loc : Option Location}
    (htrace : Act.trace depth as = before ++ .boundary (.enter f k args loc) :: after) :
    Continues cx loc f args k after (ended = false) := by
  induction h generalizing before after with
  | nil => simp [trace] at htrace
  | @returned depth stack ended _ g args' inner as v hallowed hcallee _ _ ihinner ih =>
    rw [trace, traceOf] at htrace
    cases before with
    | nil =>
      -- the call is the first of these
      rw [List.nil_append, List.cons_append, List.cons.injEq, Moment.boundary.injEq] at htrace
      obtain ⟨henter, rfl⟩ := htrace
      cases henter
      exact ⟨stack, depth, inner, .ok v, trace depth as, rfl, hcallee, by simp [Outcome.ending],
        by simp⟩
    | cons m before =>
      rw [List.cons_append, List.cons_append, List.cons.injEq, List.append_assoc] at htrace
      rcases append_eq_append_cons htrace.2 with ⟨zs, hin, rfl⟩ | ⟨zs, -, hin⟩
      · have hmem : .boundary (.enter f k args loc) ∈ trace (depth + 1) inner := by simp [hin]
        have hn := Native.find?_eq_none_of_boundary hcallee hmem
        exact (ihinner hn hin).append (by simp)
      · -- after the inside and the end of the first call
        rcases append_eq_append_cons hin with ⟨zs', hexit, -⟩ | ⟨zs', -, hin⟩
        · simp [exitEvent, List.cons_eq_append_iff] at hexit
        · exact ih hin
  | @cutShort depth stack ended _ g args' inner err hallowed hcallee _ ihinner =>
    rw [trace, traceOf, exitEvent, trace] at htrace
    cases before with
    | nil =>
      rw [List.nil_append, List.cons_append, List.cons.injEq, Moment.boundary.injEq] at htrace
      obtain ⟨henter, rfl⟩ := htrace
      cases henter
      exact ⟨stack, depth, inner, .error err, [], rfl, hcallee,
        by simp [Outcome.ending, exitEvent], by simp⟩
    | cons m before =>
      rw [List.cons_append, List.cons_append, List.cons.injEq, List.map_nil, List.append_nil,
        List.append_nil] at htrace
      have hmem : .boundary (.enter f k args loc) ∈ trace (depth + 1) inner := by simp [htrace.2]
      have hn := Native.find?_eq_none_of_boundary hcallee hmem
      rw [← List.append_nil after]
      exact (ihinner hn htrace.2).append (by simp)

end Wordlet
