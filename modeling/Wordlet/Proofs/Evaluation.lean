import Wordlet.Eval.Run

/-!
# What holds of every evaluation

An evaluation is a tree of evaluations, one for each expression whose value is asked for. What holds
of every one of them is proved here once for all: an `Invariant` says what may be evaluated in
which frame, and what it says of one step it says of every evaluation.

* `Outcome.Holds`: what holds of the acts, of the value and of the error of an outcome. It has a
  rule for each way in which outcomes are put together (`Holds.andThen`, `Holds.evalArguments`).
* `Expr.callee`: the inside of a call, once its arguments have values.
* `Expr.holds_eval_step`: one step of an evaluation, for what holds of its acts and of its error.
* `Invariant.eval`: **what one step preserves holds of every evaluation**, whatever the stack and
  the depth.
* `Simulation.eval_step`: one step of two evaluations side by side, for a relation between their
  outcomes.
-/

namespace Wordlet

/-! ## Tables and frames -/

theorem Program.find?_table {p : Program} {f : String} {d : Definition}
    (h : p.table.find? f = some d) : d ∈ p.definitions ∧ d.name = f := by
  have hmem := List.mem_of_find?_eq_some h
  have hname := List.find?_some h
  exact ⟨List.mem_reverse.1 hmem, by simpa using hname⟩

/-- What a frame binds a name to is one of the arguments. -/
theorem Definition.mem_of_get?_frame {d : Definition} {args : List Int} {x : String} {v : Int}
    (h : (d.frame args).get? x = some v) : v ∈ args := by
  unfold Definition.frame Frame.ofBindings Frame.get? at h
  obtain ⟨⟨y, w⟩, hfind, rfl⟩ := Option.map_eq_some_iff.1 h
  have hmem := List.mem_reverse.1 (List.mem_of_find?_eq_some hfind)
  exact (List.of_mem_zip hmem).2

/-- A frame binds all parameters if there is an argument for each. -/
theorem Definition.get?_frame_ne_none {d : Definition} {args : List Int} {x : String}
    (hx : x ∈ d.parameterNames) (hlen : d.arity = args.length) :
    (d.frame args).get? x ≠ none := by
  have hfst : (d.parameterNames.zip args).map Prod.fst = d.parameterNames := by
    refine List.map_fst_zip ?_
    rw [parameterNames, List.length_map]
    exact Nat.le_of_eq hlen
  rw [← hfst] at hx
  obtain ⟨⟨y, v⟩, hmem, rfl⟩ := List.mem_map.1 hx
  unfold Definition.frame Frame.ofBindings Frame.get?
  intro hnone
  rw [Option.map_eq_none_iff, List.find?_eq_none] at hnone
  exact hnone _ (List.mem_reverse.2 hmem) (by simp)

/-! ## Outcomes -/

namespace Outcome

variable {α β : Type}

theorem andThen_of_ok {o : Outcome α} {a : α} (h : o.result = .ok a) (f : α → Outcome β) :
    o.andThen f = ⟨o.acts ++ (f a).acts, (f a).result⟩ := by
  obtain ⟨acts, result⟩ := o
  subst h
  rfl

theorem andThen_of_error {o : Outcome α} {e : EvalError} (h : o.result = .error e)
    (f : α → Outcome β) : o.andThen f = ⟨o.acts, .error e⟩ := by
  obtain ⟨acts, result⟩ := o
  subst h
  rfl

/-- `A` holds of the acts of an outcome, `V` of its value and `E` of its error. -/
structure Holds (A : Act → Prop) (V : α → Prop) (E : EvalError → Prop) (o : Outcome α) : Prop where
  acts : ∀ a ∈ o.acts, A a
  ok : ∀ a, o.result = .ok a → V a
  error : ∀ e, o.result = .error e → E e

variable {A : Act → Prop} {E : EvalError → Prop} {V : α → Prop} {W : β → Prop}

theorem Holds.value {a : α} (h : V a) : (value a).Holds A V E := by
  refine ⟨by simp [Outcome.value], ?_, ?_⟩
  · intro b hb
    cases hb
    exact h
  · intro e he
    cases he

theorem Holds.fault {loc : Option Location} {x : Fault} (h : E ⟨x, loc⟩) :
    (fault loc x : Outcome α).Holds A V E := by
  refine ⟨by simp [Outcome.fault], ?_, ?_⟩
  · intro b hb
    cases hb
  · intro e he
    cases he
    exact h

theorem Holds.andThen {o : Outcome α} (ho : o.Holds A V E) {f : α → Outcome β}
    (hf : ∀ a, V a → (f a).Holds A W E) : (o.andThen f).Holds A W E := by
  cases hr : o.result with
  | error e =>
    rw [andThen_of_error hr]
    refine ⟨ho.acts, ?_, ?_⟩
    · intro b hb
      cases hb
    · intro e' he
      cases he
      exact ho.error e hr
  | ok a =>
    have hfa := hf a (ho.ok a hr)
    rw [andThen_of_ok hr]
    refine ⟨?_, hfa.ok, hfa.error⟩
    intro x hx
    rcases List.mem_append.1 hx with hx | hx
    · exact ho.acts x hx
    · exact hfa.acts x hx

/-- The acts of a call are one act, whose parts are known to be as they should. -/
theorem Holds.ofCall {V : Option Int → Prop} {o : Outcome (Option Int)} (ho : o.Holds A V E)
    {loc : Option Location} {f : String} {args : List Int}
    (hact : (∀ a ∈ o.acts, A a) → (∀ v, ending o.result = .returned v → V v) →
      A (.call loc f args o.acts (ending o.result))) :
    (ofCall loc f args o).Holds A V E := by
  refine ⟨?_, ho.ok, ho.error⟩
  intro a ha
  obtain rfl := List.mem_singleton.1 ha
  refine hact ho.acts ?_
  intro v hv
  cases hr : o.result with
  | ok w =>
    rw [hr] at hv
    cases hv
    exact ho.ok _ hr
  | error e =>
    rw [hr] at hv
    cases hv

end Outcome

/-- What a native gives: its value, or an act that writes it, or one of two faults. -/
theorem Native.outcome_holds {n : Native} {loc : Option Location} {args : List Int}
    {A : Act → Prop} {V : Int → Prop} {E : EvalError → Prop}
    (hvalue : ∀ v, n.value? args = some v → V v ∧ A (.write v))
    (harity : args.length ≠ n.arity → E ⟨.arityMismatch n.name n.arity args.length, loc⟩)
    (hlong : ∀ v, n.value? args = some v → Text.hasDecimal v = false → E ⟨.numberTooLong, none⟩) :
    (n.outcome loc args).Holds A (fun v => ∀ x ∈ v, V x) E := by
  unfold Native.outcome
  cases hv : n.value? args with
  | none =>
    -- a native has a value for every list of arguments that is as long as it should be
    refine .fault (harity fun hlen => ?_)
    have hsome := (n.value?_isSome_iff args).2 hlen
    rw [hv] at hsome
    cases hsome
  | some v =>
    obtain ⟨hV, hA⟩ := hvalue v hv
    simp only
    split
    · refine .value ?_
      intro x hx
      cases hx
      exact hV
    split
    · refine ⟨?_, ?_, ?_⟩
      · intro a ha
        obtain rfl := List.mem_singleton.1 ha
        exact hA
      · intro a ha
        cases ha
        simp
      · intro e he
        cases he
    · rename_i hdec
      exact .fault (hlong v hv (by simpa using hdec))

/-- What a stray node gives: no value, or one of two faults. -/
theorem Stray.outcome_holds {node : Stray} {loc : Option Location} {A : Act → Prop}
    {V : Option Int → Prop} {E : EvalError → Prop} (hnone : V none)
    (hpart : ∀ part, E ⟨.missingPart part, none⟩) (hkind : ∀ kind, E ⟨.notAnExpression kind, loc⟩) :
    (node.outcome loc).Holds A V E := by
  unfold Stray.outcome
  split
  · split
    · exact .value hnone
    · split
      · exact .fault (hpart _)
      · exact .fault (hkind _)
  · exact .fault (hkind _)

/-! ## The steps of an evaluation -/

namespace Expr

/-- The inside of a call of `f` at `loc`, once its arguments have values: natives come first, then
the table. -/
def callee (cx : Context) (stack depth : Nat) (loc : Option Location) (f : String)
    (args : List Int) : Outcome (Option Int) :=
  match Native.find? f with
  | some n => n.outcome loc args
  | none =>
    match cx.table.find? f with
    | none => .fault loc (.unknownFunction f)
    | some d =>
      if d.arity ≠ args.length then .fault loc (.arityMismatch f d.arity args.length)
      else
        match stack with
        | 0 => .fault none .stackExhausted
        | stack + 1 => eval cx stack (depth + 1) (d.frame args) d.body

/-- What follows once the arguments of a call have values. -/
def invoke (cx : Context) (stack depth : Nat) (loc : Option Location) (f : String)
    (args : List Int) : Outcome (Option Int) :=
  if cx.forbids (depth + 1) then .fault loc .tooDeep
  else .ofCall loc f args (callee cx stack depth loc f args)

theorem eval_call (cx : Context) (stack depth : Nat) (frame : Frame) (loc : Option Location)
    (f : String) (es : List Expr) :
    eval cx (stack + 2) depth frame (.call loc f es) =
      (evalArguments (eval cx stack depth frame) f 1 es).andThen
        (invoke cx stack depth loc f) := by
  rw [eval]
  refine congrArg _ (funext fun args => ?_)
  unfold invoke callee
  cases stack <;> rfl

/-- What follows once the condition of a branch is evaluated. -/
def choose (eval : Expr → Outcome (Option Int)) (loc : Option Location) (t e : Expr) :
    Option Int → Outcome (Option Int)
  | none => .fault loc .conditionWithoutValue
  | some v => if v = 1 then eval t else eval e

theorem eval_branch (cx : Context) (stack depth : Nat) (frame : Frame) (loc : Option Location)
    (c t e : Expr) :
    eval cx (stack + 2) depth frame (.branch loc c t e) =
      (eval cx stack depth frame c).andThen
        (choose (eval cx stack depth frame) loc t e) := by
  rw [eval]
  rfl

theorem eval_exhausted {stack : Nat} (h : stack < 2) (cx : Context) (depth : Nat) (frame : Frame)
    (e : Expr) : eval cx stack depth frame e = .fault none .stackExhausted := by
  match stack, h with
  | 0, _ => rfl
  | 1, _ => rfl

/-- What the arguments of a call give: as many values as there are arguments. -/
theorem holds_evalArguments {A : Act → Prop} {V : Int → Prop} {E : EvalError → Prop}
    {eval : Expr → Outcome (Option Int)} {f : String} {es : List Expr}
    (h : ∀ e ∈ es, (eval e).Holds A (fun v => ∀ x ∈ v, V x) E)
    (hnone : ∀ e ∈ es, ∀ i, E ⟨.argumentWithoutValue i f, e.loc⟩) (index : Nat) :
    (evalArguments eval f index es).Holds A (fun vs => vs.length = es.length ∧ ∀ v ∈ vs, V v)
      E := by
  induction es generalizing index with
  | nil => exact .value ⟨rfl, by simp⟩
  | cons e es ih =>
    obtain ⟨he, hes⟩ := List.forall_mem_cons.1 h
    obtain ⟨hne, hnes⟩ := List.forall_mem_cons.1 hnone
    rw [evalArguments]
    refine he.andThen fun v hv => ?_
    cases v with
    | none => exact .fault (hne index)
    | some x =>
      refine (ih hes hnes (index + 1)).andThen fun vs hvs => ?_
      obtain ⟨hlen, hall⟩ := hvs
      exact .value ⟨by simp [hlen], List.forall_mem_cons.2 ⟨hv x rfl, hall⟩⟩

end Expr

/-- The fault is that of a limit: on how deep calls are nested, or on the stack. -/
def Fault.isLimit : Fault → Bool
  | tooDeep | stackExhausted | stackTooLarge => true
  | _ => false

theorem Fault.ne_of_isLimit {x y : Fault} (hx : x.isLimit = false) (hy : y.isLimit = true) :
    x ≠ y := by
  rintro rfl
  rw [hx] at hy
  cases hy

namespace Expr

/-- The expressions in an expression that are evaluated in the same frame. -/
def parts : Expr → List Expr
  | call _ _ es => es
  | branch _ c t e => [c, t, e]
  | _ => []

/-- **One step of an evaluation.** `A` holds of the acts of an expression and `E` of its error if
they do of its parts and of the call that it makes. All errors that the step adds are others than
those of limits. -/
theorem holds_eval_step {A : Act → Prop} {E : EvalError → Prop}
    (hE : ∀ err : EvalError, err.fault.isLimit = false → E err) {cx : Context} {stack depth : Nat}
    {frame : Frame} {e : Expr}
    (hparts : ∀ a ∈ e.parts, (eval cx stack depth frame a).Holds A (fun _ => True) E)
    (hcall : ∀ loc f es, e = .call loc f es → ∀ args,
      (invoke cx stack depth loc f args).Holds A (fun _ => True) E) :
    (eval cx (stack + 2) depth frame e).Holds A (fun _ => True) E := by
  cases e with
  | empty loc => exact .value trivial
  | literal loc v => exact .value trivial
  | var loc x =>
    rw [eval, Frame.lookup]
    cases frame.get? x with
    | some v => exact .value trivial
    | none => exact .fault (hE _ rfl)
  | branch loc c t a =>
    have hc := hparts c (by simp [parts])
    have ht := hparts t (by simp [parts])
    have ha := hparts a (by simp [parts])
    rw [eval_branch]
    refine hc.andThen fun v _ => ?_
    cases v with
    | none => exact .fault (hE _ rfl)
    | some v =>
      rw [choose]
      split
      · exact ht
      · exact ha
  | call loc f es =>
    have hargs : ∀ a ∈ es,
        (eval cx stack depth frame a).Holds A (fun v => ∀ x ∈ v, True) E := by
      intro a ha
      have hpart := hparts a ha
      exact ⟨hpart.acts, fun _ _ _ _ => trivial, hpart.error⟩
    rw [eval_call]
    refine (holds_evalArguments hargs (fun _ _ _ => hE _ rfl) 1).andThen fun args _ => ?_
    exact hcall loc f es rfl args
  | stray loc node es =>
    exact Stray.outcome_holds trivial (fun _ => hE _ rfl) (fun _ => hE _ rfl)

/-- One step of a call, for what holds of its error: the limit may forbid it, and the stack may be
used up before the body of its callee is reached. -/
theorem holds_invoke {E : EvalError → Prop}
    (hE : ∀ err : EvalError, err.fault.isLimit = false → E err) {cx : Context} {stack depth : Nat}
    {loc : Option Location} {f : String} {args : List Int}
    (hdeep : cx.forbids (depth + 1) = true → E ⟨.tooDeep, loc⟩)
    (hbody : cx.forbids (depth + 1) = false → Native.find? f = none →
      ∀ d, cx.table.find? f = some d →
        (stack = 0 → E ⟨.stackExhausted, none⟩) ∧
        ∀ left, stack = left + 1 → (eval cx left (depth + 1) (d.frame args) d.body).Holds
          (fun _ => True) (fun _ => True) E) :
    (invoke cx stack depth loc f args).Holds (fun _ => True) (fun _ => True) E := by
  unfold invoke
  split
  · rename_i hforbids
    exact .fault (hdeep hforbids)
  rename_i hallowed
  refine Outcome.Holds.ofCall ?_ fun _ _ => trivial
  unfold callee
  split
  · rename_i n _
    have hnative : (n.outcome loc args).Holds (fun _ => True) (fun v => ∀ x ∈ v, True) E :=
      Native.outcome_holds (fun _ _ => ⟨trivial, trivial⟩) (fun _ => hE _ rfl)
        (fun _ _ _ => hE _ rfl)
    exact ⟨hnative.acts, fun _ _ => trivial, hnative.error⟩
  rename_i hn
  split
  · exact .fault (hE _ rfl)
  rename_i d hd
  split
  · exact .fault (hE _ rfl)
  obtain ⟨hzero, hsucc⟩ := hbody (by simpa using hallowed) hn d hd
  cases stack with
  | zero => exact .fault (hzero rfl)
  | succ left => exact hsucc left rfl

end Expr

/-! ## Invariants -/

/-- What holds of an evaluation in a context: `Inv frame e` says that `e` may be evaluated in
`frame`, and `V`, `A` and `E` hold of the values, the acts and the errors. Each field is one step of
an evaluation. -/
structure Invariant (cx : Context) (Inv : Frame → Expr → Prop) (V : Int → Prop) (A : Act → Prop)
    (E : EvalError → Prop) : Prop where
  /-- The stack may be used up at any step. -/
  exhausted : E ⟨.stackExhausted, none⟩
  literal : ∀ {frame loc v}, Inv frame (.literal loc v) → V v
  var : ∀ {frame loc x}, Inv frame (.var loc x) →
    (∀ v, frame.get? x = some v → V v) ∧
      (frame.get? x = none → E ⟨.unbound x frame.function, loc⟩)
  branch : ∀ {frame loc c t e}, Inv frame (.branch loc c t e) →
    Inv frame c ∧ Inv frame t ∧ Inv frame e ∧ E ⟨.conditionWithoutValue, loc⟩
  call : ∀ {frame loc f es}, Inv frame (.call loc f es) →
    (∀ e ∈ es, Inv frame e ∧ ∀ i, E ⟨.argumentWithoutValue i f, e.loc⟩) ∧ E ⟨.tooDeep, loc⟩
  stray : ∀ {frame loc node es}, Inv frame (.stray loc node es) →
    (node.outcome loc).Holds A (fun v => ∀ x ∈ v, V x) E
  native : ∀ {frame loc f es args n}, Inv frame (.call loc f es) → args.length = es.length →
    (∀ v ∈ args, V v) → Native.find? f = some n →
    (n.outcome loc args).Holds A (fun v => ∀ x ∈ v, V x) E
  unknown : ∀ {frame loc f es}, Inv frame (.call loc f es) → Native.find? f = none →
    cx.table.find? f = none → E ⟨.unknownFunction f, loc⟩
  arity : ∀ {frame loc f es d}, Inv frame (.call loc f es) → Native.find? f = none →
    cx.table.find? f = some d → d.arity ≠ es.length → E ⟨.arityMismatch f d.arity es.length, loc⟩
  body : ∀ {f d args}, cx.table.find? f = some d → d.arity = args.length → (∀ v ∈ args, V v) →
    Inv (d.frame args) d.body
  called : ∀ {loc f args inner ending}, (∀ v ∈ args, V v) → (∀ a ∈ inner, A a) →
    (∀ v, ending = .returned (some v) → V v) → A (.call loc f args inner ending)

namespace Invariant

variable {cx : Context} {Inv : Frame → Expr → Prop} {V : Int → Prop} {A : Act → Prop}
  {E : EvalError → Prop}

/-- What an evaluation with less stack keeps, a call keeps. -/
theorem invoke (h : Invariant cx Inv V A E) {frame : Frame} {loc : Option Location} {f : String}
    {es : List Expr} (hinv : Inv frame (.call loc f es)) {args : List Int}
    (hlen : args.length = es.length) (hargs : ∀ v ∈ args, V v) {stack depth : Nat}
    (ih : ∀ stack' < stack, ∀ depth frame e, Inv frame e →
      (e.eval cx stack' depth frame).Holds A (fun v => ∀ x ∈ v, V x) E) :
    (Expr.invoke cx stack depth loc f args).Holds A (fun v => ∀ x ∈ v, V x) E := by
  unfold Expr.invoke
  split
  · exact .fault (h.call hinv).2
  -- the call is entered: its act is as it should be if its inside is
  refine Outcome.Holds.ofCall ?_ fun hacts hend => h.called hargs hacts fun v hv => hend _ hv v rfl
  unfold Expr.callee
  split
  · rename_i n hn
    exact h.native hinv hlen hargs hn
  rename_i hn
  split
  · rename_i ht
    exact .fault (h.unknown hinv hn ht)
  rename_i d ht
  split
  · rename_i hne
    rw [hlen] at hne ⊢
    exact .fault (h.arity hinv hn ht hne)
  rename_i heq
  cases stack with
  | zero => exact .fault h.exhausted
  | succ stack =>
    have hbody := h.body ht (Decidable.of_not_not heq) hargs
    exact ih stack (Nat.lt_succ_self _) (depth + 1) _ _ hbody

/-- **What one step preserves holds of every evaluation.** The induction is on the stack, which
every evaluation inside another has less of. -/
theorem eval (h : Invariant cx Inv V A E) (stack depth : Nat) (frame : Frame) (e : Expr)
    (hinv : Inv frame e) : (e.eval cx stack depth frame).Holds A (fun v => ∀ x ∈ v, V x) E := by
  induction stack using Nat.strongRecOn generalizing depth frame e with
  | ind stack ih =>
    -- every expression takes two frames
    by_cases hstack : stack < 2
    · rw [Expr.eval_exhausted hstack]
      exact .fault h.exhausted
    obtain ⟨stack, rfl⟩ : ∃ n, stack = n + 2 := ⟨stack - 2, by omega⟩
    cases e with
    | empty loc => exact .value (by simp)
    | literal loc v =>
      refine .value ?_
      intro x hx
      cases hx
      exact h.literal hinv
    | var loc x =>
      obtain ⟨hsome, hnone⟩ := h.var hinv
      rw [Expr.eval, Frame.lookup]
      cases hx : frame.get? x with
      | some v =>
        refine .value ?_
        intro y hy
        cases hy
        exact hsome v hx
      | none => exact .fault (hnone hx)
    | branch loc c t e =>
      obtain ⟨hc, ht, he, hnone⟩ := h.branch hinv
      rw [Expr.eval_branch]
      refine (ih stack (by omega) depth frame c hc).andThen fun v _ => ?_
      cases v with
      | none => exact .fault hnone
      | some v =>
        rw [Expr.choose]
        split
        · exact ih stack (by omega) depth frame t ht
        · exact ih stack (by omega) depth frame e he
    | call loc f es =>
      obtain ⟨hes, -⟩ := h.call hinv
      have hargs := Expr.holds_evalArguments (f := f)
        (fun e he => ih stack (by omega) depth frame e (hes e he).1) (fun e he => (hes e he).2) 1
      rw [Expr.eval_call]
      refine hargs.andThen fun args hargs => ?_
      -- the body of the callee has less stack still than the arguments had
      exact h.invoke hinv hargs.1 hargs.2 fun stack' hlt => ih stack' (by omega)
    | stray loc node es => exact h.stray hinv

end Invariant

/-! ## Two evaluations side by side -/

/-- A relation between the outcomes of two evaluations that go the same way as long as it holds. -/
structure Simulation (R : {α : Type} → Outcome α → Outcome α → Prop) : Prop where
  value : ∀ {α : Type} (a : α), R (.value a) (.value a)
  fault : ∀ {α : Type} (loc : Option Location) (x : Fault),
    R (.fault loc x : Outcome α) (.fault loc x)
  write : ∀ v : Int, R (⟨[.write v], .ok none⟩ : Outcome (Option Int)) ⟨[.write v], .ok none⟩
  andThen : ∀ {α β : Type} {o o' : Outcome α} {f f' : α → Outcome β},
    R o o' → (∀ a, R (f a) (f' a)) → R (o.andThen f) (o'.andThen f')

namespace Simulation

variable {R : {α : Type} → Outcome α → Outcome α → Prop}

theorem stray (h : Simulation R) (loc : Option Location) (node : Stray) :
    R (node.outcome loc) (node.outcome loc) := by
  unfold Stray.outcome
  split
  · split
    · exact h.value none
    · split
      · exact h.fault none _
      · exact h.fault loc _
  · exact h.fault loc _

theorem native (h : Simulation R) (n : Native) (loc : Option Location) (args : List Int) :
    R (n.outcome loc args) (n.outcome loc args) := by
  unfold Native.outcome
  split
  · exact h.fault loc _
  · split
    · exact h.value _
    · split
      · exact h.write _
      · exact h.fault none _

theorem evalArguments (h : Simulation R) {eval eval' : Expr → Outcome (Option Int)} {f : String}
    {es : List Expr} (hes : ∀ e ∈ es, R (eval e) (eval' e)) (index : Nat) :
    R (Expr.evalArguments eval f index es) (Expr.evalArguments eval' f index es) := by
  induction es generalizing index with
  | nil => exact h.value []
  | cons e es ih =>
    obtain ⟨he, hes⟩ := List.forall_mem_cons.1 hes
    rw [Expr.evalArguments, Expr.evalArguments]
    refine h.andThen he fun v => ?_
    cases v with
    | none => exact h.fault _ _
    | some v => exact h.andThen (ih hes (index + 1)) fun vs => h.value _

/-- **One step of both evaluations.** The relation holds of the outcomes of an expression if it
holds of the parts of the expression and of the call that is made. -/
theorem eval_step_parts (h : Simulation R) {cx cx' : Context} {stack stack' depth depth' : Nat}
    {frame : Frame} {e : Expr}
    (hparts : ∀ a ∈ e.parts,
      R (Expr.eval cx stack depth frame a) (Expr.eval cx' stack' depth' frame a))
    (hcall : ∀ loc f es, e = .call loc f es → ∀ args, R (Expr.invoke cx stack depth loc f args)
      (Expr.invoke cx' stack' depth' loc f args)) :
    R (Expr.eval cx (stack + 2) depth frame e) (Expr.eval cx' (stack' + 2) depth' frame e) := by
  cases e with
  | empty loc => exact h.value none
  | literal loc v => exact h.value (some v)
  | var loc x =>
    rw [Expr.eval, Expr.eval, Frame.lookup]
    cases frame.get? x with
    | none => exact h.fault loc _
    | some v => exact h.value (some v)
  | branch loc c t e =>
    rw [Expr.eval_branch, Expr.eval_branch]
    refine h.andThen (hparts c (by simp [Expr.parts])) fun v => ?_
    cases v with
    | none => exact h.fault loc _
    | some v =>
      rw [Expr.choose, Expr.choose]
      split
      · exact hparts t (by simp [Expr.parts])
      · exact hparts e (by simp [Expr.parts])
  | call loc f es =>
    rw [Expr.eval_call, Expr.eval_call]
    exact h.andThen (h.evalArguments hparts 1) (hcall loc f es rfl)
  | stray loc node es => exact h.stray loc node

/-- One step of both evaluations, if the relation holds of all expressions and of all calls with
less stack. -/
theorem eval_step (h : Simulation R) {cx cx' : Context} {stack stack' depth depth' : Nat}
    {frame : Frame}
    (hsub : ∀ e, R (Expr.eval cx stack depth frame e) (Expr.eval cx' stack' depth' frame e))
    (hcall : ∀ loc f args, R (Expr.invoke cx stack depth loc f args)
      (Expr.invoke cx' stack' depth' loc f args)) (e : Expr) :
    R (Expr.eval cx (stack + 2) depth frame e) (Expr.eval cx' (stack' + 2) depth' frame e) :=
  h.eval_step_parts (fun a _ => hsub a) fun loc f _ _ args => hcall loc f args

end Simulation

/-! ## Runs -/

namespace Program

/-- A program that can be run has an entry point without parameters. -/
theorem exists_of_entryBody_ok {p : Program} {body : Expr} (h : p.entryBody = .ok body) :
    ∃ d, p.table.find? entryPoint = some d ∧ d.parameters = [] ∧ d.body = body := by
  unfold entryBody at h
  cases hd : p.table.find? entryPoint with
  | none =>
    rw [hd] at h
    cases h
  | some d =>
    rw [hd] at h
    dsimp only at h
    split at h
    · rename_i hps
      cases h
      exact ⟨d, rfl, by simpa using hps, rfl⟩
    · cases h

theorem run_of_entryBody_error {p : Program} {e : EvalError} (h : p.entryBody = .error e)
    (maxDepth : Option Int) : p.run maxDepth = ⟨false, ⟨[], .error e⟩⟩ := by
  simp only [run, enter, h]

theorem run_of_entryBody_ok {p : Program} {body : Expr} (h : p.entryBody = .ok body)
    (maxDepth : Option Int) :
    p.run maxDepth = ⟨true, if largestStack < demandedStack maxDepth then .fault none .stackTooLarge
      else body.eval ⟨p.table, maxDepth⟩ (stackFor maxDepth) 0 (.ofBindings entryPoint [])⟩ := by
  simp only [run, enter, h]

/-- A run is what the body of the entry point evaluates to with the stack of the run, unless it is
refused. -/
theorem run_holds_of_stackFor {p : Program} {maxDepth : Option Int} {A : Act → Prop}
    {V : Option Int → Prop} {E : EvalError → Prop}
    (hnone : E ⟨.noEntryPoint, p.loc⟩)
    (hparams : ∀ d, p.table.find? entryPoint = some d → E ⟨.entryPointParameters d.arity, d.loc⟩)
    (hlarge : largestStack < demandedStack maxDepth → E ⟨.stackTooLarge, none⟩)
    (heval : ∀ d, p.table.find? entryPoint = some d → d.parameters = [] →
      (d.body.eval ⟨p.table, maxDepth⟩ (stackFor maxDepth) 0 (.ofBindings entryPoint [])).Holds
        A V E) :
    (p.run maxDepth).outcome.Holds A V E := by
  cases hd : p.table.find? entryPoint with
  | none =>
    have hbody : p.entryBody = .error ⟨.noEntryPoint, p.loc⟩ := by simp only [entryBody, hd]
    rw [run_of_entryBody_error hbody]
    exact .fault hnone
  | some d =>
    by_cases hps : d.parameters = []
    · have hbody : p.entryBody = .ok d.body := by simp [entryBody, hd, hps]
      rw [run_of_entryBody_ok hbody]
      dsimp only
      split
      · exact .fault (hlarge ‹_›)
      · exact heval d hd hps
    · have hbody : p.entryBody = .error ⟨.entryPointParameters d.arity, d.loc⟩ := by
        simp [entryBody, hd, hps]
      rw [run_of_entryBody_error hbody]
      exact .fault (hparams d hd)

/-- A run is what the body of the entry point evaluates to, unless it is refused. -/
theorem run_holds {p : Program} {maxDepth : Option Int} {A : Act → Prop}
    {V : Option Int → Prop} {E : EvalError → Prop}
    (hnone : E ⟨.noEntryPoint, p.loc⟩)
    (hparams : ∀ d, p.table.find? entryPoint = some d → E ⟨.entryPointParameters d.arity, d.loc⟩)
    (hlarge : largestStack < demandedStack maxDepth → E ⟨.stackTooLarge, none⟩)
    (heval : ∀ d, p.table.find? entryPoint = some d → d.parameters = [] → ∀ stack,
      (d.body.eval ⟨p.table, maxDepth⟩ stack 0 (.ofBindings entryPoint [])).Holds A V E) :
    (p.run maxDepth).outcome.Holds A V E :=
  run_holds_of_stackFor hnone hparams hlarge fun d hd hps => heval d hd hps _

end Program

end Wordlet
