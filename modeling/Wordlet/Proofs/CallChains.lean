import Mathlib.Data.List.Chain
import Wordlet.Proofs.Brackets
import Wordlet.Proofs.Reachability

/-!
# The calls that are open

Whenever a run enters a call, some calls are open around it, and each of them was made by the one
around it: the arguments of a call are evaluated before it is opened, so the calls in them belong
to the caller. The open calls are thus a chain of calls between definitions, which ends with the
entry point, and the call graph of the program has an edge for each link.

* `openCalls`: the names of the calls that are open after events.
* `Expr.callsOnly_eval`: an evaluation makes the calls that stand in the expression itself; all
  others are made inside these.
* `Act.Orderly.isChain`: **the calls that are open at an event are a chain**, whose length is the
  depth of the event.
* `Program.run_edge_mem_callGraph`: the call graph has an edge from the innermost open call to each
  call that is entered.
-/

namespace Wordlet

/-! ## Open calls -/

/-- The names of the calls that are open after an event, the innermost first. -/
def Event.track (names : List String) : Event → List String
  | enter f _ _ _ => f :: names
  | exit _ _ _ => names.tail

/-- The names of the calls that are open after events, the innermost first. -/
def openCalls (es : List Event) : List String := es.foldl Event.track []

/-- After calls that are closed the open ones are the same as before. -/
theorem WellNested.foldl_track {es : List Event} (h : WellNested es) (names : List String) :
    es.foldl Event.track names = names := by
  induction h generalizing names with
  | nil => rfl
  | @call f k k' args loc result inner rest _ _ ihinner ih =>
    rw [List.foldl_cons, List.foldl_append, List.foldl_cons, Event.track, ihinner, Event.track,
      List.tail_cons, ih]

/-! ## Calls and their callers -/

/-- The act, if it is a call, is the call of a name for which `P` holds. -/
def Act.CallsOnly (P : String → Prop) : Act → Prop
  | write _ => True
  | call _ f _ _ _ => P f

namespace Expr

/-- **An evaluation makes the calls that stand in its expression.** Whatever else is called is
called inside these. -/
theorem callsOnly_eval (cx : Context) (stack depth : Nat) (frame : Frame) (e : Expr) :
    (eval cx stack depth frame e).Holds (Act.CallsOnly (· ∈ e.callees)) (fun _ => True)
      (fun _ => True) := by
  induction stack using Nat.strongRecOn generalizing e with
  | ind stack ih =>
    by_cases hstack : stack < 2
    · rw [eval_exhausted hstack]
      exact .fault trivial
    obtain ⟨stack, rfl⟩ : ∃ n, stack = n + 2 := ⟨stack - 2, by omega⟩
    refine holds_eval_step (fun _ _ => trivial) ?_ ?_
    · intro a ha
      have hpart := ih stack (by omega) a
      refine ⟨?_, hpart.ok, hpart.error⟩
      intro x hx
      have hcalls := hpart.acts x hx
      cases x with
      | write v => trivial
      | call loc f args inner ending => exact mem_callees_of_mem_parts ha hcalls
    · rintro loc f es rfl args
      unfold invoke
      split
      · exact .fault trivial
      refine ⟨?_, fun _ _ => trivial, fun _ _ => trivial⟩
      intro x hx
      obtain rfl := List.mem_singleton.1 hx
      exact List.mem_cons_self

/-- The calls made directly inside a call of `f` are those that `f` makes. -/
theorem callsOnly_callee {cx : Context} {stack depth : Nat} {loc : Option Location} {f : String}
    {args : List Int} {inner : List Act} {result : Except EvalError (Option Int)}
    (hcallee : callee cx stack depth loc f args = ⟨inner, result⟩) (hn : Native.find? f = none) :
    ∀ a ∈ inner, a.CallsOnly (cx.table.Calls f) := by
  unfold callee at hcallee
  rw [hn] at hcallee
  dsimp only at hcallee
  cases hd : cx.table.find? f with
  | none =>
    rw [hd] at hcallee
    cases hcallee
    simp
  | some d =>
    rw [hd] at hcallee
    dsimp only at hcallee
    split at hcallee
    · cases hcallee
      simp
    cases stack with
    | zero =>
      cases hcallee
      simp
    | succ stack =>
      have hbody := (callsOnly_eval cx stack (depth + 1) (d.frame args) d.body).acts
      dsimp only at hcallee
      rw [hcallee] at hbody
      intro a ha
      have hcalls := hbody a ha
      cases a with
      | write v => trivial
      | call loc g args inner ending => exact ⟨hn, d, hd, hcalls⟩

end Expr

/-! ## Chains -/

/-- The names are a chain of calls that begins at the entry point: each name but the last is called
by the one after it, and the last is called by the entry point. -/
def Table.ChainOfCalls (t : Table) (names : List String) : Prop :=
  (names ++ [entryPoint]).IsChain fun g f => t.Calls f g

theorem Table.chainOfCalls_nil (t : Table) : t.ChainOfCalls [] := List.isChain_singleton _

theorem Table.chainOfCalls_cons {t : Table} {g : String} {names : List String} :
    t.ChainOfCalls (g :: names) ↔
      t.Calls (names.headD entryPoint) g ∧ t.ChainOfCalls names := by
  have hhead : (names ++ [entryPoint]).head? = some (names.headD entryPoint) := by
    cases names with
    | nil => rfl
    | cons f names => rfl
  unfold ChainOfCalls
  rw [List.cons_append, List.isChain_cons, hhead]
  simp

namespace Act

/-- **The calls that are open at an event are a chain.** Let the acts be calls that are made while
the calls `names` are open. Wherever a call is entered, it extends the chain of the calls that are open
there, and its depth is the length of this chain. The induction follows the acts: the inside of a
call sees one more open call, and what comes after it the same ones. -/
theorem Orderly.isChain {cx : Context} {depth : Nat} {ended : Bool} {as : List Act}
    (h : Act.Orderly cx depth ended as) {names : List String} (hlen : names.length = depth)
    (hchain : cx.table.ChainOfCalls names)
    (hcalls : ∀ a ∈ as, a.CallsOnly (cx.table.Calls (names.headD entryPoint)))
    {before after : List Event} {g : String} {k : Nat} {args : List Int} {loc : Option Location}
    (hevents : events depth as = before ++ .enter g k args loc :: after) :
    cx.table.ChainOfCalls (g :: before.foldl Event.track names) ∧
      k = (before.foldl Event.track names).length + 1 := by
  induction h generalizing names before after with
  | nil => simp [events] at hevents
  | @returned depth stack ended loc' f args' inner as v _ hcallee _ _ ihinner ih =>
    obtain ⟨hcall, hrest⟩ := List.forall_mem_cons.1 hcalls
    have hopened : cx.table.ChainOfCalls (f :: names) := Table.chainOfCalls_cons.2 ⟨hcall, hchain⟩
    rw [events_returned] at hevents
    cases before with
    | nil =>
      rw [List.nil_append, List.cons.injEq] at hevents
      obtain ⟨henter, -⟩ := hevents
      cases henter
      exact ⟨hopened, by simp [hlen]⟩
    | cons m before =>
      rw [List.cons_append, List.cons.injEq] at hevents
      obtain ⟨rfl, hevents⟩ := hevents
      rw [List.foldl_cons, Event.track]
      rcases append_eq_append_cons hevents with ⟨zs, hin, rfl⟩ | ⟨zs, rfl, hin⟩
      · have hmem : .enter g k args loc ∈ events (depth + 1) inner := by simp [hin]
        have hn := Native.find?_eq_none_of_boundary hcallee (mem_events_iff.1 hmem)
        exact ihinner hn (by simp [hlen]) hopened (Expr.callsOnly_callee hcallee hn) hin
      · -- the calls inside the first are closed, and so is the first before another is entered
        have hclosed := (Expr.callee_wellNested hcallee).2 v rfl
        rw [List.foldl_append, hclosed.foldl_track]
        cases zs with
        | nil =>
          rw [List.nil_append, List.cons.injEq] at hin
          cases hin.1
        | cons m zs =>
          rw [List.cons_append, List.cons.injEq] at hin
          obtain ⟨rfl, hin⟩ := hin
          rw [List.foldl_cons, Event.track, List.tail_cons]
          exact ih hlen hchain hrest hin
  | @cutShort depth stack ended loc' f args' inner err _ hcallee _ ihinner =>
    obtain ⟨hcall, -⟩ := List.forall_mem_cons.1 hcalls
    have hopened : cx.table.ChainOfCalls (f :: names) := Table.chainOfCalls_cons.2 ⟨hcall, hchain⟩
    rw [events_cutShort] at hevents
    cases before with
    | nil =>
      rw [List.nil_append, List.cons.injEq] at hevents
      obtain ⟨henter, -⟩ := hevents
      cases henter
      exact ⟨hopened, by simp [hlen]⟩
    | cons m before =>
      rw [List.cons_append, List.cons.injEq] at hevents
      obtain ⟨rfl, hin⟩ := hevents
      rw [List.foldl_cons, Event.track]
      have hmem : .enter g k args loc ∈ events (depth + 1) inner := by simp [hin]
      have hn := Native.find?_eq_none_of_boundary hcallee (mem_events_iff.1 hmem)
      exact ihinner hn (by simp [hlen]) hopened (Expr.callsOnly_callee hcallee hn) hin

end Act

/-! ## Runs -/

/-- The calls that are open while the body of the entry point is evaluated, whatever the limits. -/
theorem Table.chainOfCalls_eval {t : Table} {d : Definition} (hd : t.find? entryPoint = some d)
    (maxDepth : Option Int) (stack : Nat) (frame : Frame) {before after : List Event} {g : String}
    {k : Nat} {args : List Int} {loc : Option Location}
    (hevents : Act.events 0 (d.body.eval ⟨t, maxDepth⟩ stack 0 frame).acts =
      before ++ .enter g k args loc :: after) :
    t.ChainOfCalls (g :: openCalls before) ∧ k = (openCalls before).length + 1 := by
  obtain ⟨ended, horderly, -⟩ := d.body.eval_orderly ⟨t, maxDepth⟩ stack 0 frame
  refine horderly.isChain rfl t.chainOfCalls_nil ?_ hevents
  intro a ha
  have hcalls := (d.body.callsOnly_eval ⟨t, maxDepth⟩ stack 0 frame).acts a ha
  cases a with
  | write v => trivial
  | call loc f args inner ending => exact ⟨by decide, d, hd, hcalls⟩

namespace Program

/-- The call graph has an edge for each call that a definition in force makes. -/
theorem mem_callGraph_of_calls {p : Program} {f g : String} (h : p.table.Calls f g)
    (title : String) : (f, g) ∈ (p.callGraph title).edges := by
  obtain ⟨-, d, hd, hg⟩ := h
  obtain ⟨hmem, rfl⟩ := Program.find?_table hd
  unfold callGraph
  exact List.mem_flatMap.2 ⟨d, hmem, List.mem_map.2 ⟨g, hg, rfl⟩⟩

/-- The events of a run are those of the body of the entry point, if there are any. -/
theorem exists_of_run_events {p : Program} {maxDepth : Option Int} {e : Event}
    (h : e ∈ (p.run maxDepth).events) :
    ∃ d, p.table.find? entryPoint = some d ∧ (p.run maxDepth).outcome =
      d.body.eval ⟨p.table, maxDepth⟩ (stackFor maxDepth) 0 (.ofBindings entryPoint []) := by
  cases hbody : p.entryBody with
  | error err =>
    rw [run_of_entryBody_error hbody] at h
    cases h
  | ok body =>
    obtain ⟨d, hd, -, rfl⟩ := exists_of_entryBody_ok hbody
    have hrun := run_of_entryBody_ok hbody maxDepth
    split at hrun
    · rw [hrun] at h
      cases h
    · exact ⟨d, hd, by rw [hrun]⟩

/-- **The call graph covers every call of a run.** Wherever a run enters a call of `g`, whether the
call succeeds or not, the call graph of the program has an edge to `g` from the function whose call
is the innermost one that is open, or from the entry point if none is. -/
theorem run_edge_mem_callGraph (p : Program) (maxDepth : Option Int) (title : String)
    {before after : List Event} {g : String} {k : Nat} {args : List Int} {loc : Option Location}
    (h : (p.run maxDepth).events = before ++ .enter g k args loc :: after) :
    ((openCalls before).headD entryPoint, g) ∈ (p.callGraph title).edges := by
  have hmem : .enter g k args loc ∈ (p.run maxDepth).events := by simp [h]
  obtain ⟨d, hd, hrun⟩ := exists_of_run_events hmem
  unfold Run.events at h
  rw [hrun] at h
  obtain ⟨hchain, -⟩ := Table.chainOfCalls_eval hd maxDepth _ _ h
  obtain ⟨hcalls, -⟩ := Table.chainOfCalls_cons.1 hchain
  exact mem_callGraph_of_calls hcalls title

/-- A call in an argument belongs to the caller: `f` is called by the entry point, although it is an
argument of `g`, and the call that fails inside it is one of `f`. -/
theorem run_edge_mem_callGraph_argument :
    ∃ p : Program, (p.run (some 5)).events =
        [.enter "f" 1 [] none] ++ .enter "lost" 2 [] none :: [] ∧
      openCalls [.enter "f" 1 [] none] = ["f"] ∧
      ("f", "lost") ∈ (p.callGraph "t").edges ∧ ("g", "f") ∉ (p.callGraph "t").edges := by
  let p : Program := ⟨none, [⟨none, "main", [], .call none "g" [.call none "f" []]⟩,
    ⟨none, "f", [], .call none "lost" []⟩, ⟨none, "g", [⟨none, "x"⟩], .var none "x"⟩]⟩
  have hevents : (p.run (some 5)).events =
      [.enter "f" 1 [] none] ++ .enter "lost" 2 [] none :: [] := by decide +kernel
  exact ⟨p, hevents, rfl, p.run_edge_mem_callGraph (some 5) "t" hevents, by decide +kernel⟩

end Program

end Wordlet
