import Mathlib.Algebra.Ring.Int.Defs
import Wordlet.Eval.Log
import Wordlet.Proofs.Calls
import Wordlet.Proofs.Values

/-!
# The events of a run are well nested

The boundaries of calls are brackets. Of a run that gave a value they are all closed, and what is
missing after an error are the ends of the calls that were open then. The events also tell what a
run writes, although writing is no event: each call of `print` writes its argument.

* `WellNested`: calls that are nested and closed, by name.
* `Act.Orderly.wellNested`, `Act.Orderly.exists_wellNested`: **the events of orderly acts are well
  nested**, once the calls that are open are closed.
* `Act.Orderly.depth_eq`: the depth of an event is one more than the number of calls around it.
* `Act.Orderly.written_eq`: **the values written are the arguments of the calls of `print`.**
* `Act.Orderly.matched`: a beginning and an end that match are those of one call, and what is
  between them is the inside of this call.
* `Program.run_wellNested`: all of this of runs.
-/

namespace Wordlet

namespace Event

/-- The depth of a boundary. -/
def depth : Event → Nat
  | enter _ k _ _ => k
  | exit _ k _ => k

/-- How many more calls are open after an event than before it. -/
def change : Event → Int
  | enter _ _ _ _ => 1
  | exit _ _ _ => -1

/-- The argument with which `print` is called, if it is called with one. -/
def printed? : Event → Option Int
  | enter f _ [v] _ => if f = Native.print.name then some v else none
  | _ => none

end Event

/-- The number of calls that are open after events, if none was before. -/
def openAfter (es : List Event) : Int := (es.map Event.change).sum

/-- The number of calls that are open around an event that comes after others. A call is not around
its own boundaries. -/
def callsAround (before : List Event) : Event → Int
  | .enter _ _ _ _ => openAfter before
  | .exit _ _ _ => openAfter before - 1

/-- The events are those of calls that follow one another, each with its end after the events of
calls inside it. -/
inductive WellNested : List Event → Prop where
  | nil : WellNested []
  | call {f : String} {k k' : Nat} {args : List Int} {loc : Option Location} {result : Option Int}
      {inner rest : List Event} : WellNested inner → WellNested rest →
      WellNested (.enter f k args loc :: (inner ++ .exit f k' result :: rest))

/-! ## Brackets -/

@[simp] theorem openAfter_nil : openAfter [] = 0 := rfl

@[simp] theorem openAfter_cons (e : Event) (es : List Event) :
    openAfter (e :: es) = e.change + openAfter es := by
  simp [openAfter]

@[simp] theorem openAfter_append (as bs : List Event) :
    openAfter (as ++ bs) = openAfter as + openAfter bs := by
  simp [openAfter]

theorem callsAround_cons (m : Event) (es : List Event) (e : Event) :
    callsAround (m :: es) e = m.change + callsAround es e := by
  cases e with
  | enter f k args loc => simp [callsAround]
  | exit f k result => simp [callsAround, Int.add_sub_assoc]

theorem callsAround_append (as bs : List Event) (e : Event) :
    callsAround (as ++ bs) e = openAfter as + callsAround bs e := by
  cases e with
  | enter f k args loc => simp [callsAround]
  | exit f k result => simp [callsAround, Int.add_sub_assoc]

namespace WellNested

theorem append {as bs : List Event} (has : WellNested as) (hbs : WellNested bs) :
    WellNested (as ++ bs) := by
  induction has with
  | nil => exact hbs
  | call hinner _ _ ih => simpa using hinner.call ih

/-- After calls that are closed none is open. -/
theorem openAfter_eq {es : List Event} (h : WellNested es) : openAfter es = 0 := by
  induction h with
  | nil => rfl
  | call _ _ ihinner ih => simp [Event.change, ihinner, ih]

/-- No more calls are ever closed than were entered. -/
theorem openAfter_nonneg {es as bs : List Event} (h : WellNested es) (hes : es = as ++ bs) :
    0 ≤ openAfter as := by
  induction h generalizing as bs with
  | nil =>
    obtain ⟨rfl, -⟩ := List.append_eq_nil_iff.1 hes.symm
    simp
  | @call f k k' args loc result inner rest hinner _ ihinner ih =>
    cases as with
    | nil => simp
    | cons e as =>
      rw [List.cons_append, List.cons.injEq] at hes
      obtain ⟨rfl, hes⟩ := hes
      rcases List.append_eq_append_iff.1 hes with ⟨zs, rfl, hzs⟩ | ⟨zs, hzs, -⟩
      · -- the first call is closed, or about to be
        cases zs with
        | nil => simp [Event.change, hinner.openAfter_eq]
        | cons e zs =>
          rw [List.cons_append, List.cons.injEq] at hzs
          obtain ⟨rfl, hzs⟩ := hzs
          have hrest := ih hzs
          simp only [openAfter_cons, openAfter_append, hinner.openAfter_eq, Event.change]
          omega
      · have hin := ihinner hzs
        simp only [openAfter_cons, Event.change]
        omega

/-- A call ends only where one is open. -/
theorem openAfter_pos {as bs : List Event} {f : String} {k : Nat} {result : Option Int}
    (h : WellNested (as ++ .exit f k result :: bs)) : 1 ≤ openAfter as := by
  have hsplit : as ++ .exit f k result :: bs = (as ++ [.exit f k result]) ++ bs := by simp
  have hnonneg := h.openAfter_nonneg hsplit
  simp only [openAfter_append, openAfter_cons, openAfter_nil, Event.change] at hnonneg
  omega

end WellNested

/-! ## The events of calls -/

/-- No call is made inside a call of a native. -/
theorem Native.events_eq_nil {f : String} {n : Native} (hn : Native.find? f = some n)
    {cx : Context} {stack depth : Nat} {loc : Option Location} {args : List Int}
    {inner : List Act} {result : Except EvalError (Option Int)}
    (hcallee : Expr.callee cx stack depth loc f args = ⟨inner, result⟩) (k : Nat) :
    Act.events k inner = [] := by
  refine List.eq_nil_iff_forall_not_mem.2 fun e he => ?_
  exact Native.boundary_not_mem_trace hn hcallee k e (Act.mem_events_iff.1 he)

namespace Act

variable {cx : Context} {depth : Nat} {ended : Bool} {as : List Act}

theorem events_returned (depth : Nat) (loc : Option Location) (f : String) (args : List Int)
    (inner : List Act) (v : Option Int) (as : List Act) :
    events depth (.call loc f args inner (.returned v) :: as) =
      .enter f (depth + 1) args loc ::
        (events (depth + 1) inner ++ .exit f (depth + 1) v :: events depth as) := by
  simp [events, eventsOf, exitEvent]

theorem events_cutShort (depth : Nat) (loc : Option Location) (f : String) (args : List Int)
    (inner : List Act) :
    events depth [.call loc f args inner .cutShort] =
      .enter f (depth + 1) args loc :: events (depth + 1) inner := by
  simp [events, eventsOf, exitEvent]

/-- **The events of acts that are all over are well nested.** -/
theorem Orderly.wellNested (h : Act.Orderly cx depth true as) : WellNested (events depth as) := by
  generalize hended : true = ended at h
  induction h with
  | nil => exact .nil
  | @returned depth stack ended loc f args inner as v _ hcallee _ _ ihinner ih =>
    rw [events_returned]
    refine .call ?_ (ih hended)
    cases hn : Native.find? f with
    | none => exact ihinner hn rfl
    | some n =>
      rw [Native.events_eq_nil hn hcallee]
      exact .nil
  | cutShort => cases hended

/-- **The events of orderly acts are well nested** once the calls that are open have been closed. -/
theorem Orderly.exists_wellNested (h : Act.Orderly cx depth ended as) :
    ∃ rest, WellNested (events depth as ++ rest) := by
  induction h with
  | nil => exact ⟨[], .nil⟩
  | @returned depth stack ended loc f args inner as v hallowed hcallee hinner _ _ ih =>
    obtain ⟨rest, hrest⟩ := ih
    have hfirst := (Orderly.returned hallowed hcallee hinner .nil).wellNested
    refine ⟨rest, ?_⟩
    rw [events_returned] at hfirst ⊢
    simpa [events] using hfirst.append hrest
  | @cutShort depth stack ended loc f args inner err _ hcallee _ ihinner =>
    obtain ⟨rest, hrest⟩ : ∃ rest, WellNested (events (depth + 1) inner ++ rest) := by
      cases hn : Native.find? f with
      | none => exact ihinner hn
      | some n =>
        rw [Native.events_eq_nil hn hcallee]
        exact ⟨[], .nil⟩
    -- the open calls inside are closed first
    refine ⟨rest ++ [.exit f (depth + 1) none], ?_⟩
    rw [events_cutShort]
    simpa using hrest.call .nil

/-- **The depth of an event is one more than the number of calls around it**, and no call is made
where one is forbidden. -/
theorem Orderly.depth_eq (h : Act.Orderly cx depth ended as) {before after : List Event} {e : Event}
    (hevents : events depth as = before ++ e :: after) :
    (e.depth : Int) = depth + callsAround before e + 1 ∧ cx.forbids e.depth = false := by
  induction h generalizing before after with
  | nil => simp [events] at hevents
  | @returned depth stack ended loc f args inner as v hallowed hcallee hinner _ ihinner ih =>
    rw [events_returned] at hevents
    cases before with
    | nil =>
      rw [List.nil_append, List.cons.injEq] at hevents
      obtain ⟨rfl, -⟩ := hevents
      exact ⟨by simp [Event.depth, callsAround], hallowed⟩
    | cons m before =>
      rw [List.cons_append, List.cons.injEq] at hevents
      obtain ⟨rfl, hevents⟩ := hevents
      rw [callsAround_cons, Event.change]
      rcases append_eq_append_cons hevents with ⟨zs, hin, rfl⟩ | ⟨zs, rfl, hin⟩
      · have hmem : e ∈ events (depth + 1) inner := by simp [hin]
        have hn := Native.find?_eq_none_of_boundary hcallee (mem_events_iff.1 hmem)
        obtain ⟨hdepth, hforbids⟩ := ihinner hn hin
        exact ⟨by omega, hforbids⟩
      · -- the calls inside the first are closed
        have hclosed : openAfter (events (depth + 1) inner) = 0 := by
          cases hn : Native.find? f with
          | none => exact (hinner hn).wellNested.openAfter_eq
          | some n => rw [Native.events_eq_nil hn hcallee, openAfter_nil]
        rw [callsAround_append, hclosed]
        cases zs with
        | nil =>
          rw [List.nil_append, List.cons.injEq] at hin
          obtain ⟨rfl, -⟩ := hin
          exact ⟨by simp [Event.depth, callsAround], hallowed⟩
        | cons m zs =>
          rw [List.cons_append, List.cons.injEq] at hin
          obtain ⟨rfl, hin⟩ := hin
          obtain ⟨hdepth, hforbids⟩ := ih hin
          rw [callsAround_cons, Event.change]
          exact ⟨by omega, hforbids⟩
  | @cutShort depth stack ended loc f args inner err hallowed hcallee _ ihinner =>
    rw [events_cutShort] at hevents
    cases before with
    | nil =>
      rw [List.nil_append, List.cons.injEq] at hevents
      obtain ⟨rfl, -⟩ := hevents
      exact ⟨by simp [Event.depth, callsAround], hallowed⟩
    | cons m before =>
      rw [List.cons_append, List.cons.injEq] at hevents
      obtain ⟨rfl, hin⟩ := hevents
      rw [callsAround_cons, Event.change]
      have hmem : e ∈ events (depth + 1) inner := by simp [hin]
      have hn := Native.find?_eq_none_of_boundary hcallee (mem_events_iff.1 hmem)
      obtain ⟨hdepth, hforbids⟩ := ihinner hn hin
      exact ⟨by omega, hforbids⟩

end Act

/-! ## What is written -/

theorem Event.printed?_of_ne {f : String} (hf : f ≠ Native.print.name) (k : Nat) (args : List Int)
    (loc : Option Location) : printed? (.enter f k args loc) = none := by
  unfold printed?
  split
  · rename_i heq
    cases heq
    exact if_neg hf
  · rfl

theorem Native.name_ne_print {n : Native} (hn : n ≠ .print) : n.name ≠ Native.print.name := by
  intro hname
  have hfind := find?_name n
  rw [hname, find?_name] at hfind
  cases hfind
  exact hn rfl

/-- A call of a native writes the argument of `print`, unless it is too long, and nothing else. -/
theorem Native.written_outcome (n : Native) (loc : Option Location) (args : List Int) (k : Nat) :
    Act.written (n.outcome loc args).acts =
      (Event.printed? (.enter n.name k args loc)).toList.filter Text.hasDecimal := by
  by_cases hn : n = .print
  · subst hn
    match args with
    | [v] =>
      by_cases hv : Text.hasDecimal v = true
      · simp [outcome, value?, yields, hv, Event.printed?, Act.written, Act.writtenBy]
      · simp [outcome, value?, yields, hv, Event.printed?, Act.written, Outcome.fault]
    | [] => rfl
    | _ :: _ :: _ => rfl
  · have hyields : n.yields = true := by
      cases n with
      | print => exact absurd rfl hn
      | _ => rfl
    rw [Event.printed?_of_ne (name_ne_print hn)]
    unfold outcome
    split
    · rfl
    · rw [hyields]
      rfl

namespace Act

/-- **The values written are the arguments of the calls of `print`**, those apart that are too long
to be written. -/
theorem Orderly.written_eq {cx : Context} {depth : Nat} {ended : Bool} {as : List Act}
    (h : Act.Orderly cx depth ended as) :
    written as = ((events depth as).filterMap Event.printed?).filter Text.hasDecimal := by
  have hcons : ∀ (e : Event) (es : List Event),
      (e :: es).filterMap Event.printed? = e.printed?.toList ++ es.filterMap Event.printed? := by
    intro e es
    cases he : e.printed? with
    | none => simp [he]
    | some v => simp [he]
  -- the call at hand and its inside; the event at its end says nothing of what was written
  have hcall : ∀ {depth stack : Nat} {loc : Option Location} {f : String} {args : List Int}
      {inner : List Act} {result : Except EvalError (Option Int)},
      Expr.callee cx stack depth loc f args = ⟨inner, result⟩ →
      (Native.find? f = none → written inner =
        ((events (depth + 1) inner).filterMap Event.printed?).filter Text.hasDecimal) →
      written inner = ((Event.enter f (depth + 1) args loc ::
        events (depth + 1) inner).filterMap Event.printed?).filter Text.hasDecimal := by
    intro depth stack loc f args inner result hcallee ihinner
    rw [hcons, List.filter_append]
    cases hn : Native.find? f with
    | none =>
      have hf : f ≠ Native.print.name := by
        rintro rfl
        rw [Native.find?_name] at hn
        cases hn
      rw [Event.printed?_of_ne hf, ihinner hn]
      rfl
    | some n =>
      have hname : n.name = f := by simpa using List.find?_some hn
      have hwritten := n.written_outcome loc args (depth + 1)
      rw [← Expr.callee_of_find? hn cx stack depth loc args, hcallee, hname] at hwritten
      rw [Native.events_eq_nil hn hcallee, ← hwritten]
      simp
  induction h with
  | nil => rfl
  | @returned depth stack ended loc f args inner as v _ hcallee _ _ ihinner ih =>
    have hinner := hcall hcallee ihinner
    rw [written, writtenBy, events_returned, ih, hinner, ← List.cons_append, List.filterMap_append,
      List.filter_append, hcons (.exit f (depth + 1) v)]
    rfl
  | @cutShort depth stack ended loc f args inner err _ hcallee _ ihinner =>
    have hinner := hcall hcallee ihinner
    rw [written, writtenBy, events_cutShort, hinner, written, List.append_nil]

end Act

/-! ## Beginnings and ends that match -/

/-- The boundaries among the moments of a trace. -/
theorem Moment.exists_of_events {t : List Moment} {before after : List Event} {e : Event}
    (h : t.filterMap event? = before ++ e :: after) :
    ∃ before' after', t = before' ++ .boundary e :: after' ∧
      before'.filterMap event? = before ∧ after'.filterMap event? = after := by
  obtain ⟨t₁, t₂, rfl, h₁, h₂⟩ := List.filterMap_eq_append_iff.1 h
  obtain ⟨t₃, m, t₄, rfl, h₃, hm, h₄⟩ := List.filterMap_eq_cons_iff.1 h₂
  cases m with
  | write v => cases hm
  | boundary e' =>
    cases hm
    refine ⟨t₁ ++ t₃, t₄, by simp, ?_, h₄⟩
    rw [List.filterMap_append, h₁, List.filterMap_eq_nil_iff.2 h₃, List.append_nil]

/-- Two ways to cut a trace at the first end that closes none of the calls before it are the
same. -/
theorem WellNested.eq_of_append_exit {s t s' t' : List Moment} {f f' : String} {k k' : Nat}
    {r r' : Option Int} (hs : WellNested (s.filterMap Moment.event?))
    (ht : WellNested (t.filterMap Moment.event?))
    (h : s ++ .boundary (.exit f k r) :: s' = t ++ .boundary (.exit f' k' r') :: t') :
    s = t ∧ f = f' ∧ k = k' ∧ r = r' := by
  have hshort : ∀ {u v zs : List Moment} {g : String} {j : Nat} {w : Option Int},
      WellNested (u.filterMap Moment.event?) → WellNested (v.filterMap Moment.event?) →
      u ≠ v ++ .boundary (.exit g j w) :: zs := by
    rintro u v zs g j w hu hv rfl
    rw [List.filterMap_append, List.filterMap_cons] at hu
    have hpos := hu.openAfter_pos
    rw [hv.openAfter_eq] at hpos
    omega
  rcases append_eq_append_cons h with ⟨zs, hs', -⟩ | ⟨zs, ht', hzs⟩
  · exact absurd hs' (hshort hs ht)
  · cases zs with
    | nil =>
      rw [List.append_nil] at ht'
      simp only [List.nil_append, List.cons.injEq, Moment.boundary.injEq, Event.exit.injEq] at hzs
      exact ⟨ht'.symm, hzs.1⟩
    | cons m zs =>
      rw [List.cons_append, List.cons.injEq] at hzs
      rw [← hzs.1] at ht'
      exact absurd ht' (hshort ht hs)

/-- The events inside a call are well nested if it returns, and once they are closed if not. -/
theorem Expr.callee_wellNested {cx : Context} {stack depth : Nat} {loc : Option Location}
    {f : String} {args : List Int} {inner : List Act} {result : Except EvalError (Option Int)}
    (hcallee : callee cx stack depth loc f args = ⟨inner, result⟩) :
    (∃ rest, WellNested (Act.events (depth + 1) inner ++ rest)) ∧
      ∀ v, result = .ok v → WellNested (Act.events (depth + 1) inner) := by
  cases hn : Native.find? f with
  | none =>
    have horderly : (callee cx stack depth loc f args).Orderly cx (depth + 1) :=
      callee_orderly (fun stack' _ => eval_orderly cx stack') hn depth loc args
    rw [hcallee] at horderly
    have hacts := horderly
    obtain ⟨ended, hacts, -⟩ := hacts
    exact ⟨hacts.exists_wellNested, fun v hv => (horderly.of_ok hv).wellNested⟩
  | some n =>
    rw [Native.events_eq_nil hn hcallee]
    exact ⟨⟨[], .nil⟩, fun _ _ => .nil⟩

namespace Act

variable {cx : Context} {depth : Nat} {ended : Bool} {as : List Act}

/-- **A beginning and an end that match are those of one call**, and what is between them is what
the inside of this call did. -/
theorem Orderly.matched (h : Act.Orderly cx depth ended as) {before inner after : List Moment}
    {f f' : String} {k k' : Nat} {args : List Int} {loc : Option Location} {result : Option Int}
    (htrace : trace depth as = before ++ .boundary (.enter f k args loc) ::
      (inner ++ .boundary (.exit f' k' result) :: after))
    (hinner : WellNested (inner.filterMap Moment.event?)) :
    ∃ stack j acts, k = j + 1 ∧ Expr.callee cx stack j loc f args = ⟨acts, .ok result⟩ ∧
      inner = trace k acts ∧ f' = f ∧ k' = k := by
  obtain ⟨stack, j, acts, r, rest, rfl, hcallee, hafter, herror⟩ := h.continues htrace
  obtain ⟨⟨more, hmore⟩, hreturned⟩ := Expr.callee_wellNested hcallee
  cases r with
  | error e =>
    -- nothing follows a call that was cut short, and inside it no end is without a beginning
    obtain ⟨rfl, -⟩ := herror e rfl
    have hevents := congrArg (List.filterMap Moment.event?) hafter
    simp only [Outcome.ending, exitEvent, List.map_nil, List.append_nil, filterMap_event_trace,
      List.filterMap_append, List.filterMap_cons, Moment.event?] at hevents
    rw [← hevents, List.append_assoc, List.cons_append] at hmore
    have hpos := hmore.openAfter_pos
    rw [hinner.openAfter_eq] at hpos
    omega
  | ok v =>
    have hclosed : WellNested ((trace (j + 1) acts).filterMap Moment.event?) := by
      rw [filterMap_event_trace]
      exact hreturned v rfl
    simp only [Outcome.ending, exitEvent, List.map_cons, List.map_nil, List.singleton_append]
      at hafter
    obtain ⟨rfl, rfl, rfl, rfl⟩ := hinner.eq_of_append_exit hclosed hafter
    exact ⟨stack, j, acts, rfl, hcallee, rfl, rfl, rfl⟩

/-- **A call that encloses an event is a call of a defined function.** -/
theorem Orderly.defined_of_encloses (h : Act.Orderly cx depth ended as)
    {before inner after rest : List Event} {e : Event} {f : String} {k : Nat} {args : List Int}
    {loc : Option Location}
    (hevents : events depth as = before ++ .enter f k args loc :: (inner ++ e :: after))
    (hinner : WellNested (inner ++ e :: rest)) :
    Native.find? f = none ∧ ∃ d, cx.table.find? f = some d := by
  rw [← filterMap_event_trace] at hevents
  obtain ⟨before', after', htrace, -, hafter⟩ := Moment.exists_of_events hevents
  obtain ⟨stack, j, acts, r, more, rfl, hcallee, rfl, herror⟩ := h.continues htrace
  rw [List.filterMap_append, List.filterMap_append, filterMap_event_trace, filterMap_event_map]
    at hafter
  -- otherwise the event is the end of the call, or none is left
  have hne : events (j + 1) acts ≠ [] := by
    intro hnil
    rw [hnil, List.nil_append] at hafter
    cases r with
    | error e' =>
      obtain ⟨rfl, -⟩ := herror e' rfl
      simp [Outcome.ending, exitEvent] at hafter
    | ok v =>
      rw [Outcome.ending, exitEvent, List.singleton_append] at hafter
      cases inner with
      | nil =>
        rw [List.nil_append, List.cons.injEq] at hafter
        rw [List.nil_append, ← hafter.1] at hinner
        cases hinner
      | cons m inner =>
        rw [List.cons_append, List.cons.injEq] at hafter
        rw [List.cons_append, ← hafter.1] at hinner
        cases hinner
  cases hn : Native.find? f with
  | some n => exact absurd (Native.events_eq_nil hn hcallee (j + 1)) hne
  | none =>
    refine ⟨rfl, ?_⟩
    cases hd : cx.table.find? f with
    | some d => exact ⟨d, rfl⟩
    | none =>
      unfold Expr.callee at hcallee
      rw [hn, hd] at hcallee
      cases hcallee
      exact absurd rfl hne

end Act

/-- What a native that returns gives: its value, or none if it yields none. -/
theorem Native.value?_of_outcome_ok {n : Native} {loc : Option Location} {args : List Int}
    {result : Option Int} (h : (n.outcome loc args).result = .ok result) :
    ∃ v, n.value? args = some v ∧ result = if n.yields then some v else none := by
  unfold outcome at h
  cases hv : n.value? args with
  | none =>
    rw [hv] at h
    cases h
  | some v =>
    refine ⟨v, rfl, ?_⟩
    rw [hv] at h
    dsimp only at h
    split at h
    · rename_i hyields
      cases h
      rw [if_pos hyields]
    · rename_i hyields
      rw [if_neg hyields]
      split at h
      · cases h
        rfl
      · cases h

/-! ## Runs -/

theorem Event.mem_of_printed? {f : String} {k : Nat} {args : List Int} {loc : Option Location}
    {v : Int} (h : printed? (.enter f k args loc) = some v) : v ∈ args := by
  unfold printed? at h
  split at h
  · rename_i heq
    cases heq
    split at h
    · cases h
      exact List.mem_singleton_self v
    · cases h
  · cases h

/-- The arguments of `print` are in range if the values of all acts are. -/
theorem Act.inRange_of_mem_events (depth : Nat) (as : List Act) (h : Act.InRangeAll as) :
    ∀ e ∈ Act.events depth as, ∀ v, e.printed? = some v → Wordlet.InRange v := by
  intro e he v hv
  have hrange := h.event depth e he
  cases e with
  | enter f k args loc => exact hrange v (Event.mem_of_printed? hv)
  | exit f k result => cases hv

namespace Program

/-- **The events of a run are well nested and account for what it writes.** For every program, every
depth limit and every run, whether it ends with a value or an error:

* the events are those of calls that are nested and closed, but for the ends of calls that were open
  at an error;
* the depth of an event is one more than the number of calls that are open around it, and within the
  limit;
* a call that encloses another event is a call of a defined function;
* a native that returns gives its value on the arguments it was entered with, and none if it yields
  none;
* what is written are the decimals of the arguments of those calls of `print` that have one
  argument. An integer with more than 4300 digits has no decimal; there is none in a program whose
  literals are unsigned 32-bit integers. -/
theorem run_wellNested (p : Program) (maxDepth : Option Int) :
    (∃ rest, WellNested ((p.run maxDepth).events ++ rest)) ∧
    (∀ v, (p.run maxDepth).outcome.result = .ok v → WellNested (p.run maxDepth).events) ∧
    (∀ before e after, (p.run maxDepth).events = before ++ e :: after →
      (e.depth : Int) = callsAround before e + 1 ∧
      ∀ limit, maxDepth = some limit → (e.depth : Int) ≤ limit) ∧
    (∀ before f k args loc inner e after,
      (p.run maxDepth).events = before ++ .enter f k args loc :: (inner ++ e :: after) →
      (∃ rest, WellNested (inner ++ e :: rest)) →
      Native.find? f = none ∧ ∃ d, p.table.find? f = some d) ∧
    (∀ before f k args loc inner k' result after n,
      (p.run maxDepth).events =
        before ++ .enter f k args loc :: (inner ++ .exit f k' result :: after) →
      WellNested inner → Native.find? f = some n →
      ∃ v, n.value? args = some v ∧ result = if n.yields then some v else none) ∧
    (p.run maxDepth).output =
      (((p.run maxDepth).events.filterMap Event.printed?).filter Text.hasDecimal).map
        Text.decimal ∧
    ((∀ d ∈ p.definitions, d.body.LiteralsInRange) →
      (p.run maxDepth).output =
        ((p.run maxDepth).events.filterMap Event.printed?).map Text.decimal) := by
  have horderly := p.run_orderly maxDepth
  have hacts := horderly
  obtain ⟨ended, hacts, -⟩ := hacts
  have houtput : (p.run maxDepth).output =
      (((p.run maxDepth).events.filterMap Event.printed?).filter Text.hasDecimal).map
        Text.decimal := by
    rw [Run.output, Outcome.output, hacts.written_eq]
    rfl
  refine ⟨hacts.exists_wellNested, fun v hv => (horderly.of_ok hv).wellNested, ?_, ?_, ?_, houtput,
    ?_⟩
  · intro before e after hevents
    obtain ⟨hdepth, hforbids⟩ := hacts.depth_eq hevents
    refine ⟨by omega, ?_⟩
    rintro limit rfl
    simpa [Context.forbids] using hforbids
  · rintro before f k args loc inner e after hevents ⟨rest, hrest⟩
    exact hacts.defined_of_encloses hevents hrest
  · intro before f k args loc inner k' result after n hevents hinner hn
    unfold Run.events at hevents
    rw [← Act.filterMap_event_trace] at hevents
    obtain ⟨before', after', htrace, -, hafter⟩ := Moment.exists_of_events hevents
    obtain ⟨inner', after'', rfl, rfl, -⟩ := Moment.exists_of_events hafter
    obtain ⟨stack, j, acts, -, hcallee, -⟩ := hacts.matched htrace hinner
    rw [Expr.callee_of_find? hn] at hcallee
    exact Native.value?_of_outcome_ok (congrArg Outcome.result hcallee)
  · intro hp
    have hrange := Act.inRangeAll_iff.2 (run_inRange_of_literals hp maxDepth).acts
    rw [houtput]
    congr 1
    refine List.filter_eq_self.2 fun v hv => ?_
    obtain ⟨e, he, hv⟩ := List.mem_filterMap.1 hv
    exact (Act.inRange_of_mem_events 0 _ hrange e he v hv).hasDecimal

/-- A program that calls `print` with an integer of 4301 digits. -/
def longPrint : Program :=
  ⟨none, [⟨none, "main", [], .call none "print" [.call none "xor"
    [.literal none (Int.ofNat (Nat.pow 10 4300 - 1)), .literal none (-1)]]⟩]⟩

/-- **An integer that is too long is not written**, although `print` was entered with it. -/
theorem longPrint_not_written :
    ¬∀ (p : Program) (maxDepth : Option Int), (p.run maxDepth).output =
      ((p.run maxDepth).events.filterMap Event.printed?).map Text.decimal := by
  intro h
  have houtput : (longPrint.run none).output = [] := by decide +kernel
  have hprinted : ((longPrint.run none).events.filterMap Event.printed?).length = 1 := by
    decide +kernel
  have hlength := congrArg List.length (h longPrint none)
  rw [houtput, List.length_map, hprinted] at hlength
  cases hlength

end Program

end Wordlet
