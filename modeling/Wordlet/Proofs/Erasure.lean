import Wordlet.Eval.Log
import Wordlet.Proofs.Evaluation
import Wordlet.Syntax.Layout
import Wordlet.Syntax.Same

/-!
# Locations carry no meaning

Erasing a tree takes its locations away. Nothing else goes: an erased tree has the same layout, the
same call graph and the same reports but for their places, and it is evaluated in the same way. So
what is erased to the same tree cannot be told apart by anything that does not show a location.

* `Program.same_iff_erase`: two programs are the same exactly if they are erased to the same.
* `Program.layout_erase`, `Program.callGraph_erase`, `Program.issues_erase`: **layouts, call graphs
  and issues are those of the erased program.**
* `Expr.eval_erase`, `Program.run_erase`: **evaluation commutes with erasure**, if all nodes are
  expressions. The kind of a meaningless node is erased too, and its evaluation shows it.
-/

namespace Wordlet

/-! ## Texts, calls and reports -/

namespace Expr

theorem map_eraseAll {β : Type} {f : Expr → β} {es : List Expr}
    (h : ∀ e ∈ es, f e.erase = f e) : (eraseAll es).map f = es.map f := by
  rw [eraseAll_eq_map, List.map_map]
  exact List.map_congr_left h

theorem flatMap_eraseAll {β : Type} {f : Expr → List β} {es : List Expr}
    (h : ∀ e ∈ es, f e.erase = f e) : (eraseAll es).flatMap f = es.flatMap f := by
  rw [List.flatMap_def, List.flatMap_def, map_eraseAll h]

@[simp] theorem isEmpty_erase (e : Expr) : e.erase.isEmpty = e.isEmpty := by
  cases e <;> rfl

@[simp] theorem layout_erase (e : Expr) : e.erase.layout = e.layout := by
  induction e using Expr.induction with
  | empty | literal | var | stray => rfl
  | call loc f es ih => rw [erase, layout, layout, layouts_eq_map, layouts_eq_map, map_eraseAll ih]
  | branch loc c t e ihc iht ihe => simp only [erase, layout, isEmpty_erase, ihc, iht, ihe]

@[simp] theorem callees_erase (e : Expr) : e.erase.callees = e.callees := by
  induction e using Expr.induction with
  | empty | literal | var | stray => rfl
  | call loc f es ih =>
    rw [erase, callees, callees, calleesIn_eq_flatMap, calleesIn_eq_flatMap, flatMap_eraseAll ih]
  | branch loc c t e ihc iht ihe => simp only [erase, callees, ihc, iht, ihe]

@[simp] theorem variableNames_erase (e : Expr) : e.erase.variableNames = e.variableNames := by
  induction e using Expr.induction with
  | empty | literal | var | stray => rfl
  | call loc f es ih =>
    rw [erase, variableNames, variableNames, variableNamesIn_eq_flatMap, variableNamesIn_eq_flatMap,
      flatMap_eraseAll ih]
  | branch loc c t e ihc iht ihe => simp only [erase, variableNames, ihc, iht, ihe]

/-- The issues of an expression do not depend on its locations. -/
theorem issues_erase (arity? : String → Option Nat) (bound : List String) (e : Expr) :
    (e.erase.reports arity? bound).map (·.issue) = (e.reports arity? bound).map (·.issue) := by
  induction e using Expr.induction with
  | empty | literal | stray => rfl
  | var loc x =>
    rw [erase, reports, reports]
    split <;> rfl
  | call loc f es ih =>
    have hcall : (callReports arity? none f es.length).map (·.issue) =
        (callReports arity? loc f es.length).map (·.issue) := by
      unfold callReports
      split
      · rfl
      · split <;> rfl
    have hlength : (eraseAll es).length = es.length := by rw [eraseAll_eq_map, List.length_map]
    rw [erase, reports, reports, reportsIn_eq_flatMap, reportsIn_eq_flatMap, hlength,
      List.map_append, List.map_append, hcall, List.map_flatMap, List.map_flatMap,
      flatMap_eraseAll ih]
  | branch loc c t e ihc iht ihe =>
    rw [erase, reports, reports, isEmpty_erase]
    simp only [List.map_append, iht, ihe]
    split
    · rfl
    · rw [ihc]

end Expr

namespace Definition

variable (d : Definition)

@[simp] theorem name_erase : d.erase.name = d.name := rfl

@[simp] theorem arity_erase : d.erase.arity = d.arity := List.length_map ..

@[simp] theorem parameterNames_erase : d.erase.parameterNames = d.parameterNames := by
  rw [parameterNames, erase, List.map_map]
  rfl

@[simp] theorem callees_erase : d.erase.callees = d.callees := d.body.callees_erase

theorem layout_erase : d.erase.layout = d.layout := by
  have hparameters : d.erase.parameters.map (·.name.toList) =
      d.parameters.map (·.name.toList) := by
    rw [erase, List.map_map]
    rfl
  rw [layout, layout, hparameters, erase, Expr.layout_erase]

theorem nameIssues_erase (earlier : List String) :
    (d.erase.nameReports earlier).map (·.issue) = (d.nameReports earlier).map (·.issue) := by
  unfold nameReports
  rw [name_erase, List.map_append, List.map_append]
  congr 1
  · split <;> rfl
  · split <;> rfl

theorem duplicateIssues_erase (earlier : List String) (ps : List Parameter) :
    (d.erase.duplicateReports earlier (ps.map Parameter.erase)).map (·.issue) =
      (d.duplicateReports earlier ps).map (·.issue) := by
  induction ps generalizing earlier with
  | nil => rfl
  | cons p ps ih =>
    rw [List.map_cons, duplicateReports, duplicateReports, List.map_append, List.map_append]
    congr 1
    · rw [show p.erase.name = p.name from rfl]
      split <;> rfl
    · exact ih (p.name :: earlier)

theorem unusedIssues_erase (earlier : List String) (ps : List Parameter) :
    (d.erase.unusedReports earlier (ps.map Parameter.erase)).map (·.issue) =
      (d.unusedReports earlier ps).map (·.issue) := by
  have hnames : d.erase.body.variableNames = d.body.variableNames := d.body.variableNames_erase
  induction ps generalizing earlier with
  | nil => rfl
  | cons p ps ih =>
    rw [List.map_cons, unusedReports, unusedReports, List.map_append, List.map_append, hnames]
    congr 1
    · rw [show p.erase.name = p.name from rfl]
      split <;> rfl
    · exact ih (p.name :: earlier)

theorem issues_erase (arity? : String → Option Nat) :
    (d.erase.reports arity?).map (·.issue) = (d.reports arity?).map (·.issue) := by
  have hbody := d.body.issues_erase arity? d.parameterNames
  simp only [reports, List.map_append, parameterNames_erase]
  rw [show d.erase.parameters = d.parameters.map Parameter.erase from rfl,
    show d.erase.body = d.body.erase from rfl, duplicateIssues_erase, unusedIssues_erase, hbody]

end Definition

namespace Program

/-- The program without locations and kinds of meaningless nodes. -/
def erase (p : Program) : Program := ⟨none, p.definitions.map Definition.erase⟩

theorem same_iff_erase (p q : Program) : p.same q = true ↔ p.erase = q.erase := by
  rw [same_iff]
  simp only [erase, mk.injEq, true_and]

variable (p : Program)

theorem find?_table_erase (f : String) :
    p.erase.table.find? f = (p.table.find? f).map Definition.erase := by
  rw [table, Table.find?, erase, ← List.map_reverse, List.find?_map]
  rfl

theorem names_table_erase : p.erase.table.names = p.table.names := by
  simp only [table, Table.names, erase, List.reverse_reverse, List.map_map]
  rfl

theorem arity?_table_erase : p.erase.table.arity? = p.table.arity? := by
  funext f
  rw [Table.arity?, Table.arity?, find?_table_erase]
  cases p.table.find? f with
  | none => rfl
  | some d => exact congrArg some d.arity_erase

/-- **The layout of a program does not depend on its locations.** -/
theorem layout_erase : p.erase.layout = p.layout := by
  rw [layout, layout, erase, List.map_map]
  congr 1
  exact List.map_congr_left fun d _ => d.layout_erase

theorem callees_erase : p.erase.callees = p.callees := by
  rw [callees, callees, erase, List.flatMap_map]
  simp only [Definition.callees_erase]

/-- **Nor does its call graph.** -/
theorem callGraph_erase (title : String) : p.erase.callGraph title = p.callGraph title := by
  simp only [callGraph, erase, List.map_map, List.flatMap_map, Definition.callees_erase,
    Definition.name_erase, Function.comp_def]

theorem nameIssues_erase (earlier : List String) (ds : List Definition) :
    (nameReports earlier (ds.map Definition.erase)).map (·.issue) =
      (nameReports earlier ds).map (·.issue) := by
  induction ds generalizing earlier with
  | nil => rfl
  | cons d ds ih =>
    rw [List.map_cons, nameReports, nameReports, List.map_append, List.map_append,
      d.nameIssues_erase, Definition.name_erase, ih]

theorem unusedIssues_erase :
    p.erase.unusedReports.map (·.issue) = p.unusedReports.map (·.issue) := by
  simp only [unusedReports, List.map_filterMap, names_table_erase, callees_erase]
  congr 1
  funext name
  simp only [unusedReport, find?_table_erase]
  split
  · rfl
  · cases p.table.find? name <;> rfl

/-- **Nor do its issues.** -/
theorem issues_erase : p.erase.reports.map (·.issue) = p.reports.map (·.issue) := by
  have hbodies : (p.erase.definitions.flatMap (·.reports p.table.arity?)).map (·.issue) =
      (p.definitions.flatMap (·.reports p.table.arity?)).map (·.issue) := by
    simp only [erase, List.map_flatMap, List.flatMap_map, Definition.issues_erase]
  rw [reports, reports, List.map_append, List.map_append, List.map_append, List.map_append,
    arity?_table_erase, hbodies, unusedIssues_erase]
  congr 1
  exact nameIssues_erase [] p.definitions

end Program

/-! ## Acts and outcomes -/

namespace Act

mutual

/-- The act without locations. -/
def erase : Act → Act
  | write v => write v
  | call _ f args inner ending => call none f args (eraseAll inner) ending

/-- `erase` on each act of a list. -/
def eraseAll : List Act → List Act
  | [] => []
  | a :: as => a.erase :: eraseAll as

end

@[simp] theorem eraseAll_append (as bs : List Act) :
    eraseAll (as ++ bs) = eraseAll as ++ eraseAll bs := by
  induction as with
  | nil => rfl
  | cons a as ih => rw [List.cons_append, eraseAll, eraseAll, ih, List.cons_append]

mutual

theorem writtenBy_erase : ∀ a : Act, a.erase.writtenBy = a.writtenBy
  | write v => rfl
  | call loc f args inner ending => by
    rw [erase, writtenBy, writtenBy, written_eraseAll inner]

theorem written_eraseAll : ∀ as : List Act, written (eraseAll as) = written as
  | [] => rfl
  | a :: as => by
    rw [eraseAll, written, written, writtenBy_erase a, written_eraseAll as]

end

end Act

/-- The event without its location. -/
def Event.erase : Event → Event
  | enter f k args _ => enter f k args none
  | exit f k result => exit f k result

namespace Act

mutual

theorem eventsOf_erase : ∀ (depth : Nat) (a : Act),
    a.erase.eventsOf depth = (a.eventsOf depth).map Event.erase
  | depth, write v => rfl
  | depth, call loc f args inner ending => by
    have hinner := events_eraseAll (depth + 1) inner
    cases ending with
    | returned v => simp [erase, eventsOf, exitEvent, hinner, Event.erase]
    | cutShort => simp [erase, eventsOf, exitEvent, hinner, Event.erase]

theorem events_eraseAll : ∀ (depth : Nat) (as : List Act),
    events depth (eraseAll as) = (events depth as).map Event.erase
  | depth, [] => rfl
  | depth, a :: as => by
    rw [eraseAll, events, events, eventsOf_erase depth a, events_eraseAll depth as, List.map_append]

end

end Act

/-- The error without its location. -/
def EvalError.erase (e : EvalError) : EvalError := ⟨e.fault, none⟩

namespace Outcome

variable {α β : Type}

/-- The outcome without locations. -/
def erase (o : Outcome α) : Outcome α := ⟨Act.eraseAll o.acts, o.result.mapError EvalError.erase⟩

@[simp] theorem erase_value (a : α) : (value a).erase = value a := rfl

@[simp] theorem erase_fault (loc : Option Location) (x : Fault) :
    (fault loc x : Outcome α).erase = fault none x := rfl

theorem erase_andThen (o : Outcome α) (f : α → Outcome β) :
    (o.andThen f).erase = o.erase.andThen fun a => (f a).erase := by
  obtain ⟨acts, result⟩ := o
  cases result with
  | error e => rfl
  | ok a =>
    rw [andThen_of_ok rfl, andThen_of_ok rfl, erase, Act.eraseAll_append]
    rfl

theorem erase_ofCall (loc : Option Location) (f : String) (args : List Int)
    (o : Outcome (Option Int)) : (ofCall loc f args o).erase = ofCall none f args o.erase := by
  obtain ⟨acts, result⟩ := o
  cases result <;> rfl

end Outcome

theorem Native.erase_outcome (n : Native) (loc : Option Location) (args : List Int) :
    (n.outcome loc args).erase = n.outcome none args := by
  unfold outcome
  split
  · rfl
  · split
    · rfl
    · split <;> rfl

/-! ## Evaluation -/

namespace Expr

theorem stray?_call {loc : Option Location} {f : String} {es : List Expr} :
    (call loc f es).stray? = none ↔ ∀ e ∈ es, e.stray? = none := by
  rw [stray?, strayIn?_eq_findSome?, List.findSome?_eq_none_iff]

theorem stray?_branch {loc : Option Location} {c t e : Expr} :
    (branch loc c t e).stray? = none ↔ c.stray? = none ∧ t.stray? = none ∧ e.stray? = none := by
  rw [stray?, Option.or_eq_none_iff, Option.or_eq_none_iff]

theorem evalArguments_erase {eval eval' : Expr → Outcome (Option Int)} {es : List Expr}
    (h : ∀ e ∈ es, eval' e.erase = (eval e).erase) (f : String) (index : Nat) :
    evalArguments eval' f index (eraseAll es) = (evalArguments eval f index es).erase := by
  induction es generalizing index with
  | nil => rfl
  | cons e es ih =>
    obtain ⟨he, hes⟩ := List.forall_mem_cons.1 h
    rw [eraseAll, evalArguments, evalArguments, Outcome.erase_andThen, he]
    congr 1
    funext v
    cases v with
    | none =>
      have hloc : e.erase.loc = none := by cases e <;> rfl
      simp only [hloc, Outcome.erase_fault]
    | some v =>
      simp only [ih hes, Outcome.erase_andThen, Outcome.erase_value]

/-- The inside of a call, if evaluations with less stack commute with erasure. -/
theorem callee_erase {p : Program} (hp : ∀ d ∈ p.definitions, d.body.stray? = none)
    {maxDepth : Option Int} {stack : Nat}
    (ih : ∀ s < stack, ∀ depth frame e, e.stray? = none →
      eval ⟨p.erase.table, maxDepth⟩ s depth frame e.erase =
        (eval ⟨p.table, maxDepth⟩ s depth frame e).erase)
    (depth : Nat) (loc : Option Location) (f : String) (args : List Int) :
    callee ⟨p.erase.table, maxDepth⟩ stack depth none f args =
      (callee ⟨p.table, maxDepth⟩ stack depth loc f args).erase := by
  unfold callee
  cases Native.find? f with
  | some n => exact (n.erase_outcome loc args).symm
  | none =>
    dsimp only
    rw [p.find?_table_erase]
    cases hd : p.table.find? f with
    | none => rfl
    | some d =>
      rw [Option.map_some]
      dsimp only
      rw [d.arity_erase]
      split
      · rfl
      · cases stack with
        | zero => rfl
        | succ stack =>
          have hframe : d.erase.frame args = d.frame args := by
            rw [Definition.frame, Definition.frame, d.parameterNames_erase, d.name_erase]
          have hbody := hp d (Program.find?_table hd).1
          dsimp only
          rw [hframe]
          exact ih stack (Nat.lt_succ_self _) (depth + 1) (d.frame args) d.body hbody

/-- **Evaluation commutes with erasure**, where all nodes are expressions. -/
theorem eval_erase {p : Program} (hp : ∀ d ∈ p.definitions, d.body.stray? = none)
    (maxDepth : Option Int) (stack depth : Nat) (frame : Frame) (e : Expr) (he : e.stray? = none) :
    eval ⟨p.erase.table, maxDepth⟩ stack depth frame e.erase =
      (eval ⟨p.table, maxDepth⟩ stack depth frame e).erase := by
  -- on the stack and not on the expression: a call goes on with a body from the table
  induction stack using Nat.strongRecOn generalizing depth frame e with
  | ind stack ih =>
    by_cases hstack : stack < 2
    · rw [eval_exhausted hstack, eval_exhausted hstack]
      rfl
    obtain ⟨stack, rfl⟩ : ∃ n, stack = n + 2 := ⟨stack - 2, by omega⟩
    have hsub := ih stack (by omega)
    cases e with
    | empty | literal => rfl
    | var loc x =>
      rw [erase, eval, eval, Frame.lookup, Frame.lookup]
      cases frame.get? x <;> rfl
    | branch loc c t e =>
      obtain ⟨hc, ht, he⟩ := stray?_branch.1 he
      rw [erase, eval_branch, eval_branch, Outcome.erase_andThen, hsub depth frame c hc]
      congr 1
      funext v
      cases v with
      | none => rfl
      | some v =>
        rw [choose, choose]
        split
        · exact hsub depth frame t ht
        · exact hsub depth frame e he
    | call loc f es =>
      have hes := stray?_call.1 he
      rw [erase, eval_call, eval_call, Outcome.erase_andThen,
        evalArguments_erase fun e hmem => hsub depth frame e (hes e hmem)]
      congr 1
      funext args
      rw [invoke, invoke, show Context.forbids ⟨p.erase.table, maxDepth⟩ =
        Context.forbids ⟨p.table, maxDepth⟩ from rfl]
      split
      · rfl
      · rw [Outcome.erase_ofCall,
          callee_erase hp (fun s hs => ih s (by omega)) depth loc f args]
    | stray loc node es => cases he

end Expr

/-! ## Runs -/

/-- The run without locations. -/
def Run.erase (r : Run) : Run := ⟨r.begun, r.outcome.erase⟩

/-- The value of a run, or its fault, does not show a location. -/
theorem Run.fault_erase (r : Run) :
    r.erase.outcome.result.mapError (·.fault) = r.outcome.result.mapError (·.fault) := by
  obtain ⟨begun, acts, result⟩ := r
  cases result <;> rfl

theorem Run.output_erase (r : Run) : r.erase.output = r.output :=
  congrArg (List.map Text.decimal) (Act.written_eraseAll r.outcome.acts)

theorem Run.events_erase (r : Run) : r.erase.events = r.events.map Event.erase :=
  Act.events_eraseAll 0 r.outcome.acts

/-- **A run commutes with erasure**, where all nodes are expressions. -/
theorem Program.run_erase {p : Program} (hp : ∀ d ∈ p.definitions, d.body.stray? = none)
    (maxDepth : Option Int) : p.erase.run maxDepth = (p.run maxDepth).erase := by
  unfold run enter entryBody
  rw [p.find?_table_erase]
  cases hd : p.table.find? entryPoint with
  | none => rfl
  | some d =>
    have hbody := hp d (find?_table hd).1
    rw [Option.map_some]
    dsimp only
    rw [d.arity_erase, show d.erase.parameters.isEmpty = d.parameters.isEmpty from List.isEmpty_map]
    cases d.parameters.isEmpty with
    | false => rfl
    | true =>
      simp only [if_true, Run.erase, Run.mk.injEq, true_and]
      split
      · rfl
      · exact Expr.eval_erase hp maxDepth _ 0 _ d.body hbody

end Wordlet
