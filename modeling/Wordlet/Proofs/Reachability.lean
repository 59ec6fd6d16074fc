import Mathlib.Logic.Relation
import Wordlet.CallGraph
import Wordlet.Proofs.Evaluation

/-!
# What a run can reach

A run begins with the entry point and goes on where calls lead. A call looks among the natives
first and takes the last definition of a name, so three kinds of definitions are never looked at:
those that a later one of the same name replaces, those that bear the name of a native, and those
that no chain of calls leads to.

* `Table.Calls`, `Table.Reached`: the calls of the definitions in force, and where they lead from
  the entry point.
* `Expr.eval_eq_of_agree`: **an evaluation depends on the functions that it reaches only.** A set of
  names that calls do not leave holds the names that an expression calls, and a step keeps it so.
* `Program.run_eq_of_agree`: the same of runs.
* `Program.run_eq_of_reached`: two programs with the same reached functions run alike; so the order
  of definitions of different names does not matter, and definitions that are never looked at can
  be left out.
-/

namespace Wordlet

/-! ## Calls -/

namespace Table

/-- The function `f` calls `g`: the definition of `f` in force has a call of `g` in its body. A
native calls nothing, whatever the table defines under its name. -/
def Calls (t : Table) (f g : String) : Prop :=
  Native.find? f = none ∧ ∃ d, t.find? f = some d ∧ g ∈ d.callees

/-- Calls lead from the entry point to `f`. -/
def Reached (t : Table) : String → Prop := Relation.ReflTransGen t.Calls entryPoint

theorem reached_entryPoint (t : Table) : t.Reached entryPoint := .refl

/-- The names hold the entry point, and all that the functions they name call. -/
def closed (t : Table) (names : List String) : Bool :=
  names.contains entryPoint && names.all fun f =>
    (Native.find? f).isSome || (t.find? f).all fun d => d.callees.all names.contains

/-- All that is reached is among closed names. -/
theorem Reached.mem_of_closed {t : Table} {names : List String} (hclosed : t.closed names = true)
    {f : String} (h : t.Reached f) : f ∈ names := by
  simp only [closed, Bool.and_eq_true, List.contains_iff_mem, List.all_eq_true] at hclosed
  obtain ⟨hentry, hstep⟩ := hclosed
  induction h with
  | refl => exact hentry
  | tail _ hcall ih =>
    obtain ⟨hnative, d, hd, hg⟩ := hcall
    have hnames := hstep _ ih
    simp only [hnative, hd, Option.isSome_none, Bool.false_or, Option.all_some, List.all_eq_true,
      List.contains_iff_mem] at hnames
    exact hnames _ hg

end Table

namespace Expr

/-- What a part of an expression calls the expression calls. -/
theorem mem_callees_of_mem_parts {e a : Expr} (ha : a ∈ e.parts) {f : String}
    (hf : f ∈ a.callees) : f ∈ e.callees := by
  cases e with
  | call loc g es =>
    rw [callees, calleesIn_eq_flatMap]
    exact List.mem_cons_of_mem _ (List.mem_flatMap.2 ⟨a, ha, hf⟩)
  | branch loc c t e =>
    simp only [parts, List.mem_cons, List.not_mem_nil, or_false] at ha
    simp only [callees, List.mem_append]
    rcases ha with rfl | rfl | rfl
    · exact .inl hf
    · exact .inr (.inl hf)
    · exact .inr (.inr hf)
  | empty | literal | var | stray => cases ha

end Expr

/-! ## Evaluations -/

theorem simulation_eq : Simulation (fun o o' => o = o') where
  value _ := rfl
  fault _ _ := rfl
  write _ := rfl
  andThen := by
    rintro α β o _ f f' rfl hf
    rw [funext hf]

namespace Expr

/-- **An evaluation depends on the functions that it reaches only.** Calls do not leave the names in
`live`, on which the two tables agree. The induction is on the stack, and the names that the
expression calls are live along it: those in a body are called by its function. -/
theorem eval_eq_of_agree {t t' : Table} (live : String → Prop)
    (h : ∀ f, Native.find? f = none → live f → t'.find? f = t.find? f)
    (hlive : ∀ f g, live f → t.Calls f g → live g)
    (maxDepth : Option Int) (stack depth : Nat) (frame : Frame) (e : Expr)
    (he : ∀ f ∈ e.callees, live f) :
    eval ⟨t', maxDepth⟩ stack depth frame e = eval ⟨t, maxDepth⟩ stack depth frame e := by
  induction stack using Nat.strongRecOn generalizing depth frame e with
  | ind stack ih =>
    by_cases hstack : stack < 2
    · rw [eval_exhausted hstack, eval_exhausted hstack]
    obtain ⟨stack, rfl⟩ : ∃ n, stack = n + 2 := ⟨stack - 2, by omega⟩
    refine simulation_eq.eval_step_parts ?_ ?_
    · intro a ha
      apply ih stack (by omega)
      intro f hf
      exact he f (mem_callees_of_mem_parts ha hf)
    rintro loc f es rfl args
    have hf : live f := he f (by simp [callees])
    unfold invoke callee
    cases hn : Native.find? f with
    | some n => rfl
    | none =>
      dsimp only
      rw [h f hn hf]
      cases hd : t.find? f with
      | none => rfl
      | some d =>
        have hbody : ∀ g ∈ d.body.callees, live g := by
          intro g hg
          exact hlive f g hf ⟨hn, d, hd, hg⟩
        cases stack with
        | zero => rfl
        | succ stack =>
          have hinner := ih stack (by omega) (depth + 1) (d.frame args) d.body hbody
          dsimp only
          rw [hinner]
          rfl

end Expr

/-! ## Runs -/

namespace Program

/-- The definition of a name in force is the last one. -/
theorem find?_table_eq_getLast? (p : Program) (f : String) :
    p.table.find? f = (p.definitions.filter (·.name == f)).getLast? := by
  unfold table Table.find?
  rw [← List.head?_filter, List.filter_reverse, List.head?_reverse]

/-- Two programs run alike if they agree on what the first one reaches. Where there is no entry
point, the error shows the place of the program. -/
theorem run_eq_of_agree {p p' : Program}
    (h : ∀ f, Native.find? f = none → p.table.Reached f → p'.table.find? f = p.table.find? f)
    (hloc : p.table.find? entryPoint = none → p'.loc = p.loc) (maxDepth : Option Int) :
    p'.run maxDepth = p.run maxDepth := by
  have hentry := h entryPoint (by decide) (Table.reached_entryPoint _)
  have hbody : p'.entryBody = p.entryBody := by
    unfold entryBody
    rw [hentry]
    cases hd : p.table.find? entryPoint with
    | none => rw [hloc hd]
    | some d => rfl
  cases hok : p.entryBody with
  | error e => rw [run_of_entryBody_error hok, run_of_entryBody_error (hbody.trans hok)]
  | ok body =>
    rw [run_of_entryBody_ok hok, run_of_entryBody_ok (hbody.trans hok)]
    obtain ⟨d, hd, -, rfl⟩ := exists_of_entryBody_ok hok
    have hcallees : ∀ g ∈ d.body.callees, p.table.Reached g := by
      intro g hg
      exact (Table.reached_entryPoint _).tail ⟨by decide, d, hd, hg⟩
    have hlive : ∀ f g, p.table.Reached f → p.table.Calls f g → p.table.Reached g :=
      fun _ _ hf hcall => hf.tail hcall
    rw [Expr.eval_eq_of_agree p.table.Reached h hlive maxDepth _ 0 _ d.body hcallees]

/-- Other definitions in place of those of a program change no run, if the last definitions of what
is reached stay. -/
theorem run_with_definitions {p : Program} {definitions : List Definition}
    (h : ∀ f, Native.find? f = none → p.table.Reached f →
      (definitions.filter (·.name == f)).getLast? = (p.definitions.filter (·.name == f)).getLast?)
    (maxDepth : Option Int) :
    ({ p with definitions } : Program).run maxDepth = p.run maxDepth := by
  have hagree : ∀ f, Native.find? f = none → p.table.Reached f →
      ({ p with definitions } : Program).table.find? f = p.table.find? f := by
    intro f hn hf
    rw [find?_table_eq_getLast?, find?_table_eq_getLast?, h f hn hf]
  exact run_eq_of_agree hagree (fun _ => rfl) maxDepth

/-- An earlier definition of a name is not the last one. -/
theorem getLast?_filter_of_later {before after : List Definition} {d d' : Definition}
    (hd' : d' ∈ after) (hname : d'.name = d.name) (f : String) :
    ((before ++ d :: after).filter (·.name == f)).getLast? =
      ((before ++ after).filter (·.name == f)).getLast? := by
  by_cases hf : d.name = f
  · have hne : after.filter (·.name == f) ≠ [] := by
      refine List.ne_nil_of_mem (a := d') ?_
      rw [List.mem_filter]
      exact ⟨hd', by simp [hname, hf]⟩
    obtain ⟨last, hlast⟩ := Option.isSome_iff_exists.1 (List.getLast?_isSome.2 hne)
    rw [List.filter_append, List.filter_append, List.filter_cons_of_pos (by simp [hf]),
      List.getLast?_append, List.getLast?_append, List.getLast?_cons, hlast]
    rfl
  · rw [List.filter_append, List.filter_append, List.filter_cons_of_neg (by simp [hf])]

/-- **A run depends only on what the entry point reaches.** Let a program define the entry point,
and let another have the same last definition, or like it none, of every name that is no native and
that calls lead to: they run alike under every limit, with the same acts, result and error. Hence
none of these changes a run: to put definitions of different names in another order; to leave out a
definition of which there is a later one; to leave out definitions that bear the name of a native,
and definitions that are not reached. -/
theorem run_eq_of_reached (p : Program) (maxDepth : Option Int) :
    (∀ p' : Program, p.table.find? entryPoint ≠ none →
      (∀ f, Native.find? f = none → p.table.Reached f → p'.table.find? f = p.table.find? f) →
      p'.run maxDepth = p.run maxDepth) ∧
    (∀ definitions : List Definition,
      (∀ f, definitions.filter (·.name == f) = p.definitions.filter (·.name == f)) →
      ({ p with definitions } : Program).run maxDepth = p.run maxDepth) ∧
    (∀ before d after, p.definitions = before ++ d :: after →
      (∃ d' ∈ after, d'.name = d.name) →
      ({ p with definitions := before ++ after } : Program).run maxDepth = p.run maxDepth) ∧
    (∀ keep : Definition → Bool,
      (∀ d ∈ p.definitions, keep d = false →
        Native.find? d.name ≠ none ∨ ¬p.table.Reached d.name) →
      ({ p with definitions := p.definitions.filter keep } : Program).run maxDepth =
        p.run maxDepth) := by
  refine ⟨?_, ?_, ?_, ?_⟩
  · intro p' hmain h
    exact run_eq_of_agree h (fun hnone => absurd hnone hmain) maxDepth
  · intro definitions hsame
    refine run_with_definitions ?_ maxDepth
    intro f _ _
    rw [hsame f]
  · rintro before d after hsplit ⟨d', hd', hname⟩
    refine run_with_definitions ?_ maxDepth
    intro f _ _
    rw [hsplit, getLast?_filter_of_later hd' hname f]
  · intro keep hkeep
    refine run_with_definitions ?_ maxDepth
    intro f hn hf
    rw [List.filter_filter]
    congr 1
    refine List.filter_congr fun d hd => ?_
    -- a definition of a reached name is kept
    by_cases hname : d.name = f
    · subst hname
      cases hkept : keep d with
      | true => simp
      | false =>
        rcases hkeep d hd hkept with hnative | hunreached
        · exact absurd hn hnative
        · exact absurd hf hunreached
    · simp [hname]

/-- A program with a definition that is replaced, one that bears the name of a native and one that
nothing calls runs like the two definitions that are looked at, in another order, and like what is
left of it when the last two are left out. -/
theorem run_eq_of_reached_pruned :
    ∃ p p' : Program, p.definitions.length = 5 ∧ p'.definitions.length = 2 ∧
      (p.run none).outcome.result = .ok (some 3) ∧ p'.run none = p.run none ∧
      ({ p with definitions := p.definitions.filter fun d => d.name ∈ ["main", "f"] } :
        Program).run none = p.run none := by
  let x : Expr := .var none "x"
  let f : Definition := ⟨none, "f", [⟨none, "x"⟩], x⟩
  let main : Definition := ⟨none, "main", [],
    .call none "f" [.call none "add" [.literal none 1, .literal none 2]]⟩
  let p : Program := ⟨none, [main, ⟨none, "f", [⟨none, "x"⟩], .call none "h" [x]⟩,
    ⟨none, "add", [⟨none, "x"⟩], .call none "h" []⟩, f, ⟨none, "h", [], .call none "f" []⟩]⟩
  let p' : Program := ⟨some ⟨"s", 1, 1⟩, [f, main]⟩
  have hreached : ∀ g, p.table.Reached g → g ∈ ["main", "f", "add"] := by
    intro g hg
    exact hg.mem_of_closed (by decide +kernel)
  obtain ⟨hagree, -, -, hkeep⟩ := run_eq_of_reached p none
  refine ⟨p, p', rfl, rfl, ?_, ?_, ?_⟩
  · rfl
  · refine hagree p' (by simp [p, table, Table.find?, entryPoint, main, f]) ?_
    intro g hn hg
    have hmem := hreached g hg
    simp only [List.mem_cons, List.not_mem_nil, or_false] at hmem
    rcases hmem with rfl | rfl | rfl
    · rfl
    · rfl
    · exact absurd hn (by decide)
  · refine hkeep _ ?_
    intro d hd hdropped
    simp only [p, List.mem_cons, List.not_mem_nil, or_false] at hd
    rcases hd with rfl | rfl | rfl | rfl | rfl
    · cases hdropped
    · cases hdropped
    · exact .inl (by decide)
    · cases hdropped
    · exact .inr fun hg => absurd (hreached _ hg) (by decide)

end Program

end Wordlet
