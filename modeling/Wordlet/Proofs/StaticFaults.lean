import Wordlet.Proofs.Observers

/-!
# Reports foresee faults

An unknown function, an unbound variable and a wrong number of arguments are faults of a run that
the reports on the program show beforehand, at the same place. The reports look at every definition,
and look for functions among the definitions first; a run looks at what it reaches, and looks among
the natives first. An observer may watch, as long as it keeps out of the run.

The invariant of a run is that the reports on the expression that is evaluated are reports on the
program, and that the frame binds all parameters that these reports take for bound
(`Program.Surveyed`).

* `Program.invariant_foreseen`: **every fault of an evaluation is foreseen.**
* `Program.Foresees.reported`: what this means in the wording of the reports, and what is left when
  there are no reports.
* `Program.watch_error_reported`: **the reports foresee the faults of every run**, whatever watches
  it from outside.
-/

namespace Wordlet

namespace Program

theorem mem_reports_of_mem_body {p : Program} {d : Definition} (hd : d ∈ p.definitions)
    {r : Report} (hr : r ∈ d.body.reports p.table.arity? d.parameterNames) : r ∈ p.reports := by
  have hdef : r ∈ d.reports p.table.arity? := by
    unfold Definition.reports
    exact List.mem_append_right _ (List.mem_append_left _ hr)
  unfold reports
  refine List.mem_append_right _ (List.mem_append_left _ ?_)
  exact List.mem_flatMap.2 ⟨d, hd, hdef⟩

theorem mem_nameReports {r : Report} {d : Definition} {ds : List Definition} (hd : d ∈ ds)
    (hr : ∀ earlier, r ∈ d.nameReports earlier) (earlier : List String) :
    r ∈ nameReports earlier ds := by
  induction ds generalizing earlier with
  | nil => cases hd
  | cons d' ds ih =>
    unfold nameReports
    rcases List.mem_cons.1 hd with rfl | hd
    · exact List.mem_append_left _ (hr earlier)
    · exact List.mem_append_right _ (ih hd (d'.name :: earlier))

/-- A definition of a native's name is reported. -/
theorem shadowsNative_mem_reports {p : Program} {d : Definition} (hd : d ∈ p.definitions)
    (hn : (Native.find? d.name).isSome = true) : ⟨d.loc, .shadowsNative d.name⟩ ∈ p.reports := by
  unfold reports
  refine List.mem_append_left _ (mem_nameReports hd (fun earlier => ?_) [])
  unfold Definition.nameReports
  rw [if_pos hn]
  exact List.mem_append_right _ (List.mem_singleton_self _)

/-- The frame may evaluate the expression: all that is reported on it is reported on the program,
and all that is taken for bound is bound. -/
def Surveyed (p : Program) (frame : Frame) (e : Expr) : Prop :=
  ∃ bound, (∀ r ∈ e.reports p.table.arity? bound, r ∈ p.reports) ∧
    ∀ x ∈ bound, frame.get? x ≠ none

/-- What the reports say of an error: an unknown function, an unbound variable or a wrong number of
arguments is reported at its place, unless it is the arguments of a native that the program also
defines. What is no expression is not evaluated. -/
def Foresees (p : Program) (err : EvalError) : Prop :=
  match err.fault with
  | .unknownFunction g => ⟨err.loc, .unknownFunction g⟩ ∈ p.reports
  | .unbound x _ => ⟨err.loc, .unknownVariable x⟩ ∈ p.reports
  | .arityMismatch g accepted received =>
    ((Native.find? g).isSome = true ∧ ∃ d ∈ p.definitions, d.name = g) ∨
      ⟨err.loc, .arityMismatch g accepted received⟩ ∈ p.reports
  | .notAnExpression _ => False
  | _ => True

theorem Surveyed.var {p : Program} {frame : Frame} {loc : Option Location} {x : String}
    (h : p.Surveyed frame (.var loc x)) (hx : frame.get? x = none) :
    ⟨loc, .unknownVariable x⟩ ∈ p.reports := by
  obtain ⟨bound, hr, hb⟩ := h
  have hnot : x ∉ bound := fun hmem => hb x hmem hx
  refine hr _ ?_
  rw [Expr.reports, if_neg hnot]
  exact List.mem_singleton_self _

theorem Surveyed.branch {p : Program} {frame : Frame} {loc : Option Location} {c t e : Expr}
    (h : p.Surveyed frame (.branch loc c t e)) :
    p.Surveyed frame c ∧ p.Surveyed frame t ∧ p.Surveyed frame e := by
  obtain ⟨bound, hr, hb⟩ := h
  rw [Expr.reports] at hr
  refine ⟨⟨bound, fun r hmem => hr r (List.mem_append_left _ ?_), hb⟩,
    ⟨bound, fun r hmem => hr r (List.mem_append_right _ (List.mem_append_left _ hmem)), hb⟩,
    ⟨bound, fun r hmem => hr r (List.mem_append_right _ (List.mem_append_right _ hmem)), hb⟩⟩
  -- nothing is reported inside an empty condition
  split
  · rename_i hc
    obtain ⟨cloc, rfl⟩ := eq_empty_of_isEmpty hc
    cases hmem
  · exact hmem

theorem Surveyed.call {p : Program} {frame : Frame} {loc : Option Location} {f : String}
    {es : List Expr} (h : p.Surveyed frame (.call loc f es)) :
    (∀ r ∈ Expr.callReports p.table.arity? loc f es.length, r ∈ p.reports) ∧
      ∀ e ∈ es, p.Surveyed frame e := by
  obtain ⟨bound, hr, hb⟩ := h
  rw [Expr.reports, Expr.reportsIn_eq_flatMap] at hr
  refine ⟨fun r hmem => hr r (List.mem_append_left _ hmem), fun e he => ⟨bound, ?_, hb⟩⟩
  intro r hmem
  exact hr r (List.mem_append_right _ (List.mem_flatMap.2 ⟨e, he, hmem⟩))

theorem Surveyed.body {p : Program} {f : String} {d : Definition} (hd : p.table.find? f = some d)
    {args : List Int} (hlen : d.arity = args.length) : p.Surveyed (d.frame args) d.body :=
  ⟨d.parameterNames, fun _ hr => mem_reports_of_mem_body (Program.find?_table hd).1 hr,
    fun _ hx => Definition.get?_frame_ne_none hx hlen⟩

/-- **Every fault of an evaluation is foreseen.** -/
theorem invariant_foreseen {p : Program} (hp : ∀ d ∈ p.definitions, d.Spellable)
    (maxDepth : Option Int) :
    Invariant ⟨p.table, maxDepth⟩ (fun frame e => e.SpellableBlock ∧ p.Surveyed frame e)
      (fun _ => True) (fun _ => True) p.Foresees where
  exhausted := trivial
  literal _ := trivial
  var h := ⟨fun _ _ => trivial, fun hx => h.2.var hx⟩
  branch h := by
    obtain ⟨hc, ht, he⟩ := h.1.spellable rfl
    obtain ⟨hsc, hst, hse⟩ := h.2.branch
    exact ⟨⟨.inr hc, hsc⟩, ⟨ht, hst⟩, ⟨he, hse⟩, trivial⟩
  call h := by
    have hes := Expr.spellableAll_iff.1 (h.1.spellable rfl).2.2
    exact ⟨fun e he => ⟨⟨.inr (hes e he), h.2.call.2 e he⟩, fun _ => trivial⟩, trivial⟩
  stray h := (h.1.spellable rfl).elim
  native := by
    intro frame loc f es args n h hlen _ hn
    refine Native.outcome_holds (fun _ _ => ⟨trivial, trivial⟩) ?_ (fun _ _ _ => trivial)
    intro hne
    have hname : n.name = f := by simpa using List.find?_some hn
    subst hname
    -- the reports take a definition of the name for what is called
    cases hd : p.table.find? n.name with
    | some d =>
      obtain ⟨hmem, hdname⟩ := Program.find?_table hd
      exact .inl ⟨by rw [hn]; rfl, d, hmem, hdname⟩
    | none =>
      refine .inr (h.2.call.1 _ ?_)
      rw [hlen] at hne ⊢
      simp only [Expr.callReports, Table.arity?, hd, hn, Option.map_some, if_neg (Ne.symm hne)]
      exact List.mem_singleton_self _
  unknown := by
    intro frame loc f es h hn hd
    refine h.2.call.1 _ ?_
    simp only [Expr.callReports, Table.arity?, hd, hn, Option.map_none]
    exact List.mem_singleton_self _
  arity := by
    intro frame loc f es d h hn hd hne
    refine .inr (h.2.call.1 _ ?_)
    simp only [Expr.callReports, Table.arity?, hd, if_neg hne]
    exact List.mem_singleton_self _
  body hd hlen _ := ⟨(hp _ (Program.find?_table hd).1).2.2, Surveyed.body hd hlen⟩
  called _ _ _ := trivial

theorem run_foreseen {p : Program} (hp : ∀ d ∈ p.definitions, d.Spellable)
    (maxDepth : Option Int) {err : EvalError}
    (h : (p.run maxDepth).outcome.result = .error err) : p.Foresees err := by
  have hholds : (p.run maxDepth).outcome.Holds (fun _ => True) (fun v => ∀ x ∈ v, True)
      p.Foresees := by
    refine Program.run_holds trivial (fun _ _ => trivial) (fun _ => trivial) ?_
    intro d hd hps stack
    have hmem := (Program.find?_table hd).1
    -- the entry point has no parameters, so nothing need be bound
    refine (invariant_foreseen hp maxDepth).eval stack 0 _ _ ⟨(hp d hmem).2.2, d.parameterNames,
      fun _ hr => mem_reports_of_mem_body hmem hr, ?_⟩
    simp [Definition.parameterNames, hps]
  exact hholds.error err h

/-- An error that is foreseen in the wording of the reports, and what is left of the errors of the
language if there are no reports. -/
theorem Foresees.reported {p : Program} {err : EvalError} (h : p.Foresees err) :
    (∀ g, err.fault = .unknownFunction g → ⟨err.loc, .unknownFunction g⟩ ∈ p.reports ∧
      (Issue.unknownFunction g).message = err.fault.message) ∧
    (∀ x f, err.fault = .unbound x f → ⟨err.loc, .unknownVariable x⟩ ∈ p.reports) ∧
    (∀ g accepted received, err.fault = .arityMismatch g accepted received →
      ¬((Native.find? g).isSome = true ∧ ∃ d ∈ p.definitions, d.name = g) →
      ⟨err.loc, .arityMismatch g accepted received⟩ ∈ p.reports ∧
        (Issue.arityMismatch g accepted received).message = err.fault.message) ∧
    (p.reports = [] → err.fault.isForeign = false →
      err.fault = .noEntryPoint ∨ (∃ count, err.fault = .entryPointParameters count) ∨
        (∃ index f, err.fault = .argumentWithoutValue index f) ∨
        err.fault = .conditionWithoutValue ∨ err.fault = .tooDeep ∨
        err.fault = .stackExhausted) := by
  obtain ⟨fault, loc⟩ := err
  refine ⟨?_, ?_, ?_, ?_⟩
  · rintro g rfl
    exact ⟨h, rfl⟩
  · rintro x f rfl
    exact h
  · rintro g accepted received rfl hnot
    rcases h with hshadow | hmem
    · exact absurd hshadow hnot
    · exact ⟨hmem, rfl⟩
  · intro hempty hforeign
    unfold Foresees at h
    rw [hempty] at h
    cases fault with
    | noEntryPoint => exact .inl rfl
    | entryPointParameters n => exact .inr (.inl ⟨n, rfl⟩)
    | argumentWithoutValue i f => exact .inr (.inr (.inl ⟨i, f, rfl⟩))
    | conditionWithoutValue => exact .inr (.inr (.inr (.inl rfl)))
    | tooDeep => exact .inr (.inr (.inr (.inr (.inl rfl))))
    | stackExhausted => exact .inr (.inr (.inr (.inr (.inr rfl))))
    | unbound x f => cases h
    | unknownFunction g => cases h
    | arityMismatch g accepted received =>
      -- a definition of a native's name would be reported
      rcases h with ⟨hn, d, hd, rfl⟩ | hmem
      · have hmem := shadowsNative_mem_reports hd hn
        rw [hempty] at hmem
        cases hmem
      · cases hmem
    | notAnExpression => exact h.elim
    | stackTooLarge | limitWithoutValue | stackOverflow | missingPart | numberTooLong =>
      cases hforeign

/-- A fault that is none of the language is no matter of the reports. -/
theorem foresees_of_isForeign (p : Program) {x : Fault} (h : x.isForeign = true)
    (loc : Option Location) : p.Foresees ⟨x, loc⟩ := by
  cases x <;> trivial

/-- **The reports foresee the faults of every run.** Let a program that was read from a text be run
under any limit, with any observer that stays a bystander. If the run ends in an error, then an
unknown function, an unbound variable and a wrong number of arguments are reported at the place of
the error, the first and the last in the same words; the arguments of a native that the program also
defines are the exception. If there are no reports, an error of the language means that there is no
entry point without parameters or no value for an argument or a condition, or that the run goes too
deep. -/
theorem watch_error_reported {source path : String} {p : Program}
    (h : Program.parse (Token.scan source path) = .ok p) {σ : Type} {observer : Observer σ}
    (hobserver : observer.Bystander) (maxDepth : Option Int) {err : EvalError}
    (herr : (p.watch observer maxDepth).1 = .error err) :
    (∀ g, err.fault = .unknownFunction g → ⟨err.loc, .unknownFunction g⟩ ∈ p.reports ∧
      (Issue.unknownFunction g).message = err.fault.message) ∧
    (∀ x f, err.fault = .unbound x f → ⟨err.loc, .unknownVariable x⟩ ∈ p.reports) ∧
    (∀ g accepted received, err.fault = .arityMismatch g accepted received →
      ¬((Native.find? g).isSome = true ∧ ∃ d ∈ p.definitions, d.name = g) →
      ⟨err.loc, .arityMismatch g accepted received⟩ ∈ p.reports ∧
        (Issue.arityMismatch g accepted received).message = err.fault.message) ∧
    (p.reports = [] → err.fault.isForeign = false →
      err.fault = .noEntryPoint ∨ (∃ count, err.fault = .entryPointParameters count) ∨
        (∃ index f, err.fault = .argumentWithoutValue index f) ∨
        err.fault = .conditionWithoutValue ∨ err.fault = .tooDeep ∨
        err.fault = .stackExhausted) := by
  refine Foresees.reported ?_
  rcases p.watch_of_bystander hobserver maxDepth with hrun | ⟨x, hown, hx⟩ | hstack
  · exact run_foreseen (Program.spellable_of_parse h) maxDepth (hrun.symm.trans herr)
  · cases hown.symm.trans herr
    exact p.foresees_of_isForeign hx none
  · cases hstack.symm.trans herr
    trivial

/-- The last definition of a name is the one that runs, and its unknown function is reported; an
observer that logs is told of the call. -/
theorem watch_error_reported_last_definition :
    ∃ p, Program.parse (Token.scan
        "main() \x7b f(2) \x7d f(y) \x7b g(y) \x7d f(x) \x7b h(x) \x7d" "s") = .ok p ∧
      (p.watch (.logging .debug (.standard .debug) fun _ => 10) (some 3)).1 =
        .error ⟨.unknownFunction "h", some ⟨"s", 1, 38⟩⟩ ∧
      ⟨some ⟨"s", 1, 38⟩, .unknownFunction "h"⟩ ∈ p.reports := by
  have hmem : ∀ p, Program.parse (Token.scan
        "main() \x7b f(2) \x7d f(y) \x7b g(y) \x7d f(x) \x7b h(x) \x7d" "s") = .ok p →
      (p.watch (.logging .debug (.standard .debug) fun _ => 10) (some 3)).1 =
        .error ⟨.unknownFunction "h", some ⟨"s", 1, 38⟩⟩ →
      ⟨some ⟨"s", 1, 38⟩, .unknownFunction "h"⟩ ∈ p.reports :=
    fun p hp hrun =>
      ((watch_error_reported hp (Observer.bystander_logging _ _ _) (some 3) hrun).1 "h" rfl).1
  refine ⟨⟨some ⟨"s", 1, 1⟩,
    [⟨some ⟨"s", 1, 1⟩, "main", [], .call (some ⟨"s", 1, 10⟩) "f" [.literal (some ⟨"s", 1, 12⟩) 2]⟩,
      ⟨some ⟨"s", 1, 17⟩, "f", [⟨some ⟨"s", 1, 19⟩, "y"⟩],
        .call (some ⟨"s", 1, 24⟩) "g" [.var (some ⟨"s", 1, 26⟩) "y"]⟩,
      ⟨some ⟨"s", 1, 31⟩, "f", [⟨some ⟨"s", 1, 33⟩, "x"⟩],
        .call (some ⟨"s", 1, 38⟩) "h" [.var (some ⟨"s", 1, 40⟩) "x"]⟩]⟩, ?_, ?_, hmem _ ?_ ?_⟩
  · cbv
  · decide +kernel
  · cbv
  · decide +kernel

/-- An observer that takes an argument away is no bystander: the run of this program ends in a wrong
number of arguments, and there is no report on it. -/
example :
    let p : Program := ⟨none, [⟨none, "main", [], .call none "not" [.literal none 2]⟩]⟩
    let thief : Observer Unit :=
      { start := (), notice := fun _ _ => .ok (), leave := fun _ args => args.tail }
    (p.watch thief none).1 = .error ⟨.arityMismatch "not" 1 0, none⟩ ∧ p.reports = [] := by
  decide +kernel

end Program

end Wordlet
