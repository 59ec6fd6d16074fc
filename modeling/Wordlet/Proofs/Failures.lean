import Wordlet.Proofs.Formatting
import Wordlet.Proofs.Termination
import Wordlet.Proofs.Values

/-!
# Failures of the program

A command line that is read as meant leads to a task, and a task can fail at each of its stages: the
environment gives no settings, the source file has no text or is not read as a program, the run of
the program fails, a text cannot be written to the output, a file cannot be written. `Fails` lists
these failures by the stages, without regard to how the program goes through them. `Refuses` lists
what is no failure and still ends with exit code 1: reports on a program that is to be run, and a
text that is not canonical. `Overtaxes` lists what is left: a depth limit that is no number, or for
which there is no stack.

A failure leaves the files as they were but for one: a call graph without an encoding is found to
have none when its file has been emptied.

* `Run.logged_eq`: **logging does not change** the run of a program that was read, so that it fails
  as if it were not logged.
* `Fails.respond`, `Overtaxes.respond`: what the program does where a stage fails.
* `respond_accepted`: **every failure ends with exit code 1**, except what the depth limit alone
  makes fail, which escapes.
-/

namespace Wordlet

/-! ## Runs that are logged -/

namespace Act

mutual

/-- Acts whose values are in range are all left when they are logged. -/
theorem logged_of_inRange (refused : Bool) :
    ∀ a : Act, a.InRange → a.logged refused = ⟨[a], .ok ()⟩
  | .write _, _ => rfl
  | .call loc f args inner ending, ⟨hargs, hinner, hend⟩ => by
    have hdecimal : args.all Text.hasDecimal = true :=
      List.all_eq_true.2 fun v hv => (hargs v hv).hasDecimal
    -- only a value is written at the end of a call
    have hlong : ¬(refused && !ending.hasDecimal) = true := by
      cases ending with
      | cutShort => simp [Ending.hasDecimal]
      | returned v =>
        cases v with
        | none => simp [Ending.hasDecimal]
        | some v => simp [Ending.hasDecimal, (hend v rfl).hasDecimal]
    rw [logged, if_pos hdecimal, loggedAll_of_inRange refused inner hinner]
    dsimp only
    rw [if_neg hlong]

theorem loggedAll_of_inRange (refused : Bool) :
    ∀ as : List Act, InRangeAll as → loggedAll refused as = ⟨as, .ok ()⟩
  | [], _ => rfl
  | a :: as, ⟨ha, has⟩ => by
    rw [loggedAll, logged_of_inRange refused a ha]
    show Outcome.andThen ⟨[a], .ok ()⟩ _ = _
    rw [Outcome.andThen_of_ok rfl, loggedAll_of_inRange refused as has]
    rfl

end

end Act

/-- **Logging does not change a run** whose values are in range. -/
theorem Run.logged_eq {r : Run} {E : EvalError → Prop}
    (h : r.outcome.Holds Act.InRange (fun v => ∀ x ∈ v, InRange x) E) (calls : Option Level)
    (sink : Sink) : r.logged calls sink = r := by
  obtain ⟨begun, acts, result⟩ := r
  let close (v : Option Int) : Outcome (Option Int) :=
    if sink.refuses .debug && !v.all Text.hasDecimal then .fault none .numberTooLong
    else .value v
  -- the last line of the log tells the value of the run, if there is one
  have hlast : (⟨[], result⟩ : Outcome (Option Int)).andThen close = ⟨[], result⟩ := by
    cases result with
    | error e => rfl
    | ok v =>
      have hdecimal : v.all Text.hasDecimal = true := by
        cases v with
        | none => rfl
        | some v =>
          rw [Option.all_some]
          exact (h.ok _ rfl v rfl).hasDecimal
      have hlong : ¬(sink.refuses .debug && !v.all Text.hasDecimal) = true := by
        rw [hdecimal, Bool.not_true, Bool.and_false]
        exact Bool.false_ne_true
      have hclose : close v = .value v := if_neg hlong
      rw [Outcome.andThen, hclose]
      rfl
  have hrun : ∀ calls : Outcome Unit, calls = ⟨acts, .ok ()⟩ →
      calls.andThen (fun _ => (⟨[], result⟩ : Outcome (Option Int)).andThen close) =
        ⟨acts, result⟩ := by
    rintro _ rfl
    rw [hlast, Outcome.andThen, List.append_nil]
  cases calls with
  | none => exact congrArg (Run.mk begun) (hrun _ rfl)
  | some level =>
    have hacts := Act.loggedAll_of_inRange (sink.refuses level) acts
      (Act.inRangeAll_iff.2 h.acts)
    exact congrArg (Run.mk begun) (hrun _ hacts)

/-- The errors of the language are foreseen. -/
theorem Fault.isUnforeseen_of_not_isForeign {x : Fault} (h : x.isForeign = false) :
    x.isUnforeseen = false := by
  cases x <;> first | rfl | cases h

namespace Command

/-! ## What can go wrong -/

/-- The path of the source file of a task. -/
def Task.source? : Task → Option Raw
  | .run o => some o.path
  | .format o => some o.path
  | .validate path => some path
  | .displayFunctions o => some o.path
  | .natives => none

/-- The texts that a task writes to the output, for its program. -/
def Task.prints (s : Settings) (p : Program) : Task → List Raw
  | .run o =>
    if (o.settings s).validateBeforeRun then p.reports.map (Report.rawText o.path) else []
  | .validate path => p.reports.map (Report.rawText path)
  | .displayFunctions o => if o.output.all Raw.isEmpty then [o.graph p] else []
  | .format _ | .natives => []

/-- A program gets as far as its run: it is read, and there are no reports on it if they are asked
for. -/
structure Admits (fs : Files) (env : Environment) (o : RunOptions) (s : Settings) (p : Program) :
    Prop where
  settings : Settings.ofEnvironment env = .ok s
  source : ∃ text, loadSource fs s o.path = .ok (text, p)
  reports : (o.settings s).validateBeforeRun = true → p.reports = []

/-- **The failures of a task**, by its stages. -/
inductive Fails (fs : Files) (env : Environment) : Task → Failure → Prop where
  /-- The environment gives no settings. -/
  | settings {task : Task} {e : SettingsError} (henv : Settings.ofEnvironment env = .error e) :
      Fails fs env task (.settings e)
  /-- The source file has no text, or is not read as a program. -/
  | source {task : Task} {s : Settings} {path : Raw} {f : Failure}
      (henv : Settings.ofEnvironment env = .ok s) (hpath : task.source? = some path)
      (hload : loadSource fs s path = .error f) : Fails fs env task f
  /-- A text for the output has no encoding. -/
  | output {task : Task} {s : Settings} {path : Raw} {text : String} {p : Program}
      {e : Raw.EncodeError} (henv : Settings.ofEnvironment env = .ok s)
      (hpath : task.source? = some path) (hload : loadSource fs s path = .ok (text, p))
      (hprints : (Response.printed (task.prints s p)).2 = some e) : Fails fs env task (.output e)
  /-- The run has an error of the language. -/
  | evaluation {o : RunOptions} {s : Settings} {p : Program} {e : EvalError}
      (hadmits : Admits fs env o s p)
      (herror : (o.run (o.settings s) p).outcome.result = .error e)
      (hown : e.fault.isForeign = false) : Fails fs env (.run o) (.evaluation e)
  /-- The canonical text cannot be written over the source file. -/
  | canonicalText {o : FormatOptions} {s : Settings} {text : String} {p : Program} {e : WriteError}
      (henv : Settings.ofEnvironment env = .ok s)
      (hload : loadSource fs s o.path = .ok (text, p)) (htext : p.canonicalText ≠ text)
      (hcheck : o.check = false) (hwrite : (fs.write o.path p.canonicalText).1 = .error e) :
      Fails fs env (.format o) (.write o.path e)
  /-- The call graph cannot be written to the file that is asked for. -/
  | callGraph {o : DisplayOptions} {s : Settings} {text : String} {output : Raw} {p : Program}
      {e : WriteError} (henv : Settings.ofEnvironment env = .ok s)
      (hload : loadSource fs s o.path = .ok (text, p)) (houtput : o.output = some output)
      (hne : output.isEmpty = false) (hwrite : (fs.write output (o.graph p)).1 = .error e) :
      Fails fs env (.displayFunctions o) (.write output e)

/-- **The files after a failure that empties one**: a call graph for a file has no encoding, as the
path of the source file stands in it and is no text. -/
inductive Task.Empties (fs : Files) : Task → Files → Prop where
  | callGraph {o : DisplayOptions} {output : Raw} {names : List Raw}
      (hpath : ∀ path : String, o.path ≠ path) (houtput : o.output = some output)
      (htarget : fs.target output = .ok names) :
      Empties fs (.displayFunctions o) (fs.set names (.file []))

theorem Task.Empties.source?_ne {fs after : Files} {task : Task} (h : task.Empties fs after)
    (path : String) : task.source? ≠ some (Raw.ofString path) := by
  cases h with
  | callGraph hpath => exact fun h => hpath path (Option.some.inj h)

/-- What ends with exit code 1 though nothing fails. -/
inductive Refuses (fs : Files) (env : Environment) : Task → Prop where
  /-- There are reports on the program, so it is not run. -/
  | reports {o : RunOptions} {s : Settings} {text : String} {p : Program}
      (henv : Settings.ofEnvironment env = .ok s)
      (hload : loadSource fs s o.path = .ok (text, p))
      (hvalidate : (o.settings s).validateBeforeRun = true) (hreports : p.reports ≠ []) :
      Refuses fs env (.run o)
  /-- The text is only compared with the canonical text, and is another. -/
  | check {o : FormatOptions} {s : Settings} {text : String} {p : Program}
      (henv : Settings.ofEnvironment env = .ok s)
      (hload : loadSource fs s o.path = .ok (text, p)) (htext : p.canonicalText ≠ text)
      (hcheck : o.check = true) : Refuses fs env (.format o)

/-- **What the depth limit alone makes fail**: a run that could begin, under a limit without a value
or under a limit for which there is no stack, which is one of 268435331 or more. -/
inductive Overtaxes (fs : Files) (env : Environment) : Task → EvalError → Prop where
  | limitWithoutValue {o : RunOptions} {s : Settings} {p : Program} {body : Expr}
      (hadmits : Admits fs env o s p) (hbody : p.entryBody = .ok body)
      (hlimit : o.maxDepth = some none) :
      Overtaxes fs env (.run o) ⟨.limitWithoutValue, none⟩
  | stackTooLarge {o : RunOptions} {s : Settings} {p : Program} {body : Expr}
      (hadmits : Admits fs env o s p) (hbody : p.entryBody = .ok body)
      (hlimit : o.maxDepth ≠ some none)
      (hstack : largestStack < demandedStack (o.settings s).maxDepth) :
      Overtaxes fs env (.run o) ⟨.stackTooLarge, none⟩

variable {fs : Files} {env : Environment} {s : Settings} {o : RunOptions} {path : Raw}
  {text : String} {p : Program} {task : Task}

/-! ## Runs -/

theorem parse_of_loadSource (h : loadSource fs s path = .ok (text, p)) :
    Program.parse (Token.scan text path.shown) = .ok p := (loadSource_eq_ok.1 h).2

namespace RunOptions

/-- The options of a run do not change how its source file is read. -/
theorem loadSource_settings (o : RunOptions) (s : Settings) :
    loadSource fs (o.settings s) = loadSource fs s := rfl

theorem run_of_entryBody_error {e : EvalError} (h : p.entryBody = .error e) (o : RunOptions)
    (s : Settings) : o.run s p = ⟨false, ⟨[], .error e⟩⟩ := by
  unfold RunOptions.run
  split
  · simp only [Program.runWithoutValue, Program.enter, h]
  · exact Program.run_of_entryBody_error h s.maxDepth

/-- A run without a value for its limit is refused, once it has begun. -/
theorem run_of_limitWithoutValue {body : Expr} (h : p.entryBody = .ok body)
    (hlimit : o.maxDepth = some none) :
    o.run s p = ⟨true, .fault none .limitWithoutValue⟩ := by
  rw [RunOptions.run, if_pos hlimit]
  simp only [Program.runWithoutValue, Program.enter, h]

theorem run_of_limit (hlimit : o.maxDepth ≠ some none) : o.run s p = p.run s.maxDepth :=
  if_neg hlimit

/-- A run without a stack for its limit is refused, once it has begun. -/
theorem run_of_stackTooLarge {body : Expr} (h : p.entryBody = .ok body)
    (hlimit : o.maxDepth ≠ some none) (hstack : largestStack < demandedStack s.maxDepth) :
    o.run s p = ⟨true, .fault none .stackTooLarge⟩ := by
  rw [run_of_limit hlimit, Program.run_of_entryBody_ok h, if_pos hstack]

/-- All values of a run that is asked for are in range. -/
theorem run_inRange (hp : Program.parse (Token.scan text path.shown) = .ok p) (o : RunOptions)
    (s : Settings) :
    (o.run s p).outcome.Holds Act.InRange (fun v => ∀ x ∈ v, InRange x) fun _ => True := by
  have hrun := Program.run_inRange (Program.spellable_of_parse hp) s.maxDepth
  by_cases hlimit : o.maxDepth = some none
  · cases hbody : p.entryBody with
    | error e =>
      rw [run_of_entryBody_error hbody, ← Program.run_of_entryBody_error hbody s.maxDepth]
      exact ⟨hrun.acts, hrun.ok, fun _ _ => trivial⟩
    | ok body =>
      rw [run_of_limitWithoutValue hbody hlimit]
      exact .fault trivial
  · rw [run_of_limit hlimit]
    exact ⟨hrun.acts, hrun.ok, fun _ _ => trivial⟩

end RunOptions

/-- The error of a run that is asked for is one of the language, or the limit alone is to blame. -/
theorem Admits.error_cases (h : Admits fs env o s p) {e : EvalError}
    (he : (o.run (o.settings s) p).outcome.result = .error e) :
    e.fault.isForeign = false ∨ Overtaxes fs env (.run o) e := by
  obtain ⟨text, hload⟩ := h.source
  have hp := parse_of_loadSource hload
  cases hbody : p.entryBody with
  | error e' =>
    -- such a run is refused under any limit, also under none
    have hnone : (p.run none).outcome.result = .error e := by
      rw [Program.run_of_entryBody_error hbody]
      rwa [RunOptions.run_of_entryBody_error hbody] at he
    exact .inl (Program.run_error_not_foreign hp (by decide) hnone)
  | ok body =>
    by_cases hlimit : o.maxDepth = some none
    · rw [RunOptions.run_of_limitWithoutValue hbody hlimit] at he
      cases he
      exact .inr (.limitWithoutValue h hbody hlimit)
    · rcases Int.lt_or_le largestStack (demandedStack (o.settings s).maxDepth) with hstack | hfits
      · rw [RunOptions.run_of_stackTooLarge hbody hlimit hstack] at he
        cases he
        exact .inr (.stackTooLarge h hbody hlimit hstack)
      · rw [RunOptions.run_of_limit hlimit] at he
        exact .inl (Program.run_error_not_foreign hp hfits he)

/-! ## Responses -/

/-- A program that gets as far as its run is answered by the run. -/
theorem Admits.respond (h : Admits fs env o s p) (threshold : Level) :
    Command.run fs s threshold o = respondToRun fs (o.settings s) threshold p.table.names.length
      (o.run (o.settings s) p) := by
  obtain ⟨text, hload⟩ := h.source
  have hreports : (if (o.settings s).validateBeforeRun then p.reports else []) = [] := by
    split
    · next hvalidate => exact h.reports hvalidate
    · rfl
  unfold Command.run
  dsimp only
  rw [RunOptions.loadSource_settings, hload, Response.orElse_ok]
  dsimp only
  rw [hreports]
  rfl

/-- Logging plays no part in the response to a run. -/
theorem Admits.logged_eq (h : Admits fs env o s p) (calls : Option Level) (sink : Sink) :
    (o.run (o.settings s) p).logged calls sink = o.run (o.settings s) p := by
  obtain ⟨text, hload⟩ := h.source
  exact Run.logged_eq (RunOptions.run_inRange (parse_of_loadSource hload) o _) calls sink

/-- What is answered to a run that comes to its end, and to one that does not. -/
theorem Admits.respond_eq (h : Admits fs env o s p) (threshold : Level) :
    ∃ log : List String, Command.run fs s threshold o =
      match (o.run (o.settings s) p).outcome.result with
      | .ok _ => .ending fs 0 (o.run (o.settings s) p).output log
      | .error e =>
        if e.fault.isUnforeseen then
          ⟨.escaped e, Response.lines (o.run (o.settings s) p).output, Response.lines log, fs⟩
        else
          .ending fs 1 (o.run (o.settings s) p).output (log ++ [(Failure.evaluation e).text]) := by
  rw [h.respond, respondToRun, h.logged_eq]
  exact ⟨_, rfl⟩

theorem respond_of_task {i : Invocation} (htask : i.task = some task)
    (henv : Settings.ofEnvironment env = .ok s) :
    i.respond fs env = task.perform fs s i.threshold := by
  unfold Invocation.respond
  rw [htask]
  show Response.orElse fs ((Settings.ofEnvironment env).mapError .settings) _ = _
  rw [henv]
  rfl

/-- A source file that is not read as a program is reported by every task. -/
theorem Task.perform_of_error {f : Failure} (hpath : task.source? = some path)
    (hload : loadSource fs s path = .error f) (threshold : Level) :
    task.perform fs s threshold = .ofFailure fs f := by
  cases task with
  | natives => cases hpath
  | run o =>
    obtain rfl : o.path = path := Option.some.inj hpath
    show Command.run fs s threshold o = _
    unfold Command.run
    dsimp only
    rw [RunOptions.loadSource_settings, hload, Response.orElse_error]
  | format o =>
    obtain rfl : o.path = path := Option.some.inj hpath
    show Command.format fs s o = _
    rw [Command.format, hload, Response.orElse_error]
  | validate path =>
    obtain rfl := Option.some.inj hpath
    show Command.validate fs s _ = _
    rw [Command.validate, hload, Response.orElse_error]
  | displayFunctions o =>
    obtain rfl : o.path = path := Option.some.inj hpath
    show Command.displayFunctions fs s o = _
    rw [Command.displayFunctions, hload, Response.orElse_error]

/-! ## Writing -/

theorem Response.printing_of_some {texts : List Raw} {e : Raw.EncodeError}
    (h : (printed texts).2 = some e) (fs : Files) (code : Nat) (stderr : List String) :
    printing fs code texts stderr =
      ending fs 1 (printed texts).1 (stderr ++ [(Failure.output e).text]) := by
  unfold printing
  split
  · next hnone =>
    rw [hnone] at h
    cases h
  · next stdout e' hsome =>
    rw [hsome] at h ⊢
    cases h
    rfl

theorem Response.printing_of_none {texts : List Raw} (h : (printed texts).2 = none) (fs : Files)
    (code : Nat) (stderr : List String) :
    printing fs code texts stderr = ending fs code (printed texts).1 stderr := by
  unfold printing
  split
  · next stdout hnone => rw [hnone]
  · next hsome =>
    rw [hsome] at h
    cases h

/-- A failed write leaves the files alone, unless it is the text that cannot be written: then the
file is empty. -/
theorem Files.write_of_error {path text : Raw} {e : WriteError}
    (h : (fs.write path text).1 = .error e) :
    (fs.write path text).2 = fs ∨ (∀ t : String, text ≠ t) ∧
      ∃ names, fs.target path = .ok names ∧ (fs.write path text).2 = fs.set names (.file []) := by
  unfold Files.write at h ⊢
  split
  · exact .inl rfl
  · next names htarget =>
    rw [htarget] at h
    cases hencode : text.encode with
    | ok s =>
      rw [hencode] at h
      cases h
    | error e' =>
      refine .inr ⟨fun t ht => ?_, names, htarget, rfl⟩
      rw [Raw.encode_eq_ok_iff.2 ht] at hencode
      cases hencode

theorem Response.writing_of_error {path text : Raw} {e : WriteError}
    (h : (fs.write path text).1 = .error e) :
    writing fs path text = ofFailure (fs.write path text).2 (.write path e) := by
  unfold writing
  split
  · next hok =>
    rw [hok] at h
    cases h
  · next e' after herror =>
    rw [herror] at h ⊢
    cases h
    rfl

theorem Response.writing_of_ok {path text : Raw} (h : (fs.write path text).1 = .ok ()) :
    writing fs path text = ending (fs.write path text).2 0 [] [] := by
  unfold writing
  split
  · next after hok => rw [hok]
  · next herror =>
    rw [herror] at h
    cases h

/-- The call graph of a program whose path is a text is a text. -/
theorem DisplayOptions.graph_eq {o : DisplayOptions} {path : String} (h : o.path = path)
    (p : Program) : o.graph p = (p.callGraph path).text := by
  rw [DisplayOptions.graph, h, Raw.shown_ofString]
  exact (p.callGraph path).rawText_title

/-- The call graph of a program that is read goes to the file that is asked for. -/
theorem displayFunctions_eq {o : DisplayOptions} {output : Raw}
    (hload : loadSource fs s o.path = .ok (text, p)) (houtput : o.output = some output)
    (hne : output.isEmpty = false) :
    Command.displayFunctions fs s o = .writing fs output (o.graph p) := by
  unfold Command.displayFunctions
  rw [hload, Response.orElse_ok, houtput]
  dsimp only
  rw [hne, if_neg Bool.false_ne_true]

/-- An empty name is taken for none: the call graph goes to the output. -/
theorem displayFunctions_eq_printing {o : DisplayOptions}
    (hload : loadSource fs s o.path = .ok (text, p)) (houtput : o.output.all Raw.isEmpty = true) :
    Command.displayFunctions fs s o = .printing fs 0 [o.graph p] [] := by
  unfold Command.displayFunctions
  rw [hload, Response.orElse_ok]
  dsimp only
  cases hsome : o.output with
  | none => rfl
  | some output =>
    rw [hsome, Option.all_some] at houtput
    exact if_pos houtput

/-- A program with reports that are asked for is not run. -/
theorem run_eq_printing (hload : loadSource fs s o.path = .ok (text, p))
    (hvalidate : (o.settings s).validateBeforeRun = true) (hreports : p.reports ≠ [])
    (threshold : Level) :
    Command.run fs s threshold o =
      .printing fs 1 (p.reports.map (Report.rawText o.path))
        ["Issues were found in " ++ o.path.shown ++ ":"] := by
  unfold Command.run
  dsimp only
  rw [RunOptions.loadSource_settings, hload, Response.orElse_ok]
  dsimp only
  rw [if_pos hvalidate, if_neg (by simpa using hreports)]

theorem validate_eq_printing (hload : loadSource fs s path = .ok (text, p)) :
    Command.validate fs s path = .printing fs 0 (p.reports.map (Report.rawText path)) [] := by
  rw [Command.validate, hload, Response.orElse_ok]

variable {i : Invocation}

/-- A text for the output that has no encoding is reported by every task. -/
theorem Task.perform_of_output {e : Raw.EncodeError} (hpath : task.source? = some path)
    (hload : loadSource fs s path = .ok (text, p))
    (hprints : (Response.printed (task.prints s p)).2 = some e) (threshold : Level) :
    ∃ output log,
      task.perform fs s threshold = .ending fs 1 output (log ++ [(Failure.output e).text]) := by
  cases task with
  | natives => cases hpath
  | format o => cases hprints
  | run o =>
    obtain rfl : o.path = path := Option.some.inj hpath
    by_cases hvalidate : (o.settings s).validateBeforeRun = true
    · rw [Task.prints, if_pos hvalidate] at hprints
      have hreports : p.reports ≠ [] := by
        intro hnone
        rw [hnone] at hprints
        cases hprints
      have hrun := run_eq_printing hload hvalidate hreports threshold
      rw [Response.printing_of_some hprints] at hrun
      exact ⟨_, _, hrun⟩
    · rw [Task.prints, if_neg hvalidate] at hprints
      cases hprints
  | validate path =>
    obtain rfl := Option.some.inj hpath
    have hvalidate := validate_eq_printing hload
    rw [Task.prints] at hprints
    rw [Response.printing_of_some hprints] at hvalidate
    exact ⟨_, _, hvalidate⟩
  | displayFunctions o =>
    obtain rfl : o.path = path := Option.some.inj hpath
    by_cases houtput : o.output.all Raw.isEmpty = true
    · rw [Task.prints, if_pos houtput] at hprints
      have hdisplay := displayFunctions_eq_printing hload houtput
      rw [Response.printing_of_some hprints] at hdisplay
      exact ⟨_, _, hdisplay⟩
    · rw [Task.prints, if_neg houtput] at hprints
      cases hprints

/-- **A failure is reported**: its text is the last line of the errors, the exit code is 1, and the
files are as they were, unless it is the failure that empties a file. -/
theorem Fails.respond {f : Failure} (h : Fails fs env task f) (htask : i.task = some task) :
    ∃ after output log, i.respond fs env = .ending after 1 output (log ++ [f.text]) ∧
      (after = fs ∨ task.Empties fs after) := by
  cases h with
  | settings henv =>
    refine ⟨fs, [], [], ?_, .inl rfl⟩
    unfold Invocation.respond
    rw [htask]
    show Response.orElse fs ((Settings.ofEnvironment env).mapError .settings) _ = _
    rw [henv]
    rfl
  | source henv hpath hload =>
    rw [respond_of_task htask henv, Task.perform_of_error hpath hload]
    exact ⟨fs, [], [], rfl, .inl rfl⟩
  | output henv hpath hload hprints =>
    rw [respond_of_task htask henv]
    obtain ⟨output, log, hperform⟩ := Task.perform_of_output hpath hload hprints i.threshold
    exact ⟨fs, output, log, hperform, .inl rfl⟩
  | evaluation hadmits herror hown =>
    rw [respond_of_task htask hadmits.settings]
    obtain ⟨log, hrespond⟩ := hadmits.respond_eq i.threshold
    -- what was written and logged before the error stays in front of its report
    rw [herror] at hrespond
    dsimp only at hrespond
    rw [Fault.isUnforeseen_of_not_isForeign hown, if_neg Bool.false_ne_true] at hrespond
    exact ⟨fs, _, log, hrespond, .inl rfl⟩
  | canonicalText henv hload htext hcheck hwrite =>
    rename_i o s text p e
    rw [respond_of_task htask henv]
    have hformat : Command.format fs s o = _ := format_eq hload o.check
    rw [if_neg htext, hcheck, if_neg Bool.false_ne_true, Response.writing_of_error hwrite]
      at hformat
    refine ⟨_, [], [], hformat, .inl ?_⟩
    -- a canonical text is a text
    exact (Files.write_of_error hwrite).resolve_right fun h => h.1 _ rfl
  | callGraph henv hload houtput hne hwrite =>
    rename_i o s text output p e
    rw [respond_of_task htask henv]
    have hdisplay := displayFunctions_eq hload houtput hne
    rw [Response.writing_of_error hwrite] at hdisplay
    refine ⟨_, [], [], hdisplay, ?_⟩
    rcases Files.write_of_error hwrite with hfiles | ⟨htext, names, htarget, hfiles⟩
    · exact .inl hfiles
    · rw [hfiles]
      exact .inr (.callGraph (fun path hpath => htext _ (DisplayOptions.graph_eq hpath p)) houtput
        htarget)

/-- What is refused ends with exit code 1. -/
theorem Refuses.respond (h : Refuses fs env task) (htask : i.task = some task) :
    (i.respond fs env).status = .exit 1 := by
  cases h with
  | reports henv hload hvalidate hreports =>
    rename_i o s text p
    rw [respond_of_task htask henv]
    show (Command.run fs s i.threshold o).status = _
    rw [run_eq_printing hload hvalidate hreports]
    unfold Response.printing
    split <;> rfl
  | check henv hload htext hcheck =>
    rename_i o s text p
    rw [respond_of_task htask henv]
    have hformat := format_eq hload o.check
    rw [if_neg htext, if_pos hcheck] at hformat
    exact congrArg Response.status hformat

/-- **What the depth limit alone makes fail escapes.** -/
theorem Overtaxes.respond {e : EvalError} (h : Overtaxes fs env task e)
    (htask : i.task = some task) : (i.respond fs env).status = .escaped e := by
  cases h with
  | limitWithoutValue hadmits hbody hlimit =>
    rw [respond_of_task htask hadmits.settings]
    obtain ⟨log, hrespond⟩ := hadmits.respond_eq i.threshold
    rw [RunOptions.run_of_limitWithoutValue hbody hlimit] at hrespond
    exact congrArg Response.status hrespond
  | stackTooLarge hadmits hbody hlimit hstack =>
    rw [respond_of_task htask hadmits.settings]
    obtain ⟨log, hrespond⟩ := hadmits.respond_eq i.threshold
    rw [RunOptions.run_of_stackTooLarge hbody hlimit hstack] at hrespond
    exact congrArg Response.status hrespond

/-! ## Nothing else goes wrong -/

theorem run_cases (henv : Settings.ofEnvironment env = .ok s)
    (hload : loadSource fs s o.path = .ok (text, p)) (threshold : Level) :
    (Command.run fs s threshold o).status = .exit 0 ∨ (∃ f, Fails fs env (.run o) f) ∨
      Refuses fs env (.run o) ∨ ∃ e, Overtaxes fs env (.run o) e := by
  by_cases hreports : (o.settings s).validateBeforeRun = true → p.reports = []
  · have hadmits : Admits fs env o s p := ⟨henv, ⟨text, hload⟩, hreports⟩
    cases hresult : (o.run (o.settings s) p).outcome.result with
    | ok v =>
      obtain ⟨log, hrespond⟩ := hadmits.respond_eq threshold
      rw [hresult] at hrespond
      exact .inl (congrArg Response.status hrespond)
    | error e =>
      rcases hadmits.error_cases hresult with hown | hover
      · exact .inr (.inl ⟨_, .evaluation hadmits hresult hown⟩)
      · exact .inr (.inr (.inr ⟨e, hover⟩))
  · obtain ⟨hvalidate, hne⟩ := Classical.not_imp.1 hreports
    exact .inr (.inr (.inl (.reports henv hload hvalidate hne)))

theorem format_cases {o : FormatOptions} (henv : Settings.ofEnvironment env = .ok s)
    (hload : loadSource fs s o.path = .ok (text, p)) :
    (Command.format fs s o).status = .exit 0 ∨ (∃ f, Fails fs env (.format o) f) ∨
      Refuses fs env (.format o) := by
  have hformat : Command.format fs s o = _ := format_eq hload o.check
  rw [hformat]
  by_cases htext : p.canonicalText = text
  · rw [if_pos htext]
    exact .inl rfl
  · rw [if_neg htext]
    cases hcheck : o.check with
    | true => exact .inr (.inr (.check henv hload htext hcheck))
    | false =>
      cases hwrite : (fs.write o.path p.canonicalText).1 with
      | error e => exact .inr (.inl ⟨_, .canonicalText henv hload htext hcheck hwrite⟩)
      | ok done =>
        rw [if_neg Bool.false_ne_true, Response.writing_of_ok hwrite]
        exact .inl rfl

theorem displayFunctions_cases {o : DisplayOptions} (henv : Settings.ofEnvironment env = .ok s)
    (hload : loadSource fs s o.path = .ok (text, p)) :
    (Command.displayFunctions fs s o).status = .exit 0 ∨
      ∃ f, Fails fs env (.displayFunctions o) f := by
  cases houtput : o.output.all Raw.isEmpty with
  | true =>
    rw [displayFunctions_eq_printing hload houtput]
    have hprints : Task.prints s p (.displayFunctions o) = [o.graph p] := if_pos houtput
    cases hprinted : (Response.printed [o.graph p]).2 with
    | none =>
      rw [Response.printing_of_none hprinted]
      exact .inl rfl
    | some e => exact .inr ⟨_, .output henv rfl hload (hprints ▸ hprinted)⟩
  | false =>
    cases hsome : o.output with
    | none =>
      rw [hsome] at houtput
      cases houtput
    | some output =>
      rw [hsome, Option.all_some] at houtput
      rw [displayFunctions_eq hload hsome houtput]
      cases hwrite : (fs.write output (o.graph p)).1 with
      | error e => exact .inr ⟨_, .callGraph henv hload hsome houtput hwrite⟩
      | ok done =>
        rw [Response.writing_of_ok hwrite]
        exact .inl rfl

theorem validate_cases (henv : Settings.ofEnvironment env = .ok s)
    (hload : loadSource fs s path = .ok (text, p)) :
    (Command.validate fs s path).status = .exit 0 ∨ ∃ f, Fails fs env (.validate path) f := by
  rw [validate_eq_printing hload]
  cases hprinted : (Response.printed (p.reports.map (Report.rawText path))).2 with
  | none =>
    rw [Response.printing_of_none hprinted]
    exact .inl rfl
  | some e => exact .inr ⟨_, .output henv rfl hload hprinted⟩

/-- A task succeeds where nothing goes wrong. -/
theorem respond_cases (htask : i.task = some task) (fs : Files) (env : Environment) :
    (i.respond fs env).status = .exit 0 ∨ (∃ f, Fails fs env task f) ∨ Refuses fs env task ∨
      ∃ e, Overtaxes fs env task e := by
  cases henv : Settings.ofEnvironment env with
  | error e => exact .inr (.inl ⟨_, .settings henv⟩)
  | ok s =>
    rw [respond_of_task htask henv]
    cases hpath : task.source? with
    | none =>
      cases task with
      | natives => exact .inl rfl
      | _ => cases hpath
    | some path =>
      cases hload : loadSource fs s path with
      | error f => exact .inr (.inl ⟨f, .source henv hpath hload⟩)
      | ok source =>
        obtain ⟨text, p⟩ := source
        cases task with
        | natives => cases hpath
        | run o =>
          obtain rfl : o.path = path := Option.some.inj hpath
          exact run_cases henv hload i.threshold
        | format o =>
          obtain rfl : o.path = path := Option.some.inj hpath
          rcases format_cases henv hload with h | h | h
          · exact .inl h
          · exact .inr (.inl h)
          · exact .inr (.inr (.inl h))
        | validate path =>
          obtain rfl := Option.some.inj hpath
          rcases validate_cases henv hload with h | h
          · exact .inl h
          · exact .inr (.inl h)
        | displayFunctions o =>
          obtain rfl : o.path = path := Option.some.inj hpath
          rcases displayFunctions_cases henv hload with h | h
          · exact .inl h
          · exact .inr (.inl h)

/-- The exit code is 1 where something fails or is refused, and nowhere else. -/
theorem respond_exit_one_iff (htask : i.task = some task) :
    (i.respond fs env).status = .exit 1 ↔ (∃ f, Fails fs env task f) ∨ Refuses fs env task := by
  constructor
  · intro hstatus
    rcases respond_cases htask fs env with hzero | hfails | hrefuses | ⟨e, hover⟩
    · rw [hstatus] at hzero
      cases hzero
    · exact .inl hfails
    · exact .inr hrefuses
    · rw [hover.respond htask] at hstatus
      cases hstatus
  · rintro (⟨f, hfails⟩ | hrefuses)
    · obtain ⟨after, output, log, hending, -⟩ := hfails.respond htask
      rw [hending]
      rfl
    · exact hrefuses.respond htask

/-- An error escapes where the depth limit alone is to blame, and nowhere else. -/
theorem respond_escaped_iff (htask : i.task = some task) {e : EvalError} :
    (i.respond fs env).status = .escaped e ↔ Overtaxes fs env task e := by
  constructor
  · intro hstatus
    have hone : (i.respond fs env).status ≠ .exit 1 := by
      rw [hstatus]
      exact fun h => by cases h
    rcases respond_cases htask fs env with hzero | hfails | hrefuses | ⟨e', hover⟩
    · rw [hstatus] at hzero
      cases hzero
    · exact absurd ((respond_exit_one_iff htask).2 (.inl hfails)) hone
    · exact absurd ((respond_exit_one_iff htask).2 (.inr hrefuses)) hone
    · rw [hover.respond htask] at hstatus
      cases hstatus
      exact hover
  · intro hover
    exact hover.respond htask

/-! ## Command lines -/

/-- **Every failure ends with exit code 1, unless the depth limit alone makes the run fail.** Let a
command line be read as meant, under any environment and with any files. The recursion limit of the
host in parsing, validating and formatting, which trees of several hundred levels reach, is left
out.

* Whatever fails at any stage of its task is reported on the last line of the errors with exit code
  1. The files stay as they are, unless a call graph goes to a file and the path of the source file
  is no text: then that file may be left empty.
* The exit code is 1 if and only if there is no task, something fails, the program that is to be run
  has reports, or the text that is compared is not canonical.
* An error escapes if and only if a program that could be run has a depth limit that is no number,
  or that asks for more than the largest stack.
* Otherwise the exit code is 0. -/
theorem respond_accepted {args : List Raw} (h : Invocation.ofArguments args = .ok i)
    (fs : Files) (env : Environment) :
    (∀ task f, i.task = some task → Fails fs env task f →
      ∃ after output log, respond fs env args = .ending after 1 output (log ++ [f.text]) ∧
        (after = fs ∨ task.Empties fs after)) ∧
    ((respond fs env args).status = .exit 1 ↔
      i.task = none ∨
        ∃ task, i.task = some task ∧ ((∃ f, Fails fs env task f) ∨ Refuses fs env task)) ∧
    (∀ e, (respond fs env args).status = .escaped e ↔
      ∃ task, i.task = some task ∧ Overtaxes fs env task e) ∧
    ((respond fs env args).status = .exit 0 ∨ (respond fs env args).status = .exit 1 ∨
      ∃ e, (respond fs env args).status = .escaped e) := by
  have hrespond : respond fs env args = i.respond fs env := by rw [respond, h]
  rw [hrespond]
  cases htask : i.task with
  | none =>
    have hstatus : (i.respond fs env).status = .exit 1 := by
      unfold Invocation.respond
      rw [htask]
    simp [hstatus]
  | some task =>
    refine ⟨?_, ?_, ?_, ?_⟩
    · intro task' f htask' hfails
      cases htask'
      exact hfails.respond htask
    · simpa using respond_exit_one_iff htask
    · intro e
      simpa using respond_escaped_iff htask
    · rcases respond_cases htask fs env with hzero | hfails | hrefuses | ⟨e, hover⟩
      · exact .inl hzero
      · exact .inr (.inl ((respond_exit_one_iff htask).2 (.inl hfails)))
      · exact .inr (.inl ((respond_exit_one_iff htask).2 (.inr hrefuses)))
      · exact .inr (.inr ⟨e, hover.respond htask⟩)

/-- A run that writes a value and then fails. -/
theorem respond_accepted_failed_run :
    ∃ fs i output log,
      Invocation.ofArguments ["run", "a.id"] = .ok i ∧
      fs.readSource "a.id" ".id" = .ok "main() \x7b f(print(7)) \x7d f(x) \x7b x \x7d" ∧
      respond fs [] ["run", "a.id"] =
        .ending fs 1 output (log ++ ["a.id:1:12 parameter 1 of \"f\" yields no value"]) := by
  let fs : Files := ⟨[], [(["a.id"],
    .file (Text.encodeUtf8 "main() \x7b f(print(7)) \x7d f(x) \x7b x \x7d"))]⟩
  let o : RunOptions := ⟨"a.id", false, false, none⟩
  have hi : Invocation.ofArguments ["run", "a.id"] = .ok ⟨false, some (.run o)⟩ := by
    decide +kernel
  have henv : Settings.ofEnvironment [] = .ok {} := by decide +kernel
  have hload : loadSource fs {} "a.id" = .ok ("main() \x7b f(print(7)) \x7d f(x) \x7b x \x7d",
      ⟨some ⟨"a.id", 1, 1⟩, [⟨some ⟨"a.id", 1, 1⟩, "main", [],
        .call (some ⟨"a.id", 1, 10⟩) "f" [.call (some ⟨"a.id", 1, 12⟩) "print"
          [.literal (some ⟨"a.id", 1, 18⟩) 7]]⟩,
        ⟨some ⟨"a.id", 1, 24⟩, "f", [⟨some ⟨"a.id", 1, 26⟩, "x"⟩],
          .var (some ⟨"a.id", 1, 31⟩) "x"⟩]⟩) :=
    loadSource_eq_ok.2 ⟨by decide +kernel, by cbv⟩
  have hfails : Fails fs [] (.run o)
      (.evaluation ⟨.argumentWithoutValue 1 "f", some ⟨"a.id", 1, 12⟩⟩) :=
    .evaluation ⟨henv, ⟨_, hload⟩, fun _ => by decide +kernel⟩ (by decide +kernel) rfl
  obtain ⟨after, output, log, hending, hafter⟩ := (respond_accepted hi fs []).1 _ _ rfl hfails
  rcases hafter with rfl | hempties
  · exact ⟨_, _, output, log, hi, (loadSource_eq_ok.1 hload).1, hending⟩
  · -- a run empties no file
    cases hempties

/-- Not every failure ends with exit code 1: no stack is large enough for a limit of 268435331
calls, though the program needs but two. -/
theorem respond_escaped_limit :
    ¬∀ (fs : Files) (env : Environment) (args : List Raw) (i : Invocation),
      Invocation.ofArguments args = .ok i →
        (respond fs env args).status = .exit 0 ∨ (respond fs env args).status = .exit 1 := by
  intro h
  let fs : Files := ⟨[], [(["a.id"], .file (Text.encodeUtf8 "main()\x7b print(add(2,3)) \x7d"))]⟩
  have hi : Invocation.ofArguments ["run", "a.id", "--max-depth", "268435331"] =
      .ok ⟨false, some (.run ⟨"a.id", false, false, some (some 268435331)⟩)⟩ := by decide +kernel
  have hstatus : (respond fs [] ["run", "a.id", "--max-depth", "268435331"]).status =
      .escaped ⟨.stackTooLarge, none⟩ := by decide +kernel
  rcases h fs [] _ _ hi with hzero | hone
  · rw [hstatus] at hzero
    cases hzero
  · rw [hstatus] at hone
    cases hone

end Command

end Wordlet
