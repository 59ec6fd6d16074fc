import Wordlet.Proofs.CommandLine
import Wordlet.Proofs.Integers

/-!
# Two ways to limit the depth of calls

The depth of calls is limited by a variable of the environment or by an option of `run`. The text of
the variable is checked when the settings are made, before anything else is looked at; the text of
the option is read with the command line, and any integer is taken for a limit.

* `Settings.ofEnvironment_maxDepth`: **the variable sets a limit** exactly when its text denotes a
  positive integer. No other setting depends on it.
* `runGrammar_read_maxDepth`, `Invocation.ofArguments_maxDepth`: a line with the option asks for
  what the line without it asks for, and for the limit, or is wrong in the same way.
* `respond_maxDepth`: **a positive limit has the same effect in both ways.**
* `Invocation.respond_of_not_positive`, `respond_maxDepth_zero`: any other limit is refused in the
  variable, whatever the task, and taken in the option.
-/

namespace Wordlet

/-! ## The variable -/

/-- The environment without a variable. -/
def Environment.without (env : Environment) (name : String) : Environment :=
  env.filter fun v => v.1 ≠ name

namespace Environment

variable (env : Environment) {name other : String}

theorem lookup_without_self : (env.without name).lookup name = none := by
  rw [List.lookup_eq_none_iff]
  intro v hv
  have hne : v.1 ≠ name := of_decide_eq_true (List.mem_filter.1 hv).2
  exact bne_iff_ne.2 hne.symm

/-- The other variables are as before. -/
theorem lookup_without (h : other ≠ name) : (env.without name).lookup other = env.lookup other := by
  induction env with
  | nil => rfl
  | cons v env ih =>
    obtain ⟨key, text⟩ := v
    by_cases hkey : key = name
    · -- the variable goes, and it is not the one that is looked up
      have hother : (other == key) = false := by simpa [hkey] using h
      have hfilter : without ((key, text) :: env) name = without env name := by
        simp [without, hkey]
      rw [hfilter, ih, List.lookup_cons, hother]
    · have hfilter : without ((key, text) :: env) name = (key, text) :: without env name := by
        simp [without, hkey]
      rw [hfilter, List.lookup_cons, List.lookup_cons, ih]

end Environment

namespace Settings

variable {t : String} {n : Int}

theorem readDepth_of_denotes (h : Text.Denotes t n) :
    readDepth t = if n < 1 then .error (.depthNotPositive n) else .ok (some n) := by
  have hread := Text.integer?_eq_some_iff.2 h
  have hne : t.isEmpty = false := by
    cases ht : t.isEmpty with
    | false => rfl
    | true =>
      obtain rfl := String.isEmpty_iff.1 ht
      cases hread
  rw [readDepth, hne, hread]
  rfl

theorem readDepth_of_not_denotes (hne : t ≠ "") (h : ¬∃ n, Text.Denotes t n) :
    readDepth t = .error (.depthNotInteger t) := by
  have hread : Text.integer? t = none :=
    Option.eq_none_iff_forall_ne_some.2 fun n hn => h ⟨n, Text.integer?_eq_some_iff.1 hn⟩
  rw [readDepth, hread, if_neg (by simpa using hne)]

/-- The settings of an environment are those without the limit, and the limit that is read. -/
theorem ofEnvironment_eq (env : Environment) : ∃ others : Settings, others.maxDepth = none ∧
    ofEnvironment (env.without "IDEM_MAX_DEPTH") = .ok others ∧
    ofEnvironment env = (readDepth ((env.lookup "IDEM_MAX_DEPTH").getD "")).map
      fun maxDepth => { others with maxDepth } := by
  refine ⟨{ trace := ((env.lookup "IDEM_TRACE").map isSwitchedOn).getD false }, rfl, ?_, ?_⟩
  · rw [ofEnvironment, env.lookup_without_self, env.lookup_without (by decide)]
    rfl
  · rw [ofEnvironment]
    cases readDepth ((env.lookup "IDEM_MAX_DEPTH").getD "") <;> rfl

/-- **The variable sets a limit exactly when its text denotes a positive integer.** Let an
environment have settings `others` apart from the variable.

* Without a text, or with an empty one, these are the settings, and there is no limit.
* A text that denotes a positive integer changes the limit to that integer, and nothing else.
* A text that denotes another integer is an error that shows the integer in decimal.
* Any other text is an error that shows the text. -/
theorem ofEnvironment_maxDepth (env : Environment) : ∃ others : Settings,
    others.maxDepth = none ∧ ofEnvironment (env.without "IDEM_MAX_DEPTH") = .ok others ∧
    (env.lookup "IDEM_MAX_DEPTH" = none ∨ env.lookup "IDEM_MAX_DEPTH" = some "" →
      ofEnvironment env = .ok others) ∧
    ∀ t, env.lookup "IDEM_MAX_DEPTH" = some t → t ≠ "" →
      (∀ n, Text.Denotes t n → 1 ≤ n → ofEnvironment env = .ok { others with maxDepth := some n }) ∧
      (∀ n, Text.Denotes t n → n < 1 → ∃ e, ofEnvironment env = .error e ∧
        e.text = "IDEM_MAX_DEPTH must be positive, got " ++ toString n) ∧
      ((¬∃ n, Text.Denotes t n) → ∃ e, ofEnvironment env = .error e ∧
        e.text = "IDEM_MAX_DEPTH must be an integer, got " ++ Text.quoted t) := by
  obtain ⟨others, hnone, hwithout, henv⟩ := ofEnvironment_eq env
  refine ⟨others, hnone, hwithout, ?_, ?_⟩
  · intro hunset
    have hread : readDepth ((env.lookup "IDEM_MAX_DEPTH").getD "") = .ok none := by
      rcases hunset with h | h <;> rw [h] <;> rfl
    rw [henv, hread, ← hnone]
    rfl
  · intro t ht hne
    rw [henv, ht, Option.getD_some]
    refine ⟨fun n hn hpos => ?_, fun n hn hneg => ?_, fun hno => ?_⟩
    · rw [readDepth_of_denotes hn, if_neg (by omega)]
      rfl
    · rw [readDepth_of_denotes hn, if_pos hneg]
      exact ⟨_, rfl, rfl⟩
    · rw [readDepth_of_not_denotes hne hno]
      exact ⟨_, rfl, rfl⟩

/-- A sign, white space, an underscore and digits of two scripts; a negative number; a text with a
doubled underscore. -/
theorem ofEnvironment_maxDepth_texts :
    ofEnvironment [("IDEM_MAX_DEPTH", "\u2003+1_0٣\n"), ("IDEM_TRACE", "yes")] =
      .ok { trace := true, maxDepth := some 103 } ∧
    (∃ e, ofEnvironment [("IDEM_MAX_DEPTH", " -0_07")] = .error e ∧
      e.text = "IDEM_MAX_DEPTH must be positive, got -7") ∧
    ∃ e, ofEnvironment [("IDEM_MAX_DEPTH", "1__0")] = .error e ∧
      e.text = "IDEM_MAX_DEPTH must be an integer, got '1__0'" := by
  refine ⟨?_, ?_, ?_⟩
  · obtain ⟨others, -, hwithout, -, htext⟩ :=
      ofEnvironment_maxDepth [("IDEM_MAX_DEPTH", "\u2003+1_0٣\n"), ("IDEM_TRACE", "yes")]
    have htrace : others = { trace := true } := by
      have hothers : ofEnvironment
          (Environment.without [("IDEM_MAX_DEPTH", "\u2003+1_0٣\n"), ("IDEM_TRACE", "yes")]
            "IDEM_MAX_DEPTH") = .ok { trace := true } := by decide +kernel
      exact Except.ok.inj (hwithout.symm.trans hothers)
    have hdenotes : Text.Denotes "\u2003+1_0٣\n" 103 :=
      Text.integer?_eq_some_iff.1 (by decide +kernel)
    have henv := (htext _ rfl (by decide)).1 103 hdenotes (by decide)
    rwa [htrace] at henv
  · obtain ⟨others, -, -, -, htext⟩ := ofEnvironment_maxDepth [("IDEM_MAX_DEPTH", " -0_07")]
    have hdenotes : Text.Denotes " -0_07" (-7) :=
      Text.integer?_eq_some_iff.1 (by decide +kernel)
    exact (htext _ rfl (by decide)).2.1 (-7) hdenotes (by decide)
  · obtain ⟨others, -, -, -, htext⟩ := ofEnvironment_maxDepth [("IDEM_MAX_DEPTH", "1__0")]
    have hnone : Text.integer? "1__0" = none := by decide +kernel
    have hno : ¬∃ n, Text.Denotes "1__0" n := by
      rintro ⟨n, hn⟩
      rw [Text.integer?_eq_some_iff.2 hn] at hnone
      cases hnone
    exact (htext _ rfl (by decide)).2.2 hno

end Settings

/-! ## The option -/

namespace Command

variable {path : Raw} {t : String} {n : Int}

/-- `run` has an option that sets the limit to the integer that is read. -/
theorem exists_depthOption (ht : Text.integer? t = some n) :
    ∃ (o : Opt RunOptions) (read : Option Raw → Except String (RunOptions → RunOptions)),
      runGrammar.formOf "--max-depth" = .ok (.option o "--max-depth" none) ∧
      o.effect = .value read ∧
      read (some t) = .ok fun values => { values with maxDepth := some (some n) } :=
  ⟨_, _, rfl, rfl, by simp only [Raw.text?_ofString, Option.bind_some, ht]⟩

/-- **The option adds the limit to what a line asks for**, or the line is wrong with it and without
it, and for the same reason. -/
theorem runGrammar_read_maxDepth (hpath : path ≠ "--") (ht : Text.integer? t = some n)
    (hdash : (Raw.ofString t).pieces.head? ≠ some (.char '-')) :
    (∃ h, runGrammar.read {} [path] = .error h ∧
      runGrammar.read {} [path, "--max-depth", t] = .error h) ∨
    (runGrammar.read {} [path] = .ok ({ path }, []) ∧
      runGrammar.read {} [path, "--max-depth", t] =
        .ok ({ path, maxDepth := some (some n) }, [])) := by
  obtain ⟨o, read, hoption, ho, hread⟩ := exists_depthOption ht
  have hforms : runGrammar.classify ["--max-depth", t] =
      .ok [("--max-depth", .option o "--max-depth" none), (t, .operand)] :=
    runGrammar.classify_cons (by decide) hoption (runGrammar.classify_operand hdash rfl)
  have hconsume : ∀ values pending, runGrammar.consume values pending
      [("--max-depth", .option o "--max-depth" none), (t, .operand)] =
        runGrammar.finish { values with maxDepth := some (some n) } pending :=
    fun values pending => runGrammar.consume_value ho hread values pending []
  unfold Grammar.read
  cases hform : runGrammar.formOf path with
  | error h =>
    refine .inl ⟨h, ?_, ?_⟩ <;> rw [Grammar.classify, if_neg hpath, hform]
  | ok form =>
    rw [runGrammar.classify_cons hpath hform rfl, runGrammar.classify_cons hpath hform hforms]
    cases form with
    | separator => exact absurd hform (runGrammar.formOf_ne_separator path)
    | operand => exact .inr ⟨rfl, hconsume _ _⟩
    | unknown =>
      -- the path is left over, so the operand is missing with the limit as well
      refine .inl ⟨_, rfl, ?_⟩
      show Grammar.leaving [path] (runGrammar.consume _ _ _) = _
      rw [hconsume]
      rfl
    | option opt name attached =>
      -- the operand is missing, unless the option fails before that is seen
      left
      simp only
      rw [Grammar.consume, Grammar.consume]
      rcases hcluster : runGrammar.cluster opt name attached with h | ⟨settled, _ | last⟩
      · exact ⟨h, rfl, rfl⟩
      · cases hsettle : runGrammar.settle {} settled with
        | error h => exact ⟨h, by simp only [hsettle], by simp only [hsettle]⟩
        | ok values =>
          simp only [hsettle]
          exact ⟨_, rfl, hconsume _ _⟩
      · -- the next argument is missing, or it is another option
        exact ⟨_, rfl, rfl⟩

/-- The line after `run` is read by the grammar of `run`, as long as the grammar of the whole line
can tell the forms of its arguments. -/
theorem Invocation.ofArguments_run {args : List Raw} {forms : List (Raw × Form Invocation)}
    (hforms : mainGrammar.classify args = .ok forms) :
    (∀ h, runGrammar.read {} args = .error h → Invocation.ofArguments ("run" :: args) = .error h) ∧
    (∀ o, runGrammar.read {} args = .ok (o, []) →
      Invocation.ofArguments ("run" :: args) = .ok ⟨false, some (.run o)⟩) := by
  have hclassify : mainGrammar.classify ("run" :: args) = .ok (("run", .operand) :: forms) :=
    mainGrammar.classify_cons (by decide) rfl hforms
  obtain rfl := mainGrammar.map_classify hforms
  constructor
  · intro h hread
    have hreader : invocationReader (taskReader runGrammar {} .run) (forms.map (·.1)) =
        .error h := by
      rw [invocationReader, taskReader, hread]
    have hconsume : mainGrammar.consume {} mainGrammar.positional (("run", .operand) :: forms) =
        .error h :=
      mainGrammar.choose_of_error rfl hreader
    rw [Invocation.ofArguments, Grammar.readAll, Grammar.read, hclassify]
    simp only [hconsume]
  · intro o hread
    have hreader : invocationReader (taskReader runGrammar {} .run) (forms.map (·.1)) =
        .ok (fun i => { i with task := some (.run o) }, []) := by
      rw [invocationReader, taskReader, hread]
    have hconsume : mainGrammar.consume {} mainGrammar.positional (("run", .operand) :: forms) =
        .ok (⟨false, some (.run o)⟩, []) :=
      mainGrammar.choose_of_lookup rfl hreader
    rw [Invocation.ofArguments, Grammar.readAll, Grammar.read, hclassify]
    simp only [hconsume]

/-- The grammar of the whole line hands the option on to `run`. -/
theorem Invocation.ofArguments_maxDepth (hpath : path ≠ "--") (ht : Text.integer? t = some n)
    (hdash : (Raw.ofString t).pieces.head? ≠ some (.char '-')) :
    (∃ h, Invocation.ofArguments ["run", path] = .error h ∧
      Invocation.ofArguments ["run", path, "--max-depth", t] = .error h) ∨
    (Invocation.ofArguments ["run", path] = .ok ⟨false, some (.run { path })⟩ ∧
      Invocation.ofArguments ["run", path, "--max-depth", t] =
        .ok ⟨false, some (.run { path, maxDepth := some (some n) })⟩) := by
  cases hform : mainGrammar.formOf path with
  | error h =>
    -- the path is looked at before the option and its text
    have hclassify : ∀ args, mainGrammar.classify ("run" :: path :: args) = .error h := by
      intro args
      rw [Grammar.classify, if_neg (by decide)]
      simp only [Grammar.classify, if_neg hpath, hform]
      rfl
    refine .inl ⟨h, ?_, ?_⟩ <;>
      rw [Invocation.ofArguments, Grammar.readAll, Grammar.read, hclassify]
  | ok form =>
    have hforms : mainGrammar.classify ["--max-depth", t] =
        .ok [("--max-depth", .unknown), (t, .operand)] :=
      mainGrammar.classify_cons (by decide) rfl (mainGrammar.classify_operand hdash rfl)
    have hwithout := ofArguments_run
      (mainGrammar.classify_cons hpath hform (rfl : mainGrammar.classify [] = .ok []))
    have hwith := ofArguments_run (mainGrammar.classify_cons hpath hform hforms)
    rcases runGrammar_read_maxDepth hpath ht hdash with ⟨h, hread, hread'⟩ | ⟨hread, hread'⟩
    · exact .inl ⟨h, hwithout.1 h hread, hwith.1 h hread'⟩
    · exact .inr ⟨hwithout.2 _ hread, hwith.2 _ hread'⟩

/-! ## Responses -/

/-- **A positive limit has the same effect in both ways.** Under an environment in which the text
`t` of the variable denotes a positive integer, `run` responds as it does without the variable, but
with `t` for the option: the same status, the same output, the same errors and the same files. -/
theorem respond_maxDepth {env : Environment} (fs : Files) (hpath : path ≠ "--")
    (henv : env.lookup "IDEM_MAX_DEPTH" = some t) (ht : Text.Denotes t n) (hpos : 1 ≤ n) :
    respond fs env ["run", path] =
      respond fs (env.without "IDEM_MAX_DEPTH") ["run", path, "--max-depth", t] := by
  have hread := Text.integer?_eq_some_iff.2 ht
  unfold respond
  have hdash := mt Raw.head?_pieces_ofString.1 (ht.head?_ne_dash hpos)
  rcases Invocation.ofArguments_maxDepth hpath hread hdash with ⟨h, hargs, hargs'⟩ | ⟨hargs, hargs'⟩
  · rw [hargs, hargs']
  · rw [hargs, hargs']
    obtain ⟨others, -, hwithout, hwith⟩ := Settings.ofEnvironment_eq env
    rw [henv, Option.getD_some, Settings.readDepth_of_denotes ht, if_neg (by omega)] at hwith
    simp only [Invocation.respond, hwith, hwithout]
    rfl

/-- Whatever the task, the variable refuses a limit that is not positive. -/
theorem Invocation.respond_of_not_positive {i : Invocation} {task : Task} {env : Environment}
    (htask : i.task = some task) (fs : Files) (henv : env.lookup "IDEM_MAX_DEPTH" = some t)
    (ht : Text.Denotes t n) (hn : n < 1) :
    i.respond fs env = .ofFailure fs (.settings (.depthNotPositive n)) := by
  obtain ⟨others, -, -, hwith⟩ := Settings.ofEnvironment_eq env
  rw [henv, Option.getD_some, Settings.readDepth_of_denotes ht, if_pos hn] at hwith
  simp only [Invocation.respond, htask, hwith]
  rfl

/-- A recursion without end, stopped at a limit that is written with a sign and in digits of another
script. -/
theorem respond_maxDepth_recursion :
    ∃ fs : Files, (respond fs [("IDEM_MAX_DEPTH", "+٣")] ["run", "a.id"]).status = .exit 1 ∧
      respond fs [("IDEM_MAX_DEPTH", "+٣")] ["run", "a.id"] =
        respond fs [] ["run", "a.id", "--max-depth", "+٣"] := by
  let fs : Files := ⟨[], [(["a.id"],
    .file (Text.encodeUtf8 "main() \x7b f(3) \x7d f(n) \x7b f(sub(n 1)) \x7d"))]⟩
  have hthree : Text.Denotes "+٣" 3 := Text.integer?_eq_some_iff.1 (by decide +kernel)
  have hwithout : Environment.without [("IDEM_MAX_DEPTH", "+٣")] "IDEM_MAX_DEPTH" = [] := by
    decide +kernel
  have hsame : respond fs [("IDEM_MAX_DEPTH", "+٣")] ["run", "a.id"] =
      respond fs (Environment.without [("IDEM_MAX_DEPTH", "+٣")] "IDEM_MAX_DEPTH")
        ["run", "a.id", "--max-depth", "+٣"] :=
    respond_maxDepth fs (by decide) rfl hthree (by decide)
  rw [hwithout] at hsame
  exact ⟨fs, by decide +kernel, hsame⟩

/-- **A limit of zero is refused in one way only.** With the variable nothing runs; with the option
a program that calls no function runs to its end. -/
theorem respond_maxDepth_zero :
    ¬∀ (fs : Files) (env : Environment) (path : Raw) (source t : String)
        (n : Int),
      fs.readSource path ".id" = .ok source → env.lookup "IDEM_MAX_DEPTH" = some t →
      Text.Denotes t n →
        let r := respond fs env ["run", path]
        let r' := respond fs (env.without "IDEM_MAX_DEPTH") ["run", path, "--max-depth", t]
        r.status = r'.status ∧ r.stdout = r'.stdout ∧ r.stderr = r'.stderr := by
  intro h
  let fs : Files := ⟨[], [(["a.id"], .file (Text.encodeUtf8 "main() \x7b 7 \x7d"))]⟩
  have hsource : fs.readSource "a.id" ".id" = .ok "main() \x7b 7 \x7d" := by decide +kernel
  have hzero : Text.Denotes "0" 0 := Text.integer?_eq_some_iff.1 (by decide +kernel)
  have hwithout : Environment.without [("IDEM_MAX_DEPTH", "0")] "IDEM_MAX_DEPTH" = [] := by
    decide +kernel
  have hargs : Invocation.ofArguments ["run", "a.id"] =
      .ok ⟨false, some (.run { path := "a.id" })⟩ := by decide +kernel
  have hrefused : (respond fs [("IDEM_MAX_DEPTH", "0")] ["run", "a.id"]).status = .exit 1 := by
    unfold respond
    rw [hargs]
    exact congrArg Response.status (Invocation.respond_of_not_positive rfl fs rfl hzero (by decide))
  have hruns : (respond fs [] ["run", "a.id", "--max-depth", "0"]).status = .exit 0 := by
    decide +kernel
  have hsame := (h fs [("IDEM_MAX_DEPTH", "0")] "a.id" _ "0" 0 hsource rfl hzero).1
  rw [hwithout, hrefused, hruns] at hsame
  cases hsame

end Command

end Wordlet
