import Wordlet.Proofs.Failures

/-!
# What the program leaves alone

Two commands write: formatting writes to the file it has read, and a call graph goes to the file
that is asked for. Each writes once, when all else that can fail has been done. What is written is
one entry of the tree of files: the other entries stay, and no directory comes or goes, since the
directory that a new file is in was there.

A file is emptied before the text is written to it, and the title of a call graph is a path, which
need not be a text. So a failure can empty the file that the call graph was meant for; there is no
other way for a failure to change a file.

* `Files.exists_directory_of_target`: **the file that a path names is in a directory that exists.**
* `Files.find?_set_of_ne`, `Files.sameExcept_of_write`: **writing to a path changes the entry it
  names and no other**, also where it fails.
* `Task.keeps`: what every task keeps.
* `Refuses.respond_run`: **a program with reports is not run.**
* `respond_files`: all of this of command lines.
-/

namespace Wordlet

namespace Files

variable {fs : Files} {names dir other : List Raw} {path text : Raw}

/-- The two trees of files are the same but for what the path names: at most the entry that writing
to the path creates or replaces is another. -/
structure SameExcept (before : Files) (path : Raw) (after : Files) : Prop where
  working : after.working = before.working
  find? : ∀ names, before.target path ≠ .ok names → after.find? names = before.find? names

theorem SameExcept.refl (fs : Files) (path : Raw) : fs.SameExcept path fs :=
  ⟨rfl, fun _ _ => rfl⟩

/-! ## Directories -/

theorem isPassed_iff : fs.isPassed names = true ↔
    names <+: fs.working ∨ ∃ f ∈ fs.entries, names <+: f.1 := by
  simp only [isPassed, Bool.or_eq_true, List.any_eq_true, List.isPrefixOf_iff_prefix]

/-- On the way to a directory there are directories. -/
theorem isPassed_of_ancestor (h : fs.isPassed names = true) (hother : other <+: names) :
    fs.isPassed other = true := by
  rcases isPassed_iff.1 h with hworking | ⟨f, hf, hnames⟩
  · exact isPassed_iff.2 (.inl (hother.trans hworking))
  · exact isPassed_iff.2 (.inr ⟨f, hf, hother.trans hnames⟩)

theorem isPassed_of_find? (h : fs.find? names = some .directory) : fs.isPassed names = true := by
  unfold find? at h
  split at h
  · next e hlookup =>
    obtain ⟨f, hf, heq⟩ := List.lookup_isSome_iff.1 (Option.isSome_of_eq_some hlookup)
    rw [beq_iff_eq.1 heq]
    exact isPassed_iff.2 (.inr ⟨f, hf, List.prefix_refl _⟩)
  · next hlookup =>
    split at h
    · next hpassed => exact hpassed
    · cases h

theorem isPassed_origin (fs : Files) (path : Raw) : fs.isPassed (fs.origin path) = true := by
  refine isPassed_iff.2 (.inl ?_)
  unfold origin
  split
  · exact List.nil_prefix
  · exact List.prefix_refl _

/-- Steps from a directory that end at a file, or at none, end in a directory. -/
theorem exists_directory_of_follow {here steps : List Raw} (hhere : fs.isPassed here = true)
    (h : (∃ bytes, fs.follow here steps = .file names bytes) ∨
      fs.follow here steps = .vacant names) :
    ∃ dir name, names = dir ++ [name] ∧ fs.isPassed dir = true := by
  fun_induction follow fs here steps with
  | case1 => simp at h
  | case2 here step rest hstay ih => exact ih hhere h
  | case3 here rest hstay ih =>
    have hparent : here.dropLast <+: here := List.dropLast_prefix here
    exact ih (isPassed_of_ancestor hhere hparent) h
  | case4 => simp at h
  | case5 here step rest hstay hup hlen hfind ih => exact ih (isPassed_of_find? hfind) h
  | case6 here step rest hstay hup hlen bytes hfind hlast =>
    obtain ⟨rfl, -⟩ : here ++ [step] = names ∧ True := by simpa using h
    exact ⟨here, step, rfl, hhere⟩
  | case7 => simp at h
  | case8 here step rest hstay hup hlen hfind hlast =>
    obtain rfl : here ++ [step] = names := by simpa using h
    exact ⟨here, step, rfl, hhere⟩
  | case9 => simp at h

/-- **The file that a path names is in a directory that exists.** -/
theorem exists_directory_of_target (h : fs.target path = .ok names) :
    ∃ dir name, names = dir ++ [name] ∧ fs.isPassed dir = true := by
  unfold target at h
  split_ifs at h
  have horigin := fs.isPassed_origin path
  split at h
  · next found bytes hfollow =>
    cases h
    exact exists_directory_of_follow horigin (.inl ⟨bytes, hfollow⟩)
  · next found hfollow =>
    cases h
    exact exists_directory_of_follow horigin (.inr hfollow)
  all_goals cases h

/-! ## Writing -/

theorem lookup_set_of_ne (hne : other ≠ names) (e : Entry) :
    (fs.set names e).entries.lookup other = fs.entries.lookup other := by
  cases hany : fs.entries.any fun f => f.1 == names with
  | true =>
    have hkept := lookup_map_entry (fun key old => if key = names then e else old) other fs.entries
    rw [set_of_any hany, hkept]
    simp [hne]
  | false =>
    rw [set, if_neg (by simp [hany]), List.lookup_append, List.lookup_cons, beq_false_of_ne hne]
    simp

theorem working_set (fs : Files) (names : List Raw) (e : Entry) :
    (fs.set names e).working = fs.working := by
  unfold set
  split <;> rfl

theorem isPassed_set_iff (e : Entry) : (fs.set names e).isPassed other = true ↔
    fs.isPassed other = true ∨ other <+: names := by
  rw [isPassed_iff, isPassed_iff, working_set]
  cases hany : fs.entries.any fun f => f.1 == names with
  | true =>
    -- the names of the entries are the same, and the one that is set is among them
    obtain ⟨f, hf, heq⟩ := List.any_eq_true.1 hany
    obtain rfl : f.1 = names := beq_iff_eq.1 heq
    rw [set_of_any hany]
    simp only [List.mem_map, exists_exists_and_eq_and]
    exact ⟨.inl, fun h => h.elim id fun hother => .inr ⟨f, hf, hother⟩⟩
  | false =>
    rw [set, if_neg (by simp [hany])]
    simp only [List.mem_append, List.mem_singleton, or_and_right, exists_or, exists_eq_left,
      or_assoc]

/-- **The other entries after an entry is set** in a directory that exists. -/
theorem find?_set_of_ne {name : Raw} (hdir : fs.isPassed dir = true)
    (hne : other ≠ dir ++ [name]) (e : Entry) :
    (fs.set (dir ++ [name]) e).find? other = fs.find? other := by
  have hpassed : (fs.set (dir ++ [name]) e).isPassed other = fs.isPassed other := by
    refine Bool.eq_iff_iff.2 ((isPassed_set_iff e).trans (or_iff_left_of_imp fun hfront => ?_))
    exact isPassed_of_ancestor hdir ((List.prefix_concat_iff.1 hfront).resolve_left hne)
  rw [find?, find?, lookup_set_of_ne hne, hpassed]

/-- Setting the entry that a path names keeps the others. -/
theorem sameExcept_of_target (h : fs.target path = .ok names) (e : Entry) :
    fs.SameExcept path (fs.set names e) := by
  refine ⟨fs.working_set names e, fun other hother => ?_⟩
  obtain ⟨dir, name, rfl, hdir⟩ := exists_directory_of_target h
  refine find?_set_of_ne hdir ?_ e
  rintro rfl
  exact hother h

/-- **Writing to a path changes the entry it names and no other**, whatever becomes of the text. -/
theorem sameExcept_of_write (fs : Files) (path text : Raw) :
    fs.SameExcept path (fs.write path text).2 := by
  unfold write
  split
  · exact .refl fs path
  · next names htarget => split <;> exact sameExcept_of_target htarget _

end Files

namespace Command

variable {fs : Files} {env : Environment} {s : Settings} {task : Task} {i : Invocation}

/-- The path that a task may write to. -/
def Task.written? : Task → Option Raw
  | .format o => if o.check then none else some o.path
  | .displayFunctions o => o.output
  | .run _ | .validate _ | .natives => none

/-- **What the answer to a task leaves alone**: all files if the task writes to no path, all but
what the path names if it does, and all files if it fails, unless that empties the file for a call
graph. -/
structure Task.Keeps (task : Task) (fs : Files) (r : Response) : Prop where
  failed : r.status ≠ .exit 0 → r.files = fs ∨ task.Empties fs r.files
  silent : task.written? = none → r.files = fs
  written : ∀ path, task.written? = some path → fs.SameExcept path r.files

/-! ## Answers -/

namespace Task

/-- An answer without new files. -/
theorem keeps_of_files {r : Response} (h : r.files = fs) (task : Task) : task.Keeps fs r := by
  refine ⟨fun _ => .inl h, fun _ => h, fun path _ => ?_⟩
  rw [h]
  exact .refl fs path

theorem keeps_ending (task : Task) (fs : Files) (code : Nat) (stdout stderr : List String) :
    task.Keeps fs (.ending fs code stdout stderr) := by
  refine keeps_of_files ?_ task
  rfl

theorem keeps_orElse {α : Type} {e : Except Failure α} {next : α → Response}
    (h : ∀ a, e = .ok a → task.Keeps fs (next a)) :
    task.Keeps fs (.orElse fs e next) := by
  cases e with
  | error f => exact task.keeps_ending fs 1 [] [f.text]
  | ok a => exact h a rfl

theorem keeps_printing (task : Task) (fs : Files) (code : Nat) (texts : List Raw)
    (stderr : List String) : task.Keeps fs (.printing fs code texts stderr) := by
  refine keeps_of_files ?_ _
  unfold Response.printing
  split <;> rfl

/-- **Writing comes last.** What it fails at leaves the files alone, unless it is the text. -/
theorem keeps_writing {path text : Raw} (hpath : task.written? = some path)
    (hempties : (∀ t : String, text ≠ t) → ∀ names, fs.target path = .ok names →
      task.Empties fs (fs.set names (.file []))) :
    task.Keeps fs (.writing fs path text) := by
  have hsame := Files.sameExcept_of_write fs path text
  cases hwrite : (fs.write path text).1 with
  | ok done =>
    rw [Response.writing_of_ok hwrite]
    refine ⟨fun h => absurd rfl h, fun h => ?_, fun path' h => ?_⟩
    · rw [hpath] at h
      cases h
    · rw [hpath] at h
      cases h
      exact hsame
  | error e =>
    rw [Response.writing_of_error hwrite]
    refine ⟨fun _ => ?_, fun h => ?_, fun path' h => ?_⟩
    · rcases Files.write_of_error hwrite with hfiles | ⟨htext, names, htarget, hfiles⟩
      · exact .inl hfiles
      · right
        show task.Empties fs (fs.write path text).2
        rw [hfiles]
        exact hempties htext names htarget
    · rw [hpath] at h
      cases h
    · rw [hpath] at h
      cases h
      exact hsame

end Task

/-! ## Tasks -/

theorem respondToRun_files (fs : Files) (s : Settings) (threshold : Level) (functions : Nat)
    (r : Run) : (respondToRun fs s threshold functions r).files = fs := by
  unfold respondToRun
  dsimp only
  split
  · rfl
  · split <;> rfl

theorem run_keeps (fs : Files) (s : Settings) (threshold : Level) (o : RunOptions) :
    (Task.run o).Keeps fs (Command.run fs s threshold o) := by
  refine Task.keeps_orElse fun source _ => ?_
  dsimp only
  generalize (if (o.settings s).validateBeforeRun then source.2.reports else []) = reports
  split
  · exact Task.keeps_of_files (respondToRun_files _ _ _ _ _) _
  · exact Task.keeps_printing _ _ _ _ _

theorem format_keeps (fs : Files) (s : Settings) (o : FormatOptions) :
    (Task.format o).Keeps fs (Command.format fs s o) := by
  refine Task.keeps_orElse fun source _ => Task.keeps_orElse fun text _ => ?_
  dsimp only
  split
  · exact Task.keeps_ending _ _ _ _ _
  split
  · exact Task.keeps_ending _ _ _ _ _
  · next hcheck =>
    exact Task.keeps_writing (if_neg hcheck) fun htext => absurd rfl (htext _)

theorem displayFunctions_keeps (fs : Files) (s : Settings) (o : DisplayOptions) :
    (Task.displayFunctions o).Keeps fs (Command.displayFunctions fs s o) := by
  refine Task.keeps_orElse fun source _ => ?_
  dsimp only
  split
  · exact Task.keeps_printing _ _ _ _ _
  · next output houtput =>
    split
    · exact Task.keeps_printing _ _ _ _ _
    · refine Task.keeps_writing houtput fun htext names htarget => ?_
      exact .callGraph (fun path hpath => htext _ (DisplayOptions.graph_eq hpath source.2)) houtput
        htarget

/-- **What every task keeps.** -/
theorem Task.keeps (fs : Files) (s : Settings) (threshold : Level) (task : Task) :
    task.Keeps fs (task.perform fs s threshold) := by
  cases task with
  | run o => exact run_keeps fs s threshold o
  | format o => exact format_keeps fs s o
  | validate path => exact keeps_orElse fun _ _ => keeps_printing _ _ _ _ _
  | displayFunctions o => exact displayFunctions_keeps fs s o
  | natives => exact keeps_ending _ _ _ _ _

theorem Invocation.keeps (fs : Files) (env : Environment) (htask : i.task = some task) :
    task.Keeps fs (i.respond fs env) := by
  unfold Invocation.respond
  rw [htask]
  exact Task.keeps_orElse fun s _ => task.keeps fs s i.threshold

/-! ## Programs with reports -/

theorem validateBeforeRun_ofEnvironment (h : Settings.ofEnvironment env = .ok s) :
    s.validateBeforeRun = true := by
  unfold Settings.ofEnvironment at h
  split at h
  · cases h
  · cases h
    rfl

/-- What validation answers where it reads a program. -/
theorem respond_validate {path : Raw} {text : String} {p : Program}
    (henv : Settings.ofEnvironment env = .ok s) (hload : loadSource fs s path = .ok (text, p))
    (verbose : Bool) :
    Invocation.respond fs env ⟨verbose, some (.validate path)⟩ =
      .printing fs 0 (p.reports.map (Report.rawText path)) [] := by
  rw [respond_of_task rfl henv]
  exact validate_eq_printing hload

/-- **A program with reports is not run**: the answer consists of the line that announces the
reports and of what validation answers. -/
theorem Refuses.respond_run {o : RunOptions} (h : Refuses fs env (.run o))
    (htask : i.task = some (.run o)) (verbose : Bool) :
    i.respond fs env =
      ⟨.exit 1, (Invocation.respond fs env ⟨verbose, some (.validate o.path)⟩).stdout,
        Response.lines ["Issues were found in " ++ o.path.shown ++ ":"] ++
          (Invocation.respond fs env ⟨verbose, some (.validate o.path)⟩).stderr, fs⟩ := by
  cases h with
  | reports henv hload hvalidate hreports =>
    rename_i s text p
    have hrun : i.respond fs env = _ :=
      (respond_of_task htask henv).trans (run_eq_printing hload hvalidate hreports i.threshold)
    rw [hrun, respond_validate henv hload]
    cases hprinted : (Response.printed (p.reports.map (Report.rawText o.path))).2 with
    | none =>
      rw [Response.printing_of_none hprinted, Response.printing_of_none hprinted]
      simp [Response.ending, Response.lines]
    | some e =>
      rw [Response.printing_of_some hprinted, Response.printing_of_some hprinted]
      simp [Response.ending, Response.lines]

/-- A program on which validation writes anything is refused. -/
theorem refuses_of_validate {o : RunOptions} (hvalidate : o.noValidate = false) {verbose : Bool}
    (hfound : (Invocation.respond fs env ⟨verbose, some (.validate o.path)⟩).stdout ≠ "") :
    Refuses fs env (.run o) := by
  cases henv : Settings.ofEnvironment env with
  | error e =>
    -- without settings nothing is validated either
    refine absurd ?_ hfound
    unfold Invocation.respond
    rw [henv]
    rfl
  | ok s =>
    cases hload : loadSource fs s o.path with
    | error f =>
      refine absurd ?_ hfound
      rw [respond_of_task rfl henv, Task.perform_of_error rfl hload]
      rfl
    | ok source =>
      obtain ⟨text, p⟩ := source
      refine .reports henv hload ?_ fun hnone => ?_
      · show (!o.noValidate && s.validateBeforeRun) = true
        rw [hvalidate, validateBeforeRun_ofEnvironment henv]
        rfl
      · rw [respond_validate henv hload, hnone] at hfound
        exact hfound rfl

/-! ## Command lines -/

/-- **The program touches only the file it is asked to write, and nothing when it fails, one way to
fail apart.** Under any environment and with any files, let a command line be given.

* If it does not end with exit code 0, all files are as they were, unless its task is to write a
  call graph to a file, the path of its source file is no text, and the file has been emptied. If it
  is not read as meant, all files are as they were.
* If its task is to run or to validate a program, to list the natives, to compare a file with its
  canonical text, or to show a call graph on the output, all files are as they were.
* If its task is to format a file, or to write a call graph to one, then at most the file that the
  path names is another.
* If it asks for a run with validation, and if validation of the same file writes anything to the
  output, then the program is refused. A program that is refused is not run: the output is what
  validation writes, the errors are the line that announces it and those of validation, and the exit
  code is 1. -/
theorem respond_files (fs : Files) (env : Environment) (args : List Raw) :
    (∀ h, Invocation.ofArguments args = .error h → (respond fs env args).files = fs) ∧
    ∀ i, Invocation.ofArguments args = .ok i →
      ((respond fs env args).status ≠ .exit 0 → (respond fs env args).files = fs ∨
        ∃ task, i.task = some task ∧ task.Empties fs (respond fs env args).files) ∧
      (i.task.bind Task.written? = none → (respond fs env args).files = fs) ∧
      (∀ path, i.task.bind Task.written? = some path →
        fs.SameExcept path (respond fs env args).files) ∧
      ∀ o verbose, i.task = some (.run o) → o.noValidate = false →
        ((Invocation.respond fs env ⟨verbose, some (.validate o.path)⟩).stdout ≠ "" →
          Refuses fs env (.run o)) ∧
        (Refuses fs env (.run o) → respond fs env args =
          ⟨.exit 1, (Invocation.respond fs env ⟨verbose, some (.validate o.path)⟩).stdout,
            Response.lines ["Issues were found in " ++ o.path.shown ++ ":"] ++
              (Invocation.respond fs env ⟨verbose, some (.validate o.path)⟩).stderr, fs⟩) := by
  unfold respond
  cases Invocation.ofArguments args with
  | error h =>
    refine ⟨fun _ _ => ?_, nofun⟩
    cases h <;> rfl
  | ok i =>
    refine ⟨nofun, fun i' hi => ?_⟩
    cases hi
    dsimp only
    cases htask : i.task with
    | none =>
      have hfiles : (i.respond fs env).files = fs := by
        unfold Invocation.respond
        rw [htask]
      exact ⟨fun _ => .inl hfiles, fun _ => hfiles, nofun, nofun⟩
    | some task =>
      have hkeeps := Invocation.keeps fs env htask
      refine ⟨fun hstatus => ?_, hkeeps.silent, hkeeps.written, fun o verbose hrun hvalidate => ?_⟩
      · exact (hkeeps.failed hstatus).imp_right fun h => ⟨task, rfl, h⟩
      · exact ⟨refuses_of_validate hvalidate, fun h => h.respond_run (htask.trans hrun) verbose⟩

/-- A program with a report is not run; formatting it leaves another file alone; its call graph
cannot be written to a directory that does not exist; validating it, and a line without a path,
change nothing. -/
theorem respond_files_reported :
    ∃ fs : Files,
      respond fs [] ["run", "a.id"] = ⟨.exit 1, "a.id:1:9 unknown function \"f\"\n",
        "Issues were found in a.id:\n", fs⟩ ∧
      (respond fs [] ["format", "a.id"]).files.find? ["b.id"] = some (.file [0xff]) ∧
      (respond fs [] ["display", "functions", "a.id", "-o", "no/g.dot"]).files = fs ∧
      (respond fs [] ["validate", "a.id"]).files = fs ∧ (respond fs [] ["run"]).files = fs := by
  let fs : Files :=
    ⟨[], [(["a.id"], .file (Text.encodeUtf8 "main()\x7b f(1) \x7d")), (["b.id"], .file [0xff])]⟩
  have hrun : Invocation.ofArguments ["run", "a.id"] =
      .ok ⟨false, some (.run ⟨"a.id", false, false, none⟩)⟩ := by decide +kernel
  have hformat : Invocation.ofArguments ["format", "a.id"] =
      .ok ⟨false, some (.format ⟨"a.id", false⟩)⟩ := by decide +kernel
  have hvalidate : Invocation.ofArguments ["validate", "a.id"] =
      .ok ⟨false, some (.validate "a.id")⟩ := by decide +kernel
  have hdisplay : Invocation.ofArguments ["display", "functions", "a.id", "-o", "no/g.dot"] =
      .ok ⟨false, some (.displayFunctions ⟨"a.id", some "no/g.dot"⟩)⟩ := by decide +kernel
  have hmisuse : Invocation.ofArguments ["run"] = .error (.misuse Help.runUsage "idem run"
      "the following arguments are required: path") := by decide +kernel
  have hfound : (Invocation.respond fs [] ⟨false, some (.validate "a.id")⟩).stdout =
      "a.id:1:9 unknown function \"f\"\n" := by decide +kernel
  have herrors : (Invocation.respond fs [] ⟨false, some (.validate "a.id")⟩).stderr = "" := by
    decide +kernel
  have hstatus : (respond fs [] ["display", "functions", "a.id", "-o", "no/g.dot"]).status =
      .exit 1 := by decide +kernel
  have htarget : fs.target "a.id" = .ok ["a.id"] := by decide +kernel
  refine ⟨fs, ?_, ?_, ?_, ?_, ?_⟩
  · obtain ⟨hrefuses, hreports⟩ :=
      ((respond_files fs [] ["run", "a.id"]).2 _ hrun).2.2.2 _ false rfl rfl
    rw [hfound, herrors] at hreports
    exact hreports (hrefuses (by rw [hfound]; decide))
  · have honly := ((respond_files fs [] ["format", "a.id"]).2 _ hformat).2.2.1 "a.id" rfl
    rw [honly.find? ["b.id"] (by rw [htarget]; decide)]
    decide +kernel
  · refine (((respond_files fs [] _).2 _ hdisplay).1 (by rw [hstatus]; decide)).resolve_right ?_
    -- the path of its source file is a text
    rintro ⟨task, htask, hempties⟩
    cases htask
    exact hempties.source?_ne "a.id" rfl
  · exact ((respond_files fs [] _).2 _ hvalidate).2.1 rfl
  · exact (respond_files fs [] _).1 _ hmisuse

/-- Not every failure leaves the files as they were: where a byte of the source file's name belongs
to no character, the call graph has no encoding, and the file it was meant for is empty. -/
theorem respond_files_stray_byte :
    ¬∀ (fs : Files) (env : Environment) (args : List Raw),
      (respond fs env args).status ≠ .exit 0 → (respond fs env args).files = fs := by
  intro h
  let source : Raw := ⟨[.stray 0xff, .char '.', .char 'i', .char 'd']⟩
  let fs : Files := ⟨[], [([source], .file (Text.encodeUtf8 "main()\x7b\x7d")),
    (["out.dot"], .file (Text.encodeUtf8 "keep"))]⟩
  have hstatus : (respond fs [] ["display", "functions", source, "-o", "out.dot"]).status =
      .exit 1 := by decide +kernel
  have hafter : (respond fs [] ["display", "functions", source, "-o", "out.dot"]).files.find?
      ["out.dot"] = some (.file []) := by decide +kernel
  rw [h fs [] _ (by rw [hstatus]; decide)] at hafter
  exact absurd hafter (by decide +kernel)

end Command

end Wordlet
