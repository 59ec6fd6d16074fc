import Wordlet.Command.Response
import Mathlib.Tactic.Common

/-!
# Command lines that are read as meant

A path is given as an operand. One that begins with a dash would be taken for an option, so it
stands behind `--`. Any path can be given in this way, to any command that takes one.

* `Grammar.map_classify`, `Grammar.consume_value`: what classifying keeps, and what an option takes.
* `Grammar.classify_operandArguments`: **a path is read as the operand** by every grammar.
* `Invocation.ofArguments_formatLine`: **the lines that ask for formatting.**
-/

namespace Wordlet.Command

/-- The arguments that give a path. -/
def operandArguments (path : Raw) : List Raw :=
  if path.pieces.head? = some (.char '-') then ["--", path] else [path]

/-- The command line that formats the file at a path, or with `check` only compares it with its
canonical text. -/
def formatLine (check : Bool) (path : Raw) : List Raw :=
  Raw.ofString "format" ::
    ((if check then [Raw.ofString "--check"] else []) ++ operandArguments path)

namespace Grammar

variable {σ : Type} (g : Grammar σ)

theorem classify_cons {arg : Raw} {args : List Raw} {form : Form σ}
    {forms : List (Raw × Form σ)} (harg : arg ≠ "--") (hform : g.formOf arg = .ok form)
    (hforms : g.classify args = .ok forms) :
    g.classify (arg :: args) = .ok ((arg, form) :: forms) := by
  rw [classify, if_neg harg, hform, hforms]

theorem classify_operand {arg : Raw} {args : List Raw} {forms : List (Raw × Form σ)}
    (hdash : arg.pieces.head? ≠ some (.char '-')) (hforms : g.classify args = .ok forms) :
    g.classify (arg :: args) = .ok ((arg, .operand) :: forms) := by
  have hne : arg ≠ "--" := by
    rintro rfl
    exact hdash rfl
  exact g.classify_cons hne (if_pos hdash) hforms

/-- Classifying keeps the arguments. -/
theorem map_classify {args : List Raw} {forms : List (Raw × Form σ)}
    (h : g.classify args = .ok forms) : forms.map (·.1) = args := by
  induction args generalizing forms with
  | nil =>
    cases h
    rfl
  | cons arg args ih =>
    rw [classify] at h
    split at h
    · cases h
      simp [Function.comp_def]
    · cases hform : g.formOf arg with
      | error e => simp [hform] at h
      | ok form =>
        cases hforms : g.classify args with
        | error e => simp [hform, hforms] at h
        | ok rest =>
          simp only [hform, hforms] at h
          cases h
          rw [List.map_cons, ih hforms]

/-- No argument is taken for the separator by its form. -/
theorem formOf_ne_separator (arg : Raw) : g.formOf arg ≠ .ok .separator := by
  fun_cases formOf g arg <;> simp_all [misuse]

/-- An option takes the operand after it as its value. -/
theorem consume_value {o : Opt σ} {read : Option Raw → Except String (σ → σ)} {set : σ → σ}
    {name text : Raw} {title : String} (ho : o.effect = .value read)
    (hread : read (some text) = .ok set)
    (values : σ) (pending : Positional σ) (rest : List (Raw × Form σ)) :
    g.consume values pending ((name, .option o title none) :: (text, .operand) :: rest) =
      g.consume (set values) pending rest := by
  have hcluster : g.cluster o title none = .ok ⟨[], some o⟩ := by
    simp [cluster, bare, Opt.takesValue, ho]
  have hsettle : g.settle values ([] ++ [(o, some text)]) = .ok (set values) := by
    simp [settle, ho, hread]
  rw [consume]
  simp only [hcluster, hsettle]

/-- **A path is read as the operand**, whatever it is. -/
theorem classify_operandArguments (path : Raw) :
    ∃ forms, g.classify (operandArguments path) = .ok forms ∧
      forms.map (·.1) = operandArguments path ∧
      ∀ values name set,
        g.consume values (.operand name set) forms = .ok (set path values, []) := by
  unfold operandArguments
  split
  · exact ⟨_, rfl, rfl, fun values name set => rfl⟩
  · next hdash =>
    have hne : path ≠ "--" := by
      rintro rfl
      exact hdash rfl
    have hform : g.formOf path = .ok .operand := if_pos hdash
    exact ⟨_, g.classify_cons hne hform rfl, rfl, fun values name set => rfl⟩

theorem choose_of_lookup {values : σ} {name chosen : String}
    {choices : List (String × (List Raw → Except Halt ((σ → σ) × List Raw)))}
    {read : List Raw → Except Halt ((σ → σ) × List Raw)} {args extras : List Raw}
    {set : σ → σ} (hchoice : choices.lookup chosen = some read)
    (hread : read args = .ok (set, extras)) :
    g.choose values name choices chosen args = .ok (set values, extras) := by
  unfold choose
  rw [Raw.text?_ofString, Option.bind_some, hchoice]
  simp only [hread]

theorem choose_of_error {values : σ} {name chosen : String}
    {choices : List (String × (List Raw → Except Halt ((σ → σ) × List Raw)))}
    {read : List Raw → Except Halt ((σ → σ) × List Raw)} {args : List Raw} {h : Halt}
    (hchoice : choices.lookup chosen = some read) (hread : read args = .error h) :
    g.choose values name choices chosen args = .error h := by
  unfold choose
  rw [Raw.text?_ofString, Option.bind_some, hchoice]
  simp only [hread]

end Grammar

theorem formatGrammar_read (check : Bool) (path : Raw) :
    formatGrammar.read {}
        ((if check then [Raw.ofString "--check"] else []) ++ operandArguments path) =
      .ok (⟨path, check⟩, []) := by
  obtain ⟨forms, hforms, -, hconsume⟩ := formatGrammar.classify_operandArguments path
  unfold Grammar.read
  cases check with
  | false =>
    rw [if_neg (by simp), List.nil_append, hforms]
    exact hconsume _ _ _
  | true =>
    rw [if_pos rfl, List.cons_append, List.nil_append,
      formatGrammar.classify_cons (by decide) rfl hforms]
    exact hconsume _ _ _

/-- **The lines that ask for formatting.** The grammar of the whole line does not know the options
of the command: it takes their forms for unknown and hands them on. -/
theorem Invocation.ofArguments_formatLine (check : Bool) (path : Raw) :
    Invocation.ofArguments (formatLine check path) =
      .ok ⟨false, some (.format ⟨path, check⟩)⟩ := by
  obtain ⟨forms, hclassify, hforms⟩ : ∃ forms,
      mainGrammar.classify (formatLine check path) = .ok (("format", .operand) :: forms) ∧
        forms.map (·.1) =
          (if check then [Raw.ofString "--check"] else []) ++ operandArguments path := by
    obtain ⟨forms, hforms, hmap, -⟩ := mainGrammar.classify_operandArguments path
    cases check with
    | false => exact ⟨forms, mainGrammar.classify_cons (by decide) rfl hforms, hmap⟩
    | true =>
      have hcheck : mainGrammar.classify ("--check" :: operandArguments path) = _ :=
        mainGrammar.classify_cons (by decide) rfl hforms
      refine ⟨_, mainGrammar.classify_cons (by decide) rfl hcheck, ?_⟩
      rw [List.map_cons, hmap]
      rfl
  have hreader : invocationReader (taskReader formatGrammar {} .format) (forms.map (·.1)) =
      .ok (fun i => { i with task := some (.format ⟨path, check⟩) }, []) := by
    rw [hforms, invocationReader, taskReader, formatGrammar_read]
  have hconsume : mainGrammar.consume {} mainGrammar.positional (("format", .operand) :: forms) =
      .ok (⟨false, some (.format ⟨path, check⟩)⟩, []) :=
    mainGrammar.choose_of_lookup rfl hreader
  unfold Invocation.ofArguments Grammar.readAll Grammar.read
  rw [hclassify]
  simp only [hconsume]

end Wordlet.Command
