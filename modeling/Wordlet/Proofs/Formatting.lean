import Wordlet.Proofs.CommandLine
import Wordlet.Proofs.Continuation
import Wordlet.Proofs.Erasure
import Wordlet.Proofs.Overwriting
import Wordlet.Proofs.RoundTrip

/-!
# Formatting a file

Formatting compares the text of a file with its canonical text and replaces the content if they
differ. The text is what is left of the content after decoding and after all line ends are made
newlines, so a file is left alone exactly if its text is canonical, whatever bytes it is written
with, and a file that is replaced is replaced by other bytes.

* `Program.parse_canonicalText`: **the canonical text** is read as the same program.
* `format_eq`: **what formatting does** to a file that is read as a program.
* `format_safe`: **formatting keeps the program**, leaves nothing for a second time, and agrees with
  its check.
-/

namespace Wordlet

/-! ## Canonical texts -/

namespace Program

/-- The canonical text of a program as the content of a file: with a newline at its end. -/
def canonicalText (p : Program) : String := String.ofList p.layout ++ "\n"

theorem canonicalText_of_same {p q : Program} (h : q.same p = true) :
    q.canonicalText = p.canonicalText := by
  rw [canonicalText, canonicalText, ← q.layout_erase, (same_iff_erase q p).1 h, p.layout_erase]

theorem carriageReturn_not_mem_canonicalText {p : Program}
    (hp : ∀ d ∈ p.definitions, d.Spellable) : '\r' ∉ p.canonicalText.toList := by
  intro h
  rw [canonicalText, String.toList_append, String.toList_ofList, List.mem_append] at h
  rcases h with h | h
  · exact absurd (mem_layout hp h) (by decide)
  · exact absurd h (by decide)

/-- **The canonical text is read as the same program** if no name in a body holds a line end. -/
theorem parse_canonicalText {p : Program} (hp : ∀ d ∈ p.definitions, d.Spellable)
    (hn : ∀ d ∈ p.definitions, d.body.Unbroken) (path : String) :
    ∃ q, parse (Token.scan p.canonicalText path) = .ok q ∧ q.same p = true := by
  -- the newline at the end adds no token
  have hscan := Token.scan_newline (String.ofList p.layout) "" path
  rw [String.append_empty, show Token.scan "" path = [] from rfl, List.map_nil,
    List.append_nil] at hscan
  rw [canonicalText, hscan]
  exact parse_layout hp hn path

end Program

namespace Command

variable {fs : Files} {env : Environment} {s : Settings} {path : Raw} {text : String} {p : Program}

/-! ## Source files -/

theorem extension_ofEnvironment (h : Settings.ofEnvironment env = .ok s) : s.extension = ".id" := by
  unfold Settings.ofEnvironment at h
  split at h
  · cases h
  · cases h
    rfl

theorem loadSource_eq_ok :
    loadSource fs s path = .ok (text, p) ↔
      fs.readSource path s.extension = .ok text ∧
        Program.parse (Token.scan text path.shown) = .ok p := by
  unfold loadSource
  constructor
  · intro h
    split at h
    · cases h
    · next source hread =>
      split at h
      · cases h
      · next q hparse =>
        cases h
        exact ⟨hread, hparse⟩
  · rintro ⟨hread, hparse⟩
    rw [hread]
    simp only [hparse]

theorem loadSource_of_unread {e : SourceError} (h : fs.readSource path s.extension = .error e) :
    loadSource fs s path = .error (.source e) := by
  rw [loadSource, h]

/-! ## The command -/

@[simp] theorem Response.orElse_ok {α : Type} (fs : Files) (a : α) (next : α → Response) :
    orElse fs (.ok a) next = next a := rfl

@[simp] theorem Response.orElse_error {α : Type} (fs : Files) (f : Failure)
    (next : α → Response) : orElse fs (.error f) next = ofFailure fs f := rfl

/-- **What formatting does** to a file that is read as a program. -/
theorem format_eq (hload : loadSource fs s path = .ok (text, p)) (check : Bool) :
    Command.format fs s ⟨path, check⟩ =
      if p.canonicalText = text then .ending fs 0 [] []
      else if check then .ending fs 1 [] [path.shown ++ " would be reformatted"]
      else .writing fs path p.canonicalText := by
  have hformat := Program.format_eq (Program.spellable_of_parse (loadSource_eq_ok.1 hload).2)
  unfold Command.format
  rw [hload, Response.orElse_ok]
  show Response.orElse fs (p.format.mapError .format) _ = _
  rw [hformat]
  rfl

theorem respond_formatLine (henv : Settings.ofEnvironment env = .ok s) (check : Bool) :
    respond fs env (formatLine check path) = Command.format fs s ⟨path, check⟩ := by
  rw [respond, Invocation.ofArguments_formatLine]
  show Response.orElse fs ((Settings.ofEnvironment env).mapError .settings) _ = _
  rw [henv]
  rfl

/-- A file that is not read as a program is reported and left alone. -/
theorem respond_of_failure (henv : Settings.ofEnvironment env = .ok s) {failure : Failure}
    (hload : loadSource fs s path = .error failure) (check : Bool) :
    respond fs env (formatLine check path) = .ofFailure fs failure := by
  rw [respond_formatLine henv, Command.format, hload, Response.orElse_error]

/-- A file whose text is canonical is left alone. -/
theorem respond_of_canonical (henv : Settings.ofEnvironment env = .ok s)
    (hload : loadSource fs s path = .ok (text, p)) (htext : p.canonicalText = text)
    (check : Bool) : respond fs env (formatLine check path) = .ending fs 0 [] [] := by
  rw [respond_formatLine henv, format_eq hload, if_pos htext]

/-- A file whose text is not canonical has its content replaced. -/
theorem respond_of_not_canonical (henv : Settings.ofEnvironment env = .ok s)
    (hload : loadSource fs s path = .ok (text, p)) (hw : ∃ names, fs.target path = .ok names)
    (htext : p.canonicalText ≠ text) :
    ∃ names bytes, fs.resolve path = .file names bytes ∧ sourceText bytes = .ok text ∧
      respond fs env (formatLine false path) =
        .ending (fs.set names (.file (Text.encodeUtf8 p.canonicalText))) 0 [] [] := by
  obtain ⟨hsuffix, names, bytes, hplace, hbytes⟩ :=
    Files.exists_file_of_readSource (loadSource_eq_ok.1 hload).1
  refine ⟨names, bytes, hplace, hbytes, ?_⟩
  have hslash : path.pieces.getLast? ≠ some (.char '/') := by
    rw [extension_ofEnvironment henv] at hsuffix
    obtain ⟨before, hbefore⟩ := hsuffix
    have hlast : (Raw.ofString ".id").pieces.getLast? = some (.char 'd') := rfl
    rw [← hbefore, List.getLast?_append, hlast]
    simp
  rw [respond_formatLine henv, format_eq hload, if_neg htext, if_neg (by simp), Response.writing,
    Files.write_eq hplace hslash hw]

/-! ## Formatted files -/

/-- The files after the file at a path is formatted. -/
def formattedFiles (fs : Files) (env : Environment) (path : Raw) : Files :=
  (respond fs env (formatLine false path)).files

/-- **The text of a formatted file** is the canonical text, and it is read as the same program. -/
theorem loadSource_formattedFiles (henv : Settings.ofEnvironment env = .ok s)
    (hload : loadSource fs s path = .ok (text, p)) (hw : ∃ names, fs.target path = .ok names)
    (hn : ∀ d ∈ p.definitions, d.body.Unbroken) :
    ∃ q, loadSource (formattedFiles fs env path) s path = .ok (p.canonicalText, q) ∧
      q.same p = true := by
  by_cases htext : p.canonicalText = text
  · rw [formattedFiles, respond_of_canonical henv hload htext, htext]
    exact ⟨p, hload, (Program.same_iff_erase p p).2 rfl⟩
  · obtain ⟨names, bytes, hplace, -, hrespond⟩ := respond_of_not_canonical henv hload hw htext
    obtain ⟨hread, hparse⟩ := loadSource_eq_ok.1 hload
    have hp := Program.spellable_of_parse hparse
    obtain ⟨q, hq, hsame⟩ := Program.parse_canonicalText hp hn path.shown
    refine ⟨q, ?_, hsame⟩
    rw [formattedFiles, hrespond]
    have hsuffix := (Files.exists_file_of_readSource hread).1
    have hback := Files.readSource_set hplace hsuffix
      (Program.carriageReturn_not_mem_canonicalText hp)
    exact loadSource_eq_ok.2 ⟨hback, hq⟩

/-- The check passes exactly the canonical text. -/
theorem check_status_iff (henv : Settings.ofEnvironment env = .ok s)
    (hload : loadSource fs s path = .ok (text, p)) :
    (respond fs env (formatLine true path)).status = .exit 0 ↔ p.canonicalText = text := by
  rw [respond_formatLine henv, format_eq hload]
  split
  · next htext => exact iff_of_true rfl htext
  · next htext =>
    refine iff_of_false ?_ htext
    rw [if_pos rfl]
    exact fun h => by cases h

/-- **Other bytes.** Formatting leaves the bytes of a file as they are only if its text is
canonical: other bytes have another text. -/
theorem resolve_formattedFiles_iff (henv : Settings.ofEnvironment env = .ok s)
    (hload : loadSource fs s path = .ok (text, p)) (hw : ∃ names, fs.target path = .ok names) :
    (formattedFiles fs env path).resolve path = fs.resolve path ↔ p.canonicalText = text := by
  constructor
  · intro hplaces
    by_contra htext
    obtain ⟨names, bytes, hplace, hbytes, hrespond⟩ :=
      respond_of_not_canonical henv hload hw htext
    have hp := Program.spellable_of_parse (loadSource_eq_ok.1 hload).2
    have hafter : (formattedFiles fs env path).resolve path =
        .file names (Text.encodeUtf8 p.canonicalText) := by
      rw [formattedFiles, hrespond]
      refine (Files.resolve_set (Files.find?_of_resolve hplace) _ path).trans ?_
      rw [hplace, Place.overwritten, if_pos rfl]
    rw [hafter, hplace, Place.file.injEq] at hplaces
    rw [← hplaces.2, sourceText_encodeUtf8 (Program.carriageReturn_not_mem_canonicalText hp)]
      at hbytes
    exact htext (Except.ok.inj hbytes)
  · intro htext
    rw [formattedFiles, respond_of_canonical henv hload htext]
    rfl

/-- **Formatting is safe, canonical and agrees with its check.** Let the environment be valid. If
the file at a path can be written, its text is read as a program, and no variable and no called
function in a body has one of the line ends in its name that may stand in a word, then formatting
the file succeeds and leaves its canonical text, which is read as the same program; there the check
succeeds too, and formatting once more changes nothing. The check of the file as it was succeeds if
and only if formatting leaves its bytes as they were. A file that cannot be read, or that is not
read as a program, makes formatting and its check fail, and neither changes any file. -/
theorem format_safe (henv : Settings.ofEnvironment env = .ok s) (fs : Files) (path : Raw) :
    (∀ text p, loadSource fs s path = .ok (text, p) → (∃ names, fs.target path = .ok names) →
      (∀ d ∈ p.definitions, ∀ x, x ∈ d.body.variableNames ∨ x ∈ d.body.callees →
        ∀ c ∈ x.toList, c ∉ Text.wordLineEnds) →
      (respond fs env (formatLine false path)).status = .exit 0 ∧
        (∃ q, loadSource (formattedFiles fs env path) s path = .ok (p.canonicalText, q) ∧
          q.same p = true) ∧
        (∀ check,
          (respond (formattedFiles fs env path) env (formatLine check path)).status = .exit 0 ∧
          (respond (formattedFiles fs env path) env (formatLine check path)).files =
            formattedFiles fs env path) ∧
        ((respond fs env (formatLine true path)).status = .exit 0 ↔
          (formattedFiles fs env path).resolve path = fs.resolve path)) ∧
      ∀ failure, loadSource fs s path = .error failure → ∀ check,
        (respond fs env (formatLine check path)).status = .exit 1 ∧
        (respond fs env (formatLine check path)).files = fs := by
  refine ⟨fun text p hload hw hnames => ?_, fun failure hload check => ?_⟩
  · have hn : ∀ d ∈ p.definitions, d.body.Unbroken := by
      intro d hd x hx
      exact hnames d hd x (List.mem_append.1 hx)
    obtain ⟨q, hq, hsame⟩ := loadSource_formattedFiles henv hload hw hn
    refine ⟨?_, ⟨q, hq, hsame⟩, fun check => ?_, ?_⟩
    · by_cases htext : p.canonicalText = text
      · rw [respond_of_canonical henv hload htext]
        rfl
      · obtain ⟨names, bytes, -, -, hrespond⟩ := respond_of_not_canonical henv hload hw htext
        rw [hrespond]
        rfl
    · rw [respond_of_canonical henv hq (Program.canonicalText_of_same hsame)]
      exact ⟨rfl, rfl⟩
    · rw [check_status_iff henv hload, resolve_formattedFiles_iff henv hload hw]
  · rw [respond_of_failure henv hload]
    exact ⟨rfl, rfl⟩

/-- A file in canonical layout, with line ends of three kinds, and a file that is no text. The first
passes the check, so formatting keeps its bytes; the second fails it. -/
theorem format_safe_line_ends :
    ∃ fs text p,
      fs.resolve "a.id" = .file ["a.id"] (Text.encodeUtf8 "f(x) \x7b\r\n\tx\r\x7d\n") ∧
      loadSource fs {} "a.id" = .ok (text, p) ∧
      (respond fs [] (formatLine false "a.id")).status = .exit 0 ∧
      (respond fs [] (formatLine true "a.id")).status = .exit 0 ∧
      (formattedFiles fs [] "a.id").resolve "a.id" = fs.resolve "a.id" ∧
      (respond fs [] (formatLine true "b.id")).status = .exit 1 := by
  have henv : Settings.ofEnvironment [] = .ok {} := by decide +kernel
  let fs : Files := ⟨[], [(["a.id"], .file (Text.encodeUtf8 "f(x) \x7b\r\n\tx\r\x7d\n")),
    (["b.id"], .file [0xff])]⟩
  have hload : loadSource fs {} "a.id" = .ok ("f(x) \x7b\n\tx\n\x7d\n", ⟨some ⟨"a.id", 1, 1⟩,
      [⟨some ⟨"a.id", 1, 1⟩, "f", [⟨some ⟨"a.id", 1, 3⟩, "x"⟩],
        .var (some ⟨"a.id", 2, 5⟩) "x"⟩]⟩) :=
    loadSource_eq_ok.2 ⟨by decide +kernel, by cbv⟩
  have hbad : loadSource fs {} "b.id" =
      .error (.source (.unreadable "b.id" (.undecodable ⟨0xff, 0, 1, .start⟩))) :=
    loadSource_of_unread (by decide +kernel)
  have hplace : fs.resolve "a.id" =
      .file ["a.id"] (Text.encodeUtf8 "f(x) \x7b\r\n\tx\r\x7d\n") := by decide +kernel
  have htarget : fs.target "a.id" = .ok ["a.id"] := by decide +kernel
  have hcheck : (respond fs [] (formatLine true "a.id")).status = .exit 0 :=
    (check_status_iff henv hload).2 (by decide +kernel)
  obtain ⟨hstatus, -, -, hbytes⟩ := (format_safe henv fs "a.id").1 _ _ hload ⟨_, htarget⟩ (by
    intro d hd x hx
    obtain rfl := List.mem_singleton.1 hd
    obtain rfl : x = "x" := by simpa [Expr.variableNames, Expr.callees] using hx
    exact forall_mem_of_all (by decide))
  exact ⟨fs, _, _, hplace, hload, hstatus, hcheck, hbytes.1 hcheck,
    ((format_safe henv fs "b.id").2 _ hbad true).1⟩

end Command

end Wordlet
