import Wordlet.Proofs.BraceDepth
import Wordlet.Proofs.RoundTrip

/-!
# Indentation is brace depth

The canonical text of a program that was read from a text, line by line. By induction on the tree
every part of it is well laid out, wherever it stands: a branch keeps the rules as a body, as a
condition and as an argument.

* `Expr.laid`: **every expression that a text can spell** is well laid out.
* `Definition.splitLines_layout`: a function begins with its header and ends with a brace.
* `Program.splitLines_layout`: the functions follow one another with an empty line between two.
* `Program.format_indented`: **the rules of the canonical text**, for the lines of a whole program.
-/

namespace Wordlet

open Text
open Wordlet.Digraph (joinLines)

/-! ## Trees -/

theorem laid_of_isWord {x : String} (h : IsWord x) (hend : ∀ c ∈ x.toList, c ∉ Text.wordLineEnds) :
    Laid x.toList :=
  .plain (fun c hc => isPlain_of_isLetter (h.2 c hc) (hend c hc)) h.1

theorem Expr.laid_or_nil {t : Expr} (h : t.Spellable → Laid t.layout) (ht : t.SpellableBlock) :
    t.layout = [] ∨ Laid t.layout := by
  rcases ht with ht | ht
  · obtain ⟨loc, rfl⟩ := eq_empty_of_isEmpty ht
    exact .inl rfl
  · exact .inr (h ht)

/-- **An expression is well laid out** if a text can spell it and no name in it holds a line end. -/
theorem Expr.laid (e : Expr) (he : e.Spellable) (hn : e.Unbroken) : Laid e.layout := by
  induction e using Expr.induction with
  | empty => exact he.elim
  | literal loc v =>
    have hv := isWord_toString he.1
    refine laid_of_isWord hv fun c hc hend => ?_
    have hdigit := isLineEnd_of_isDigit (isDigit_of_mem_toString he.1 hc)
    rw [isLineEnd_of_mem_wordLineEnds c hend] at hdigit
    cases hdigit
  | var loc x => exact laid_of_isWord he.1 (hn x (by simp [names, variableNames]))
  | call loc f es ih =>
    obtain ⟨hf, -, hes⟩ := he
    have hopen : Laid ['('] := .plain (forall_mem_of_all (by decide)) (by decide)
    have hclose : Laid [')'] := .plain (forall_mem_of_all (by decide)) (by decide)
    have hname := laid_of_isWord hf (hn f (by simp))
    have hargs : ∀ text ∈ es.map layout, Laid text := by
      intro text htext
      obtain ⟨e, hmem, rfl⟩ := List.mem_map.1 htext
      exact ih e hmem (spellableAll_iff.1 hes e hmem) fun x hx =>
        hn x (mem_names_call.2 (.inr ⟨e, hmem, hx⟩))
    have hcall := ((hname.append hopen).append_commaList hargs).append hclose
    simpa only [layout, layouts_eq_map, List.append_assoc, List.cons_append, List.nil_append]
      using hcall
  | branch loc c t e ihc iht ihe =>
    obtain ⟨hc, ht, he⟩ := he
    have hif : Laid "if ".toList := .plain (forall_mem_of_all (by decide)) (by decide)
    have hspace : Laid [' '] := .plain (forall_mem_of_all (by decide)) (by decide)
    have helse : Laid " else ".toList := .plain (forall_mem_of_all (by decide)) (by decide)
    have hcond := ihc hc fun x hx => hn x (mem_names_branch.2 (.inl hx))
    have hthen := laid_or_nil
      (fun h => iht h fun x hx => hn x (mem_names_branch.2 (.inr (.inl hx)))) ht
    have hotherwise := laid_or_nil
      (fun h => ihe h fun x hx => hn x (mem_names_branch.2 (.inr (.inr hx)))) he
    have hbranch := ((hif.append hcond).append hspace).append (.block hthen)
    rw [List.append_assoc ("if ".toList ++ c.layout), List.singleton_append] at hbranch
    rw [layout]
    split
    · rw [List.append_nil]
      exact hbranch
    · exact hbranch.append (helse.append (.block hotherwise))
  | stray => exact he.elim

/-- The text of a function before its block. -/
def Definition.header (d : Definition) : List Char :=
  d.name.toList ++ '(' :: (commaList (d.parameters.map (·.name.toList)) ++ [')', ' '])

theorem Definition.layout_eq (d : Definition) :
    d.layout = joinLines [d.header] ++ bracedBlock d.body.layout := by
  simp [layout, header, joinLines]

/-- The names of the header and the signs between them stand on one line. -/
theorem Definition.isPlain_of_mem_header {d : Definition} (hd : d.Spellable)
    (hn : ∀ x ∈ d.headerNames, ∀ c ∈ x.toList, c ∉ Text.wordLineEnds) :
    ∀ c ∈ d.header, IsPlain c := by
  obtain ⟨hname, hps, -⟩ := hd
  have hword : ∀ x ∈ d.headerNames, IsWord x → ∀ c ∈ x.toList, IsPlain c :=
    fun x hx hw c hc => isPlain_of_isLetter (hw.2 c hc) (hn x hx c hc)
  have hsigns : ∀ c ∈ "() ".toList, IsPlain c := forall_mem_of_all (by decide)
  have hcomma : ∀ c ∈ [',', ' '], IsPlain c := forall_mem_of_all (by decide)
  intro c hc
  simp only [header, List.mem_append, List.mem_cons, List.not_mem_nil, or_false] at hc
  rcases hc with hc | rfl | hc | rfl | rfl
  · exact hword d.name (.head _) hname c hc
  · exact hsigns _ (by decide)
  · rcases mem_intercalate hc with hc | ⟨text, htext, hc⟩
    · exact hcomma c hc
    · obtain ⟨p, hp, rfl⟩ := List.mem_map.1 htext
      exact hword p.name (List.mem_cons_of_mem _ (List.mem_map.2 ⟨p, hp, rfl⟩)) (hps p hp) c hc
  · exact hsigns _ (by decide)
  · exact hsigns _ (by decide)

/-- **A function is well laid out** in lines of which the first is its header with the opening brace
and the last the closing brace. -/
theorem Definition.wellLaid {d : Definition} (hd : d.Spellable)
    (hn : ∀ x ∈ d.headerNames ++ d.bodyNames, ∀ c ∈ x.toList, c ∉ Text.wordLineEnds) :
    ∃ body, WellLaid ((d.header ++ ['\x7b']) :: (body ++ [['\x7d']])) ∧
      d.layout = joinLines ((d.header ++ ['\x7b']) :: (body ++ [['\x7d']])) := by
  obtain ⟨hheader, hbody⟩ := List.forall_mem_append.1 hn
  obtain ⟨body, hblock, hlines⟩ :=
    exists_lines_bracedBlock (Expr.laid_or_nil (fun h => d.body.laid h hbody) hd.2.2)
  have hne : d.header ≠ [] := List.append_ne_nil_of_right_ne_nil _ (List.cons_ne_nil _ _)
  have hfirst : WellLaid ([] ++ [d.header]) := wellLaid_plain (isPlain_of_mem_header hd hheader) hne
  refine ⟨body, hfirst.join hblock, ?_⟩
  rw [d.layout_eq, hlines]
  exact joinLines_append_joinLines [] d.header ['\x7b'] (body ++ [['\x7d']])

/-! ## Programs -/

/-- **The lines of a function.** The first is the header with the opening brace of the body, the
last is the closing brace, and an empty line stands in an empty block. -/
theorem Definition.splitLines_layout {d : Definition} (hd : d.Spellable)
    (hn : ∀ x ∈ d.headerNames ++ d.bodyNames, ∀ c ∈ x.toList, c ∉ Text.wordLineEnds) :
    (∃ body, splitLines d.layout = (d.header ++ ['\x7b']) :: (body ++ [['\x7d']])) ∧
      ∀ before after, splitLines d.layout = before ++ [] :: after → InEmptyBlock before after := by
  obtain ⟨body, hlaid, hlayout⟩ := Definition.wellLaid hd hn
  have hlines := hlaid.splitLines_joinLines
  rw [← hlayout] at hlines
  refine ⟨⟨body, hlines⟩, fun before after heq => ?_⟩
  have hshape := heq.symm.trans hlines
  have hchain := hlaid.chain
  rw [← hshape] at hchain
  refine inEmptyBlock hchain ?_ ?_
  · -- the first line is the header
    rintro rfl
    have hfirst := (List.cons.inj hshape).1
    simp at hfirst
  · -- the last line is a brace
    rintro rfl
    rw [← List.cons_append] at hshape
    have hlast := (List.append_inj' hshape rfl).2
    simp at hlast

/-- **The lines of a program** are those of its functions, with an empty line between two. -/
theorem Program.splitLines_layout {p : Program} (hp : ∀ d ∈ p.definitions, d.Spellable)
    (hn : ∀ d ∈ p.definitions, ∀ x ∈ d.headerNames ++ d.bodyNames,
      ∀ c ∈ x.toList, c ∉ Text.wordLineEnds) (hne : p.definitions ≠ []) :
    Complete (splitLines p.layout) ∧ splitLines p.layout =
      List.intercalate [[]] (p.definitions.map fun d => splitLines d.layout) := by
  have hlaid : ∀ d ∈ p.definitions, Complete (splitLines d.layout) ∧
      joinLines (splitLines d.layout) = d.layout := by
    intro d hd
    obtain ⟨body, hbody, hlayout⟩ := Definition.wellLaid (hp d hd) (hn d hd)
    rw [hlayout, hbody.splitLines_joinLines]
    exact ⟨hbody.complete, rfl⟩
  have hcomplete : ∀ lines ∈ p.definitions.map fun d => splitLines d.layout, Complete lines := by
    intro lines hlines
    obtain ⟨d, hd, rfl⟩ := List.mem_map.1 hlines
    exact (hlaid d hd).1
  have hwhole := intercalate_induction (fun _ _ => Complete.append) hcomplete (by simpa using hne)
  have hlayout : p.layout =
      joinLines (List.intercalate [[]] (p.definitions.map fun d => splitLines d.layout)) := by
    rw [joinLines_intercalate fun lines hlines => (hcomplete lines hlines).nonempty, List.map_map]
    exact congrArg _ (List.map_congr_left fun d hd => ((hlaid d hd).2).symm)
  rw [hlayout, splitLines_joinLines hwhole.unbroken hwhole.ended]
  exact ⟨hwhole, rfl⟩

/-- **The rules of the canonical text.** Every program that is read from a text can be formatted. If
none of its names holds one of the line ends that may stand in a word, then in the lines of the
canonical text every opening brace ends its line and every closing brace is the first character
after the tabs, each line that is not empty begins with as many tabs as there are braces open
before it, one less if it begins with a closing brace, and an empty line stands between two
functions, one only, or is the one line of an empty block. -/
theorem Program.format_indented {source path : String} {p : Program}
    (h : Program.parse (Token.scan source path) = .ok p) (hne : p.definitions ≠ [])
    (hn : ∀ d ∈ p.definitions, ∀ x ∈ d.headerNames ++ d.bodyNames,
      ∀ c ∈ x.toList, c ∉ Text.wordLineEnds) :
    ∃ text, p.format = .ok text ∧
      (∀ before line after, splitLines text.toList = before ++ line :: after →
        ∃ depth, before.flatten.count '\x7b' = before.flatten.count '\x7d' + depth ∧
          Ruled depth line) ∧
      splitLines text.toList =
        List.intercalate [[]] (p.definitions.map fun d => splitLines d.layout) ∧
      ∀ d ∈ p.definitions,
        (∃ body, splitLines d.layout = (d.header ++ ['\x7b']) :: (body ++ [['\x7d']])) ∧
        ∀ before after, splitLines d.layout = before ++ [] :: after →
          InEmptyBlock before after := by
  have hp := Program.spellable_of_parse h
  obtain ⟨hcomplete, hlines⟩ := Program.splitLines_layout hp hn hne
  refine ⟨String.ofList p.layout, Program.format_eq hp, ?_, ?_, fun d hd => ?_⟩
  · intro before line after heq
    rw [String.toList_ofList] at heq
    have hindented := hcomplete.indented
    rw [heq] at hindented
    exact hindented.ruled
  · rw [String.toList_ofList, hlines]
  · exact Definition.splitLines_layout (hp d hd) (hn d hd)

/-- A function with an empty block, and one with branches in a condition and in an argument. -/
theorem Program.format_indented_branches : ∃ p text,
    Program.parse (Token.scan
      "f() \x7b\x7d m(x) \x7bif if x \x7b1\x7d \x7bf(if x \x7b\x7d)\x7d else \x7bx\x7d\x7d" "s") = .ok p ∧
      p.format = .ok text ∧
      (∀ before line after, splitLines text.toList = before ++ line :: after →
        ∃ depth, before.flatten.count '\x7b' = before.flatten.count '\x7d' + depth ∧
          Ruled depth line) ∧
      splitLines text.toList =
        List.intercalate [[]] (p.definitions.map fun d => splitLines d.layout) := by
  have hp : Program.parse (Token.scan
      "f() \x7b\x7d m(x) \x7bif if x \x7b1\x7d \x7bf(if x \x7b\x7d)\x7d else \x7bx\x7d\x7d" "s") =
      .ok ⟨some ⟨"s", 1, 1⟩, [⟨some ⟨"s", 1, 1⟩, "f", [], .empty (some ⟨"s", 1, 5⟩)⟩,
        ⟨some ⟨"s", 1, 8⟩, "m", [⟨some ⟨"s", 1, 10⟩, "x"⟩],
          .branch (some ⟨"s", 1, 14⟩)
            (.branch (some ⟨"s", 1, 17⟩) (.var (some ⟨"s", 1, 20⟩) "x")
              (.literal (some ⟨"s", 1, 23⟩) 1) (.empty (some ⟨"s", 1, 17⟩)))
            (.call (some ⟨"s", 1, 27⟩) "f"
              [.branch (some ⟨"s", 1, 29⟩) (.var (some ⟨"s", 1, 32⟩) "x")
                (.empty (some ⟨"s", 1, 34⟩)) (.empty (some ⟨"s", 1, 29⟩))])
            (.var (some ⟨"s", 1, 45⟩) "x")⟩]⟩ := by cbv
  obtain ⟨text, htext, hruled, hlines, -⟩ :=
    Program.format_indented hp (List.cons_ne_nil _ _) (by
      intro d hd x hx
      have hnames : x = "m" ∨ x = "x" ∨ x = "f" := by
        rcases List.mem_pair.1 hd with rfl | rfl
        · refine .inr (.inr ?_)
          simpa [Definition.headerNames, Definition.parameterNames, Definition.bodyNames,
            Expr.names, Expr.variableNames, Expr.callees] using hx
        · simpa [Definition.headerNames, Definition.parameterNames, Definition.bodyNames,
            Expr.names, Expr.variableNames, Expr.callees, Expr.variableNamesIn, Expr.calleesIn]
            using hx
      rcases hnames with rfl | rfl | rfl
      · exact forall_mem_of_all (by decide)
      · exact forall_mem_of_all (by decide)
      · exact forall_mem_of_all (by decide))
  exact ⟨_, text, hp, htext, hruled, hlines⟩

end Wordlet
