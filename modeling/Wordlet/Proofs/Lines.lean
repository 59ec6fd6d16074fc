import Wordlet.Digraph
import Wordlet.Proofs.Layout

/-!
# Texts of lines

A text whose line ends are newlines is the text of its lines. Said on lines, moving a text in puts
a tab before each line that is not empty, and two texts that follow each other share a line.

* `Text.splitLines_joinLines`: **the lines of a text of lines** are these, if none holds a line end
  and the last is not empty.
* `Text.indent_joinLines`: moving in, line by line.
* `Text.joinLines_append_joinLines`: where one text ends and the next begins is one line.
* `Text.bracedBlock_joinLines`, `Text.bracedBlock_nil`: the lines of a block.
-/

namespace Wordlet

namespace Text

open Wordlet.Digraph (joinLines)

variable {lines : List (List Char)}

/-- No line holds a line end. -/
def Unbroken (lines : List (List Char)) : Prop := ∀ line ∈ lines, ∀ c ∈ line, isLineEnd c = false

theorem joinLines_cons (line : List Char) (lines : List (List Char)) :
    joinLines (line :: lines) = line ++ lines.flatMap ('\n' :: ·) :=
  intercalate_newline line lines

/-- A newline between two texts ends the last line of the one and begins the first of the other. -/
theorem joinLines_append {before after : List (List Char)} (hb : before ≠ []) (ha : after ≠ []) :
    joinLines (before ++ after) = joinLines before ++ '\n' :: joinLines after := by
  obtain ⟨first, rest, rfl⟩ := List.exists_cons_of_ne_nil hb
  obtain ⟨line, lines, rfl⟩ := List.exists_cons_of_ne_nil ha
  rw [List.cons_append, joinLines_cons, joinLines_cons, joinLines_cons, List.flatMap_append,
    List.flatMap_cons]
  simp only [List.append_assoc, List.cons_append]

/-- **Where one text ends and the next begins** is one line. -/
theorem joinLines_append_joinLines (before : List (List Char)) (a b : List Char)
    (after : List (List Char)) :
    joinLines (before ++ [a]) ++ joinLines (b :: after) =
      joinLines (before ++ (a ++ b) :: after) := by
  have hjoin : joinLines [a] ++ joinLines (b :: after) = joinLines ((a ++ b) :: after) := by
    rw [joinLines_cons, joinLines_cons, joinLines_cons]
    simp only [List.flatMap_nil, List.append_nil, List.append_assoc]
  by_cases hne : before = []
  · rw [hne]
    exact hjoin
  · rw [joinLines_append hne (List.cons_ne_nil a []), List.append_assoc, List.cons_append, hjoin,
      joinLines_append hne (List.cons_ne_nil (a ++ b) after)]

/-- What holds of texts and of two with an empty line between them holds of all of them with empty
lines between. -/
theorem intercalate_induction {P : List (List Char) → Prop} {texts : List (List (List Char))}
    (step : ∀ lines lines', P lines → P lines' → P (lines ++ [[]] ++ lines'))
    (h : ∀ lines ∈ texts, P lines) (hne : texts ≠ []) : P (List.intercalate [[]] texts) := by
  induction texts with
  | nil => exact absurd rfl hne
  | cons lines texts ih =>
    obtain ⟨hlines, hrest⟩ := List.forall_mem_cons.1 h
    cases texts with
    | nil => simpa using hlines
    | cons lines' texts =>
      rw [List.intercalate_cons_cons]
      exact step _ _ hlines (ih hrest (List.cons_ne_nil lines' texts))

/-- The text of texts with an empty line between them. -/
theorem joinLines_intercalate {texts : List (List (List Char))}
    (h : ∀ lines ∈ texts, lines ≠ []) : joinLines (List.intercalate [[]] texts) =
      List.intercalate ['\n', '\n'] (texts.map joinLines) := by
  induction texts with
  | nil => rfl
  | cons lines texts ih =>
    obtain ⟨hlines, hrest⟩ := List.forall_mem_cons.1 h
    cases texts with
    | nil => simp
    | cons lines' texts =>
      have hmore : List.intercalate [[]] (lines' :: texts) ≠ [] :=
        intercalate_induction (fun _ _ hne _ => by simp) hrest (List.cons_ne_nil lines' texts)
      have hline := joinLines_append (List.cons_ne_nil [] []) hmore
      have hfirst := joinLines_append hlines (List.append_ne_nil_of_right_ne_nil [[]] hmore)
      rw [List.intercalate_cons_cons, List.append_assoc, hfirst, hline, ih hrest]
      simp only [List.map_cons, List.intercalate_cons_cons, List.append_assoc]
      rfl

/-! ## The lines of a text -/

/-- A text without line ends goes to the front of the line after it. -/
theorem foldr_consLines_append {cs : List Char} (h : ∀ c ∈ cs, isLineEnd c = false)
    (line : List Char) (lines : List (List Char)) :
    cs.foldr consLines (line :: lines) = (cs ++ line) :: lines := by
  induction cs with
  | nil => rfl
  | cons c cs ih =>
    obtain ⟨hc, hcs⟩ := List.forall_mem_cons.1 h
    rw [List.foldr_cons, ih hcs, consLines, if_neg (by simp [hc])]
    rfl

/-- A text without line ends is one line, if it is not empty. -/
theorem foldr_consLines_nil {cs : List Char} (h : ∀ c ∈ cs, isLineEnd c = false) (hne : cs ≠ []) :
    cs.foldr consLines [] = [cs] := by
  induction cs with
  | nil => exact absurd rfl hne
  | cons c cs ih =>
    obtain ⟨hc, hcs⟩ := List.forall_mem_cons.1 h
    cases cs with
    | nil => simp [consLines, hc]
    | cons d cs =>
      rw [List.foldr_cons, ih hcs (List.cons_ne_nil d cs), consLines, if_neg (by simp [hc])]

theorem mem_joinLines {c : Char} (h : c ∈ joinLines lines) :
    c = '\n' ∨ ∃ line ∈ lines, c ∈ line :=
  (mem_intercalate h).imp_left List.mem_singleton.1

/-- **The lines of a text of lines.** The newline that would end an empty last line ends the line
before it. -/
theorem splitLines_joinLines (h : Unbroken lines) (hlast : lines.getLast? ≠ some []) :
    splitLines (joinLines lines) = lines := by
  have hcr : '\r' ∉ joinLines lines := by
    intro hm
    rcases mem_joinLines hm with hc | ⟨line, hline, hc⟩
    · exact absurd hc (by decide)
    · exact absurd (h line hline _ hc) (by decide)
  rw [splitLines, unifyNewlines_eq hcr]
  clear hcr
  induction lines with
  | nil => rfl
  | cons line lines ih =>
    obtain ⟨hline, hlines⟩ := List.forall_mem_cons.1 h
    cases lines with
    | nil =>
      have hne : line ≠ [] := fun hne => hlast (by rw [hne]; rfl)
      rw [joinLines_cons, List.flatMap_nil, List.append_nil]
      exact foldr_consLines_nil hline hne
    | cons l lines =>
      rw [List.getLast?_cons_cons] at hlast
      have hrest := ih hlines hlast
      have hnewline : consLines '\n' (l :: lines) = [] :: l :: lines := if_pos rfl
      have hsplit := joinLines_append (List.cons_ne_nil line []) (List.cons_ne_nil l lines)
      rw [← List.singleton_append, hsplit, List.foldr_append, List.foldr_cons, hrest, hnewline,
        joinLines_cons, List.flatMap_nil, List.append_nil, foldr_consLines_append hline,
        List.append_nil, List.singleton_append]

/-- **Moving in, line by line.** -/
theorem indent_joinLines (h : Unbroken lines) (hlast : lines.getLast? ≠ some []) :
    indent (joinLines lines) = joinLines (lines.map indentLine) := by
  unfold indent
  rw [splitLines_joinLines h hlast]
  rfl

theorem Unbroken.join {before after : List (List Char)} {a b : List Char}
    (h : Unbroken (before ++ [a])) (h' : Unbroken (b :: after)) :
    Unbroken (before ++ (a ++ b) :: after) := by
  unfold Unbroken at h h' ⊢
  rw [List.forall_mem_append] at h ⊢
  rw [List.forall_mem_cons] at h' ⊢
  obtain ⟨hbefore, ha⟩ := h
  obtain ⟨hb, hafter⟩ := h'
  exact ⟨hbefore, List.forall_mem_append.2 ⟨ha a (.head _), hb⟩, hafter⟩

theorem Unbroken.indentLine (h : Unbroken lines) : Unbroken (lines.map indentLine) := by
  intro line hline c hc
  obtain ⟨l, hl, rfl⟩ := List.mem_map.1 hline
  rcases mem_indentLine hc with rfl | hc
  · rfl
  · exact h l hl c hc

/-! ## The lines of a block -/

/-- **The lines of a block** of a text of lines. -/
theorem bracedBlock_joinLines {lines : List (List Char)} (h : Unbroken lines)
    (hlast : lines.getLast? ≠ some []) (hne : lines ≠ []) :
    bracedBlock (joinLines lines) =
      joinLines (['\x7b'] :: (lines.map indentLine ++ [['\x7d']])) := by
  have hmap : lines.map indentLine ≠ [] := by simpa using hne
  have hclose := joinLines_append hmap (List.cons_ne_nil ['\x7d'] [])
  have hopen := joinLines_append (List.cons_ne_nil ['\x7b'] [])
    (List.append_ne_nil_of_left_ne_nil hmap [['\x7d']])
  rw [List.singleton_append, hclose] at hopen
  rw [bracedBlock, indent_joinLines h hlast, hopen]
  rfl

/-- An empty block has one line, which is empty. -/
theorem bracedBlock_nil : bracedBlock [] = joinLines [['\x7b'], [], ['\x7d']] := rfl

end Text

end Wordlet
