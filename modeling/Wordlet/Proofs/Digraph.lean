import Wordlet.Proofs.Lines

/-!
# Graphs are told by their texts

Quoted names may hold anything, the signs of the format and newlines included, so the text of a
graph cannot be cut at its newlines. It can be read from its front: a quoted name ends at the first
double quote that no backslash stands before, and after each line the next character says whether
another line of its kind follows.

* `quote_selfDelimiting`: **a quoted name tells where it ends.**
* `pair_selfDelimiting`: so does a line made of two names and fixed signs.
* `joinLines_inj`: **lines with newlines between them**, if what follows begins no further one.
* `text_eq_iff`: **graphs with the same text are the same graph.**
-/

namespace Wordlet.Digraph

/-- The text of a value tells where it ends: in front of whatever texts, two values with the same
characters are the same, and so is what follows them. -/
def SelfDelimiting {α : Type} (text : α → List Char) : Prop :=
  ∀ a b r s, text a ++ r = text b ++ s → a = b ∧ r = s

/-! ## Quoted names -/

theorem quoteChar_of_special {c : Char} (h : c = '\\' ∨ c = '"') : quoteChar c = ['\\', c] :=
  if_pos h

theorem quoteChar_of_not_special {c : Char} (h : ¬(c = '\\' ∨ c = '"')) : quoteChar c = [c] :=
  if_neg h

/-- No character is written as a double quote alone, which ends the name. -/
theorem quoteChar_append_ne (c : Char) (r s : List Char) : quoteChar c ++ r ≠ '"' :: s := by
  intro h
  by_cases hc : c = '\\' ∨ c = '"'
  · rw [quoteChar_of_special hc] at h
    simp at h
  · rw [quoteChar_of_not_special hc, List.singleton_append] at h
    exact hc (.inr (List.cons.inj h).1)

/-- **A written character tells where it ends.** -/
theorem quoteChar_selfDelimiting : SelfDelimiting quoteChar := by
  intro c d r s h
  by_cases hc : c = '\\' ∨ c = '"'
  · by_cases hd : d = '\\' ∨ d = '"'
    · rw [quoteChar_of_special hc, quoteChar_of_special hd] at h
      simpa using h
    · -- the backslash before `c` cannot be the character `d`, which would have one too
      rw [quoteChar_of_special hc, quoteChar_of_not_special hd] at h
      exact absurd (.inl (List.cons.inj h).1.symm) hd
  · by_cases hd : d = '\\' ∨ d = '"'
    · rw [quoteChar_of_not_special hc, quoteChar_of_special hd] at h
      exact absurd (.inl (List.cons.inj h).1) hc
    · rw [quoteChar_of_not_special hc, quoteChar_of_not_special hd] at h
      simpa using h

/-- Written characters up to the double quote that ends them. -/
theorem flatMap_quoteChar_inj {cs ds r s : List Char}
    (h : cs.flatMap quoteChar ++ '"' :: r = ds.flatMap quoteChar ++ '"' :: s) :
    cs = ds ∧ r = s := by
  induction cs generalizing ds with
  | nil =>
    cases ds with
    | nil => exact ⟨rfl, (List.cons.inj h).2⟩
    | cons d ds =>
      rw [List.flatMap_cons, List.append_assoc] at h
      exact absurd h.symm (quoteChar_append_ne d _ _)
  | cons c cs ih =>
    cases ds with
    | nil =>
      rw [List.flatMap_cons, List.append_assoc] at h
      exact absurd h (quoteChar_append_ne c _ _)
    | cons d ds =>
      rw [List.flatMap_cons, List.flatMap_cons, List.append_assoc, List.append_assoc] at h
      obtain ⟨hhead, htail⟩ := quoteChar_selfDelimiting c d _ _ h
      obtain ⟨hcs, hrest⟩ := ih htail
      exact ⟨by rw [hhead, hcs], hrest⟩

/-- **A quoted name tells where it ends.** -/
theorem quote_selfDelimiting : SelfDelimiting quote := by
  intro name name' r s h
  simp only [quote, List.cons_append, List.append_assoc, List.nil_append] at h
  obtain ⟨hname, hrest⟩ := flatMap_quoteChar_inj (List.cons.inj h).2
  exact ⟨String.toList_inj.1 hname, hrest⟩

/-! ## Lines -/

/-- **A line made of two quoted names** and fixed signs tells where it ends. -/
theorem pair_selfDelimiting (middle last : List Char) :
    SelfDelimiting fun names : String × String =>
      '\t' :: (quote names.1 ++ middle ++ quote names.2 ++ last) := by
  intro names names' r s h
  simp only [List.cons_append, List.append_assoc] at h
  obtain ⟨hfirst, hmiddle⟩ := quote_selfDelimiting _ _ _ _ (List.cons.inj h).2
  obtain ⟨hsecond, hlast⟩ := quote_selfDelimiting _ _ _ _ (List.append_cancel_left hmiddle)
  exact ⟨Prod.ext hfirst hsecond, List.append_cancel_left hlast⟩

theorem nodeLine_selfDelimiting : SelfDelimiting nodeLine := pair_selfDelimiting _ _

theorem edgeLine_selfDelimiting : SelfDelimiting edgeLine := pair_selfDelimiting _ _

/-- A node is no edge: what follows its first name differs. -/
theorem edgeLine_append_ne (edge node : String × String) (r s : List Char) :
    edgeLine edge ++ r ≠ nodeLine node ++ s := by
  intro h
  simp only [edgeLine, nodeLine, List.cons_append, List.append_assoc] at h
  obtain ⟨-, hsigns⟩ := quote_selfDelimiting _ _ _ _ (List.cons.inj h).2
  simp at hsigns

section Lines

variable {α : Type} {line : α → List Char}

/-- The text begins no line. -/
def EndsLines (line : α → List Char) (r : List Char) : Prop := ∀ a s, r ≠ line a ++ s

/-- The lines after a first one, each after a newline. -/
theorem flatMap_line_inj (hline : SelfDelimiting line) {r s : List Char} (hr : EndsLines line r)
    (hs : EndsLines line s) {as bs : List α}
    (h : as.flatMap ('\n' :: line ·) ++ '\n' :: r = bs.flatMap ('\n' :: line ·) ++ '\n' :: s) :
    as = bs ∧ r = s := by
  induction as generalizing bs with
  | nil =>
    cases bs with
    | nil => exact ⟨rfl, (List.cons.inj h).2⟩
    | cons b bs =>
      rw [List.flatMap_cons, List.append_assoc] at h
      exact absurd (List.cons.inj h).2 (hr b _)
  | cons a as ih =>
    cases bs with
    | nil =>
      rw [List.flatMap_cons, List.append_assoc] at h
      exact absurd (List.cons.inj h).2.symm (hs a _)
    | cons b bs =>
      rw [List.flatMap_cons, List.flatMap_cons, List.append_assoc, List.append_assoc] at h
      obtain ⟨hhead, htail⟩ := hline a b _ _ (List.cons.inj h).2
      obtain ⟨has, hrest⟩ := ih htail
      exact ⟨by rw [hhead, has], hrest⟩

/-- **Lines with newlines between them**, and a newline before a text that begins no further line.
Whether there are any shows in the first character: a newline, or the tab of a line. -/
theorem joinLines_inj (hline : SelfDelimiting line) (htab : ∀ a, (line a).head? = some '\t')
    {r s : List Char} (hr : EndsLines line r) (hs : EndsLines line s) {as bs : List α}
    (h : joinLines (as.map line) ++ '\n' :: r = joinLines (bs.map line) ++ '\n' :: s) :
    as = bs ∧ r = s := by
  have hne : ∀ a t u, line a ++ t ≠ '\n' :: u := by
    intro a t u heq
    have hhead := congrArg List.head? heq
    rw [List.head?_append, htab a] at hhead
    simp at hhead
  cases as with
  | nil =>
    cases bs with
    | nil => exact ⟨rfl, (List.cons.inj h).2⟩
    | cons b bs =>
      rw [List.map_cons, Text.joinLines_cons, List.append_assoc] at h
      exact absurd h.symm (hne b _ _)
  | cons a as =>
    cases bs with
    | nil =>
      rw [List.map_cons, Text.joinLines_cons, List.append_assoc] at h
      exact absurd h (hne a _ _)
    | cons b bs =>
      rw [List.map_cons, List.map_cons, Text.joinLines_cons, Text.joinLines_cons,
        List.append_assoc, List.append_assoc, List.flatMap_map, List.flatMap_map] at h
      obtain ⟨hhead, htail⟩ := hline a b _ _ h
      obtain ⟨has, hrest⟩ := flatMap_line_inj hline hr hs htail
      exact ⟨by rw [hhead, has], hrest⟩

end Lines

/-- The brace that ends a graph begins no edge. -/
theorem endsLines_brace : EndsLines edgeLine ['\x7d'] := by
  intro edge s h
  have htab := (List.cons.inj h).1
  simp at htab

/-- Neither an edge nor the end of a graph begins a node. -/
theorem endsLines_edges (edges : List (String × String)) (r : List Char) :
    EndsLines nodeLine (joinLines (edges.map edgeLine) ++ '\n' :: r) := by
  intro node s h
  cases edges with
  | nil =>
    have htab := (List.cons.inj h).1
    simp at htab
  | cons edge edges =>
    rw [List.map_cons, joinLines, Text.intercalate_newline, List.append_assoc] at h
    exact edgeLine_append_ne edge node _ _ h

/-- The parts of the text of a graph, from its front. -/
theorem layout_eq (g : Digraph) :
    g.layout = "digraph ".toList ++ (quote g.title ++ (" \x7b\n".toList ++
      (joinLines (g.nodes.map nodeLine) ++ '\n' ::
        (joinLines (g.edges.map edgeLine) ++ '\n' :: ['\x7d'])))) := by
  have hbrace : "\n\x7d".toList = '\n' :: ['\x7d'] := rfl
  unfold layout body
  rw [hbrace, List.append_assoc, List.append_assoc]

/-- **Graphs with the same text are the same graph**: they have the same title, the same nodes and
the same edges, each in the same order, whatever their names are. -/
theorem text_eq_iff (g g' : Digraph) : g.text = g'.text ↔ g = g' := by
  constructor
  · intro h
    have hlayout : g.layout = g'.layout := String.ofList_injective h
    rw [layout_eq, layout_eq] at hlayout
    obtain ⟨htitle, hbody⟩ := quote_selfDelimiting _ _ _ _ (List.append_cancel_left hlayout)
    have hlines := List.append_cancel_left hbody
    -- the nodes end where an edge or the end of the graph begins, and the edges at its brace
    obtain ⟨hnodes, hrest⟩ := joinLines_inj nodeLine_selfDelimiting (fun _ => rfl)
      (endsLines_edges g.edges _) (endsLines_edges g'.edges _) hlines
    obtain ⟨hedges, -⟩ := joinLines_inj edgeLine_selfDelimiting (fun _ => rfl)
      endsLines_brace endsLines_brace hrest
    cases g
    cases g'
    rw [mk.injEq]
    exact ⟨htitle, hnodes, hedges⟩
  · intro h
    rw [h]

/-- Signs in a name are told from those around it by their backslashes, and a newline in a name
begins no line. -/
example : (⟨"a\" [label=\"a\"];", [("b", "\n")], []⟩ : Digraph).text =
    "digraph \"a\\\" [label=\\\"a\\\"];\" \x7b\n\t\"b\" [label=\"\n\"];\n\n\x7d" := by decide

end Wordlet.Digraph
