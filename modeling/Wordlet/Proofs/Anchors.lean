import Wordlet.Proofs.Positions
import Wordlet.Proofs.WellFormed

/-!
# Where the nodes of a tree stand

Every report and every fault points at the location of some node. A node that was read from a text
stands at a token: a name at its word, a literal at its numeral, a branch at its `if`. A node that
is empty has no word of its own; it stands at the brace that opens its block, or at the `if` of the
branch whose `else` is missing.

* `Expression.anchored`, `Function.anchored`: **every node of a derived tree has its anchor** among
  the tokens, by induction on the derivation.
* `Expression.places_sublist`, `Function.places_sublist`: **reading keeps the order of the text**:
  in pre-order, the places of the nodes are among those of the tokens taken, each once.
* `Program.parse_anchored`: **names and locations of a tree agree with the text.**
-/

namespace Wordlet

open Text (IsNumeral)
open Grammar

/-! ## Anchors -/

namespace Grammar

/-- The word `w` stands among the tokens at the place `loc`. -/
def WordAt (tokens : List Token) (w : String) (loc : Option Location) : Prop :=
  ∃ l, loc = some l ∧ ⟨.word w, l⟩ ∈ tokens

/-- An empty block opens at the place `l`: the brace that closes it comes next. -/
def EmptyBlockAt (tokens : List Token) (l : Location) : Prop :=
  ∃ before cloc after,
    tokens = before ++ ⟨.symbol .openBrace, l⟩ :: ⟨.symbol .closeBrace, cloc⟩ :: after

/-- The `if` at the place `l` has no `else`: after its condition `c` and its block `t` comes
another token, or none. -/
def ElseMissingAt (tokens : List Token) (l : Location) (c t : Expr) : Prop :=
  ∃ before ts ts₁ rest, tokens = before ++ ⟨.word "if", l⟩ :: ts ∧ Expression ts c ts₁ ∧
    Block ts₁ t rest ∧ next rest ≠ some (.word "else")

/-- If the block `e` is empty, it stands where it opens. -/
def OpensAt (tokens : List Token) (e : Expr) : Prop :=
  ∀ loc, e = .empty loc → ∃ l, loc = some l ∧ EmptyBlockAt tokens l

end Grammar

/-- The node stands where the tokens say: a definition, a parameter, a call and a variable at a word
that is its name, a literal at a numeral of its value, a branch at an `if`, and an empty node at the
brace that opens an empty block or at an `if` without `else`. Which of these it is depends on where
the empty node is due: in the place of a body or of the first block of a branch it is its own brace;
in the place of the alternative of a branch it is its own brace, or the `if` of that very branch if
that has no `else`. A node that is no expression, parameter or definition stands nowhere. -/
def Expr.Anchored (tokens : List Token) : Expr → Prop
  | empty loc => ∃ l, loc = some l ∧
      (EmptyBlockAt tokens l ∨ ∃ c t, ElseMissingAt tokens l c t)
  | literal loc v => ∃ l w cs, loc = some l ∧ ⟨.word w, l⟩ ∈ tokens ∧ IsNumeral w cs ∧
      v = (Nat.ofDigitChars 10 cs 0 : Nat)
  | var loc x => WordAt tokens x loc
  | call loc f _ => WordAt tokens f loc
  | branch loc c t e => WordAt tokens "if" loc ∧ OpensAt tokens t ∧
      (OpensAt tokens e ∨ ∃ l, e = .empty (some l) ∧ loc = some l ∧ ElseMissingAt tokens l c t)
  | stray loc (.parameter x) _ => WordAt tokens x loc
  | stray loc (.definition f _) bodies => WordAt tokens f loc ∧ ∀ e ∈ bodies, OpensAt tokens e
  | stray _ .program _ | stray _ (.other _) _ => False

/-- The nodes of a definition: itself, its parameters, and those of its body. -/
def Definition.nodes (d : Definition) : List Expr :=
  d.toExpr :: (d.parameters.map Parameter.toExpr ++ d.body.nodes)

/-- The nodes of a program below its root, each before its parts, in the order of the text. -/
def Program.nodes (p : Program) : List Expr := p.definitions.flatMap Definition.nodes

namespace Grammar

variable {tokens ts rest : List Token}

theorem wordAt_of_suffix {w : String} {loc : Location} (h : ⟨.word w, loc⟩ :: ts <:+ tokens) :
    WordAt tokens w (some loc) :=
  ⟨loc, rfl, h.subset List.mem_cons_self⟩

theorem suffix_of_cons {t : Token} (h : t :: ts <:+ tokens) : ts <:+ tokens :=
  (List.suffix_cons t ts).trans h

theorem Expression.opensAt {e : Expr} (h : Expression ts e rest) : OpensAt tokens e := by
  rintro loc rfl
  cases h

mutual

/-- **Every node of a derived expression has its anchor.** -/
theorem Expression.anchored {ts rest : List Token} {e : Expr} (h : Expression ts e rest)
    (hts : ts <:+ tokens) : ∀ a ∈ e.nodes, a.Anchored tokens := by
  match h with
  | .literal hw _ =>
    rw [Expr.nodes, List.forall_mem_singleton]
    exact ⟨_, _, _, rfl, hts.subset List.mem_cons_self, hw, rfl⟩
  | .var _ _ =>
    rw [Expr.nodes, List.forall_mem_singleton]
    exact wordAt_of_suffix hts
  | .call _ ha =>
    rw [Expr.nodes, List.forall_mem_cons]
    exact ⟨wordAt_of_suffix hts, ha.anchored (suffix_of_cons (suffix_of_cons hts))⟩
  | @Expression.branch loc _ _ _ c t hc ht hne =>
    have hcond := suffix_of_cons hts
    obtain ⟨hthen, hopens⟩ := ht.anchored (hc.suffix.trans hcond)
    -- the empty alternative stands at the `if`, which has no `else`
    have hmissing : ElseMissingAt tokens loc c t := by
      obtain ⟨before, hbefore⟩ := hts
      exact ⟨before, _, _, _, hbefore.symm, hc, ht, hne⟩
    rw [Expr.nodes, List.forall_mem_cons, List.forall_mem_append, List.forall_mem_append,
      Expr.nodes, List.forall_mem_singleton]
    exact ⟨⟨wordAt_of_suffix hts, hopens, .inr ⟨loc, rfl, rfl, hmissing⟩⟩,
      ⟨hc.anchored hcond, hthen⟩, loc, rfl, .inr ⟨c, t, hmissing⟩⟩
  | .branchElse hc ht he =>
    have hcond := suffix_of_cons hts
    have hblock := hc.suffix.trans hcond
    obtain ⟨hthen, hopens⟩ := ht.anchored hblock
    obtain ⟨helse, hopens'⟩ := he.anchored (suffix_of_cons (ht.suffix.trans hblock))
    rw [Expr.nodes, List.forall_mem_cons, List.forall_mem_append, List.forall_mem_append]
    exact ⟨⟨wordAt_of_suffix hts, hopens, .inl hopens'⟩, ⟨hc.anchored hcond, hthen⟩, helse⟩

theorem Block.anchored {ts rest : List Token} {e : Expr} (h : Block ts e rest)
    (hts : ts <:+ tokens) : (∀ a ∈ e.nodes, a.Anchored tokens) ∧ OpensAt tokens e := by
  match h with
  | .empty =>
    obtain ⟨before, hbefore⟩ := hts
    have hopens : EmptyBlockAt tokens _ := ⟨before, _, _, hbefore.symm⟩
    rw [Expr.nodes, List.forall_mem_singleton]
    refine ⟨⟨_, rfl, .inl hopens⟩, ?_⟩
    rintro loc ⟨⟩
    exact ⟨_, rfl, hopens⟩
  | .expression he => exact ⟨he.anchored (suffix_of_cons hts), he.opensAt⟩

theorem Arguments.anchored {ts rest : List Token} {es : List Expr} (h : Arguments ts es rest)
    (hts : ts <:+ tokens) : ∀ a ∈ Expr.nodesIn es, a.Anchored tokens := by
  match h with
  | .close => simp [Expr.nodesIn]
  | .plain he ha =>
    rw [Expr.nodesIn, List.forall_mem_append]
    exact ⟨he.anchored hts, ha.anchored (he.suffix.trans hts)⟩
  | .comma he ha =>
    rw [Expr.nodesIn, List.forall_mem_append]
    exact ⟨he.anchored hts, ha.anchored (suffix_of_cons (he.suffix.trans hts))⟩

end

theorem Parameters.anchored {ps : List Parameter} (h : Parameters ts ps rest)
    (hts : ts <:+ tokens) : ∀ a ∈ ps.map Parameter.toExpr, a.Anchored tokens := by
  induction h with
  | close => simp
  | plain _ ih =>
    rw [List.map_cons, List.forall_mem_cons]
    exact ⟨wordAt_of_suffix hts, ih (suffix_of_cons hts)⟩
  | comma _ ih =>
    rw [List.map_cons, List.forall_mem_cons]
    exact ⟨wordAt_of_suffix hts, ih (suffix_of_cons (suffix_of_cons hts))⟩

theorem Function.anchored {d : Definition} (h : Function ts d rest) (hts : ts <:+ tokens) :
    ∀ a ∈ d.nodes, a.Anchored tokens := by
  obtain ⟨hp, hb⟩ := h
  have hparams := suffix_of_cons (suffix_of_cons hts)
  obtain ⟨hbody, hopens⟩ := hb.anchored (hp.suffix.trans hparams)
  rw [Definition.nodes, List.forall_mem_cons, List.forall_mem_append]
  exact ⟨⟨wordAt_of_suffix hts, List.forall_mem_singleton.2 hopens⟩, hp.anchored hparams, hbody⟩

theorem Functions.anchored {ds : List Definition} (h : Functions ts ds) (hts : ts <:+ tokens) :
    ∀ a ∈ ds.flatMap Definition.nodes, a.Anchored tokens := by
  induction h with
  | nil => simp
  | cons hf _ ih =>
    rw [List.flatMap_cons, List.forall_mem_append]
    exact ⟨hf.anchored hts, ih (hf.suffix.trans hts)⟩

end Grammar

/-! ## The order of the text -/

/-- The places of the nodes that are not empty. -/
def places (as : List Expr) : List (Option Location) :=
  (as.filter fun a => !a.isEmpty).map Expr.loc

@[simp] theorem places_append (as bs : List Expr) : places (as ++ bs) = places as ++ places bs := by
  simp [places]

theorem places_cons {a : Expr} (h : a.isEmpty = false) (as : List Expr) :
    places (a :: as) = a.loc :: places as := by
  simp [places, h]

theorem places_empty (loc : Option Location) : places [.empty loc] = [] := rfl

/-- The places of tokens. -/
def tokenPlaces (ts : List Token) : List (Option Location) := ts.map fun t => some t.loc

theorem tokenPlaces_cons (t : Token) (ts : List Token) :
    tokenPlaces (t :: ts) = some t.loc :: tokenPlaces ts := rfl

namespace Grammar

variable {ts rest : List Token}

mutual

/-- **Reading keeps the order of the text.** The places of the nodes of an expression, in pre-order,
and those of the tokens left after it are places of the tokens, in their order and each once. -/
theorem Expression.places_sublist {ts rest : List Token} {e : Expr} (h : Expression ts e rest) :
    (places e.nodes ++ tokenPlaces rest).Sublist (tokenPlaces ts) := by
  match h with
  | .literal _ _ => exact List.Sublist.refl _
  | .var _ _ => exact List.Sublist.refl _
  | .call _ ha =>
    rw [Expr.nodes, places_cons rfl, tokenPlaces_cons, tokenPlaces_cons, List.cons_append]
    exact (ha.places_sublist.cons _).cons_cons _
  | .branch hc ht _ =>
    have hparts := (ht.places_sublist.append_left _).trans hc.places_sublist
    rw [Expr.nodes, places_cons rfl, places_append, places_append, Expr.nodes, places_empty,
      List.append_nil, tokenPlaces_cons, List.cons_append, List.append_assoc]
    exact hparts.cons_cons _
  | .branchElse hc ht he =>
    have hblocks := ((he.places_sublist.cons _).append_left _).trans ht.places_sublist
    have hparts := (hblocks.append_left _).trans hc.places_sublist
    rw [Expr.nodes, places_cons rfl, places_append, places_append, tokenPlaces_cons,
      List.cons_append, List.append_assoc, List.append_assoc]
    exact hparts.cons_cons _

theorem Block.places_sublist {ts rest : List Token} {e : Expr} (h : Block ts e rest) :
    (places e.nodes ++ tokenPlaces rest).Sublist (tokenPlaces ts) := by
  match h with
  | .empty =>
    rw [Expr.nodes, places_empty, List.nil_append, tokenPlaces_cons, tokenPlaces_cons]
    exact ((List.Sublist.refl _).cons _).cons _
  | @Block.expression _ cloc _ _ _ he =>
    have hclose := ((List.Sublist.refl (tokenPlaces rest)).cons (some cloc)).append_left
      (places e.nodes)
    exact (hclose.trans he.places_sublist).cons _

theorem Arguments.places_sublist {ts rest : List Token} {es : List Expr}
    (h : Arguments ts es rest) :
    (places (Expr.nodesIn es) ++ tokenPlaces rest).Sublist (tokenPlaces ts) := by
  match h with
  | .close => exact (List.Sublist.refl _).cons _
  | .plain he ha =>
    rw [Expr.nodesIn, places_append, List.append_assoc]
    exact (ha.places_sublist.append_left _).trans he.places_sublist
  | .comma he ha =>
    rw [Expr.nodesIn, places_append, List.append_assoc]
    exact ((ha.places_sublist.cons _).append_left _).trans he.places_sublist

end

theorem Parameters.places_sublist {ps : List Parameter} (h : Parameters ts ps rest) :
    (places (ps.map Parameter.toExpr) ++ tokenPlaces rest).Sublist (tokenPlaces ts) := by
  induction h with
  | close => exact (List.Sublist.refl _).cons _
  | plain _ ih =>
    rw [List.map_cons, places_cons rfl, List.cons_append, tokenPlaces_cons]
    exact ih.cons_cons _
  | comma _ ih =>
    rw [List.map_cons, places_cons rfl, List.cons_append, tokenPlaces_cons, tokenPlaces_cons]
    exact (ih.cons _).cons_cons _

theorem Function.places_sublist {d : Definition} (h : Function ts d rest) :
    (places d.nodes ++ tokenPlaces rest).Sublist (tokenPlaces ts) := by
  obtain ⟨hp, hb⟩ := h
  have hparts := (hb.places_sublist.append_left _).trans hp.places_sublist
  rw [Definition.nodes, places_cons rfl, places_append, tokenPlaces_cons, tokenPlaces_cons,
    List.cons_append, List.append_assoc]
  exact (hparts.cons _).cons_cons _

theorem Functions.places_sublist {ds : List Definition} (h : Functions ts ds) :
    (places (ds.flatMap Definition.nodes)).Sublist (tokenPlaces ts) := by
  induction h with
  | nil => exact List.Sublist.refl _
  | cons hf _ ih =>
    rw [List.flatMap_cons, places_append]
    exact (ih.append_left _).trans hf.places_sublist

end Grammar

/-- **Names and locations of a tree agree with the text.** Let a text be read as a program. Every
node of the program has its anchor among the tokens of the text: definitions, parameters, calls and
variables stand at words that are their names, literals at numerals of their values, branches at
words `if`, and empty nodes at the brace that opens their block or at the `if` whose `else` is
missing. And the places of the nodes that are not empty, listed with each node before its parts,
come one after the other in the text, so that no two of these nodes stand at the same place. -/
theorem Program.parse_anchored {source path : String} {p : Program}
    (h : Program.parse (Token.scan source path) = .ok p) :
    (∀ a ∈ p.nodes, a.Anchored (Token.scan source path)) ∧
      ∃ locs : List Location, (p.nodes.filter fun a => !a.isEmpty).map Expr.loc = locs.map some ∧
        locs.Pairwise Location.Before ∧ locs.Nodup := by
  obtain ⟨⟨-, hds⟩, -⟩ := Program.parse_eq_ok_iff.1 h
  refine ⟨hds.anchored (List.suffix_refl _), ?_⟩
  have hmap : tokenPlaces (Token.scan source path) =
      ((Token.scan source path).map (·.loc)).map some := by
    rw [List.map_map]
    rfl
  have hsub := hds.places_sublist
  rw [hmap] at hsub
  obtain ⟨locs, hlocs, heq⟩ := List.sublist_map_iff.1 hsub
  have horder : locs.Pairwise Location.Before :=
    (List.pairwise_map.2 (Token.scan_pairwise source path)).sublist hlocs
  exact ⟨locs, heq, horder, horder.imp Location.Before.ne⟩

/-- A branch without `else` whose block is empty, over several lines: both empty nodes have their
anchors, and the other nodes stand in the order of the text. -/
theorem Program.parse_anchored_branch :
    ∃ p locs,
      Program.parse (Token.scan "f(x)\n\x7b\n\tif g(+07, x)\n\t\x7b\x7d\n\x7d" "s") = .ok p ∧
      (∀ a ∈ p.nodes, a.Anchored
        (Token.scan "f(x)\n\x7b\n\tif g(+07, x)\n\t\x7b\x7d\n\x7d" "s")) ∧
      Expr.empty (some ⟨"s", 4, 5⟩) ∈ p.nodes ∧ Expr.empty (some ⟨"s", 3, 5⟩) ∈ p.nodes ∧
      locs = [⟨"s", 1, 1⟩, ⟨"s", 1, 3⟩, ⟨"s", 3, 5⟩, ⟨"s", 3, 8⟩, ⟨"s", 3, 10⟩, ⟨"s", 3, 15⟩] ∧
      (p.nodes.filter fun a => !a.isEmpty).map Expr.loc = locs.map some ∧
      locs.Pairwise Location.Before ∧ locs.Nodup := by
  have hp : Program.parse
      (Token.scan "f(x)\n\x7b\n\tif g(+07, x)\n\t\x7b\x7d\n\x7d" "s") = .ok
      ⟨some ⟨"s", 1, 1⟩, [⟨some ⟨"s", 1, 1⟩, "f", [⟨some ⟨"s", 1, 3⟩, "x"⟩],
        .branch (some ⟨"s", 3, 5⟩)
          (.call (some ⟨"s", 3, 8⟩) "g"
            [.literal (some ⟨"s", 3, 10⟩) 7, .var (some ⟨"s", 3, 15⟩) "x"])
          (.empty (some ⟨"s", 4, 5⟩)) (.empty (some ⟨"s", 3, 5⟩))⟩]⟩ := by cbv
  obtain ⟨hanchored, locs, hlocs, horder, hnodup⟩ := Program.parse_anchored hp
  refine ⟨_, locs, hp, hanchored, ?_, ?_, ?_, hlocs, horder, hnodup⟩
  · simp [Program.nodes, Definition.nodes, Expr.nodes, Expr.nodesIn]
  · simp [Program.nodes, Definition.nodes, Expr.nodes, Expr.nodesIn]
  · exact (List.map_inj_right fun _ _ => Option.some.inj).1 (hlocs.symm.trans rfl)

end Wordlet
