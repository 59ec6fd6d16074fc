import Wordlet.Proofs.Reports

/-!
# Calls in the order of the text

Whether a word stands for something that is defined or called shows in the next token, which then is
an opening parenthesis, and which of the two it is shows in the braces: definitions stand outside of
them and calls inside. So the call graph of a program that was read from a text can be told from the
tokens, in one pass and without a tree.

* `Expression.heads_eq`, `Functions.heads_eq`: **the heads among the tokens of a derivation** are
  those of its tree in pre-order, by induction on the derivation.
* `Program.edges_callGraph`: the edges of a call graph are the calls of the tree in pre-order, each
  with the definition that it stands in.
* `Program.callGraph_of_parse`: **the call graph lists every call of the text once, in order.**
-/

namespace Wordlet

open Grammar

/-! ## Heads -/

/-- What an opening parenthesis follows directly: the name of a definition or of a call, with its
place. -/
inductive Head where
  | definition (name : String) (loc : Option Location)
  | call (name : String) (loc : Option Location)
deriving DecidableEq, Repr

namespace Head

/-- The name and its place. -/
def word : Head → String × Option Location
  | definition f loc => (f, loc)
  | call f loc => (f, loc)

/-- The name that is defined. -/
def defined? : Head → Option String
  | definition f _ => some f
  | call _ _ => none

/-- The name that is called. -/
def called? : Head → Option String
  | definition _ _ => none
  | call f _ => some f

/-- The calls, each with the definition that precedes it most recently. Before the first head that
is `latest`. -/
def callers (latest : Option String) : List Head → List (Option String × String)
  | [] => []
  | definition f _ :: hs => callers (some f) hs
  | call g _ :: hs => (latest, g) :: callers latest hs

/-- Later heads look back over those before them. -/
theorem callers_append (latest : Option String) (hs hs' : List Head) :
    callers latest (hs ++ hs') = callers latest hs ++
      callers ((hs.filterMap defined?).getLast?.or latest) hs' := by
  induction hs generalizing latest with
  | nil => rfl
  | cons h hs ih =>
    cases h with
    | definition f loc =>
      have hlast : ((definition f loc :: hs).filterMap defined?).getLast?.or latest =
          (hs.filterMap defined?).getLast?.or (some f) := by
        have hdefined : defined? (definition f loc) = some f := rfl
        rw [List.filterMap_cons_some hdefined, List.getLast?_cons]
        cases (hs.filterMap defined?).getLast? <;> rfl
      rw [List.cons_append, callers, callers, ih, hlast]
    | call g loc => rw [List.cons_append, callers, callers, ih, List.cons_append]; rfl

theorem length_callers (latest : Option String) (hs : List Head) :
    (callers latest hs).length = (hs.filterMap called?).length := by
  induction hs generalizing latest with
  | nil => rfl
  | cons h hs ih =>
    cases h with
    | definition f loc => exact ih _
    | call g loc => exact congrArg (· + 1) (ih _)

/-- **The definition that precedes a call most recently** stands with it. -/
theorem getElem?_callers (before after : List Head) (g : String) (loc : Option Location) :
    (callers none (before ++ call g loc :: after))[(before.filterMap called?).length]? =
      some ((before.filterMap defined?).getLast?, g) := by
  rw [callers_append, ← length_callers none, List.getElem?_append_right (Nat.le_refl _),
    Nat.sub_self, callers, Option.or_none]
  rfl

/-- Calls without a definition between them. -/
theorem callers_of_calls {hs : List Head} (h : ∀ a ∈ hs, a.defined? = none)
    (latest : Option String) : callers latest hs = (hs.filterMap called?).map (latest, ·) := by
  induction hs with
  | nil => rfl
  | cons a hs ih =>
    obtain ⟨ha, hrest⟩ := List.forall_mem_cons.1 h
    cases a with
    | definition f loc => cases ha
    | call g loc => rw [callers, ih hrest]; rfl

end Head

/-! ## Heads of tokens -/

/-- The words that an opening parenthesis follows directly, with their places. -/
def wordsBeforeParen : List Token → List (String × Option Location)
  | [] => []
  | t :: ts =>
    match t.lexeme with
    | .word w =>
      if next ts = some (.symbol .openParen) then (w, some t.loc) :: wordsBeforeParen ts
      else wordsBeforeParen ts
    | .symbol _ => wordsBeforeParen ts

/-- The heads among tokens, while `depth` braces are open. -/
def heads (depth : Nat) : List Token → List Head
  | [] => []
  | t :: ts =>
    match t.lexeme with
    | .word w =>
      if next ts = some (.symbol .openParen) then
        (if depth = 0 then .definition w (some t.loc) else .call w (some t.loc)) :: heads depth ts
      else heads depth ts
    | .symbol .openBrace => heads (depth + 1) ts
    | .symbol .closeBrace => heads (depth - 1) ts
    | .symbol _ => heads depth ts

/-- All words that an opening parenthesis follows are heads, and there are no others. -/
theorem map_word_heads (depth : Nat) (ts : List Token) :
    (heads depth ts).map Head.word = wordsBeforeParen ts := by
  induction ts generalizing depth with
  | nil => rfl
  | cons t ts ih =>
    obtain ⟨l, loc⟩ := t
    cases l with
    | word w =>
      simp only [heads, wordsBeforeParen]
      split
      · split <;> rw [List.map_cons, ih] <;> rfl
      · exact ih depth
    | symbol s => cases s <;> exact ih _

section Tokens

variable {depth : Nat} {ts : List Token}

theorem heads_symbol {s : Symbol} (hopen : s ≠ .openBrace) (hclose : s ≠ .closeBrace)
    (loc : Location) (ts : List Token) :
    heads depth (⟨.symbol s, loc⟩ :: ts) = heads depth ts := by
  cases s with
  | openBrace => exact absurd rfl hopen
  | closeBrace => exact absurd rfl hclose
  | openParen | closeParen | openBracket | closeBracket | comma | colon => rfl

theorem heads_openBrace (loc : Location) (ts : List Token) :
    heads depth (⟨.symbol .openBrace, loc⟩ :: ts) = heads (depth + 1) ts := rfl

theorem heads_closeBrace (loc : Location) (ts : List Token) :
    heads (depth + 1) (⟨.symbol .closeBrace, loc⟩ :: ts) = heads depth ts := rfl

/-- A word that no opening parenthesis follows is no head. -/
theorem heads_word (h : next ts ≠ some (.symbol .openParen)) (w : String) (loc : Location) :
    heads depth (⟨.word w, loc⟩ :: ts) = heads depth ts := by
  simp only [heads, if_neg h]

theorem heads_definition (w : String) (loc ploc : Location) (ts : List Token) :
    heads 0 (⟨.word w, loc⟩ :: ⟨.symbol .openParen, ploc⟩ :: ts) =
      .definition w (some loc) :: heads 0 ts := by
  simp [heads]

theorem heads_call (hdepth : 0 < depth) (w : String) (loc ploc : Location) (ts : List Token) :
    heads depth (⟨.word w, loc⟩ :: ⟨.symbol .openParen, ploc⟩ :: ts) =
      .call w (some loc) :: heads depth ts := by
  simp [heads, Nat.ne_of_gt hdepth]

end Tokens

/-! ## Heads of trees -/

namespace Expr

/-- The head of a node: a definition or a call is one. -/
def head? : Expr → Option Head
  | call loc f _ => some (.call f loc)
  | stray loc (.definition f _) _ => some (.definition f loc)
  | _ => none

/-- The heads of an expression, in pre-order. -/
def heads (e : Expr) : List Head := e.nodes.filterMap head?

/-- The heads of expressions. -/
def headsIn (es : List Expr) : List Head := (nodesIn es).filterMap head?

theorem heads_call (loc : Option Location) (f : String) (es : List Expr) :
    (call loc f es).heads = .call f loc :: headsIn es := rfl

theorem heads_branch (loc : Option Location) (c t e : Expr) :
    (branch loc c t e).heads = c.heads ++ (t.heads ++ e.heads) := by
  unfold heads
  rw [nodes, List.filterMap_cons_none rfl, List.filterMap_append, List.filterMap_append,
    List.append_assoc]

theorem headsIn_cons (e : Expr) (es : List Expr) : headsIn (e :: es) = e.heads ++ headsIn es := by
  unfold headsIn heads
  rw [nodesIn, List.filterMap_append]

end Expr

namespace Definition

/-- The heads of a definition: its own, and those of its body. -/
def heads (d : Definition) : List Head := .definition d.name d.loc :: d.body.heads

/-- The heads of a definition are those of its nodes: a parameter has none. -/
theorem filterMap_head?_nodes (d : Definition) : d.nodes.filterMap Expr.head? = d.heads := by
  have hparams : (d.parameters.map Parameter.toExpr).filterMap Expr.head? = [] := by
    rw [List.filterMap_map, List.filterMap_eq_nil_iff]
    exact fun _ _ => rfl
  have hself : d.toExpr.head? = some (.definition d.name d.loc) := rfl
  rw [nodes, List.filterMap_cons_some hself, List.filterMap_append, hparams, List.nil_append]
  rfl

end Definition

theorem Program.filterMap_head?_nodes (p : Program) :
    p.nodes.filterMap Expr.head? = p.definitions.flatMap Definition.heads := by
  rw [nodes, List.filterMap_flatMap]
  exact List.flatMap_congr fun d _ => d.filterMap_head?_nodes

/-! ## Heads of derivations -/

namespace Grammar

variable {ts rest : List Token}

mutual

/-- **The heads among the tokens of an expression** inside braces are those of the expression. No
opening parenthesis may come next, since it would make a call of a bare word. -/
theorem Expression.heads_eq {ts rest : List Token} {e : Expr} (h : Expression ts e rest)
    (hn : next rest ≠ some (.symbol .openParen)) {depth : Nat} (hdepth : 0 < depth) :
    heads depth ts = e.heads ++ heads depth rest := by
  match h with
  | .literal _ _ => exact heads_word hn _ _
  | .var _ _ => exact heads_word hn _ _
  | .call _ ha =>
    have hargs := ha.heads_eq hdepth
    rw [heads_call hdepth, hargs, Expr.heads_call, List.cons_append]
  | .branch hc ht _ =>
    -- a word follows the `if`, and a brace follows the condition
    obtain ⟨w, hw⟩ := hc.next_eq
    have hcondition := hc.heads_eq (by simp [ht.next_eq]) hdepth
    have hthen := ht.heads_eq depth
    rw [heads_word (by simp [hw]), hcondition, hthen, Expr.heads_branch]
    simp [Expr.heads, Expr.nodes, Expr.head?]
  | .branchElse hc ht he =>
    obtain ⟨w, hw⟩ := hc.next_eq
    have hcondition := hc.heads_eq (by simp [ht.next_eq]) hdepth
    have hthen := ht.heads_eq depth
    have helse := he.heads_eq depth
    rw [heads_word (by simp [he.next_eq]), helse] at hthen
    rw [heads_word (by simp [hw]), hcondition, hthen, Expr.heads_branch]
    simp only [List.append_assoc]

/-- The heads among the tokens of a block are those of its expression, wherever it stands. -/
theorem Block.heads_eq {ts rest : List Token} {e : Expr} (h : Block ts e rest) (depth : Nat) :
    heads depth ts = e.heads ++ heads depth rest := by
  match h with
  | .empty => rfl
  | .expression he =>
    have hinner := he.heads_eq (by simp) (Nat.succ_pos depth)
    rw [heads_openBrace, hinner, heads_closeBrace]

theorem Arguments.heads_eq {ts rest : List Token} {es : List Expr} (h : Arguments ts es rest)
    {depth : Nat} (hdepth : 0 < depth) :
    heads depth ts = Expr.headsIn es ++ heads depth rest := by
  match h with
  | .close => rfl
  | .plain he ha =>
    have hfirst := he.heads_eq (ha.next_ne (by decide)) hdepth
    have hothers := ha.heads_eq hdepth
    rw [hfirst, hothers, Expr.headsIn_cons, List.append_assoc]
  | .comma he ha =>
    have hfirst := he.heads_eq (by simp) hdepth
    have hothers := ha.heads_eq hdepth
    rw [hfirst, heads_symbol (by decide) (by decide), hothers, Expr.headsIn_cons,
      List.append_assoc]

end

/-- There are no heads among parameters. -/
theorem Parameters.heads_eq {ps : List Parameter} (h : Parameters ts ps rest) (depth : Nat) :
    heads depth ts = heads depth rest := by
  induction h with
  | close => rfl
  | plain hp ih => rw [heads_word (hp.next_ne (by decide)), ih]
  | comma hp ih => rw [heads_word (by simp), heads_symbol (by decide) (by decide), ih]

theorem Function.heads_eq {d : Definition} (h : Function ts d rest) :
    heads 0 ts = d.heads ++ heads 0 rest := by
  obtain ⟨hp, hb⟩ := h
  rw [heads_definition, hp.heads_eq, hb.heads_eq, Definition.heads, List.cons_append]

/-- **The heads among the tokens of functions** are those of the functions, in order. -/
theorem Functions.heads_eq {ds : List Definition} (h : Functions ts ds) :
    heads 0 ts = ds.flatMap Definition.heads := by
  induction h with
  | nil => rfl
  | cons hf _ ih => rw [hf.heads_eq, ih, List.flatMap_cons]

end Grammar

/-! ## Call graphs -/

/-- The heads of a body whose nodes are all expressions are its calls. -/
theorem Expr.defined?_of_mem_heads {e : Expr} (h : ∀ a ∈ e.nodes, a.Fits) :
    ∀ a ∈ e.heads, a.defined? = none := by
  intro a ha
  obtain ⟨node, hnode, hhead⟩ := List.mem_filterMap.1 ha
  have hfits := h node hnode
  cases node with
  | empty | literal | var | branch => cases hhead
  | call loc f es => cases hhead; rfl
  | stray => exact hfits.elim

theorem Expr.filterMap_called?_heads {e : Expr} (h : ∀ a ∈ e.nodes, a.Fits) :
    e.heads.filterMap Head.called? = e.callees := by
  rw [e.callees_eq_filterMap h, heads, List.filterMap_filterMap]
  refine List.filterMap_congr fun node hnode => ?_
  have hfits := h node hnode
  cases node with
  | empty | literal | var | branch | call => rfl
  | stray => exact hfits.elim

namespace Program

/-- The nodes of a call graph are the heads that are definitions. -/
theorem nodes_callGraph {p : Program} (hp : ∀ d ∈ p.definitions, ∀ a ∈ d.body.nodes, a.Fits)
    (title : String) :
    (p.callGraph title).nodes =
      ((p.definitions.flatMap Definition.heads).filterMap Head.defined?).map fun f => (f, f) := by
  unfold callGraph
  dsimp only
  generalize p.definitions = ds at hp
  induction ds with
  | nil => rfl
  | cons d ds ih =>
    obtain ⟨hd, hds⟩ := List.forall_mem_cons.1 hp
    have hself : (Head.definition d.name d.loc).defined? = some d.name := rfl
    have hbody : d.body.heads.filterMap Head.defined? = [] :=
      List.filterMap_eq_nil_iff.2 (Expr.defined?_of_mem_heads hd)
    rw [List.map_cons, ih hds, List.flatMap_cons, List.filterMap_append, Definition.heads,
      List.filterMap_cons_some hself, hbody]
    rfl

/-- **The edges of a call graph** are the heads that are calls, each with the definition that
precedes it most recently. -/
theorem edges_callGraph {p : Program} (hp : ∀ d ∈ p.definitions, ∀ a ∈ d.body.nodes, a.Fits)
    (title : String) :
    (p.callGraph title).edges.map (fun edge => (some edge.1, edge.2)) =
      Head.callers none (p.definitions.flatMap Definition.heads) := by
  have key : ∀ latest, (p.callGraph title).edges.map (fun edge => (some edge.1, edge.2)) =
      Head.callers latest (p.definitions.flatMap Definition.heads) := by
    unfold callGraph
    dsimp only
    generalize p.definitions = ds at hp
    induction ds with
    | nil => exact fun _ => rfl
    | cons d ds ih =>
      intro latest
      obtain ⟨hd, hds⟩ := List.forall_mem_cons.1 hp
      have hcalls := Head.callers_of_calls (Expr.defined?_of_mem_heads hd) (some d.name)
      have hnone : d.body.heads.filterMap Head.defined? = [] :=
        List.filterMap_eq_nil_iff.2 (Expr.defined?_of_mem_heads hd)
      rw [Expr.filterMap_called?_heads hd] at hcalls
      rw [List.flatMap_cons, List.map_append, ih hds (some d.name), List.flatMap_cons,
        Definition.heads, List.cons_append, Head.callers, Head.callers_append, hcalls, hnone,
        List.map_map]
      rfl
  exact key none

/-- **The call graph lists every call of the text once, in order.** Let a text be read as a program.
The words that an opening parenthesis follows directly are, in the order of the tokens, the names of
the definitions and of the calls of the program in pre-order, with the same places; those outside
all braces are the definitions. The nodes of the call graph are the names of the definitions in that
order. It has one edge for each call, in that order: from the definition that precedes the call most
recently to the name that is called. -/
theorem callGraph_of_parse {source path : String} {p : Program}
    (h : parse (Token.scan source path) = .ok p) (title : String) :
    ∃ hs : List Head,
      hs.map Head.word = wordsBeforeParen (Token.scan source path) ∧
      hs = heads 0 (Token.scan source path) ∧
      hs = p.nodes.filterMap Expr.head? ∧
      (p.callGraph title).nodes = (hs.filterMap Head.defined?).map (fun f => (f, f)) ∧
      (p.callGraph title).edges.length = (hs.filterMap Head.called?).length ∧
      ∀ before g loc after, hs = before ++ .call g loc :: after →
        ∃ f, (before.filterMap Head.defined?).getLast? = some f ∧
          (p.callGraph title).edges[(before.filterMap Head.called?).length]? = some (f, g) := by
  obtain ⟨⟨-, hds⟩, -⟩ := parse_eq_ok_iff.1 h
  have hfits : ∀ d ∈ p.definitions, ∀ a ∈ d.body.nodes, a.Fits := fun d hd =>
    d.body.spellableBlock_iff.1 (spellable_of_parse h d hd).2.2
  have hedges := edges_callGraph hfits title
  have hheads := hds.heads_eq
  refine ⟨p.definitions.flatMap Definition.heads, ?_, hheads.symm, p.filterMap_head?_nodes.symm,
    nodes_callGraph hfits title, ?_, ?_⟩
  · rw [← hheads, map_word_heads]
  · rw [← Head.length_callers none, ← hedges, List.length_map]
  · intro before g loc after hsplit
    have hcall := Head.getElem?_callers before after g loc
    rw [← hsplit, ← hedges, List.getElem?_map] at hcall
    obtain ⟨⟨f, g'⟩, hedge, heq⟩ := Option.map_eq_some_iff.1 hcall
    obtain ⟨hf, rfl⟩ := Prod.mk.inj heq
    exact ⟨f, hf.symm, hedge⟩

/-- A function and a call with the names of keywords, and a call among the arguments of another. -/
theorem callGraph_of_parse_keywords :
    ∃ tokens p hs,
      tokens = Token.scan "g(x)\x7bx\x7d if(a,)\x7bif g(h(a)) \x7belse(1)\x7d\x7d" "s" ∧
      parse tokens = .ok p ∧
      hs = [.definition "g" (some ⟨"s", 1, 1⟩), .definition "if" (some ⟨"s", 1, 9⟩),
        .call "g" (some ⟨"s", 1, 19⟩), .call "h" (some ⟨"s", 1, 21⟩),
        .call "else" (some ⟨"s", 1, 28⟩)] ∧
      hs.map Head.word = wordsBeforeParen tokens ∧
      hs = p.nodes.filterMap Expr.head? ∧
      (p.callGraph "t").nodes = [("g", "g"), ("if", "if")] ∧
      (p.callGraph "t").edges.length = 3 ∧
      (p.callGraph "t").edges[2]? = some ("if", "else") := by
  have hp : parse (Token.scan
      "g(x)\x7bx\x7d if(a,)\x7bif g(h(a)) \x7belse(1)\x7d\x7d" "s") = .ok
      ⟨some ⟨"s", 1, 1⟩,
        [⟨some ⟨"s", 1, 1⟩, "g", [⟨some ⟨"s", 1, 3⟩, "x"⟩], .var (some ⟨"s", 1, 6⟩) "x"⟩,
        ⟨some ⟨"s", 1, 9⟩, "if", [⟨some ⟨"s", 1, 12⟩, "a"⟩],
          .branch (some ⟨"s", 1, 16⟩)
            (.call (some ⟨"s", 1, 19⟩) "g"
              [.call (some ⟨"s", 1, 21⟩) "h" [.var (some ⟨"s", 1, 23⟩) "a"]])
            (.call (some ⟨"s", 1, 28⟩) "else" [.literal (some ⟨"s", 1, 33⟩) 1])
            (.empty (some ⟨"s", 1, 16⟩))⟩]⟩ := by cbv
  obtain ⟨hs, hwords, hheads, htree, hnodes, hlength, hedges⟩ := callGraph_of_parse hp "t"
  have hlist : hs = [.definition "g" (some ⟨"s", 1, 1⟩), .definition "if" (some ⟨"s", 1, 9⟩),
      .call "g" (some ⟨"s", 1, 19⟩), .call "h" (some ⟨"s", 1, 21⟩),
      .call "else" (some ⟨"s", 1, 28⟩)] := hheads.trans (by cbv)
  obtain ⟨f, hf, hedge⟩ := hedges
    [.definition "g" _, .definition "if" _, .call "g" _, .call "h" _] "else" _ [] hlist
  obtain rfl : "if" = f := Option.some.inj hf
  rw [hlist] at hnodes hlength
  exact ⟨_, _, hs, rfl, hp, hlist, hwords, htree, hnodes, hlength, hedge⟩

end Program

end Wordlet
