import Mathlib.Data.List.Flatten
import Wordlet.Proofs.Anchors
import Wordlet.Proofs.Inspection
import Wordlet.Proofs.Sessions

/-!
# What is reported

The reports on a program can be told without a walk. What is said of a name depends on the names
before it, and what is said of a node of a body on the node alone; what is never used is what occurs
nowhere. For a program that was read from a text this is the whole list, in the order of the text.

* `Report.listing`: a list that is built with an account of the names seen so far is told by the
  index of each of its members.
* `Expr.reports_eq_filterMap`: **the reports on a body are those on its nodes**, one by one.
* `Program.inspect_of_parse`: **what an inspection of a program that was read from a text finds.**
* `Issue.message_eq_unusedFunction_iff`: no two issues that concern unused functions read alike.
* `Program.inspect_unusedFunction`: **a function is reported as never used exactly if the call graph
  has no edge into it**, for every program.
-/

namespace Wordlet

/-! ## Lists by index -/

/-- A list that is built with an account of the names seen so far. What a member adds depends on
which names were seen, so that its index tells it. -/
theorem Report.listing {α β : Type} (name : α → String) (added : List String → α → List β)
    {built : List String → List α → List β} (hnil : ∀ seen, built seen [] = [])
    (hcons : ∀ seen a as, built seen (a :: as) = added seen a ++ built (name a :: seen) as)
    (hadded : ∀ {seen seen'} a, (∀ x, x ∈ seen ↔ x ∈ seen') → added seen a = added seen' a)
    (seen : List String) (as : List α) :
    built seen as = (as.mapIdx fun i a => added (seen ++ (as.take i).map name) a).flatten := by
  induction as generalizing seen with
  | nil => rw [hnil, List.mapIdx_nil, List.flatten_nil]
  | cons a as ih =>
    have hhead : added seen a = added (seen ++ ((a :: as).take 0).map name) a := by
      refine hadded a fun x => ?_
      simp
    have htail : ∀ i b, added (name a :: seen ++ (as.take i).map name) b =
        added (seen ++ ((a :: as).take (i + 1)).map name) b := by
      intro i b
      refine hadded b fun x => ?_
      rw [List.take_succ_cons, List.map_cons, List.cons_append, List.mem_cons, List.mem_append,
        List.mem_append, List.mem_cons]
      tauto
    rw [hcons, ih, List.mapIdx_cons, List.flatten_cons, ← hhead]
    simp only [htail]

/-! ## Nodes -/

namespace Expr

/-- The name of a variable. -/
def variableName? : Expr → Option String
  | var _ x => some x
  | _ => none

/-- The name that is called. -/
def calleeName? : Expr → Option String
  | call _ f _ => some f
  | _ => none

/-- The report on one node of a body, where the parameters are named `bound` and calls of a name
take `accepted` arguments: on a variable that is no parameter, on a call of a name without a
function, and on a call with another number of arguments. -/
def report? (accepted : String → Option Nat) (bound : List String) : Expr → Option Report
  | var loc x => if x ∈ bound then none else some ⟨loc, .unknownVariable x⟩
  | call loc f es =>
    match accepted f with
    | none => some ⟨loc, .unknownFunction f⟩
    | some n => if n = es.length then none else some ⟨loc, .arityMismatch f n es.length⟩
  | _ => none

/-- A node that is reported is not empty, and is reported where it stands. -/
theorem loc_of_report? {accepted : String → Option Nat} {bound : List String} {a : Expr}
    {r : Report} (h : a.report? accepted bound = some r) : r.loc = a.loc ∧ a.isEmpty = false := by
  cases a with
  | empty | literal | branch | stray => cases h
  | var loc x =>
    dsimp only [report?] at h
    split at h <;> cases h
    exact ⟨rfl, rfl⟩
  | call loc f es =>
    refine ⟨?_, rfl⟩
    dsimp only [report?] at h
    cases hf : accepted f with
    | none =>
      rw [hf] at h
      cases h
      rfl
    | some n =>
      rw [hf] at h
      dsimp only at h
      split at h <;> cases h
      rfl

/-- The nodes of an expression are itself and those of its parts. -/
theorem nodes_eq_cons {e : Expr} (h : e.Fits) : e.nodes = e :: e.parts.flatMap nodes := by
  cases e with
  | empty | literal | var => rfl
  | call loc f es => rw [nodes, nodesIn_eq_flatMap, parts]
  | branch loc c t e => simp [nodes, parts]
  | stray => exact h.elim

/-- A property holds of every expression if it is handed up from the parts to the whole. -/
@[elab_as_elim]
theorem inductionParts {motive : Expr → Prop}
    (step : ∀ e : Expr, (∀ a ∈ e.parts, motive a) → motive e) (e : Expr) : motive e := by
  induction e using Expr.induction with
  | empty | literal | var | stray => exact step _ fun _ h => nomatch h
  | call loc f es ih => exact step _ ih
  | branch loc c t e hc ht he =>
    refine step _ ?_
    unfold parts
    simp only [List.forall_mem_cons, List.not_mem_nil, false_imp_iff, implies_true, and_true]
    exact ⟨hc, ht, he⟩

/-- **What a walk over an expression finds is what it finds at the nodes**, if at each of them it
finds something of the node itself and then goes on to the parts. -/
theorem walk_eq_filterMap {β : Type} {walk : Expr → List β} {found : Expr → Option β}
    (hwalk : ∀ a : Expr, a.Fits → walk a = (found a).toList ++ a.parts.flatMap walk) (e : Expr)
    (h : ∀ a ∈ e.nodes, a.Fits) : walk e = e.nodes.filterMap found := by
  induction e using Expr.inductionParts with
  | _ e ih =>
    have hself : e.Fits := h e (by cases e <;> exact List.mem_cons_self)
    have hnodes := nodes_eq_cons hself
    have hparts : e.parts.flatMap walk = (e.parts.flatMap nodes).filterMap found := by
      rw [List.filterMap_flatMap]
      refine List.flatMap_congr fun a ha => ih a ha fun b hb => h b ?_
      rw [hnodes]
      exact List.mem_cons_of_mem _ (List.mem_flatMap.2 ⟨a, ha, hb⟩)
    rw [hwalk e hself, hparts, hnodes, List.filterMap_cons]
    cases found e <;> rfl

theorem variableNames_eq_filterMap (e : Expr) (h : ∀ a ∈ e.nodes, a.Fits) :
    e.variableNames = e.nodes.filterMap variableName? := by
  refine walk_eq_filterMap (fun a _ => ?_) e h
  cases a with
  | empty | literal | var | stray => rfl
  | call loc f es => exact variableNamesIn_eq_flatMap es
  | branch => simp [variableNames, variableName?, parts]

theorem callees_eq_filterMap (e : Expr) (h : ∀ a ∈ e.nodes, a.Fits) :
    e.callees = e.nodes.filterMap calleeName? := by
  refine walk_eq_filterMap (fun a _ => ?_) e h
  cases a with
  | empty | literal | var | stray => rfl
  | call loc f es => exact congrArg _ (calleesIn_eq_flatMap es)
  | branch => simp [callees, calleeName?, parts]

/-- **The reports on a body are those on its nodes**, one by one and in their order. -/
theorem reports_eq_filterMap {accepted : String → Option Nat} {bound : List String} (e : Expr)
    (h : ∀ a ∈ e.nodes, a.Fits) :
    e.reports accepted bound = e.nodes.filterMap (report? accepted bound) := by
  refine walk_eq_filterMap (fun a ha => ?_) e h
  cases a with
  | empty | literal | stray => rfl
  | var loc x =>
    dsimp only [reports, report?, parts]
    split <;> rfl
  | call loc f es =>
    rw [reports, reportsIn_eq_flatMap, parts, callReports, report?]
    cases accepted f with
    | none => rfl
    | some n =>
      dsimp only
      split <;> rfl
  | branch loc c t e =>
    -- no condition that fits is empty
    have hcondition : c.isEmpty = false := ha
    simp [reports, report?, parts, hcondition]

/-- What is reported stands at the places of the nodes, in their order. -/
theorem map_loc_sublist (accepted : String → Option Nat) (bound : List String) (as : List Expr) :
    ((as.filterMap (report? accepted bound)).map (·.loc)).Sublist (places as) := by
  induction as with
  | nil => exact .slnil
  | cons a as ih =>
    rw [List.filterMap_cons]
    cases ha : a.report? accepted bound with
    | none =>
      have hcons : (places as).Sublist (places (a :: as)) :=
        ((List.sublist_cons_self a as).filter _).map _
      exact ih.trans hcons
    | some r =>
      obtain ⟨hloc, hfull⟩ := loc_of_report? ha
      rw [places_cons hfull, List.map_cons, hloc]
      exact ih.cons_cons _

end Expr

/-! ## What is found in a text -/

namespace Definition

/-- The reports on the parameters of a definition that have the name of an earlier one. -/
def duplicates (d : Definition) : List Report :=
  (d.parameters.mapIdx fun i q =>
    if q.name ∈ d.parameterNames.take i then [⟨q.loc, .duplicateParameter q.name d.name⟩]
    else []).flatten

/-- The reports on the names of parameters, each at the first of its name, that name no variable of
the body. -/
def unused (d : Definition) : List Report :=
  (d.parameters.mapIdx fun i q =>
    if q.name ∈ d.parameterNames.take i ∨ q.name ∈ d.body.nodes.filterMap Expr.variableName? then []
    else [⟨q.loc, .unusedParameter q.name⟩]).flatten

theorem duplicateReports_eq (d : Definition) :
    d.duplicateReports [] d.parameters = d.duplicates := by
  have hlist : d.duplicateReports [] d.parameters = _ := Report.listing Parameter.name
    (fun seen q => if q.name ∈ seen then [⟨q.loc, .duplicateParameter q.name d.name⟩] else [])
    (fun _ => rfl) (fun _ _ _ => rfl) (fun q h => by simp only [h]) [] d.parameters
  simp only [List.nil_append, List.map_take] at hlist
  exact hlist

theorem unusedReports_eq_unused (d : Definition) (h : ∀ a ∈ d.body.nodes, a.Fits) :
    d.unusedReports [] d.parameters = d.unused := by
  have hlist : d.unusedReports [] d.parameters = _ := Report.listing Parameter.name
    (fun seen q =>
      if q.name ∈ seen ∨ q.name ∈ d.body.variableNames then []
      else [⟨q.loc, .unusedParameter q.name⟩])
    (fun _ => rfl) (fun _ _ _ => rfl) (fun q h => by simp only [h]) [] d.parameters
  simp only [List.nil_append, List.map_take, d.body.variableNames_eq_filterMap h] at hlist
  exact hlist

end Definition

namespace Program

/-- The last definition of a name. -/
def lastDefinition? (p : Program) (f : String) : Option Definition :=
  (p.definitions.filter (·.name == f)).getLast?

/-- How many arguments calls of a name take: as many as its last definition has parameters, or as
the native of the name takes if there is no definition. -/
def accepted? (p : Program) (f : String) : Option Nat :=
  match p.lastDefinition? f with
  | some d => some d.parameters.length
  | none => (Native.find? f).map Native.arity

/-- The reports on the names of definitions. -/
def nameFaults (p : Program) : List Report :=
  (p.definitions.mapIdx fun i d =>
    (if d.name ∈ (p.definitions.take i).map (·.name) then [⟨d.loc, .alreadyDefined d.name⟩]
      else []) ++
    if (Native.find? d.name).isSome then [⟨d.loc, .shadowsNative d.name⟩] else []).flatten

/-- The reports on a definition: on its parameters, on the nodes of its body, and on what is never
used. -/
def faults (p : Program) (d : Definition) : List Report :=
  d.duplicates ++ d.body.nodes.filterMap (Expr.report? p.accepted? d.parameterNames) ++ d.unused

/-- The names called by some node. -/
def calledNames (p : Program) : List String :=
  p.definitions.flatMap fun d => d.body.nodes.filterMap Expr.calleeName?

/-- The reports on functions that are never used: the names, each once, that are not the entry point
and not called, at their last definitions. -/
def unusedFunctions (p : Program) : List Report :=
  (p.definitions.map (·.name)).eraseDups.filterMap fun f =>
    if f = entryPoint ∨ f ∈ p.calledNames then none
    else (p.lastDefinition? f).map fun d => ⟨d.loc, .unusedFunction f⟩

theorem accepted?_eq (p : Program) : p.accepted? = p.table.arity? := by
  funext f
  unfold accepted? Table.arity? lastDefinition?
  rw [p.find?_table_eq_getLast?]
  rfl

theorem nameReports_eq (p : Program) : nameReports [] p.definitions = p.nameFaults := by
  have hlist : nameReports [] p.definitions = _ := Report.listing Definition.name
    (fun seen d => d.nameReports seen) (fun _ => rfl) (fun _ _ _ => rfl)
    (fun d h => by simp only [Definition.nameReports, h]) [] p.definitions
  simp only [List.nil_append] at hlist
  exact hlist

theorem unusedReports_eq (p : Program) (h : ∀ d ∈ p.definitions, ∀ a ∈ d.body.nodes, a.Fits) :
    p.unusedReports = p.unusedFunctions := by
  have hcallees : p.callees = p.calledNames :=
    List.flatMap_congr fun d hd => d.body.callees_eq_filterMap (h d hd)
  have hnames : p.table.names = (p.definitions.map (·.name)).eraseDups := by
    unfold Table.names table
    rw [List.reverse_reverse]
  unfold unusedReports unusedReport unusedFunctions lastDefinition?
  rw [hcallees, hnames]
  simp only [p.find?_table_eq_getLast?]

/-- The reports on a body stand in the order of the text. -/
theorem pairwise_before_of_parse {source path : String} {p : Program}
    (h : Program.parse (Token.scan source path) = .ok p) {d : Definition} (hd : d ∈ p.definitions) :
    ∃ locs : List Location,
      (d.body.nodes.filterMap (Expr.report? p.accepted? d.parameterNames)).map (·.loc) =
        locs.map some ∧ locs.Pairwise Location.Before := by
  obtain ⟨-, locs, hlocs, horder, -⟩ := parse_anchored h
  have hbody : d.body.nodes.Sublist d.nodes :=
    (List.sublist_append_right _ _).trans (List.sublist_cons_self _ _)
  have hnodes : d.nodes.Sublist p.nodes := by
    have hsingle := (List.singleton_sublist.2 hd).flatMap Definition.nodes
    rw [List.flatMap_singleton] at hsingle
    exact hsingle
  have hplaces : (places d.body.nodes).Sublist (places p.nodes) :=
    ((hbody.trans hnodes).filter _).map _
  have hsub := (Expr.map_loc_sublist p.accepted? d.parameterNames d.body.nodes).trans hplaces
  have hlocs' : places p.nodes = locs.map some := hlocs
  rw [hlocs'] at hsub
  obtain ⟨locs', hsub', heq⟩ := List.sublist_map_iff.1 hsub
  exact ⟨locs', heq, horder.sublist hsub'⟩

/-- **What an inspection of a program that was read from a text finds.** First come the reports on
the names of definitions, in their order: that the name is already defined, exactly if an earlier
definition has it, and then that it shadows a native, exactly if it is the name of one. Then come,
definition by definition, the reports on the parameters whose names occurred earlier in the list,
those on the body, and one for each distinct name of a parameter that no variable of the body has.
The reports on a body are those on its nodes, at most one for a node and each later in the text than
the one before it: a variable is reported if it is no parameter, and a call if no function has its
name or if the last definition of the name, or the native without one, takes another number of
arguments. Last come the reports on functions that are never used. -/
theorem inspect_of_parse {source path : String} {p : Program}
    (h : Program.parse (Token.scan source path) = .ok p) :
    p.inspect = p.nameFaults ++ p.definitions.flatMap p.faults ++ p.unusedFunctions ∧
      ∀ d ∈ p.definitions, ∃ locs : List Location,
        (d.body.nodes.filterMap (Expr.report? p.accepted? d.parameterNames)).map (·.loc) =
          locs.map some ∧ locs.Pairwise Location.Before := by
  refine ⟨?_, fun d hd => pairwise_before_of_parse h hd⟩
  have hfits : ∀ d ∈ p.definitions, ∀ a ∈ d.body.nodes, a.Fits := by
    intro d hd
    exact (d.wellFormed_iff.2 (spellable_of_parse h d hd)).2.2
  have hbodies : ∀ d ∈ p.definitions, d.reports p.table.arity? = p.faults d := by
    intro d hd
    unfold Definition.reports faults
    rw [d.duplicateReports_eq, d.unusedReports_eq_unused (hfits d hd),
      d.body.reports_eq_filterMap (hfits d hd), accepted?_eq, List.append_assoc]
  rw [inspect_eq_reports, reports, nameReports_eq, List.flatMap_congr hbodies,
    unusedReports_eq p hfits, List.append_assoc]

/-- Definitions, parameters and calls with all kinds of faults: a call whose callee is unknown has
arguments that are reported too, calls of a name that is defined twice are compared with its last
definition, and calls of a native that is also defined with the definition. -/
theorem inspect_of_parse_faults :
    ∃ p, Program.parse (Token.scan
        ("add(a,a)\x7ba\x7d f(x,u)\x7bg(y x)\x7d\n" ++
          "f()\x7bh(f(1) add(1))\x7d k(z)\x7bif z \x7b\x7d else \x7bxor(1)\x7d\x7d") "s") = .ok p ∧
      p.inspect = p.nameFaults ++ p.definitions.flatMap p.faults ++ p.unusedFunctions ∧
      (∀ d ∈ p.definitions, ∃ locs : List Location,
        (d.body.nodes.filterMap (Expr.report? p.accepted? d.parameterNames)).map (·.loc) =
          locs.map some ∧ locs.Pairwise Location.Before) ∧
      p.inspect =
        [⟨some ⟨"s", 1, 1⟩, .shadowsNative "add"⟩, ⟨some ⟨"s", 2, 1⟩, .alreadyDefined "f"⟩,
          ⟨some ⟨"s", 1, 7⟩, .duplicateParameter "a" "add"⟩,
          ⟨some ⟨"s", 1, 20⟩, .unknownFunction "g"⟩, ⟨some ⟨"s", 1, 22⟩, .unknownVariable "y"⟩,
          ⟨some ⟨"s", 1, 17⟩, .unusedParameter "u"⟩,
          ⟨some ⟨"s", 2, 5⟩, .unknownFunction "h"⟩, ⟨some ⟨"s", 2, 7⟩, .arityMismatch "f" 0 1⟩,
          ⟨some ⟨"s", 2, 12⟩, .arityMismatch "add" 2 1⟩,
          ⟨some ⟨"s", 2, 40⟩, .arityMismatch "xor" 2 1⟩,
          ⟨some ⟨"s", 2, 21⟩, .unusedFunction "k"⟩] := by
  have hp : Program.parse (Token.scan
        ("add(a,a)\x7ba\x7d f(x,u)\x7bg(y x)\x7d\n" ++
          "f()\x7bh(f(1) add(1))\x7d k(z)\x7bif z \x7b\x7d else \x7bxor(1)\x7d\x7d") "s") = .ok
      ⟨some ⟨"s", 1, 1⟩,
        [⟨some ⟨"s", 1, 1⟩, "add", [⟨some ⟨"s", 1, 5⟩, "a"⟩, ⟨some ⟨"s", 1, 7⟩, "a"⟩],
            .var (some ⟨"s", 1, 10⟩) "a"⟩,
          ⟨some ⟨"s", 1, 13⟩, "f", [⟨some ⟨"s", 1, 15⟩, "x"⟩, ⟨some ⟨"s", 1, 17⟩, "u"⟩],
            .call (some ⟨"s", 1, 20⟩) "g"
              [.var (some ⟨"s", 1, 22⟩) "y", .var (some ⟨"s", 1, 24⟩) "x"]⟩,
          ⟨some ⟨"s", 2, 1⟩, "f", [],
            .call (some ⟨"s", 2, 5⟩) "h"
              [.call (some ⟨"s", 2, 7⟩) "f" [.literal (some ⟨"s", 2, 9⟩) 1],
                .call (some ⟨"s", 2, 12⟩) "add" [.literal (some ⟨"s", 2, 16⟩) 1]]⟩,
          ⟨some ⟨"s", 2, 21⟩, "k", [⟨some ⟨"s", 2, 23⟩, "z"⟩],
            .branch (some ⟨"s", 2, 26⟩) (.var (some ⟨"s", 2, 29⟩) "z")
              (.empty (some ⟨"s", 2, 31⟩))
              (.call (some ⟨"s", 2, 40⟩) "xor" [.literal (some ⟨"s", 2, 44⟩) 1])⟩]⟩ := by cbv
  obtain ⟨hlist, horder⟩ := inspect_of_parse hp
  exact ⟨_, hp, hlist, horder, by decide +kernel⟩

end Program

/-! ## Functions that are never used -/

/-- Equal texts whose beginnings are known have the same first character. -/
theorem Text.head?_eq {s t x y : String} (h : x ++ s = y ++ t) (hx : x.toList ≠ [])
    (hy : y.toList ≠ []) : x.toList.head? = y.toList.head? := by
  have hheads : (x ++ s).toList.head? = (y ++ t).toList.head? := by rw [h]
  rw [String.toList_append, String.toList_append, List.head?_append_of_ne_nil _ hx,
    List.head?_append_of_ne_nil _ hy] at hheads
  exact hheads

/-- Equal texts whose ends are known have the same last three characters. -/
theorem Text.take_three_eq {s t x y : String} (h : s ++ x = t ++ y) (hx : 3 ≤ x.toList.length)
    (hy : 3 ≤ y.toList.length) : x.toList.reverse.take 3 = y.toList.reverse.take 3 := by
  have hx' : 3 ≤ x.toList.reverse.length := by rw [List.length_reverse]; exact hx
  have hy' : 3 ≤ y.toList.reverse.length := by rw [List.length_reverse]; exact hy
  have hends : (s ++ x).toList.reverse.take 3 = (t ++ y).toList.reverse.take 3 := by rw [h]
  rw [String.toList_append, String.toList_append, List.reverse_append, List.reverse_append,
    List.take_append_of_le_length hx', List.take_append_of_le_length hy'] at hends
  exact hends

/-- **No other issue reads like that of a function that is never used**, whatever the names are. -/
theorem Issue.message_eq_unusedFunction_iff (i : Issue) (f : String) :
    i.message = (unusedFunction f).message ↔ i = unusedFunction f := by
  constructor
  · intro h
    cases i with
    | unusedFunction g =>
      unfold message inQuotes at h
      simp only [← String.toList_inj, String.toList_append, List.append_cancel_left_eq,
        List.append_cancel_right_eq] at h
      rw [String.toList_inj.1 h]
    | alreadyDefined | shadowsNative | arityMismatch =>
      -- these begin alike, and end otherwise
      unfold message at h
      exact absurd (Text.take_three_eq h (by decide) (by decide)) (by decide)
    | duplicateParameter | unknownVariable | unknownFunction | unusedParameter =>
      unfold message at h
      simp only [String.append_assoc] at h
      exact absurd (Text.head?_eq h (by decide) (by decide)) (by decide)
    | emptyCondition =>
      have hends : "empty branch condition" ++ "" =
          "function " ++ (inQuotes f ++ " is never used") := by
        rw [String.append_empty, ← String.append_assoc]
        exact h
      exact absurd (Text.head?_eq hends (by decide) (by decide)) (by decide)
  · rintro rfl
    rfl

/-- What is added to a list that is built with an account of the names seen so far is added for one
of its members. -/
theorem Report.exists_of_mem_listing {α β : Type} (name : α → String)
    (added : List String → α → List β) {built : List String → List α → List β}
    (hnil : ∀ seen, built seen [] = [])
    (hcons : ∀ seen a as, built seen (a :: as) = added seen a ++ built (name a :: seen) as)
    {seen : List String} {as : List α} {b : β} (h : b ∈ built seen as) :
    ∃ seen a, b ∈ added seen a := by
  induction as generalizing seen with
  | nil =>
    rw [hnil] at h
    cases h
  | cons a as ih =>
    rw [hcons, List.mem_append] at h
    rcases h with h | h
    · exact ⟨seen, a, h⟩
    · exact ih h

/-- The report is on a function that is never used. -/
def Report.IsUnusedFunction (r : Report) : Prop := ∃ f, r.issue = .unusedFunction f

namespace Report

theorem not_isUnusedFunction_of_nameReports {seen : List String} {ds : List Definition} {r : Report}
    (h : r ∈ Program.nameReports seen ds) : ¬r.IsUnusedFunction := by
  obtain ⟨seen, d, hd⟩ := exists_of_mem_listing Definition.name
    (fun seen d => d.nameReports seen) (fun _ => rfl) (fun _ _ _ => rfl) h
  unfold Definition.nameReports at hd
  rintro ⟨f, hf⟩
  grind

theorem not_isUnusedFunction_of_duplicateReports {d : Definition} {seen : List String}
    {qs : List Parameter} {r : Report} (h : r ∈ d.duplicateReports seen qs) :
    ¬r.IsUnusedFunction := by
  obtain ⟨seen, q, hq⟩ := exists_of_mem_listing Parameter.name
    (fun seen q =>
      if q.name ∈ seen then [⟨q.loc, .duplicateParameter q.name d.name⟩] else [])
    (fun _ => rfl) (fun _ _ _ => rfl) h
  rintro ⟨f, hf⟩
  grind

theorem not_isUnusedFunction_of_unusedReports {d : Definition} {seen : List String}
    {qs : List Parameter} {r : Report} (h : r ∈ d.unusedReports seen qs) :
    ¬r.IsUnusedFunction := by
  obtain ⟨seen, q, hq⟩ := exists_of_mem_listing Parameter.name
    (fun seen q =>
      if q.name ∈ seen ∨ q.name ∈ d.body.variableNames then []
      else [⟨q.loc, .unusedParameter q.name⟩])
    (fun _ => rfl) (fun _ _ _ => rfl) h
  rintro ⟨f, hf⟩
  grind

theorem not_isUnusedFunction_of_reports {accepted : String → Option Nat} {bound : List String}
    {e : Expr} {r : Report} (h : r ∈ e.reports accepted bound) : ¬r.IsUnusedFunction := by
  rintro ⟨f, hf⟩
  induction e using Expr.induction with
  | empty | literal | stray => cases h
  | var loc x =>
    unfold Expr.reports at h
    grind
  | call loc g es ih =>
    rw [Expr.reports, Expr.reportsIn_eq_flatMap, List.mem_append, List.mem_flatMap] at h
    rcases h with h | ⟨a, ha, h⟩
    · unfold Expr.callReports at h
      grind
    · exact ih a ha h
  | branch loc c t e hc ht he =>
    unfold Expr.reports at h
    grind

end Report

namespace Program

/-- The names that are defined and never used, in the order of their first definitions. -/
def unusedNames (p : Program) : List String :=
  p.table.names.filter fun f => !(f == entryPoint || p.callees.contains f)

theorem mem_unusedNames {p : Program} {f : String} :
    f ∈ p.unusedNames ↔ (∃ d ∈ p.definitions, d.name = f) ∧ f ≠ entryPoint ∧ f ∉ p.callees := by
  unfold unusedNames
  rw [List.mem_filter, p.lists_table.mem_names]
  simp

/-- A name is called exactly if the call graph has an edge into it. -/
theorem mem_callees_iff_edge (p : Program) (title f : String) :
    f ∈ p.callees ↔ ∃ g, (g, f) ∈ (p.callGraph title).edges := by
  unfold callees callGraph
  simp only [List.mem_flatMap, List.mem_map, Prod.mk.injEq]
  constructor
  · rintro ⟨d, hd, hf⟩
    exact ⟨d.name, d, hd, f, hf, rfl, rfl⟩
  · rintro ⟨g, d, hd, f, hf, rfl, rfl⟩
    exact ⟨d, hd, hf⟩

theorem exists_lastDefinition? {p : Program} {f : String} (h : ∃ d ∈ p.definitions, d.name = f) :
    ∃ d, p.lastDefinition? f = some d := by
  obtain ⟨d, hd, hname⟩ := h
  have hmem : d ∈ p.definitions.filter (·.name == f) := List.mem_filter.2 ⟨hd, beq_iff_eq.2 hname⟩
  exact ⟨_, List.getLast?_eq_some_getLast (List.ne_nil_of_mem hmem)⟩

/-- The report that a name is never used, at its last definition. -/
def unusedReport? (p : Program) (f : String) : Option Report :=
  (p.lastDefinition? f).map fun d => ⟨d.loc, .unusedFunction f⟩

theorem unusedReports_eq_filterMap (p : Program) :
    p.unusedReports = p.unusedNames.filterMap p.unusedReport? := by
  unfold unusedReports unusedNames
  rw [List.filterMap_filter]
  refine List.filterMap_congr fun f _ => ?_
  unfold unusedReport unusedReport? lastDefinition?
  rw [p.find?_table_eq_getLast?]
  have hcond : (!(f == entryPoint || p.callees.contains f)) = true ↔
      ¬(f = entryPoint ∨ f ∈ p.callees) := by simp
  simp only [hcond, ite_not]

/-- What is reported before the functions that are never used concerns none of them. -/
theorem inspect_eq_append (p : Program) :
    ∃ before, p.inspect = before ++ p.unusedNames.filterMap p.unusedReport? ∧
      ∀ r ∈ before, ¬r.IsUnusedFunction := by
  refine ⟨nameReports [] p.definitions ++ p.definitions.flatMap (·.reports p.table.arity?), ?_, ?_⟩
  · rw [inspect_eq_reports, reports, unusedReports_eq_filterMap, List.append_assoc]
  · intro r hr
    rw [List.mem_append, List.mem_flatMap] at hr
    rcases hr with hr | ⟨d, -, hr⟩
    · exact Report.not_isUnusedFunction_of_nameReports hr
    · unfold Definition.reports at hr
      rw [List.mem_append, List.mem_append] at hr
      rcases hr with hr | hr | hr
      · exact Report.not_isUnusedFunction_of_duplicateReports hr
      · exact Report.not_isUnusedFunction_of_reports hr
      · exact Report.not_isUnusedFunction_of_unusedReports hr

/-- Of the reports on names that are never used, those on one name are one or none. -/
theorem filter_unusedReport? {p : Program} {fs : List String} (hfs : fs.Nodup) (f : String) :
    (fs.filterMap p.unusedReport?).filter (fun r => r.issue.message = (Issue.unusedFunction f).message)
      = if f ∈ fs then (p.unusedReport? f).toList else [] := by
  have hone : ∀ g, (p.unusedReport? g).filter
      (fun r => r.issue.message = (Issue.unusedFunction f).message) =
        if g == f then p.unusedReport? g else none := by
    intro g
    unfold unusedReport?
    cases p.lastDefinition? g with
    | none => simp
    | some d => simp [Option.filter, Issue.message_eq_unusedFunction_iff]
  rw [List.filter_filterMap]
  simp only [hone]
  rw [← List.filterMap_filter, List.filter_beq]
  by_cases hf : f ∈ fs
  · rw [if_pos hf, hfs.count, if_pos hf]
    cases h : p.unusedReport? f <;> simp [h]
  · rw [if_neg hf, hfs.count, if_neg hf]
    rfl

/-- **Usage and the call graph agree.** Whatever the program, a defined function other than the
entry point is reported as never used exactly if the call graph has no edge into it. It is then
reported once, at its last definition. The reports on functions that are never used come after all
others, in the order of the first definitions of the names, and no other report reads like one of
them. -/
theorem inspect_unusedFunction (p : Program) (title : String) :
    (∀ f, (∃ d ∈ p.definitions, d.name = f) → f ≠ entryPoint →
      ((∃ r ∈ p.inspect, r.issue.message = (Issue.unusedFunction f).message) ↔
        ¬∃ g, (g, f) ∈ (p.callGraph title).edges) ∧
      ((¬∃ g, (g, f) ∈ (p.callGraph title).edges) →
        ∃ d, (p.definitions.filter (·.name == f)).getLast? = some d ∧
          p.inspect.filter (fun r => r.issue.message = (Issue.unusedFunction f).message) =
            [⟨d.loc, .unusedFunction f⟩])) ∧
    ∃ before unused, p.inspect = before ++ unused ∧
      (∀ r ∈ before, ∀ f, r.issue.message ≠ (Issue.unusedFunction f).message) ∧
      ∃ fs : List String, unused.map (·.issue) = fs.map Issue.unusedFunction ∧
        fs.Pairwise fun f g =>
          (p.definitions.map (·.name)).idxOf f < (p.definitions.map (·.name)).idxOf g := by
  obtain ⟨before, hinspect, hbefore⟩ := p.inspect_eq_append
  have hothers : ∀ r ∈ before, ∀ f, r.issue.message ≠ (Issue.unusedFunction f).message := by
    intro r hr f hf
    exact hbefore r hr ⟨f, (Issue.message_eq_unusedFunction_iff _ _).1 hf⟩
  have horder : p.unusedNames.Pairwise fun f g =>
      (p.definitions.map (·.name)).idxOf f < (p.definitions.map (·.name)).idxOf g :=
    p.lists_table.ordered.filter _
  have hnodup : p.unusedNames.Nodup := by
    refine horder.imp ?_
    rintro f g hlt rfl
    exact lt_irrefl _ hlt
  have hfilter : ∀ f, p.inspect.filter
      (fun r => r.issue.message = (Issue.unusedFunction f).message) =
        if f ∈ p.unusedNames then (p.unusedReport? f).toList else [] := by
    intro f
    have hnone : before.filter (fun r => r.issue.message = (Issue.unusedFunction f).message) = [] :=
      List.filter_eq_nil_iff.2 fun r hr => by simpa using hothers r hr f
    rw [hinspect, List.filter_append, hnone, List.nil_append, filter_unusedReport? hnodup]
  refine ⟨?_, before, _, hinspect, hothers, p.unusedNames, ?_, horder⟩
  · intro f hdefined hentry
    have hmem : f ∈ p.unusedNames ↔ ¬∃ g, (g, f) ∈ (p.callGraph title).edges := by
      rw [mem_unusedNames, ← mem_callees_iff_edge]
      tauto
    obtain ⟨d, hd⟩ := exists_lastDefinition? hdefined
    have hreport : p.unusedReport? f = some ⟨d.loc, .unusedFunction f⟩ := by
      unfold unusedReport?
      rw [hd, Option.map_some]
    refine ⟨?_, ?_⟩
    · have hreported : (∃ r ∈ p.inspect, r.issue.message = (Issue.unusedFunction f).message) ↔
          p.inspect.filter (fun r => r.issue.message = (Issue.unusedFunction f).message) ≠ [] := by
        simp [List.filter_eq_nil_iff]
      rw [hreported, hfilter, ← hmem, hreport]
      simp
    · intro hnone
      refine ⟨d, hd, ?_⟩
      rw [hfilter, if_pos (hmem.2 hnone), hreport, Option.toList_some]
  · rw [List.map_filterMap, ← List.filterMap_eq_map]
    refine List.filterMap_congr fun f hf => ?_
    obtain ⟨d, hd⟩ := exists_lastDefinition? (mem_unusedNames.1 hf).1
    unfold unusedReport?
    rw [hd]
    rfl

/-- A function that is defined twice and never called is reported once, at its last definition. One
that only an earlier definition of itself calls is not. -/
theorem inspect_unusedFunction_redefined :
    ∃ p : Program, p.definitions.map (·.name) = ["g", "f", "main", "g", "f"] ∧
      ("f", "f") ∈ (p.callGraph "t").edges ∧ (¬∃ h, (h, "g") ∈ (p.callGraph "t").edges) ∧
      p.inspect.filter (fun r => r.issue.message = (Issue.unusedFunction "g").message) =
        [⟨some ⟨"s", 4, 1⟩, .unusedFunction "g"⟩] ∧
      ¬∃ r ∈ p.inspect, r.issue.message = (Issue.unusedFunction "f").message := by
  let p : Program := ⟨none,
    [⟨some ⟨"s", 1, 1⟩, "g", [], .literal none 1⟩, ⟨some ⟨"s", 2, 1⟩, "f", [], .call none "f" []⟩,
      ⟨some ⟨"s", 3, 1⟩, "main", [], .branch none (.empty none) (.empty none) (.empty none)⟩,
      ⟨some ⟨"s", 4, 1⟩, "g", [], .literal none 2⟩, ⟨some ⟨"s", 5, 1⟩, "f", [], .literal none 3⟩]⟩
  have hedges : (p.callGraph "t").edges = [("f", "f")] := rfl
  have hedge : ("f", "f") ∈ (p.callGraph "t").edges := by
    rw [hedges]
    exact List.mem_singleton_self _
  have hnone : ¬∃ h, (h, "g") ∈ (p.callGraph "t").edges := by
    rw [hedges]
    simp
  obtain ⟨hg, -⟩ := inspect_unusedFunction p "t"
  obtain ⟨d, hd, hreports⟩ := (hg "g" ⟨_, List.mem_cons_self, rfl⟩ (by decide)).2 hnone
  have hf := (hg "f" ⟨_, List.mem_cons_of_mem _ List.mem_cons_self, rfl⟩ (by decide)).1
  obtain rfl : d = ⟨some ⟨"s", 4, 1⟩, "g", [], .literal none 2⟩ := (Option.some.inj hd).symm
  exact ⟨p, rfl, hedge, hnone, hreports, fun h => hf.1 h ⟨_, hedge⟩⟩

end Program

end Wordlet
