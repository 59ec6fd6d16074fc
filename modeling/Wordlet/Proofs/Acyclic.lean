import Mathlib.Data.Set.Card
import Wordlet.Proofs.CallChains
import Wordlet.Proofs.Termination

/-!
# Programs without recursion

In a program whose functions do not call themselves, not even through others, no function is open
twice at the same time. The calls that are open are a chain (`Table.ChainOfCalls`), so that there
are never more of them than there are functions to call; and the innermost of them may call one
thing more, a native or a name that nobody defines. So a run without a depth limit is a run under a
limit that it never meets.

* `Table.live`: the functions that a run can come to.
* `Table.ChainOfCalls.length_lt_ncard`: **a chain of open calls has fewer links than there are live
  functions**, by the pigeonhole principle.
* `Table.eval_limit_eq`: an evaluation without a limit is the one under any limit as large as the
  number of live functions.
* `Program.run_ends_of_acyclic`: every run ends, at a depth which is at most this number.
-/

namespace Wordlet

/-! ## Live functions -/

namespace Table

/-- The functions that calls lead to from the entry point: names that are defined and no
natives. -/
def live (t : Table) : Set String :=
  {f | t.Reached f ∧ Native.find? f = none ∧ t.find? f ≠ none}

theorem finite_live (t : Table) : t.live.Finite := by
  refine (List.finite_toSet (t.latest.map (·.name))).subset ?_
  rintro f ⟨-, -, hf⟩
  obtain ⟨d, hd⟩ := Option.ne_none_iff_exists'.1 hf
  have hname := List.find?_some hd
  exact List.mem_map.2 ⟨d, List.mem_of_find?_eq_some hd, by simpa using hname⟩

/-- What is reached and calls something is live. -/
theorem Reached.mem_live {t : Table} {f g : String} (hf : t.Reached f) (h : t.Calls f g) :
    f ∈ t.live := by
  obtain ⟨hn, d, hd, -⟩ := h
  exact ⟨hf, hn, by simp [hd]⟩

/-- A live function calls a live one. -/
def Link (t : Table) (f g : String) : Prop := t.Calls f g ∧ f ∈ t.live ∧ g ∈ t.live

/-- No live function leads back to itself. -/
def Acyclic (t : Table) : Prop := ∀ f, ¬Relation.TransGen t.Link f f

/-! ## Chains of different names -/

theorem ChainOfCalls.reached {t : Table} {g : String} {names : List String}
    (h : t.ChainOfCalls (g :: names)) : t.Reached g := by
  induction names generalizing g with
  | nil => exact t.reached_entryPoint.tail (chainOfCalls_cons.1 h).1
  | cons f names ih =>
    obtain ⟨hcalls, hrest⟩ := chainOfCalls_cons.1 h
    exact (ih hrest).tail hcalls

/-- All functions whose calls are open are live, and lead to the one that is called, if this is live
too. -/
theorem ChainOfCalls.leads {t : Table} {f g : String} {names : List String}
    (h : t.ChainOfCalls (g :: names)) (hf : f ∈ names ++ [entryPoint]) :
    f ∈ t.live ∧ (g ∈ t.live → Relation.TransGen t.Link f g) := by
  induction names generalizing g with
  | nil =>
    obtain rfl := List.mem_singleton.1 hf
    have hcalls := (chainOfCalls_cons.1 h).1
    have hlive := t.reached_entryPoint.mem_live hcalls
    exact ⟨hlive, fun hg => .single ⟨hcalls, hlive, hg⟩⟩
  | cons a names ih =>
    obtain ⟨hcalls, hrest⟩ := chainOfCalls_cons.1 h
    have hlive : a ∈ t.live := hrest.reached.mem_live hcalls
    rw [List.cons_append] at hf
    rcases List.mem_cons.1 hf with rfl | hf
    · exact ⟨hlive, fun hg => .single ⟨hcalls, hlive, hg⟩⟩
    · obtain ⟨hflive, hleads⟩ := ih hrest hf
      exact ⟨hflive, fun hg => (hleads hlive).tail ⟨hcalls, hlive, hg⟩⟩

/-- Without recursion no function is open twice. -/
theorem ChainOfCalls.nodup {t : Table} (hacyclic : t.Acyclic) {g : String} {names : List String}
    (h : t.ChainOfCalls (g :: names)) : (names ++ [entryPoint]).Nodup := by
  induction names generalizing g with
  | nil => exact List.nodup_singleton _
  | cons a names ih =>
    obtain ⟨hcalls, hrest⟩ := chainOfCalls_cons.1 h
    refine List.nodup_cons.2 ⟨?_, ih hrest⟩
    intro ha
    obtain ⟨hlive, hleads⟩ := hrest.leads ha
    exact hacyclic a (hleads hlive)

/-- **A chain of open calls has fewer links than there are live functions**: each of its names is
that of another live function, and so is the entry point. -/
theorem ChainOfCalls.length_lt_ncard {t : Table} (hacyclic : t.Acyclic) {g : String}
    {names : List String} (h : t.ChainOfCalls (g :: names)) : names.length < t.live.ncard := by
  have hnodup := h.nodup hacyclic
  have hsub : ((names ++ [entryPoint]).toFinset : Set String) ⊆ t.live := by
    intro f hf
    exact (h.leads (List.mem_toFinset.1 hf)).1
  have hcard := Set.ncard_le_ncard hsub t.finite_live
  rw [Set.ncard_coe_finset, List.toFinset_card_of_nodup hnodup, List.length_append] at hcard
  exact hcard

end Table

/-! ## Depths -/

mutual

theorem Act.exists_enter_of_mem_eventsOf (depth : Nat) : ∀ a : Act, ∀ e ∈ a.eventsOf depth,
    ∃ f args loc, .enter f e.depth args loc ∈ a.eventsOf depth
  | .write _, _, he => nomatch he
  | .call loc f args inner ending, e, he => by
    rw [eventsOf, List.mem_cons, List.mem_append] at he
    rw [eventsOf]
    rcases he with rfl | he | he
    · exact ⟨f, args, loc, List.mem_cons_self⟩
    · obtain ⟨g, as, l, hmem⟩ := exists_enter_of_mem_events (depth + 1) inner e he
      exact ⟨g, as, l, List.mem_cons_of_mem _ (List.mem_append_left _ hmem)⟩
    · -- the end of a call has the depth of its beginning
      cases ending with
      | returned v =>
        obtain rfl := List.mem_singleton.1 he
        exact ⟨f, args, loc, List.mem_cons_self⟩
      | cutShort => cases he

/-- At the depth of every event a call was entered. -/
theorem Act.exists_enter_of_mem_events (depth : Nat) : ∀ as : List Act,
    ∀ e ∈ Act.events depth as, ∃ f args loc, .enter f e.depth args loc ∈ Act.events depth as
  | [], _, he => nomatch he
  | a :: as, e, he => by
    rcases List.mem_append.1 he with he | he
    · obtain ⟨f, args, loc, hmem⟩ := exists_enter_of_mem_eventsOf depth a e he
      exact ⟨f, args, loc, List.mem_append_left _ hmem⟩
    · obtain ⟨f, args, loc, hmem⟩ := exists_enter_of_mem_events depth as e he
      exact ⟨f, args, loc, List.mem_append_right _ hmem⟩

end

namespace Table

variable {t : Table} {d : Definition}

/-- **Without recursion no event is deeper than there are live functions**, whatever the limits. -/
theorem depth_le_ncard (hacyclic : t.Acyclic) (hd : t.find? entryPoint = some d)
    (maxDepth : Option Int) (stack : Nat) (frame : Frame) {e : Event}
    (he : e ∈ Act.events 0 (d.body.eval ⟨t, maxDepth⟩ stack 0 frame).acts) :
    e.depth ≤ t.live.ncard := by
  obtain ⟨f, args, loc, henter⟩ := Act.exists_enter_of_mem_events 0 _ e he
  obtain ⟨before, after, hevents⟩ := List.append_of_mem henter
  obtain ⟨hchain, hdepth⟩ := chainOfCalls_eval hd maxDepth stack frame hevents
  have hlt := hchain.length_lt_ncard hacyclic
  omega

/-- **A limit as large as the number of live functions changes nothing.** -/
theorem eval_limit_eq (hacyclic : t.Acyclic) (hd : t.find? entryPoint = some d) {limit : Nat}
    (hle : t.live.ncard ≤ limit) (stack : Nat) (frame : Frame) :
    d.body.eval ⟨t, some limit⟩ stack 0 frame = d.body.eval ⟨t, none⟩ stack 0 frame := by
  have htruncated : (d.body.eval ⟨t, some limit⟩ stack 0 frame).Truncated limit 0
      (d.body.eval ⟨t, none⟩ stack 0 frame) :=
    Expr.eval_truncated t (by simp) stack (Nat.zero_le _) frame d.body
  rcases htruncated with ⟨heq, -⟩ | ⟨-, f, args, loc, after, htrace, -⟩
  · exact heq
  · -- what is cut off would begin with a call that is too deep
    have hmem : .enter f (limit + 1) args loc ∈
        Act.events 0 (d.body.eval ⟨t, none⟩ stack 0 frame).acts := by
      rw [Act.mem_events_iff, htrace]
      simp
    have hdepth : limit + 1 ≤ t.live.ncard := depth_le_ncard hacyclic hd none stack frame hmem
    omega

end Table

/-! ## Evaluations without a limit -/

/-- Where there is no limit nothing is too deep. -/
theorem Expr.eval_not_tooDeep (t : Table) (stack depth : Nat) (frame : Frame) (e : Expr) :
    (eval ⟨t, none⟩ stack depth frame e).Holds (fun _ => True) (fun _ => True)
      (fun err => err.fault ≠ .tooDeep) := by
  induction stack using Nat.strongRecOn generalizing depth frame e with
  | ind stack ih =>
    by_cases hstack : stack < 2
    · rw [eval_exhausted hstack]
      exact .fault (by simp)
    obtain ⟨stack, rfl⟩ : ∃ n, stack = n + 2 := ⟨stack - 2, by omega⟩
    refine holds_eval_step (fun _ h => Fault.ne_of_isLimit h rfl)
      (fun a _ => ih stack (by omega) depth frame a) ?_
    intro loc f es _ args
    refine holds_invoke (fun _ h => Fault.ne_of_isLimit h rfl) (fun hforbids => ?_) ?_
    · cases hforbids
    · intro _ _ d _
      refine ⟨by simp, ?_⟩
      rintro left rfl
      exact ih left (by omega) (depth + 1) _ _

/-- Without recursion the entry point ends although there is no limit. -/
theorem Table.exists_ends_of_acyclic {t : Table} {d : Definition} (hacyclic : t.Acyclic)
    (hd : t.find? entryPoint = some d) (frame : Frame) :
    ∃ o, d.body.Ends ⟨t, none⟩ 0 frame o := by
  obtain ⟨o, hnot, enough, henough⟩ :=
    d.body.exists_ends_of_limit t (t.live.ncard : Nat) 0 frame
  refine ⟨o, hnot, enough, ?_⟩
  intro stack hle
  rw [← eval_limit_eq hacyclic hd (Nat.le_refl _)]
  exact henough stack hle

/-! ## Runs -/

/-- A relation along which a number grows has no cycle. -/
theorem not_transGen_of_rank {α : Type} {r : α → α → Prop} (rank : α → Nat)
    (h : ∀ a b, r a b → rank a < rank b) (a : α) : ¬Relation.TransGen r a a := by
  intro hcycle
  have hlt : Relation.TransGen (· < ·) (rank a) (rank a) := hcycle.lift rank h
  rw [Relation.transGen_eq_self] at hlt
  exact Nat.lt_irrefl _ hlt

namespace Program

/-- A program has no recursion if its call graph has no cycle among live functions. The call graph
also shows the calls of definitions that are not in force. -/
theorem acyclic_of_callGraph {p : Program} {title : String}
    (h : ∀ f, ¬Relation.TransGen (fun a b => (a, b) ∈ (p.callGraph title).edges ∧
      a ∈ p.table.live ∧ b ∈ p.table.live) f f) : p.table.Acyclic := by
  intro f hcycle
  refine h f (Relation.TransGen.mono ?_ f f hcycle)
  rintro a b ⟨hcalls, hlive⟩
  exact ⟨mem_callGraph_of_calls hcalls title, hlive⟩

/-- A run without recursion does not go too deep under a limit as large as the number of live
functions. -/
theorem run_not_tooDeep {p : Program} (hacyclic : p.table.Acyclic) {limit : Int}
    (hle : (p.table.live.ncard : Int) ≤ limit) :
    (p.run (some limit)).outcome.Holds (fun _ => True) (fun _ => True)
      (fun err => err.fault ≠ .tooDeep) := by
  obtain ⟨n, rfl⟩ := Int.eq_ofNat_of_zero_le (Int.le_trans (Int.natCast_nonneg _) hle)
  refine run_holds (by simp) (by simp) (by simp) ?_
  intro d hd _ stack
  rw [Table.eval_limit_eq hacyclic hd (Int.ofNat_le.1 hle)]
  exact Expr.eval_not_tooDeep _ _ _ _ _

/-- **Without recursion every run ends, within a known depth.** Let the call graph of a program have
no cycle among live functions: those that are defined, are no natives and are reached from the entry
point, which is one of them.

* The body of the entry point ends without a depth limit, with an outcome that no stack has a part
  in; the run has this outcome, or its stack was too small, which is an error of the language.
* If the run fails, then with an error of the language; a stray node that lacks a part and a number
  that is too long to be written are the exceptions. Neither is in a program that was read.
* No event of any run is deeper than there are live functions.
* So a limit as large as their number is never what a run fails by. -/
theorem run_ends_of_acyclic (p : Program) (title : String)
    (hacyclic : ∀ f, ¬Relation.TransGen (fun a b => (a, b) ∈ (p.callGraph title).edges ∧
      a ∈ p.table.live ∧ b ∈ p.table.live) f f) :
    (∀ body, p.entryBody = .ok body →
      ∃ o, body.Ends ⟨p.table, none⟩ 0 (.ofBindings entryPoint []) o ∧
        ((p.run none).outcome = o ∨ (p.run none).outcome.Exhausted)) ∧
    (∀ err, (p.run none).outcome.result = .error err →
      err.Allowed (∃ d ∈ p.definitions, d.body.stray? ≠ none)
        (∃ d ∈ p.definitions, ¬d.body.LiteralsInRange)) ∧
    (∀ source path, parse (Token.scan source path) = .ok p →
      ∀ err, (p.run none).outcome.result = .error err → err.fault.isForeign = false) ∧
    (∀ maxDepth, ∀ e ∈ (p.run maxDepth).events, e.depth ≤ p.table.live.ncard) ∧
    (∀ limit : Int, (p.table.live.ncard : Int) ≤ limit →
      ∀ loc, (p.run (some limit)).outcome.result ≠ .error ⟨.tooDeep, loc⟩) := by
  have hfits : demandedStack none ≤ largestStack := by decide
  have hacyclic := acyclic_of_callGraph hacyclic
  refine ⟨?_, fun err => run_error_allowed hfits, fun _ _ hp err => run_error_not_foreign hp hfits,
    ?_, ?_⟩
  · intro body hbody
    obtain ⟨d, hd, -, rfl⟩ := exists_of_entryBody_ok hbody
    obtain ⟨o, ho⟩ := Table.exists_ends_of_acyclic hacyclic hd (.ofBindings entryPoint [])
    exact ⟨o, ho, run_eq_or_exhausted hbody hfits ho⟩
  · intro maxDepth e he
    obtain ⟨d, hd, hrun⟩ := exists_of_run_events he
    unfold Run.events at he
    rw [hrun] at he
    exact Table.depth_le_ncard hacyclic hd maxDepth _ _ he
  · intro limit hle loc hdeep
    exact (run_not_tooDeep hacyclic hle).error _ hdeep rfl

/-- Three functions of which the first calls the other two and the second the third: natives are
called at depth three, a limit of two is too small, and one of three is large enough. -/
theorem run_ends_of_acyclic_three :
    ∃ p : Program, p.table.live.ncard = 3 ∧
      (∃ e ∈ (p.run none).events, e.depth = 3) ∧
      (p.run (some 2)).outcome.result = .error ⟨.tooDeep, none⟩ ∧
      (∀ e ∈ (p.run none).events, e.depth ≤ 3) ∧
      ∀ loc, (p.run (some 3)).outcome.result ≠ .error ⟨.tooDeep, loc⟩ := by
  let p : Program := ⟨none, [
    ⟨none, "main", [], .call none "f" [.call none "g" [.literal none 1]]⟩,
    ⟨none, "f", [⟨none, "x"⟩], .call none "print" [.call none "g" [.var none "x"]]⟩,
    ⟨none, "g", [⟨none, "x"⟩], .call none "add" [.var none "x", .literal none 1]⟩]⟩
  have hmain : p.table.Calls "main" "f" := ⟨by decide, _, rfl, by decide⟩
  have hf : p.table.Calls "f" "g" := ⟨by decide, _, rfl, by decide⟩
  have hg : p.table.Calls "g" "add" := ⟨by decide, _, rfl, by decide⟩
  have hreachedf : p.table.Reached "f" := p.table.reached_entryPoint.tail hmain
  have hreachedg : p.table.Reached "g" := hreachedf.tail hf
  have hlive : p.table.live = {"main", "f", "g"} := by
    ext name
    constructor
    · rintro ⟨hname, hn, -⟩
      have hmem : name ∈ ["main", "f", "g", "print", "add"] :=
        hname.mem_of_closed (by decide +kernel)
      simp only [List.mem_cons, List.not_mem_nil, or_false] at hmem
      rcases hmem with rfl | rfl | rfl | rfl | rfl
      · simp
      · simp
      · simp
      · exact absurd hn (by decide)
      · exact absurd hn (by decide)
    · rintro (rfl | rfl | rfl)
      · exact p.table.reached_entryPoint.mem_live hmain
      · exact hreachedf.mem_live hf
      · exact hreachedg.mem_live hg
  have hncard : p.table.live.ncard = 3 :=
    Set.ncard_eq_three.2 ⟨_, _, _, by decide, by decide, by decide, hlive⟩
  -- names later in the list are called by earlier ones
  have hacyclic : ∀ f, ¬Relation.TransGen (fun a b => (a, b) ∈ (p.callGraph "t").edges ∧
      a ∈ p.table.live ∧ b ∈ p.table.live) f f := by
    refine not_transGen_of_rank (fun name => ["main", "f", "g"].idxOf name) ?_
    rintro a b ⟨hedge, -, -⟩
    have hedges : ∀ e ∈ (p.callGraph "t").edges,
        ["main", "f", "g"].idxOf e.1 < ["main", "f", "g"].idxOf e.2 := by decide +kernel
    exact hedges _ hedge
  obtain ⟨-, -, -, hdepth, hdeep⟩ := run_ends_of_acyclic p "t" hacyclic
  rw [hncard] at hdepth hdeep
  refine ⟨p, hncard, ⟨.enter "add" 3 [2, 1] none, ?_, ?_⟩, ?_, hdepth none, hdeep 3 (by decide)⟩
  · decide +kernel
  · decide
  · decide +kernel

/-- **Without recursion not all errors are those of the language.** The call graph of `longPrint`
has edges to natives only, and the integer that it writes is too long; that of `bareNode` has no
edges, and its node lacks a part. -/
theorem run_acyclic_foreign_longPrint :
    (¬∀ (p : Program) (title : String),
      (∀ f, ¬Relation.TransGen (fun a b => (a, b) ∈ (p.callGraph title).edges ∧
        a ∈ p.table.live ∧ b ∈ p.table.live) f f) →
      ∀ err, (p.run none).outcome.result = .error err → err.fault.isForeign = false) ∧
    (bareNode.callGraph "t").edges = [] ∧
    (bareNode.run none).outcome.result = .error ⟨.missingPart "value", none⟩ := by
  refine ⟨?_, rfl, by decide +kernel⟩
  intro h
  have hedges : ∀ e ∈ (longPrint.callGraph "t").edges, Native.find? e.2 ≠ none := by
    decide +kernel
  have hforeign := h longPrint "t" ?_ ⟨.numberTooLong, none⟩ (by decide +kernel)
  · cases hforeign
  · intro f hcycle
    obtain ⟨a, -, hedge, -, hlive⟩ := Relation.TransGen.tail'_iff.1 hcycle
    exact hedges _ hedge hlive.2.1

end Program

end Wordlet
