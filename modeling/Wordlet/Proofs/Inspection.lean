import Mathlib.Data.List.Basic
import Mathlib.Data.List.Induction
import Mathlib.Logic.Function.Iterate
import Wordlet.Inspection

/-!
# An inspection finds the reports

An inspection counts while it walks; the reports on a program are told by what occurs in it. Both
come to the same, since a count is the number of occurrences, and a walk over an expression changes
nothing but counts.

* `Register.entries_tally`: what is kept under a name has been changed once for each occurrence of
  the name.
* `Inspection.expression_eq`: **what a walk over an expression does**: it adds the reports on the
  expression, and counts the names that it calls and the variables in it.
* `Inspection.definition_eq`: the same of definitions, with the reports on their parameters.
* `Program.declared_entries`: the register of the functions lists the names in the order of their
  first definitions, each with its last definition.
* `Program.inspect_eq_reports`: **an inspection finds the reports.**
-/

namespace Wordlet

/-! ## Registers -/

namespace Register

variable {α : Type}

/-- The names in a register, in order. -/
def names (r : Register α) : List String := r.entries.map (·.1)

/-- Each of the names is counted in turn: what is kept under it is changed. -/
def tally (r : Register α) (count : α → α) (names : List String) : Register α :=
  names.foldl (fun r name => r.change name count) r

theorem lookup_cons (e : String × α) (es : List (String × α)) (name : String) :
    (e :: es).lookup name = if name = e.1 then some e.2 else es.lookup name := by
  obtain ⟨key, a⟩ := e
  rw [List.lookup_cons]
  by_cases h : name = key
  · simp [h]
  · have hne : (name == key) = false := beq_eq_false_iff_ne.2 h
    rw [hne, if_neg h]

theorem find?_isSome_iff (r : Register α) (name : String) :
    (r.find? name).isSome = true ↔ name ∈ r.names := by
  unfold find? names
  induction r.entries with
  | nil => simp
  | cons e es ih =>
    rw [lookup_cons, List.map_cons, List.mem_cons, ← ih]
    by_cases h : name = e.1 <;> simp [h]

theorem not_mem_of_find? {r : Register α} {name : String} (h : r.find? name = none) :
    name ∉ r.names := by
  rw [← find?_isSome_iff, h]
  simp

/-! ### Counting -/

@[simp] theorem names_change (r : Register α) (name : String) (f : α → α) :
    (r.change name f).names = r.names := by
  unfold names change
  rw [List.map_map]
  refine List.map_congr_left fun e _ => ?_
  dsimp only [Function.comp]
  split <;> rfl

/-- Without the name nothing is changed. -/
theorem change_of_not_mem {r : Register α} {name : String} (h : name ∉ r.names) (f : α → α) :
    r.change name f = r := by
  have hsame : r.entries.map (fun e => if e.1 = name then (e.1, f e.2) else e) = r.entries := by
    refine (List.map_congr_left fun e he => ?_).trans (List.map_id _)
    have hne : e.1 ≠ name := fun heq => h (heq ▸ List.mem_map_of_mem he)
    rw [if_neg hne, id]
  unfold change
  rw [hsame]

theorem find?_change (r : Register α) (name other : String) (f : α → α) :
    (r.change name f).find? other =
      if other = name then (r.find? other).map f else r.find? other := by
  unfold find? change
  dsimp only
  induction r.entries with
  | nil => simp
  | cons e es ih =>
    have hkey : (if e.1 = name then (e.1, f e.2) else e).1 = e.1 := by split <;> rfl
    rw [List.map_cons, lookup_cons, lookup_cons, hkey, ih]
    by_cases h : other = e.1
    · subst h
      by_cases hname : e.1 = name <;> simp [hname]
    · rw [if_neg h, if_neg h]

@[simp] theorem names_tally (r : Register α) (count : α → α) (ns : List String) :
    (r.tally count ns).names = r.names := by
  unfold tally
  induction ns generalizing r with
  | nil => rfl
  | cons n ns ih => rw [List.foldl_cons, ih, names_change]

theorem tally_append (r : Register α) (count : α → α) (ns ms : List String) :
    r.tally count (ns ++ ms) = (r.tally count ns).tally count ms := by
  unfold tally
  rw [List.foldl_append]

/-- **What is kept under a name has been changed once for each occurrence of the name.** -/
theorem entries_tally (r : Register α) (count : α → α) (ns : List String) :
    (r.tally count ns).entries = r.entries.map fun e => (e.1, count^[ns.count e.1] e.2) := by
  induction ns generalizing r with
  | nil => simp [tally]
  | cons n ns ih =>
    have hstep : r.tally count (n :: ns) = (r.change n count).tally count ns := rfl
    rw [hstep, ih, change, List.map_map]
    refine List.map_congr_left fun e _ => ?_
    dsimp only [Function.comp]
    by_cases h : e.1 = n
    · rw [if_pos h, ← h, List.count_cons_self, Function.iterate_succ_apply]
    · rw [if_neg h, List.count_cons_of_ne (Ne.symm h)]

/-! ### Entering names -/

theorem names_enter (r : Register α) (name : String) (a : α) :
    (r.enter name a).names = if name ∈ r.names then r.names else r.names ++ [name] := by
  unfold names enter
  dsimp only
  induction r.entries with
  | nil => rfl
  | cons e es ih =>
    unfold enterIn
    by_cases h : e.1 = name
    · rw [if_pos h]
      simp [h]
    · have hiff : name ∈ (e :: es).map (·.1) ↔ name ∈ es.map (·.1) := by simp [Ne.symm h]
      rw [if_neg h, List.map_cons, ih]
      by_cases hmem : name ∈ es.map (·.1)
      · rw [if_pos hmem, if_pos (hiff.2 hmem), List.map_cons]
      · rw [if_neg hmem, if_neg (hiff.not.2 hmem), List.map_cons, List.cons_append]

theorem find?_enter (r : Register α) (name other : String) (a : α) :
    (r.enter name a).find? other = if other = name then some a else r.find? other := by
  unfold find? enter
  dsimp only
  induction r.entries with
  | nil => exact lookup_cons _ _ _
  | cons e es ih =>
    unfold enterIn
    rw [lookup_cons e es]
    by_cases h : e.1 = name
    · rw [if_pos h, lookup_cons, h]
      by_cases hother : other = name
      · rw [if_pos hother, if_pos hother]
      · rw [if_neg hother, if_neg hother, if_neg hother]
    · rw [if_neg h, lookup_cons, ih]
      by_cases hother : other = e.1
      · have hne : other ≠ name := hother ▸ h
        rw [if_pos hother, if_neg hne, if_pos hother]
      · rw [if_neg hother, if_neg hother]

theorem nodup_enter {r : Register α} (h : r.names.Nodup) (name : String) (a : α) :
    (r.enter name a).names.Nodup := by
  rw [names_enter]
  by_cases hname : name ∈ r.names
  · rw [if_pos hname]
    exact h
  · rw [if_neg hname]
    refine List.nodup_append.2 ⟨h, List.pairwise_singleton _ name, ?_⟩
    intro x hx y hy heq
    obtain rfl := List.mem_singleton.1 hy
    exact hname (heq ▸ hx)

/-- A name that is new is entered at the end. -/
theorem enter_of_not_mem {r : Register α} {name : String} (h : name ∉ r.names) (a : α) :
    r.enter name a = ⟨r.entries ++ [(name, a)]⟩ := by
  obtain ⟨entries⟩ := r
  unfold names at h
  unfold enter
  congr 1
  dsimp only at h ⊢
  induction entries with
  | nil => rfl
  | cons e es ih =>
    rw [List.map_cons, List.mem_cons, not_or] at h
    unfold enterIn
    rw [if_neg (Ne.symm h.1), ih h.2, List.cons_append]

/-- A register is told by its names and by what is kept under them. -/
theorem entries_eq {r : Register α} (h : r.names.Nodup) :
    r.entries = r.names.filterMap fun name => (r.find? name).map (name, ·) := by
  obtain ⟨entries⟩ := r
  unfold names find? at *
  dsimp only at h ⊢
  induction entries with
  | nil => rfl
  | cons e es ih =>
    rw [List.map_cons, List.nodup_cons] at h
    obtain ⟨hnew, hrest⟩ := h
    have hhead : ((e :: es).lookup e.1).map (e.1, ·) = some e := by
      rw [lookup_cons, if_pos rfl, Option.map_some]
    have htail : ∀ name ∈ es.map (·.1),
        ((e :: es).lookup name).map (name, ·) = (es.lookup name).map (name, ·) := by
      intro name hname
      have hne : name ≠ e.1 := fun heq => hnew (heq ▸ hname)
      rw [lookup_cons, if_neg hne]
    rw [List.map_cons, List.filterMap_cons, hhead, List.filterMap_congr htail]
    exact congrArg _ (ih hrest)

end Register

theorem Prototype.iterate_called (q : Prototype) (n : Nat) :
    Prototype.called^[n] q = { q with calls := q.calls + n } := by
  induction n with
  | zero => rfl
  | succ n ih =>
    rw [Function.iterate_succ_apply', ih]
    rfl

theorem Usage.iterate_used (u : Usage) (n : Nat) :
    Usage.used^[n] u = { u with uses := u.uses + n } := by
  induction n with
  | zero => rfl
  | succ n ih =>
    rw [Function.iterate_succ_apply', ih]
    rfl

/-! ## Walks -/

/-- How many arguments calls take, where the functions in the register come before the natives. -/
def Register.arity? (r : Register Prototype) (f : String) : Option Nat :=
  match r.find? f with
  | some q => some q.parameters.length
  | none => (Native.find? f).map Native.arity

/-- Counting calls changes no arities. -/
@[simp] theorem Register.arity?_tally (r : Register Prototype) (called : List String) :
    (r.tally .called called).arity? = r.arity? := by
  have hstep : ∀ (r : Register Prototype) (name f : String),
      (r.change name .called).arity? f = r.arity? f := by
    intro r name f
    unfold arity?
    rw [find?_change]
    by_cases h : f = name
    · rw [if_pos h]
      cases r.find? f <;> rfl
    · rw [if_neg h]
  unfold tally
  induction called generalizing r with
  | nil => rfl
  | cons name called ih =>
    rw [List.foldl_cons, ih]
    exact funext (hstep r name)

namespace Inspection

/-- The inspection with reports added and with calls and uses counted. -/
def after (s : Inspection) (rs : List Report) (called used : List String) : Inspection :=
  ⟨s.reports ++ rs.toArray, s.functions.tally .called called, s.scope.tally .used used⟩

theorem after_nil (s : Inspection) : s.after [] [] [] = s := by
  unfold after
  rw [Array.append_empty]
  rfl

theorem after_after (s : Inspection) (rs rs' : List Report)
    (called called' used used' : List String) :
    (s.after rs called used).after rs' called' used' =
      s.after (rs ++ rs') (called ++ called') (used ++ used') := by
  unfold after
  simp only [Register.tally_append, Array.append_assoc, List.append_toArray]

theorem arity?_after (s : Inspection) (rs : List Report) (called used : List String) :
    (s.after rs called used).functions.arity? = s.functions.arity? :=
  Register.arity?_tally _ _

theorem names_after (s : Inspection) (rs : List Report) (called used : List String) :
    (s.after rs called used).scope.names = s.scope.names :=
  Register.names_tally _ _ _

theorem add_eq (s : Inspection) (loc : Option Location) (issue : Issue) :
    s.add loc issue = s.after [⟨loc, issue⟩] [] [] := by
  unfold add after
  rw [Array.push_eq_append]
  rfl

theorem arity_eq (s : Inspection) (loc : Option Location) (f : String) (accepted received : Nat) :
    s.arity loc f accepted received =
      s.after (if accepted = received then [] else [⟨loc, .arityMismatch f accepted received⟩])
        [] [] := by
  unfold arity
  by_cases h : accepted = received
  · rw [if_neg (not_not.2 h), if_pos h, after_nil]
  · rw [if_pos h, if_neg h, add_eq]

/-- What a call adds by itself. A call of a name that is not defined counts nothing. -/
theorem call_eq (s : Inspection) (loc : Option Location) (f : String) (received : Nat) :
    s.call loc f received =
      s.after (Expr.callReports s.functions.arity? loc f received) [f] [] := by
  unfold call Expr.callReports Register.arity?
  cases hf : s.functions.find? f with
  | some q =>
    have hcount : { s with functions := s.functions.change f .called } = s.after [] [f] [] := by
      unfold after
      rw [Array.append_empty]
      rfl
    dsimp only
    rw [hcount, arity_eq, after_after]
    rfl
  | none =>
    have hsame : s.functions.change f .called = s.functions :=
      Register.change_of_not_mem (Register.not_mem_of_find? hf) _
    have hcount : ∀ rs, s.after rs [] [] = s.after rs [f] [] := by
      intro rs
      unfold after Register.tally
      rw [List.foldl_cons, hsame]
    cases Native.find? f with
    | some n =>
      dsimp only [Option.map_some]
      rw [arity_eq, hcount]
    | none =>
      dsimp only [Option.map_none]
      rw [add_eq, hcount]

/-- What a variable adds. A variable that is no parameter counts nothing. -/
theorem use_eq (s : Inspection) (loc : Option Location) (x : String) :
    s.use loc x =
      s.after (if x ∈ s.scope.names then [] else [⟨loc, .unknownVariable x⟩]) [] [x] := by
  unfold use
  cases hx : s.scope.find? x with
  | some u =>
    have hmem : x ∈ s.scope.names := (Register.find?_isSome_iff _ _).1 (by rw [hx]; rfl)
    rw [if_pos hmem]
    unfold after
    rw [Array.append_empty]
    rfl
  | none =>
    have hnot := Register.not_mem_of_find? hx
    have hsame : s.scope.change x .used = s.scope := Register.change_of_not_mem hnot _
    dsimp only
    rw [if_neg hnot, add_eq]
    unfold after Register.tally
    rw [List.foldl_cons, hsame]

/-- **What a walk over an expression does**: it adds the reports on the expression, and counts the
names that are called and the variables that occur. -/
theorem expression_eq (e : Expr) (s : Inspection) :
    s.expression e =
      s.after (e.reports s.functions.arity? s.scope.names) e.callees e.variableNames := by
  induction e using Expr.induction generalizing s with
  | empty | literal | stray => exact (after_nil s).symm
  | var loc x => exact use_eq s loc x
  | call loc f es ih =>
    have hes : ∀ s : Inspection, s.expressions es =
        s.after (Expr.reportsIn s.functions.arity? s.scope.names es) (Expr.calleesIn es)
          (Expr.variableNamesIn es) := by
      induction es with
      | nil => exact fun s => (after_nil s).symm
      | cons e es ihes =>
        obtain ⟨he, hrest⟩ := List.forall_mem_cons.1 ih
        intro s
        rw [expressions, he, ihes hrest, after_after, arity?_after, names_after]
        rfl
    rw [expression, call_eq, hes, after_after, arity?_after, names_after]
    rfl
  | branch loc c t e hc ht he =>
    have hcondition : (if c.isEmpty then s.add loc .emptyCondition else s.expression c) =
        s.after (if c.isEmpty then [⟨loc, .emptyCondition⟩]
          else c.reports s.functions.arity? s.scope.names) c.callees c.variableNames := by
      by_cases hempty : c.isEmpty = true
      · -- nothing is called or used in an empty condition
        obtain ⟨cloc, rfl⟩ : ∃ cloc, c = .empty cloc := by
          cases c with
          | empty cloc => exact ⟨cloc, rfl⟩
          | literal | var | call | branch | stray => cases hempty
        exact add_eq s loc _
      · rw [if_neg hempty, if_neg hempty, hc]
    rw [expression, hcondition, ht, he]
    simp only [after_after, arity?_after, names_after, List.append_assoc]
    rfl

/-! ## Definitions -/

/-- What is left over at the end is reported one by one. -/
theorem foldl_close {β : Type} {close : Inspection → β → Inspection} {report? : β → Option Report}
    (h : ∀ s b, close s b = match report? b with
      | some r => s.add r.loc r.issue
      | none => s) (bs : List β) (s : Inspection) :
    bs.foldl close s = s.after (bs.filterMap report?) [] [] := by
  induction bs generalizing s with
  | nil => exact (after_nil s).symm
  | cons b bs ih =>
    rw [List.foldl_cons, ih, h, List.filterMap_cons]
    cases report? b with
    | none => rfl
    | some r =>
      dsimp only
      rw [add_eq, after_after]
      rfl

/-- The variables that parameters enter, after parameters named `earlier`: the first of each
name. -/
def fresh (earlier : List String) : List Parameter → List (String × Usage)
  | [] => []
  | q :: qs =>
    (if q.name ∈ earlier then [] else [(q.name, { loc := q.loc })]) ++ fresh (q.name :: earlier) qs

theorem mem_fresh {earlier : List String} {qs : List Parameter} {x : String} :
    x ∈ (fresh earlier qs).map (·.1) ↔ x ∉ earlier ∧ x ∈ qs.map (·.name) := by
  induction qs generalizing earlier with
  | nil => simp [fresh]
  | cons q qs ih =>
    rw [fresh, List.map_append, List.mem_append, ih, List.map_cons, List.mem_cons, List.mem_cons]
    by_cases hq : q.name ∈ earlier
    · rw [if_pos hq]
      grind
    · rw [if_neg hq]
      grind

/-- The parameters of a definition enter the first of each name, and the others are reported. -/
theorem foldl_parameter (d : Definition) (qs : List Parameter) {s : Inspection}
    {earlier : List String} (h : ∀ x, x ∈ s.scope.names ↔ x ∈ earlier) :
    qs.foldl (parameter d.name) s =
      ⟨s.reports ++ (d.duplicateReports earlier qs).toArray, s.functions,
        ⟨s.scope.entries ++ fresh earlier qs⟩⟩ := by
  induction qs generalizing s earlier with
  | nil => simp [Definition.duplicateReports, fresh]
  | cons q qs ih =>
    have hmem : (s.scope.find? q.name).isSome = true ↔ q.name ∈ earlier :=
      (Register.find?_isSome_iff _ _).trans (h q.name)
    rw [List.foldl_cons, Definition.duplicateReports, fresh]
    by_cases hq : q.name ∈ earlier
    · have hstep : parameter d.name s q = s.add q.loc (.duplicateParameter q.name d.name) :=
        if_pos (hmem.2 hq)
      have hnames : ∀ x, x ∈ (parameter d.name s q).scope.names ↔ x ∈ q.name :: earlier := by
        intro x
        rw [hstep, List.mem_cons]
        refine (h x).trans ⟨.inr, ?_⟩
        rintro (rfl | hx)
        · exact hq
        · exact hx
      rw [ih hnames, hstep, if_pos hq, if_pos hq]
      simp [add]
    · have hnew : q.name ∉ s.scope.names := fun hname => hq ((h _).1 hname)
      have hstep : parameter d.name s q =
          { s with scope := ⟨s.scope.entries ++ [(q.name, { loc := q.loc })]⟩ } := by
        rw [parameter, if_neg (hmem.not.2 hq), Register.enter_of_not_mem hnew]
      have hnames : ∀ x, x ∈ (parameter d.name s q).scope.names ↔ x ∈ q.name :: earlier := by
        intro x
        rw [hstep, List.mem_cons, ← h x, or_comm]
        unfold Register.names
        simp
      rw [ih hnames, hstep, if_neg hq, if_neg hq]
      simp

/-- What a definition leaves unused are those of its variables that do not occur. -/
theorem unusedReports_eq (d : Definition) (earlier : List String) (qs : List Parameter) :
    d.unusedReports earlier qs = (fresh earlier qs).filterMap fun v =>
      if v.1 ∈ d.body.variableNames then none else some ⟨v.2.loc, .unusedParameter v.1⟩ := by
  induction qs generalizing earlier with
  | nil => rfl
  | cons q qs ih =>
    rw [Definition.unusedReports, fresh, List.filterMap_append, ih]
    congr 1
    by_cases hq : q.name ∈ earlier
    · rw [if_pos (.inl hq), if_pos hq]
      rfl
    · rw [if_neg hq]
      by_cases hused : q.name ∈ d.body.variableNames <;> simp [hq, hused]

end Inspection

/-- The reports on an expression depend on which names are bound, not on their order. -/
theorem Expr.reports_congr {arity? : String → Option Nat} {bound bound' : List String}
    (h : ∀ x, x ∈ bound ↔ x ∈ bound') (e : Expr) :
    e.reports arity? bound = e.reports arity? bound' := by
  induction e using Expr.induction with
  | empty | literal | stray => rfl
  | var loc x =>
    unfold reports
    simp only [h x]
  | call loc f es ih =>
    unfold reports
    rw [reportsIn_eq_flatMap, reportsIn_eq_flatMap]
    exact congrArg _ (List.flatMap_congr ih)
  | branch loc c t e hc ht he =>
    unfold reports
    rw [hc, ht, he]

namespace Inspection

/-- The report on a variable that was not used. -/
def unusedVariable? (v : String × Usage) : Option Report :=
  if v.2.uses = 0 then some ⟨v.2.loc, .unusedParameter v.1⟩ else none

/-- The report on a function that was not called. -/
def unusedFunction? (f : String × Prototype) : Option Report :=
  if f.1 ≠ entryPoint ∧ f.2.calls = 0 then some ⟨f.2.loc, .unusedFunction f.1⟩ else none

theorem foldl_closeVariable (vs : List (String × Usage)) (s : Inspection) :
    vs.foldl closeVariable s = s.after (vs.filterMap unusedVariable?) [] [] := by
  refine foldl_close (fun s v => ?_) vs s
  unfold closeVariable unusedVariable?
  split <;> rfl

theorem foldl_closeFunction (fs : List (String × Prototype)) (s : Inspection) :
    fs.foldl closeFunction s = s.after (fs.filterMap unusedFunction?) [] [] := by
  refine foldl_close (fun s f => ?_) fs s
  unfold closeFunction unusedFunction?
  split <;> rfl

theorem uses_of_mem_fresh {earlier : List String} {qs : List Parameter} {v : String × Usage}
    (h : v ∈ fresh earlier qs) : v.2.uses = 0 := by
  induction qs generalizing earlier with
  | nil => cases h
  | cons q qs ih =>
    rw [fresh, List.mem_append] at h
    rcases h with h | h
    · by_cases hq : q.name ∈ earlier
      · rw [if_pos hq] at h
        cases h
      · rw [if_neg hq, List.mem_singleton] at h
        rw [h]
    · exact ih h

/-- What was counted no time at the end of a definition does not occur in it. -/
theorem filterMap_unusedVariable (d : Definition) :
    (Register.tally ⟨fresh [] d.parameters⟩ .used d.body.variableNames).entries.filterMap
      unusedVariable? = d.unusedReports [] d.parameters := by
  rw [Register.entries_tally, unusedReports_eq, List.filterMap_map]
  refine List.filterMap_congr fun v hv => ?_
  have hzero : v.2.uses = 0 := uses_of_mem_fresh hv
  dsimp only [Function.comp]
  unfold unusedVariable?
  simp only [Usage.iterate_used, hzero, Nat.zero_add, List.count_eq_zero]
  by_cases hused : v.1 ∈ d.body.variableNames
  · rw [if_neg (not_not.2 hused), if_pos hused]
  · rw [if_pos hused, if_neg hused]

/-- **What a walk over a definition does**: it adds the reports on the definition, and counts the
names that are called. -/
theorem definition_eq (s : Inspection) (d : Definition) :
    ∃ scope, s.definition d =
      ⟨s.reports ++ (d.reports s.functions.arity?).toArray, s.functions.tally .called d.callees,
        scope⟩ := by
  have hparameters : d.parameters.foldl (parameter d.name) { s with scope := .empty } =
      ⟨s.reports ++ (d.duplicateReports [] d.parameters).toArray, s.functions,
        ⟨fresh [] d.parameters⟩⟩ :=
    foldl_parameter d d.parameters fun _ => Iff.rfl
  have hbound : ∀ x, x ∈ Register.names ⟨fresh [] d.parameters⟩ ↔ x ∈ d.parameterNames := by
    intro x
    exact mem_fresh.trans (and_iff_right List.not_mem_nil)
  have hclosed := filterMap_unusedVariable d
  refine ⟨Register.tally ⟨fresh [] d.parameters⟩ .used d.body.variableNames, ?_⟩
  unfold definition
  dsimp only
  rw [hparameters, expression_eq, foldl_closeVariable, Expr.reports_congr hbound]
  unfold after
  dsimp only
  rw [hclosed]
  unfold Definition.reports Register.tally
  simp only [List.foldl_nil, Array.append_assoc, List.append_toArray, List.append_assoc]
  rfl

/-- **What the walks over definitions do**: the names that earlier definitions call do not change
what is reported on later ones. -/
theorem foldl_definition (ds : List Definition) (s : Inspection) :
    ∃ scope, ds.foldl definition s =
      ⟨s.reports ++ (ds.flatMap (·.reports s.functions.arity?)).toArray,
        s.functions.tally .called (ds.flatMap Definition.callees), scope⟩ := by
  induction ds generalizing s with
  | nil =>
    refine ⟨s.scope, ?_⟩
    rw [List.flatMap_nil, Array.append_empty]
    rfl
  | cons d ds ih =>
    obtain ⟨scope, hd⟩ := definition_eq s d
    obtain ⟨scope', hds⟩ := ih (s.definition d)
    refine ⟨scope', ?_⟩
    rw [List.foldl_cons, hds, hd]
    simp only [Register.arity?_tally, List.flatMap_cons, Register.tally_append,
      Array.append_assoc, List.append_toArray]

/-! ## The functions that are defined -/

/-- What a definition is among the functions before any call of it. -/
def prototype (d : Definition) : Prototype := { loc := d.loc, parameters := d.parameters }

/-- Definitions enter what they are, and their names are reported. -/
theorem foldl_declare (ds : List Definition) (s : Inspection) {earlier : List String}
    (h : ∀ name, name ∈ s.functions.names ↔ name ∈ earlier) :
    ds.foldl declare s =
      ⟨s.reports ++ (Program.nameReports earlier ds).toArray,
        ds.foldl (fun r d => r.enter d.name (prototype d)) s.functions, s.scope⟩ := by
  induction ds generalizing s earlier with
  | nil =>
    rw [Program.nameReports, Array.append_empty]
    rfl
  | cons d ds ih =>
    have hmem : (s.functions.find? d.name).isSome = true ↔ d.name ∈ earlier :=
      (Register.find?_isSome_iff _ _).trans (h d.name)
    have hstep : s.declare d =
        ⟨s.reports ++ (d.nameReports earlier).toArray, s.functions.enter d.name (prototype d),
          s.scope⟩ := by
      unfold declare Definition.nameReports prototype
      by_cases hname : d.name ∈ earlier <;> by_cases hnative : (Native.find? d.name).isSome = true <;>
        simp [hmem, hname, hnative, add, ← Array.toList_inj]
    have hnames : ∀ name, name ∈ (s.functions.enter d.name (prototype d)).names ↔
        name ∈ d.name :: earlier := by
      intro name
      rw [Register.names_enter, List.mem_cons, ← h name]
      split <;> grind
    rw [List.foldl_cons, hstep, ih _ hnames, List.foldl_cons, Program.nameReports]
    simp only [Array.append_assoc, List.append_toArray]

end Inspection

/-! ## Programs -/

/-- A repetition adds nothing to a list without its repetitions. -/
theorem eraseDups_concat (names : List String) (name : String) :
    (names ++ [name]).eraseDups =
      if name ∈ names then names.eraseDups else names.eraseDups ++ [name] := by
  rw [List.eraseDups_append]
  by_cases hname : name ∈ names
  · have hnone : [name].removeAll names = [] := by simp [List.removeAll, hname]
    rw [if_pos hname, hnone, List.eraseDups_nil, List.append_nil]
  · have hone : [name].removeAll names = [name] := by simp [List.removeAll, hname]
    rw [if_neg hname, hone]
    rfl

namespace Program

/-- The functions that the definitions of a program enter, before any call. -/
def declared (p : Program) : Register Prototype :=
  p.definitions.foldl (fun r d => r.enter d.name (Inspection.prototype d)) .empty

/-- The names are entered in the order of their first definitions. -/
theorem names_declared (p : Program) : p.declared.names = p.table.names := by
  have htable : p.table.names = (p.definitions.map (·.name)).eraseDups := by
    unfold Table.names table
    rw [List.reverse_reverse]
  rw [htable]
  unfold declared
  induction p.definitions using List.reverseRecOn with
  | nil => rfl
  | append_singleton ds d ih =>
    have hmem : d.name ∈ (ds.map (·.name)).eraseDups ↔ d.name ∈ ds.map (·.name) :=
      List.mem_eraseDups
    rw [List.foldl_append, List.foldl_cons, List.foldl_nil, Register.names_enter, ih,
      List.map_append, List.map_singleton, eraseDups_concat]
    simp only [hmem]

theorem nodup_declared (p : Program) : p.declared.names.Nodup := by
  have hfold : ∀ (ds : List Definition) (r : Register Prototype), r.names.Nodup →
      (ds.foldl (fun r d => r.enter d.name (Inspection.prototype d)) r).names.Nodup := by
    intro ds
    induction ds with
    | nil => exact fun _ h => h
    | cons d ds ih => exact fun r h => ih _ (Register.nodup_enter h _ _)
  exact hfold p.definitions .empty List.nodup_nil

/-- Under a name stands its last definition. -/
theorem find?_declared (p : Program) (name : String) :
    p.declared.find? name = (p.table.find? name).map Inspection.prototype := by
  unfold declared Table.find? table
  induction p.definitions using List.reverseRecOn with
  | nil => rfl
  | append_singleton ds d ih =>
    rw [List.foldl_append, List.foldl_cons, List.foldl_nil, Register.find?_enter, ih,
      List.reverse_append, List.reverse_singleton, List.singleton_append, List.find?_cons]
    by_cases hname : name = d.name
    · subst hname
      rw [if_pos rfl, beq_self_eq_true]
      rfl
    · have hne : (d.name == name) = false := beq_eq_false_iff_ne.2 (Ne.symm hname)
      rw [if_neg hname, hne]

theorem arity?_declared (p : Program) : p.declared.arity? = p.table.arity? := by
  funext f
  unfold Register.arity? Table.arity?
  rw [find?_declared]
  cases p.table.find? f <;> rfl

/-- **The register of the functions lists the names in the order of their first definitions, each
with its last definition**, and with the number of the calls of the name. -/
theorem declared_entries (p : Program) :
    (p.declared.tally .called p.callees).entries = p.table.names.filterMap fun name =>
      (p.table.find? name).map fun d =>
        (name, { loc := d.loc, parameters := d.parameters, calls := p.callees.count name }) := by
  rw [Register.entries_tally, Register.entries_eq p.nodup_declared, names_declared,
    List.map_filterMap]
  refine List.filterMap_congr fun name _ => ?_
  rw [find?_declared]
  cases p.table.find? name with
  | none => rfl
  | some d =>
    simp only [Option.map_some, Prototype.iterate_called, Inspection.prototype, Nat.zero_add]

/-- **An inspection finds the reports.** -/
theorem inspect_eq_reports (p : Program) : p.inspect = p.reports := by
  have hdeclare : p.definitions.foldl Inspection.declare .start =
      ⟨(nameReports [] p.definitions).toArray, p.declared, .empty⟩ := by
    have h : ∀ name, name ∈ Inspection.start.functions.names ↔ name ∈ ([] : List String) :=
      fun _ => Iff.rfl
    rw [Inspection.foldl_declare p.definitions .start h]
    simp [Inspection.start, declared]
  obtain ⟨scope, hwalk⟩ := Inspection.foldl_definition p.definitions
    ⟨(nameReports [] p.definitions).toArray, p.declared, .empty⟩
  have hunused : (p.declared.tally .called p.callees).entries.filterMap Inspection.unusedFunction? =
      p.unusedReports := by
    rw [declared_entries, List.filterMap_filterMap]
    unfold unusedReports unusedReport
    refine List.filterMap_congr fun name _ => ?_
    cases p.table.find? name with
    | none => split <;> rfl
    | some d =>
      simp only [Option.map_some, Option.bind_some, Inspection.unusedFunction?,
        List.count_eq_zero, ← not_or, ite_not]
  unfold inspect reports
  dsimp only
  rw [hdeclare, hwalk, Inspection.foldl_closeFunction, arity?_declared]
  unfold Inspection.after callees at *
  rw [hunused]
  simp

end Program

end Wordlet
