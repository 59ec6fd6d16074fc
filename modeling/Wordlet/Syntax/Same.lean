import Wordlet.Syntax.Expr

/-!
# Trees that mean the same

Two trees mean the same when they differ at most in their locations and in the kinds given to nodes
without meaning. `Expr.erase` removes both, and `Expr.same` decides whether nothing else differs.

* `Expr.same_iff` — `a.same b` says that `a` and `b` are equal once both are erased.
* `Program.same_iff` — the same of programs, definition by definition.
-/

namespace Wordlet

namespace Parameter

/-- The parameter without its location. -/
def erase (p : Parameter) : Parameter := { p with loc := none }

end Parameter

namespace Stray

/-- The node without locations and without the kind of a meaningless node. -/
def erase : Stray → Stray
  | parameter name => parameter name
  | definition name ps => definition name (ps.map Parameter.erase)
  | program => program
  | other _ => other ""

end Stray

namespace Expr

mutual

/-- The expression without locations and kinds of meaningless nodes. -/
def erase : Expr → Expr
  | empty _ => empty none
  | literal _ v => literal none v
  | var _ x => var none x
  | call _ f es => call none f (eraseAll es)
  | branch _ c t e => branch none c.erase t.erase e.erase
  | stray _ s es => stray none s.erase (eraseAll es)

/-- `erase` on each expression of a list. -/
def eraseAll : List Expr → List Expr
  | [] => []
  | e :: es => e.erase :: eraseAll es

end

mutual

/-- The two expressions are the same apart from locations and kinds of meaningless nodes. -/
def same : Expr → Expr → Bool
  | empty _, empty _ => true
  | literal _ v, literal _ w => v == w
  | var _ x, var _ y => x == y
  | call _ f as, call _ g bs => f == g && sameAll as bs
  | branch _ c t e, branch _ c' t' e' => c.same c' && t.same t' && e.same e'
  | stray _ s as, stray _ r bs => s.erase == r.erase && sameAll as bs
  | _, _ => false

/-- `same` on the expressions of two lists, one by one. -/
def sameAll : List Expr → List Expr → Bool
  | [], [] => true
  | a :: as, b :: bs => a.same b && sameAll as bs
  | _, _ => false

end

theorem eraseAll_eq_map (es : List Expr) : eraseAll es = es.map erase := by
  induction es with
  | nil => rfl
  | cons e es ih => simp [eraseAll, ih]

/-- If `same` decides equality after erasure for the members of a list, `sameAll` does for the
list. -/
theorem sameAll_iff_of_forall {as bs : List Expr}
    (h : ∀ a ∈ as, ∀ b, a.same b = true ↔ a.erase = b.erase) :
    sameAll as bs = true ↔ eraseAll as = eraseAll bs := by
  induction as generalizing bs with
  | nil => cases bs <;> simp [sameAll, eraseAll]
  | cons a as ih =>
    cases bs with
    | nil => simp [sameAll, eraseAll]
    | cons b bs =>
      have ha := h a (by simp) b
      have hs : sameAll as bs = true ↔ eraseAll as = eraseAll bs :=
        ih fun x hx => h x (by simp [hx])
      simp [sameAll, eraseAll, ha, hs]

/-- **Sameness is equality after erasure.** -/
theorem same_iff (a b : Expr) : a.same b = true ↔ a.erase = b.erase := by
  induction a using Expr.induction generalizing b with
  | empty => cases b <;> simp [same, erase]
  | literal => cases b <;> simp [same, erase]
  | var => cases b <;> simp [same, erase]
  | call _ _ _ ih =>
    cases b <;> simp [same, erase, sameAll_iff_of_forall ih]
  | branch _ _ _ _ hc ht he =>
    cases b <;> simp [same, erase, hc, ht, he, and_assoc]
  | stray _ _ _ ih =>
    cases b <;> simp [same, erase, sameAll_iff_of_forall ih]

end Expr

/-- The definition without locations and kinds of meaningless nodes. -/
def Definition.erase (d : Definition) : Definition :=
  ⟨none, d.name, d.parameters.map Parameter.erase, d.body.erase⟩

theorem Definition.erase_toExpr (d : Definition) : d.toExpr.erase = d.erase.toExpr := by
  simp [Definition.toExpr, Definition.erase, Expr.erase, Expr.eraseAll, Stray.erase]

theorem Definition.toExpr_inj {d d' : Definition} (h : d.toExpr = d'.toExpr) : d = d' := by
  cases d; cases d'
  simp only [Definition.toExpr, Expr.stray.injEq, Stray.definition.injEq, List.cons.injEq] at h
  simp [h]

namespace Program

/-- The two programs are the same apart from locations and kinds of meaningless nodes. -/
def same (p q : Program) : Bool := p.toExpr.same q.toExpr

/-- **Two programs are the same when their definitions are, once erased.** -/
theorem same_iff (p q : Program) :
    p.same q = true ↔ p.definitions.map Definition.erase = q.definitions.map Definition.erase := by
  have hmap : ∀ ds : List Definition,
      Expr.eraseAll (ds.map Definition.toExpr) = (ds.map Definition.erase).map Definition.toExpr := by
    intro ds
    simp [Expr.eraseAll_eq_map, Definition.erase_toExpr]
  rw [same, Expr.same_iff]
  simp only [toExpr, Expr.erase, Expr.stray.injEq, true_and, hmap]
  exact List.map_inj_right fun _ _ => Definition.toExpr_inj

end Program

end Wordlet
