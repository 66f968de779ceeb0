import FiniteVolume.Proofs.Canonical.Distributed

/-!
# Complete expansions

Expansion recombines expanded parts without a further look at them. Its result is a distributed sum
of monomials, and the expansion of itself, unless a power divides by what turns out to be zero or to
hold an inverted sum once it is expanded, or the operands of an inner product turn out to be vectors
(`expand_complete`).
-/

namespace FiniteVolume.Expr

/-- What expansion must not bring to light at a node: that a power divides by zero or inverts a sum
twice, or that an inner product is one of two vectors of equal length. -/
def FinalNode : Expr → Prop
  | .pow base exponent => exponent.val < 0 → ∀ expanded, base.expand = some expanded →
      expanded.PlainDivisor
  | .call head args => ∀ expanded, args.mapM expand = some expanded →
      dotOperands? (.call head expanded) = none
  | _ => True

/-- A tree that one pass of the expansion multiplies out: expansion brings nothing to light at any
node that it comes across, inner products being written out on the way. -/
inductive ExpandsOnce : Expr → Prop where
  | node {e : Expr} (notDot : dotOperands? e = none) (final : FinalNode e)
      (args : ∀ arg ∈ e.args, ExpandsOnce arg) : ExpandsOnce e
  | dot {left right : List Expr} (sameLength : left.length = right.length)
      (products : ∀ product, innerProduct left right = some product → ExpandsOnce product) :
      ExpandsOnce (.call .dot [.vector left, .vector right])

/-- A tree whose expansion leaves nothing to multiply out. -/
def ExpandsCompletely (e : Expr) : Prop :=
  ∀ expanded, e.expand = some expanded → expanded.Distributed

/-- A tree that expands once is multiplied out completely. -/
theorem ExpandsOnce.expandsCompletely {e : Expr} (once : e.ExpandsOnce) : e.ExpandsCompletely := by
  have distributedOne : one.Distributed := (distributedTerm_num 1).toDistributed
  induction once with
  | @node e notDot final args ih =>
    have children : ∀ {results : List Expr}, e.args.mapM expand = some results →
        ∀ result ∈ results, result.Distributed :=
      fun expanded => forall_mem_of_mapM expanded ih
    intro result expands
    cases expand_cases expands with
    | num value => exact (distributedTerm_num value).toDistributed
    | sym name => exact distributed_of_args trivial rfl trivial fun _ member => nomatch member
    | add expanded => exact .sum (children expanded)
    | mul expanded distributed =>
      exact distributive_distributed.distributeFrom distributed distributedOne (children expanded)
    | @powSum base _ _ _ expanded _ multiplied =>
      exact distributive_distributed.distributeRepeatedly multiplied distributedOne
        (ih base (List.mem_singleton_self base) _ expanded)
    | @pow base inner _ _ expanded small powered =>
      exact (ih base (List.mem_singleton_self base) inner expanded).power small
        (fun negative => final negative inner expanded) powered
    | vector expanded => exact distributed_of_args trivial rfl trivial (children expanded)
    | dot sameLength => simp [dotOperands?, sameLength] at notDot
    | call _ expanded =>
      exact distributed_of_args trivial rfl (final _ expanded) (children expanded)
  | @dot left right sameLength products ih =>
    intro result expands
    cases expand_cases expands with
    | dot _ written expanded => exact ih _ written result expanded
    | call notDot => simp [dotOperands?, sameLength] at notDot

/-- The expansion of a tree that expands once is a distributed sum of monomials, and expanding it
again changes nothing. -/
theorem expand_complete {e result : Expr} (once : e.ExpandsOnce)
    (expands : e.expand = some result) :
    result.Distributed ∧ result.expand = some result := by
  have distributed := once.expandsCompletely result expands
  exact ⟨distributed, distributed.expand_eq_self⟩

/-- The square of one sum over another one is multiplied out at once. -/
theorem expand_complete_quotient :
    let e : Expr := .mul [.pow (.add [.num 1, .sym "x"]) ⟨2, by decide, by decide⟩,
      .pow (.add [.sym "x", .sym "y"]) Exponent.negOne]
    e.ExpandsOnce ∧ ∃ result, e.expand = some result ∧ result.terms.length = 3 ∧
      result.Distributed ∧ result.expand = some result := by
  intro e
  have leaf : ∀ e : Expr, dotOperands? e = none → FinalNode e → e.args = [] → e.ExpandsOnce := by
    intro e notDot final leaf
    exact .node notDot final fun arg member => by simp [leaf] at member
  have symbol : ∀ name, (Expr.sym name).ExpandsOnce := fun name => leaf _ rfl trivial rfl
  have numerator : (Expr.pow (.add [.num 1, .sym "x"]) ⟨2, by decide, by decide⟩).ExpandsOnce := by
    refine .node rfl (fun negative => absurd negative (by decide)) ?_
    refine List.forall_mem_singleton.mpr (.node rfl trivial ?_)
    exact forall_mem_pair ⟨leaf _ rfl trivial rfl, symbol "x"⟩
  have denominator : (Expr.pow (.add [.sym "x", .sym "y"]) Exponent.negOne).ExpandsOnce := by
    have base : (Expr.add [.sym "x", .sym "y"]).expand = some (.add [.sym "x", .sym "y"]) := by
      decide +kernel
    refine .node rfl (fun _ expanded expands => ?_) ?_
    · cases base.symm.trans expands
      exact ⟨by simp [zero], fun terms inner => by simp [factors]⟩
    · exact List.forall_mem_singleton.mpr
        (.node rfl trivial (forall_mem_pair ⟨symbol "x", symbol "y"⟩))
  have once : e.ExpandsOnce := .node rfl trivial (forall_mem_pair ⟨numerator, denominator⟩)
  have defined : e.expand.map (fun result => result.terms.length) = some 3 := by decide +kernel
  obtain ⟨result, expands, several⟩ := Option.map_eq_some_iff.mp defined
  exact ⟨once, result, expands, several, expand_complete once expands⟩

/-- A sum that an inner product brings to light as a divisor is inverted a second time, and is
left as it is until the next expansion. -/
example :
    let inverse : Expr := .pow (.add [.num 1, .sym "x"]) Exponent.negOne
    let e : Expr := .pow (.call .dot [.vector [.num 1], .vector [inverse]]) Exponent.negTwo
    e.expand = some (.pow (.add [.num 1, .sym "x"]) ⟨2, by decide, by decide⟩) ∧
      e.expand.bind expand ≠ e.expand := by
  decide +kernel

end FiniteVolume.Expr
