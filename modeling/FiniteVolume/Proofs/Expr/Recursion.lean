import FiniteVolume.Proofs.Expr.Expansion

/-!
# Expansion as a recursion

How deeply inner products are nested bounds the recursion of the expansion, and a greater bound
makes no difference (`expandToDepth_eq_expand`). Expansion therefore satisfies the equation that it
is meant by: a tree is expanded by expanding its children, and an inner product of two vectors by
expanding it once it is written out (`expand_eq`, `expand_cases`). What every construct passes on
from its expanded parts holds of every tree and its expansion (`expand_induction`), so expansion
keeps what passes between trees and their parts (`Inherited.expand`).
-/

namespace FiniteVolume.Expr

section Depth

/-- A bound on the depths of several trees is one on each of them. -/
theorem dotDepthOfAll_le_iff {es : List Expr} {bound : Nat} :
    dotDepthOfAll es ≤ bound ↔ ∀ e ∈ es, e.dotDepth ≤ bound := by
  induction es with
  | nil => simp [dotDepthOfAll]
  | cons e rest ih => rw [dotDepthOfAll, max_le_iff, ih, List.forall_mem_cons]

/-- Sums, products and powers nest inner products no deeper than their operands. -/
theorem hereditary_dotDepth (bound : Nat) :
    Hereditary (fun e => e.dotDepth ≤ bound) fun _ => True where
  num _ := Nat.zero_le bound
  add_iff _ := dotDepthOfAll_le_iff
  mul_iff _ := dotDepthOfAll_le_iff
  pow_iff _ _ := (and_iff_left fun _ => trivial).symm
  base_of_mul _ _ _ _ := trivial
  base_of_pow _ _ _ _ := trivial

/-- The children of a tree nest inner products no deeper than the tree. -/
theorem dotDepth_arg_le {e arg : Expr} {bound : Nat} (deep : e.dotDepth ≤ bound)
    (member : arg ∈ e.args) : arg.dotDepth ≤ bound := by
  cases e with
  | num value | sym name => cases member
  | pow base exponent => exact List.mem_singleton.mp member ▸ deep
  | add es | mul es | vector es => exact dotDepthOfAll_le_iff.mp deep arg member
  | call head es =>
    refine dotDepthOfAll_le_iff.mp (le_trans ?_ deep) arg member
    cases head with
    | dot => exact Nat.le_succ _
    | _ => exact le_refl _

/-- A written-out inner product nests inner products less deeply than the inner product itself. -/
theorem dotDepth_innerProduct_lt {left right : List Expr} {product : Expr} {bound : Nat}
    (written : innerProduct left right = some product)
    (deep : (Expr.call .dot [.vector left, .vector right]).dotDepth ≤ bound) :
    product.dotDepth < bound := by
  have inner : dotDepthOfAll [.vector left, .vector right] < bound := deep
  obtain ⟨depth, rfl⟩ := Nat.exists_eq_add_of_lt inner
  have deepVectors := dotDepthOfAll_le_iff.mp
    (show dotDepthOfAll [.vector left, .vector right] ≤
      dotDepthOfAll [.vector left, .vector right] + depth from Nat.le_add_right _ _)
  exact Nat.lt_succ_of_le ((hereditary_dotDepth _).innerProduct written
    (fun component member => dotDepth_arg_le (deepVectors (.vector left) (by simp)) member)
    (fun component member => dotDepth_arg_le (deepVectors (.vector right) (by simp)) member))

end Depth

section Bounds

variable {expandProduct expandProduct' : Expr → Option Expr} {bound : Nat}

/-- Trees are expanded alike by products that do so on each of them. -/
theorem expandAllWith_congr {es : List Expr}
    (same : ∀ e ∈ es, expandWith expandProduct e = expandWith expandProduct' e) :
    expandAllWith expandProduct es = expandAllWith expandProduct' es := by
  induction es with
  | nil => rfl
  | cons e rest ih =>
    obtain ⟨first, later⟩ := List.forall_mem_cons.mp same
    rw [expandAllWith, expandAllWith, first, ih later]

/-- Only inner products of less nesting are expanded once they are written out. -/
theorem expandWith_congr
    (same : ∀ product : Expr, product.dotDepth < bound →
      expandProduct product = expandProduct' product) (e : Expr) :
    e.dotDepth ≤ bound → expandWith expandProduct e = expandWith expandProduct' e := by
  induction e with
  | num value | sym name => exact fun _ => rfl
  | add es ih | mul es ih | vector es ih =>
    intro deep
    have children := expandAllWith_congr fun e member => ih e member (dotDepth_arg_le deep member)
    rw [expandWith, expandWith, children]
  | pow base exponent ih =>
    intro deep
    rw [expandWith, expandWith, ih deep]
  | call head args ih =>
    intro deep
    have children := expandAllWith_congr fun e member => ih e member (dotDepth_arg_le deep member)
    rw [expandWith, expandWith, children]
    cases operands : dotOperands? (.call head args) with
    | none => rfl
    | some both =>
      obtain ⟨left, right⟩ := both
      obtain ⟨isDot, -⟩ := dotOperands?_eq_some_iff.mp operands
      cases isDot
      dsimp only [Option.bind_eq_bind]
      cases written : innerProduct left right with
      | none => rfl
      | some product => exact same product (dotDepth_innerProduct_lt written deep)

/-- Expansions to any two depths that the nesting of inner products does not exceed agree. -/
theorem expandToDepth_congr (depth : Nat) :
    ∀ (depth' : Nat) (e : Expr), e.dotDepth ≤ depth → e.dotDepth ≤ depth' →
      expandToDepth depth e = expandToDepth depth' e := by
  induction depth with
  | zero =>
    intro depth' e deep deep'
    cases depth' with
    | zero => rfl
    | succ depth' => exact expandWith_congr (fun _ less => absurd less (Nat.not_lt_zero _)) e deep
  | succ depth ih =>
    intro depth' e deep deep'
    cases depth' with
    | zero => exact expandWith_congr (fun _ less => absurd less (Nat.not_lt_zero _)) e deep'
    | succ depth' =>
      have agree : ∀ product : Expr, product.dotDepth < min (depth + 1) (depth' + 1) →
          expandToDepth depth product = expandToDepth depth' product := by
        intro product less
        obtain ⟨less, less'⟩ := lt_min_iff.mp less
        exact ih depth' product (Nat.le_of_lt_succ less) (Nat.le_of_lt_succ less')
      exact expandWith_congr agree e (le_min deep deep')

/-- A tree of bounded depth is expanded within the bound. -/
theorem expandToDepth_eq_expand {e : Expr} (deep : e.dotDepth ≤ bound) :
    expandToDepth bound e = expand e :=
  expandToDepth_congr bound e.dotDepth e deep le_rfl

end Bounds

section Equation

variable {e result : Expr}

/-- Expansion expands children, and inner products once they are written out. -/
theorem expand_eq (e : Expr) : expand e = expandWith expand e := by
  rw [← expandToDepth_eq_expand (Nat.le_succ e.dotDepth)]
  exact expandWith_congr (fun product less => expandToDepth_eq_expand less.le) e le_rfl

/-- Several trees are expanded one by one. -/
theorem mapM_expand_eq (es : List Expr) : es.mapM expand = expandAllWith expand es := by
  rw [expandAllWith_eq_mapM]
  exact congrArg (List.mapM · es) (funext expand_eq)

/-- What a tree is expanded to: an inner product of two vectors of equal length to the expansion of
what it is written out to, and any other tree to its expanded children, put together again. -/
inductive Expands : Expr → Expr → Prop where
  | num (value : Rat) : Expands (.num value) (.num value)
  | sym (name : String) : Expands (.sym name) (.sym name)
  | add {terms results : List Expr} (expanded : terms.mapM expand = some results) :
    Expands (.add terms) (sum results)
  | mul {factors results : List Expr} {result : Expr}
    (expanded : factors.mapM expand = some results)
    (distributed : distributeAll results = some result) : Expands (.mul factors) result
  | powSum {base result : Expr} {terms : List Expr} {exponent : Exponent}
    (expanded : expand base = some (.add terms)) (greater : 1 < exponent.val)
    (multiplied : distributeRepeatedly (.add terms) exponent.val.toNat one = some result) :
    Expands (.pow base exponent) result
  | pow {base inner result : Expr} {exponent : Exponent} (expanded : expand base = some inner)
    (small : ∀ terms, inner = .add terms → ¬1 < exponent.val)
    (powered : power inner exponent = some result) : Expands (.pow base exponent) result
  | vector {components results : List Expr} (expanded : components.mapM expand = some results) :
    Expands (.vector components) (.vector results)
  | dot {left right : List Expr} {product result : Expr} (sameLength : left.length = right.length)
    (written : innerProduct left right = some product) (expanded : expand product = some result) :
    Expands (.call .dot [.vector left, .vector right]) result
  | call {head : Head} {args results : List Expr} (notDot : dotOperands? (.call head args) = none)
    (expanded : args.mapM expand = some results) : Expands (.call head args) (.call head results)

/-- What is expanded is expanded in one of the ways. -/
theorem expand_cases (expands : expand e = some result) : Expands e result := by
  rw [expand_eq] at expands
  cases e with
  | num value =>
    cases expands
    exact .num value
  | sym name =>
    cases expands
    exact .sym name
  | add terms =>
    obtain ⟨results, expanded, same⟩ := Option.bind_eq_some_iff.mp expands
    cases same
    exact .add ((mapM_expand_eq terms).trans expanded)
  | mul factors =>
    obtain ⟨results, expanded, distributed⟩ := Option.bind_eq_some_iff.mp expands
    exact .mul ((mapM_expand_eq factors).trans expanded) distributed
  | pow base exponent =>
    obtain ⟨inner, expanded, formed⟩ := Option.bind_eq_some_iff.mp expands
    rw [← expand_eq] at expanded
    cases inner with
    | add terms =>
      dsimp only at formed
      split at formed
      · rename_i greater
        exact .powSum expanded greater formed
      · rename_i small
        exact .pow expanded (fun _ _ => small) formed
    | _ => exact .pow expanded (fun _ => by simp) formed
  | vector components =>
    obtain ⟨results, expanded, same⟩ := Option.bind_eq_some_iff.mp expands
    cases same
    exact .vector ((mapM_expand_eq components).trans expanded)
  | call head args =>
    unfold expandWith at expands
    split at expands
    · rename_i left right operands
      obtain ⟨same, sameLength⟩ := dotOperands?_eq_some_iff.mp operands
      cases same
      obtain ⟨product, written, expanded⟩ := Option.bind_eq_some_iff.mp expands
      exact .dot sameLength written expanded
    · rename_i notDot
      obtain ⟨results, expanded, same⟩ := Option.bind_eq_some_iff.mp expands
      cases same
      exact .call notDot ((mapM_expand_eq args).trans expanded)

/-- A statement about trees holds if it passes from the children of a tree to the tree, and from a
written-out inner product to the inner product. -/
@[elab_as_elim]
theorem induction_innerProduct {motive : Expr → Prop}
    (node : ∀ e, dotOperands? e = none → (∀ arg ∈ e.args, motive arg) → motive e)
    (dot : ∀ left right, dotOperands? (.call .dot [.vector left, .vector right]) =
      some (left, right) → (∀ product, innerProduct left right = some product → motive product) →
      motive (.call .dot [.vector left, .vector right])) (e : Expr) : motive e := by
  have bounded : ∀ bound (e : Expr), e.dotDepth ≤ bound → motive e := by
    intro bound
    induction bound using Nat.strong_induction_on with
    | _ bound ihDepth =>
      intro e
      induction e using induction_args with
      | step e ih =>
        intro deep
        cases operands : dotOperands? e with
        | none =>
          exact node e operands fun arg member => ih arg member (dotDepth_arg_le deep member)
        | some both =>
          obtain ⟨left, right⟩ := both
          obtain ⟨rfl, -⟩ := dotOperands?_eq_some_iff.mp operands
          refine dot left right operands fun product written => ?_
          exact ihDepth product.dotDepth (dotDepth_innerProduct_lt written deep) product le_rfl
  exact bounded e.dotDepth e le_rfl

/-- A relation between trees and their expansions holds if every construct passes it on from its
expanded parts, and an inner product of two vectors from what it is written out to. -/
theorem expand_induction {motive : Expr → Expr → Prop}
    (num : ∀ value, motive (.num value) (.num value))
    (sym : ∀ name, motive (.sym name) (.sym name))
    (add : ∀ terms results, List.Forall₂ motive terms results →
      motive (.add terms) (Expr.sum results))
    (mul : ∀ factors results result, List.Forall₂ motive factors results →
      distributeAll results = some result → motive (.mul factors) result)
    (powSum : ∀ base terms exponent result, motive base (.add terms) → 1 < exponent.val →
      distributeRepeatedly (.add terms) exponent.val.toNat one = some result →
      motive (.pow base exponent) result)
    (pow : ∀ base exponent inner result, expand base = some inner → motive base inner →
      (∀ terms, inner = .add terms → ¬1 < exponent.val) →
      Expr.power inner exponent = some result → motive (.pow base exponent) result)
    (vector : ∀ components results, List.Forall₂ motive components results →
      motive (.vector components) (.vector results))
    (dot : ∀ left right product result, left.length = right.length →
      innerProduct left right = some product → motive product result →
      motive (.call .dot [.vector left, .vector right]) result)
    (call : ∀ head args results, dotOperands? (.call head args) = none →
      args.mapM expand = some results → List.Forall₂ motive args results →
      motive (.call head args) (.call head results))
    (expands : expand e = some result) : motive e result := by
  induction e using induction_innerProduct generalizing result with
  | node e notDot ih =>
    have parts : ∀ {results : List Expr}, e.args.mapM expand = some results →
        List.Forall₂ motive e.args results := fun expanded =>
      forall₂_of_mapM expanded fun arg member _ => ih arg member
    cases expand_cases expands with
    | num value => exact num value
    | sym name => exact sym name
    | add expanded => exact add _ _ (parts expanded)
    | mul expanded distributed => exact mul _ _ _ (parts expanded) distributed
    | powSum expanded greater multiplied =>
      exact powSum _ _ _ _ (ih _ (List.mem_singleton_self _) expanded) greater multiplied
    | pow expanded small powered =>
      exact pow _ _ _ _ expanded (ih _ (List.mem_singleton_self _) expanded) small powered
    | vector expanded => exact vector _ _ (parts expanded)
    | dot sameLength => simp [dotOperands?, sameLength] at notDot
    | call notDot expanded => exact call _ _ _ notDot expanded (parts expanded)
  | dot left right operands ih =>
    cases expand_cases expands with
    | dot sameLength written expanded =>
      exact dot _ _ _ _ sameLength written (ih _ written expanded)
    | call notDot =>
      rw [notDot] at operands
      cases operands

end Equation

/-- A property that also passes from vectors and calls to their parts, and back to vectors and to
calls other than inner products that are written out. -/
structure Inherited (property : Expr → Prop) : Prop
    extends Hereditary property fun _ => True where
  arg : ∀ e, property e → ∀ arg ∈ e.args, property arg
  vector : ∀ components, (∀ component ∈ components, property component) →
    property (.vector components)
  call : ∀ head args rebuilt, property (.call head args) →
    dotOperands? (.call head args) = none → (∀ arg ∈ rebuilt, property arg) →
    property (.call head rebuilt)

namespace Inherited

variable {property : Expr → Prop}

/-- Expansion keeps the property. -/
theorem expand (inherited : Inherited property) {e result : Expr}
    (expands : Expr.expand e = some result) (holds : property e) : property result := by
  refine expand_induction (motive := fun e result => property e → property result)
    (fun _ holds => holds) (fun _ holds => holds) ?add ?mul ?powSum ?pow ?vector ?dot ?call expands
    holds
  case add =>
    intro terms results each holds
    exact inherited.sum (forall_mem_results (inherited.arg _ holds) each)
  case mul =>
    intro factors results result each distributed holds
    exact inherited.distributeFrom distributed (inherited.num 1)
      (forall_mem_results (inherited.arg _ holds) each)
  case powSum =>
    intro base terms exponent result passes _ multiplied holds
    exact inherited.distributeRepeatedly multiplied (inherited.num 1)
      (passes ((inherited.pow_iff base exponent).mp holds).1)
  case pow =>
    intro base exponent inner result _ passes _ powered holds
    exact inherited.power powered (passes ((inherited.pow_iff base exponent).mp holds).1)
      fun _ => trivial
  case vector =>
    intro components results each holds
    exact inherited.vector _ (forall_mem_results (inherited.arg _ holds) each)
  case dot =>
    intro left right product result _ written passes holds
    have holdsOperands := inherited.arg _ holds
    exact passes (inherited.innerProduct written
      (inherited.arg _ (holdsOperands (.vector left) (by simp [args])))
      (inherited.arg _ (holdsOperands (.vector right) (by simp [args]))))
  case call =>
    intro head args results notDot _ each holds
    exact inherited.call _ _ _ holds notDot (forall_mem_results (inherited.arg _ holds) each)

end Inherited

/-- The absence of a symbol passes between trees and their parts. -/
theorem inherited_lacks (name : String) : Inherited fun e => e.hasSymbol name = false where
  num value := rfl
  add_iff terms := hasSymbol_eq_false_iff.trans (and_iff_right (by simp))
  mul_iff factors := hasSymbol_eq_false_iff.trans (and_iff_right (by simp))
  pow_iff base exponent := by
    rw [hasSymbol_eq_false_iff, and_iff_right (by simp)]
    simp [args]
  base_of_mul _ _ _ _ := trivial
  base_of_pow _ _ _ _ := trivial
  arg e lacks := (hasSymbol_eq_false_iff.mp lacks).2
  vector components lacks := hasSymbol_eq_false_iff.mpr ⟨by simp, lacks⟩
  call head args rebuilt _ _ lacks := hasSymbol_eq_false_iff.mpr ⟨by simp, lacks⟩

end FiniteVolume.Expr
