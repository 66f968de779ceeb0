import FiniteVolume.Proofs.Expr.Expansion
import FiniteVolume.Proofs.Expr.Substitution

/-!
# Scalar expressions

In a scalar expression vectors stand only under inner products, apart from the arguments of a few
calls that are named beforehand, such as samples of a field at a position. Substitutions that put
scalars in the place of scalars keep this form (`Scalar.replaceWith`).
-/

namespace FiniteVolume.Expr

/-- A scalar expression in given symbols. Inner products are taken of two vector literals of equal
length with scalar components, named calls have one scalar argument, and all other calls are given
samples. -/
inductive Scalar (symbols : String → Prop) (samples : Head → List Expr → Prop) : Expr → Prop where
  | num (value : Rat) : Scalar symbols samples (.num value)
  | sym {name : String} (allowed : symbols name) : Scalar symbols samples (.sym name)
  | add {terms : List Expr} (scalars : ∀ term ∈ terms, Scalar symbols samples term) :
    Scalar symbols samples (.add terms)
  | mul {factors : List Expr} (scalars : ∀ factor ∈ factors, Scalar symbols samples factor) :
    Scalar symbols samples (.mul factors)
  | pow {base : Expr} (exponent : Exponent) (scalar : Scalar symbols samples base) :
    Scalar symbols samples (.pow base exponent)
  | dot {left right : List Expr} (sameLength : left.length = right.length)
    (scalarsLeft : ∀ component ∈ left, Scalar symbols samples component)
    (scalarsRight : ∀ component ∈ right, Scalar symbols samples component) :
    Scalar symbols samples (.call .dot [.vector left, .vector right])
  | call (name : String) {arg : Expr} (scalar : Scalar symbols samples arg) :
    Scalar symbols samples (.call (.named name) [arg])
  | sample {head : Head} {args : List Expr} (isSample : samples head args) :
    Scalar symbols samples (.call head args)

variable {symbols symbols' : String → Prop} {samples samples' : Head → List Expr → Prop}

/-- Being scalar passes between sums, products and powers and their operands. -/
theorem hereditary_scalar : Hereditary (Scalar symbols samples) fun _ => True where
  num value := .num value
  add_iff terms := by
    refine ⟨fun scalar => ?_, .add⟩
    cases scalar with
    | add scalars => exact scalars
  mul_iff factors := by
    refine ⟨fun scalar => ?_, .mul⟩
    cases scalar with
    | mul scalars => exact scalars
  pow_iff base exponent := by
    refine ⟨fun scalar => ?_, fun ⟨scalar, _⟩ => .pow exponent scalar⟩
    cases scalar with
    | pow _ scalar => exact ⟨scalar, fun _ => trivial⟩
  base_of_mul _ _ _ _ := trivial
  base_of_pow _ _ _ _ := trivial

/-- Replacing scalars by scalars leaves a scalar expression. -/
theorem Scalar.replaceWith {replacement? : Expr → Option Expr} {e result : Expr}
    (scalar : Scalar symbols samples e) (formed : replaceWith replacement? e = some result)
    (replaced : ∀ subterm replacement, replacement? subterm = some replacement →
      Scalar symbols' samples' replacement)
    (vectors : ∀ components, replacement? (.vector components) = none)
    (kept : ∀ name, symbols name → replacement? (.sym name) = none → symbols' name)
    (sampled : ∀ head args rebuilt, samples head args → replacement? (.call head args) = none →
      args.mapM (Expr.replaceWith replacement?) = some rebuilt → samples' head rebuilt) :
    Scalar symbols' samples' result := by
  induction scalar generalizing result with
  | num value =>
    obtain found | ⟨-, rebuilds⟩ := replaceWith_cases formed
    · exact replaced _ _ found
    · cases rebuilds
      exact .num value
  | sym allowed =>
    obtain found | ⟨notReplaced, rebuilds⟩ := replaceWith_cases formed
    · exact replaced _ _ found
    · cases rebuilds
      exact .sym (kept _ allowed notReplaced)
  | add scalars ih =>
    obtain found | ⟨-, rebuilds⟩ := replaceWith_cases formed
    · exact replaced _ _ found
    · cases rebuilds with
      | add rebuilt =>
        exact hereditary_scalar.sum (forall_mem_of_mapM rebuilt fun e member _ => ih e member)
  | mul scalars ih =>
    obtain found | ⟨-, rebuilds⟩ := replaceWith_cases formed
    · exact replaced _ _ found
    · cases rebuilds with
      | mul rebuilt multiplied =>
        exact hereditary_scalar.prod multiplied
          (forall_mem_of_mapM rebuilt fun e member _ => ih e member)
  | pow exponent scalar ih =>
    obtain found | ⟨-, rebuilds⟩ := replaceWith_cases formed
    · exact replaced _ _ found
    · cases rebuilds with
      | pow rebuilt powered => exact hereditary_scalar.power powered (ih rebuilt) fun _ => trivial
  | dot sameLength scalarsLeft scalarsRight ihLeft ihRight =>
    obtain found | ⟨-, rebuilds⟩ := replaceWith_cases formed
    · exact replaced _ _ found
    · cases rebuilds with
      | call rebuilt =>
        obtain ⟨left', right', rfl, lefts, rights, sameLength'⟩ :=
          rebuilds_dot vectors sameLength rebuilt
        exact .dot sameLength' (forall_mem_of_mapM lefts fun e member _ => ihLeft e member)
          (forall_mem_of_mapM rights fun e member _ => ihRight e member)
  | call name scalar ih =>
    obtain found | ⟨-, rebuilds⟩ := replaceWith_cases formed
    · exact replaced _ _ found
    · cases rebuilds with
      | call rebuilt =>
        obtain ⟨arg', rebuiltArg, rfl⟩ := mapM_singleton_eq_some rebuilt
        exact .call name (ih rebuiltArg)
  | sample isSample =>
    obtain found | ⟨notReplaced, rebuilds⟩ := replaceWith_cases formed
    · exact replaced _ _ found
    · cases rebuilds with
      | call rebuilt => exact .sample (sampled _ _ _ isSample notReplaced rebuilt)

end FiniteVolume.Expr
