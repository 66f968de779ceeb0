import FiniteVolume.Proofs.Expr.Expansion

/-!
# Values of expressions

An interpretation gives values in a field to symbols, to calls at the values of their arguments and
to vectors at the values of their components. The inner product of two vectors of equal length is
the sum of the products of their components, whatever the interpretation. Expressions keep their
value when they are rewritten as long as no negative power has a base of value zero (`Defined`).
-/

namespace FiniteVolume.Expr

/-- What the symbols, vectors and functions of an expression stand for. A vector counts as one
value among the arguments of a call, and an interpretation is free to choose it for every list of
components. -/
structure Interpretation (K : Type*) where
  symbol : String → K
  vector : List K → K
  call : Head → List K → K

/-- Numerals of a field are formed with this one proof, wherever they occur. -/
instance two_atLeastTwo : Nat.AtLeastTwo 2 := ⟨le_rfl⟩

variable {K : Type*} [Field K]

mutual

/-- The value of an expression. -/
def valueIn (reading : Interpretation K) : Expr → K
  | .num value => value
  | .sym name => reading.symbol name
  | .add terms => (valuesIn reading terms).sum
  | .mul factors => (valuesIn reading factors).prod
  | .pow base exponent => valueIn reading base ^ exponent.val
  | .vector components => reading.vector (valuesIn reading components)
  | .call .dot [.vector left, .vector right] =>
    if left.length = right.length then
      (List.zipWith (· * ·) (valuesIn reading left) (valuesIn reading right)).sum
    else
      reading.call .dot
        [reading.vector (valuesIn reading left), reading.vector (valuesIn reading right)]
  | .call head args => reading.call head (valuesIn reading args)

/-- The values of all expressions of a list. -/
def valuesIn (reading : Interpretation K) : List Expr → List K
  | [] => []
  | e :: rest => valueIn reading e :: valuesIn reading rest

end

variable {reading : Interpretation K}

/-- The values of several trees are read one by one. -/
theorem valuesIn_eq_map (es : List Expr) : valuesIn reading es = es.map (valueIn reading) := by
  induction es with
  | nil => rfl
  | cons e rest ih => simp [valuesIn, ih]

/-- The value of a number is the number. -/
@[simp]
theorem valueIn_num (value : Rat) : (Expr.num value).valueIn reading = (value : K) :=
  rfl

/-- The value of a symbol is read off. -/
@[simp]
theorem valueIn_sym (name : String) : (Expr.sym name).valueIn reading = reading.symbol name :=
  rfl

/-- The value of a sum is the sum of the values. -/
theorem valueIn_add (terms : List Expr) :
    (Expr.add terms).valueIn reading = (terms.map (valueIn reading)).sum :=
  congrArg List.sum (valuesIn_eq_map terms)

/-- The value of a product is the product of the values. -/
theorem valueIn_mul (factors : List Expr) :
    (Expr.mul factors).valueIn reading = (factors.map (valueIn reading)).prod :=
  congrArg List.prod (valuesIn_eq_map factors)

/-- The last term of a sum adds its value. -/
theorem valueIn_add_concat (terms : List Expr) (term : Expr) :
    (Expr.add (terms ++ [term])).valueIn reading =
      (Expr.add terms).valueIn reading + term.valueIn reading := by
  rw [valueIn_add, valueIn_add, List.map_append, List.sum_append, List.map_singleton,
    List.sum_singleton]

/-- The last factor of a product multiplies by its value. -/
theorem valueIn_mul_concat (factors : List Expr) (factor : Expr) :
    (Expr.mul (factors ++ [factor])).valueIn reading =
      (Expr.mul factors).valueIn reading * factor.valueIn reading := by
  rw [valueIn_mul, valueIn_mul, List.map_append, List.prod_append, List.map_singleton,
    List.prod_singleton]

/-- The value of a power is the power of the value. -/
theorem valueIn_pow (base : Expr) (exponent : Exponent) :
    (Expr.pow base exponent).valueIn reading = base.valueIn reading ^ exponent.val :=
  rfl

/-- The value of a vector is read from the values of its components. -/
theorem valueIn_vector (components : List Expr) :
    (Expr.vector components).valueIn reading =
      reading.vector (components.map (valueIn reading)) :=
  congrArg reading.vector (valuesIn_eq_map components)

/-- The value of an inner product is known from the values of the components. -/
theorem valueIn_dot_zipWith {left right : List Expr} (sameLength : left.length = right.length) :
    (Expr.call .dot [.vector left, .vector right]).valueIn reading =
      (List.zipWith (· * ·) (left.map (valueIn reading)) (right.map (valueIn reading))).sum := by
  rw [valueIn, if_pos sameLength, valuesIn_eq_map, valuesIn_eq_map]

/-- The value of an inner product is the sum of the products of components. -/
theorem valueIn_dot {left right : List Expr} (sameLength : left.length = right.length) :
    (Expr.call .dot [.vector left, .vector right]).valueIn reading =
      ((left.zip right).map fun (a, b) => a.valueIn reading * b.valueIn reading).sum := by
  rw [valueIn_dot_zipWith sameLength, List.zipWith_map, List.zip_eq_zipWith, List.map_zipWith]

/-- The value of any other call is read from the values of its arguments. -/
theorem valueIn_call {head : Head} {args : List Expr}
    (notDot : dotOperands? (.call head args) = none) :
    (Expr.call head args).valueIn reading = reading.call head (args.map (valueIn reading)) := by
  by_cases vectors : ∃ left right, head = .dot ∧ args = [.vector left, .vector right]
  · obtain ⟨left, right, rfl, rfl⟩ := vectors
    have different : left.length ≠ right.length := fun sameLength => by
      simp [dotOperands?, sameLength] at notDot
    rw [valueIn, if_neg different, valuesIn_eq_map, valuesIn_eq_map, List.map_cons,
      List.map_singleton, valueIn_vector, valueIn_vector]
  · rw [valueIn, valuesIn_eq_map]
    exact fun left right isDot isPair => vectors ⟨left, right, isDot, isPair⟩

/-- The tree that tests as zero has value zero. -/
theorem valueIn_of_isZero {e : Expr} (isZero : e.isZero = true) : e.valueIn reading = 0 := by
  rw [eq_zero_of_isZero isZero, zero, valueIn_num, Rat.cast_zero]

/-- Every negative power in an expression has a base of value other than zero. -/
def Defined (reading : Interpretation K) (e : Expr) : Prop :=
  e.NegativeBases fun base => base.valueIn reading ≠ 0

/-- Sums, products and powers divide by zero exactly when their operands do. -/
theorem hereditary_defined (reading : Interpretation K) :
    Hereditary (Defined reading) fun base => base.valueIn reading ≠ 0 := by
  refine Hereditary.negativeBases (fun factors nonzero factor member isZero => nonzero ?_)
    fun base exponent nonzero ne_zero isZero => nonzero ?_
  · rw [valueIn_mul, List.prod_eq_zero_iff]
    exact List.mem_map.mpr ⟨factor, member, isZero⟩
  · rw [valueIn_pow, isZero, zero_zpow _ ne_zero]

end FiniteVolume.Expr
