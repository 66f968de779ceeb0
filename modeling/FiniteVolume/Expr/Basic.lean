import FiniteVolume.Exponent

/-!
# Expression trees

Scalars and vectors built from exact rationals, named symbols, sums, products, integer powers,
vector literals and calls. The constructors build any tree; the canonical sum, product and power
live in their own modules. Every question about what a tree contains is asked of the list of its
subtrees.
-/

namespace FiniteVolume

/-- What a call applies to its arguments. -/
inductive Head where
  /-- Inner product of two vectors. -/
  | dot
  /-- Derivative of a field sample in the direction of the unit normal. -/
  | normalDerivative
  /-- A pointwise function or a field, by name. -/
  | named (name : String)
deriving DecidableEq

/-- The name under which a head is written. -/
def Head.name : Head → String
  | .dot => "dot"
  | .normalDerivative => "n_dot_grad"
  | .named name => name

/-- A symbolic expression. -/
inductive Expr where
  | num (value : Rat)
  | sym (name : String)
  | add (terms : List Expr)
  | mul (factors : List Expr)
  | pow (base : Expr) (exponent : Exponent)
  | vector (components : List Expr)
  | call (head : Head) (args : List Expr)

namespace Expr

instance : Inhabited Expr := ⟨.num 0⟩

def zero : Expr := .num 0

def one : Expr := .num 1

/-- The constant with an integer value. -/
def int (n : Int) : Expr := .num n

/-- A named head applied to arguments. -/
def apply (name : String) (args : List Expr) : Expr := .call (.named name) args

/-- The value of a numeric constant. -/
def value? : Expr → Option Rat
  | .num value => some value
  | _ => none

def isNum (e : Expr) : Bool := e.value?.isSome

def isZero : Expr → Bool
  | .num value => value = 0
  | _ => false

def isOne : Expr → Bool
  | .num value => value = 1
  | _ => false

/-- The name of a symbol. -/
def symbol? : Expr → Option String
  | .sym name => some name
  | _ => none

/-- The direct children, in order. -/
def args : Expr → List Expr
  | .num _ | .sym _ => []
  | .add es | .mul es | .vector es | .call _ es => es
  | .pow base _ => [base]

/-- The terms of a sum; any other expression is its own single term. -/
def terms : Expr → List Expr
  | .add terms => terms
  | e => [e]

/-- The factors of a product; any other expression is its own single factor. -/
def factors : Expr → List Expr
  | .mul factors => factors
  | e => [e]

mutual

/-- All subtrees, each before the subtrees inside it, from left to right. -/
def subterms : Expr → List Expr
  | .num value => [.num value]
  | .sym name => [.sym name]
  | .add terms => .add terms :: subtermsOfAll terms
  | .mul factors => .mul factors :: subtermsOfAll factors
  | .pow base exponent => .pow base exponent :: base.subterms
  | .vector components => .vector components :: subtermsOfAll components
  | .call head args => .call head args :: subtermsOfAll args

/-- The subtrees of every expression of a list. -/
def subtermsOfAll : List Expr → List Expr
  | [] => []
  | e :: rest => e.subterms ++ subtermsOfAll rest

end

/-- Whether this node is a negative power of zero. -/
def isInverseOfZero : Expr → Bool
  | .pow base exponent => base.isZero && exponent.val < 0
  | _ => false

/-- Whether a negative power of zero occurs anywhere. -/
def dividesByZero (e : Expr) : Bool := e.subterms.any isInverseOfZero

/-- Whether a symbol occurs anywhere. -/
def hasSymbol (e : Expr) (name : String) : Bool :=
  e.subterms.any fun subterm => subterm.symbol? == some name

/-- Whether this node calls the function or field of a given name. -/
def isCallOf (name : String) : Expr → Bool
  | .call (.named called) _ => called == name
  | _ => false

/-- The first call of a function or field, outermost and leftmost first. -/
def findCall? (e : Expr) (name : String) : Option Expr :=
  e.subterms.find? (isCallOf name)

/-- A statement about trees holds if it passes from the children of every node to the node. -/
@[elab_as_elim, induction_eliminator]
theorem induction {motive : Expr → Prop}
    (num : ∀ value, motive (.num value))
    (sym : ∀ name, motive (.sym name))
    (add : ∀ terms, (∀ term ∈ terms, motive term) → motive (.add terms))
    (mul : ∀ factors, (∀ factor ∈ factors, motive factor) → motive (.mul factors))
    (pow : ∀ base exponent, motive base → motive (.pow base exponent))
    (vector : ∀ components, (∀ component ∈ components, motive component) →
      motive (.vector components))
    (call : ∀ head args, (∀ arg ∈ args, motive arg) → motive (.call head args))
    (e : Expr) : motive e :=
  Expr.rec (motive_1 := motive) (motive_2 := fun es => ∀ e ∈ es, motive e)
    num sym add mul pow vector call (fun _ member => nomatch member)
    (fun _ _ head tail _ member => by
      cases member with
      | head => exact head
      | tail _ later => exact tail _ later) e

/-- The subtrees of several trees are those of each tree. -/
theorem subtermsOfAll_eq_flatMap (es : List Expr) : subtermsOfAll es = es.flatMap subterms := by
  induction es with
  | nil => rfl
  | cons e rest ih => simp [subtermsOfAll, ih]

/-- The subtrees are the tree itself and the subtrees of its children. -/
theorem subterms_eq_cons (e : Expr) : e.subterms = e :: e.args.flatMap subterms := by
  cases e <;> simp [subterms, args, subtermsOfAll_eq_flatMap]

/-- A tree is one of its own subtrees. -/
@[simp]
theorem self_mem_subterms (e : Expr) : e ∈ e.subterms := by
  simp [subterms_eq_cons e]

end Expr

end FiniteVolume
