import FiniteVolume.Proofs.Kernel.Linear
import FiniteVolume.Proofs.Stencil.Sampling

/-!
# Edge kernels

The rows of an edge kernel are the contributions of its integrand to both endpoints
(`edgeBlock_means_integrand`): the first is the value of the integrand on the facet times the area
of the facet, the second is the same with the endpoints exchanged. This takes contributions that are
split off regularly: an integrand that hides a zero under a root shows what happens otherwise
(`edgeBlock_root_of_hidden_zero`).
-/

namespace FiniteVolume.Stencil

open FiniteVolume.Expr

section Exchange

variable {K : Type*} (stencil : Stencil) (reading : Interpretation K)

/-- The symbols of the two endpoints in pairs: the values of the field, then the coordinates. -/
def endpointPairs : List (String × String) :=
  (firstValue stencil.field, secondValue stencil.field) ::
    stencil.firstSymbols.zip stencil.secondSymbols

/-- Every symbol of an endpoint with the value of the symbol of the other endpoint. -/
def exchangedValues : List (String × K) :=
  stencil.endpointPairs.flatMap fun (first, second) =>
    [(first, reading.symbol second), (second, reading.symbol first)]

/-- The reading with the endpoints exchanged. -/
def exchanged : Interpretation K := reading.bind (stencil.exchangedValues reading)

/-- The rules that exchange the endpoints lead from the exchanged reading to the given one. -/
theorem binds_exchangeRules [Field K] :
    List.Forall₂ (Binds reading) (stencil.exchangedValues reading) stencil.exchangeRules := by
  have pairwise : ∀ pairs : List (String × String), List.Forall₂ (Binds reading)
      (pairs.flatMap fun (first, second) =>
        [(first, reading.symbol second), (second, reading.symbol first)])
      (pairs.flatMap fun (first, second) =>
        [(.sym first, .sym second), (.sym second, .sym first)]) := by
    intro pairs
    induction pairs with
    | nil => exact .nil
    | cons pair rest ih =>
      exact .cons ⟨rfl, sound_sym _, valueIn_sym _⟩ (.cons ⟨rfl, sound_sym _, valueIn_sym _⟩ ih)
  exact pairwise stencil.endpointPairs

/-- The exchanged readings are of coordinates and values at the ends. -/
theorem exchangedValues_keys {name : String}
    (member : name ∈ (stencil.exchangedValues reading).map Prod.fst) :
    ∃ pair ∈ stencil.endpointPairs, name = pair.1 ∨ name = pair.2 := by
  obtain ⟨entry, bound, rfl⟩ := List.mem_map.mp member
  obtain ⟨pair, inPairs, bound⟩ := List.mem_flatMap.mp bound
  simp only [List.mem_cons, List.not_mem_nil, or_false] at bound
  exact ⟨pair, inPairs, bound.imp (congrArg Prod.fst) (congrArg Prod.fst)⟩

/-- Both endpoints see an edge of the same length. -/
theorem exchanged_edgeLength :
    (stencil.exchanged reading).symbol edgeLength = reading.symbol edgeLength := by
  refine Interpretation.bind_symbol_of_not_mem fun member => ?_
  obtain ⟨pair, inPairs, isEnd⟩ := stencil.exchangedValues_keys reading member
  rcases List.mem_cons.mp inPairs with rfl | inPairs
  · rcases isEnd with same | same
    · exact edgeLength_ne_firstValue _ same
    · exact edgeLength_ne_secondValue _ same
  · obtain ⟨inFirst, inSecond⟩ := List.of_mem_zip inPairs
    rcases isEnd with same | same
    · exact isFree_edgeLength.1 (same ▸ inFirst)
    · exact isFree_edgeLength.2 (same ▸ inSecond)

end Exchange

variable {K : Type*} [Field K] {stencil : Stencil} {reading : Interpretation K}

/-- The value of a contribution to an endpoint: the affine function of the values of the field that
the coefficients of a row describe. -/
def rowValue (stencil : Stencil) (reading : Interpretation K) (row : Ends Expr) (affine : Expr) :
    K :=
  affine.valueIn reading + row.first.valueIn reading * reading.symbol (firstValue stencil.field) +
    row.second.valueIn reading * reading.symbol (secondValue stencil.field)

variable [CharZero K]

/-- A row has the value of the expression it is split off from. -/
theorem rowValue_of_linearSplit {e : Expr} {parts : AffineSplit}
    (accepts : linearSplit e [firstValue stencil.field, secondValue stencil.field] = .ok parts)
    (sound : e.Sound reading)
    (regular : SplitsRegularly reading e [parts.coefficient 0, parts.coefficient 1]) :
    stencil.rowValue reading ⟨parts.coefficient 0, parts.coefficient 1⟩ parts.affine =
      e.valueIn reading := by
  obtain ⟨a, b, pair⟩ := List.length_eq_two.mp (length_of_linearSplit accepts)
  have coefficients : parts.coefficient 0 = a ∧ parts.coefficient 1 = b := by
    simp [AffineSplit.coefficient, pair]
  rw [coefficients.1, coefficients.2] at regular ⊢
  rw [valueIn_linearSplit accepts sound (pair ▸ regular), AffineSplit.affineValue, pair, rowValue]
  simp only [List.zip_cons_cons, List.zip_nil_left, List.map_cons, List.map_nil, List.sum_cons,
    List.sum_nil]
  ring

/-- What an integrand contributes to the first endpoint of an edge, before the unknowns are split
off. -/
def forwardContribution (stencil : Stencil) (integrand : Integrand) : Outcome Expr := do
  Outcome.ofPower? (← stencil.discretizeEdge integrand [stencil.field]).normalize

/-- What an integrand contributes to the second endpoint: the same with the endpoints exchanged. -/
def backwardContribution (stencil : Stencil) (integrand : Integrand) : Outcome Expr := do
  Outcome.ofPower? ((← stencil.forwardContribution integrand).subst stencil.exchangeRules)

/-- What an edge block is made of: the contribution to the first endpoint, and the same with the
endpoints exchanged. -/
theorem edgeBlock_cases {integrand : Integrand} {block : EdgeBlock Expr}
    (formed : stencil.edgeBlock integrand = .ok block) :
    ∃ contribution forward backward forwardParts backwardParts,
      stencil.discretizeEdge integrand [stencil.field] = .ok contribution ∧
      contribution.normalize = some forward ∧ forward.subst stencil.exchangeRules = some backward ∧
      linearSplit forward [firstValue stencil.field, secondValue stencil.field] =
        .ok forwardParts ∧
      linearSplit backward [firstValue stencil.field, secondValue stencil.field] =
        .ok backwardParts ∧
      block = ⟨⟨⟨forwardParts.coefficient 0, forwardParts.coefficient 1⟩,
        ⟨backwardParts.coefficient 0, backwardParts.coefficient 1⟩⟩,
        ⟨forwardParts.affine, backwardParts.affine⟩⟩ := by
  obtain ⟨contribution, discretizes, formed⟩ := Outcome.bind_eq_ok_iff.mp formed
  obtain ⟨forward, normalizes, formed⟩ := Outcome.bind_eq_ok_iff.mp formed
  obtain ⟨_, -, formed⟩ := Outcome.bind_eq_ok_iff.mp formed
  obtain ⟨forwardParts, splitsForward, formed⟩ := Outcome.bind_eq_ok_iff.mp formed
  obtain ⟨backward, exchanges, formed⟩ := Outcome.bind_eq_ok_iff.mp formed
  obtain ⟨backwardParts, splitsBackward, same⟩ := Outcome.bind_eq_ok_iff.mp formed
  cases same
  exact ⟨contribution, forward, backward, forwardParts, backwardParts, discretizes,
    Outcome.ofPower?_eq_ok_iff.mp normalizes, Outcome.ofPower?_eq_ok_iff.mp exchanges,
    splitsForward, splitsBackward, rfl⟩

/-- The rows of an edge block are split off the contributions to the endpoints. -/
theorem splits_of_edgeBlock {integrand : Integrand} {block : EdgeBlock Expr}
    (formed : stencil.edgeBlock integrand = .ok block) :
    ∃ forward backward forwardParts backwardParts,
      stencil.forwardContribution integrand = .ok forward ∧
      stencil.backwardContribution integrand = .ok backward ∧
      linearSplit forward [firstValue stencil.field, secondValue stencil.field] =
        .ok forwardParts ∧
      linearSplit backward [firstValue stencil.field, secondValue stencil.field] =
        .ok backwardParts ∧
      block = ⟨⟨⟨forwardParts.coefficient 0, forwardParts.coefficient 1⟩,
        ⟨backwardParts.coefficient 0, backwardParts.coefficient 1⟩⟩,
        ⟨forwardParts.affine, backwardParts.affine⟩⟩ := by
  obtain ⟨contribution, forward, backward, forwardParts, backwardParts, discretizes, normalizes,
    exchanges, splitsForward, splitsBackward, same⟩ := edgeBlock_cases formed
  have contributes : stencil.forwardContribution integrand = .ok forward :=
    Outcome.bind_eq_ok_iff.mpr ⟨contribution, discretizes,
      Outcome.ofPower?_eq_ok_iff.mpr normalizes⟩
  exact ⟨forward, backward, forwardParts, backwardParts, contributes,
    Outcome.bind_eq_ok_iff.mpr ⟨forward, contributes, Outcome.ofPower?_eq_ok_iff.mpr exchanges⟩,
    splitsForward, splitsBackward, same⟩

section Contributions

variable {integrand : Integrand} {e contribution : Expr}

/-- The contribution to the first endpoint has the value of the integrand on the facet. -/
theorem valueIn_forwardContribution (positive : 0 < stencil.dim)
    (evaluates : stencil.point.evaluate integrand = .ok e) (onFacet : stencil.FacetIntegrand e)
    (length : reading.symbol edgeLength ≠ 0) (defined : e.Defined (stencil.facetReading reading))
    (contributes : stencil.forwardContribution integrand = .ok contribution) :
    contribution.Sound reading ∧ contribution.valueIn reading = stencil.facetValue e reading := by
  obtain ⟨discretized, discretizes, normalizes⟩ := Outcome.bind_eq_ok_iff.mp contributes
  obtain ⟨sound, value⟩ :=
    valueIn_discretizeEdge positive length evaluates onFacet defined discretizes
  obtain ⟨soundNormal, valueNormal⟩ :=
    keepsValue_normalize _ _ (Outcome.ofPower?_eq_ok_iff.mp normalizes) sound
  exact ⟨soundNormal, valueNormal.trans value⟩

/-- The contribution to the second endpoint has the value that is seen from there. -/
theorem valueIn_backwardContribution (positive : 0 < stencil.dim)
    (evaluates : stencil.point.evaluate integrand = .ok e) (onFacet : stencil.FacetIntegrand e)
    (length : reading.symbol edgeLength ≠ 0)
    (defined : e.Defined (stencil.facetReading (stencil.exchanged reading)))
    (contributes : stencil.backwardContribution integrand = .ok contribution) :
    contribution.Sound reading ∧
      contribution.valueIn reading = stencil.facetValue e (stencil.exchanged reading) := by
  obtain ⟨forward, formed, exchanges⟩ := Outcome.bind_eq_ok_iff.mp contributes
  have exchangedLength : (stencil.exchanged reading).symbol edgeLength ≠ 0 := by
    rwa [exchanged_edgeLength]
  obtain ⟨sound, value⟩ :=
    valueIn_forwardContribution positive evaluates onFacet exchangedLength defined formed
  have carries := carries_subst (stencil.binds_exchangeRules reading) sound
    (Outcome.ofPower?_eq_ok_iff.mp exchanges)
  exact ⟨carries.sound, carries.value.trans value⟩

variable {block : EdgeBlock Expr}

/-- The first row of an edge block means what the integrand means on the facet. -/
theorem rowValue_first (positive : 0 < stencil.dim)
    (evaluates : stencil.point.evaluate integrand = .ok e) (onFacet : stencil.FacetIntegrand e)
    (formed : stencil.edgeBlock integrand = .ok block) (length : reading.symbol edgeLength ≠ 0)
    (defined : e.Defined (stencil.facetReading reading))
    (regular : ∀ contribution, stencil.forwardContribution integrand = .ok contribution →
      SplitsRegularly reading contribution
        [block.linear.first.first, block.linear.first.second]) :
    stencil.rowValue reading block.linear.first block.affine.first =
      stencil.facetValue e reading := by
  obtain ⟨forward, _, _, _, contributes, -, splits, -, rfl⟩ := splits_of_edgeBlock formed
  obtain ⟨sound, value⟩ :=
    valueIn_forwardContribution positive evaluates onFacet length defined contributes
  rw [rowValue_of_linearSplit splits sound (regular forward contributes), value]

/-- The second row of an edge block means what the integrand means on the facet, seen from the
second endpoint. -/
theorem rowValue_second (positive : 0 < stencil.dim)
    (evaluates : stencil.point.evaluate integrand = .ok e) (onFacet : stencil.FacetIntegrand e)
    (formed : stencil.edgeBlock integrand = .ok block) (length : reading.symbol edgeLength ≠ 0)
    (defined : e.Defined (stencil.facetReading (stencil.exchanged reading)))
    (regular : ∀ contribution, stencil.backwardContribution integrand = .ok contribution →
      SplitsRegularly reading contribution
        [block.linear.second.first, block.linear.second.second]) :
    stencil.rowValue reading block.linear.second block.affine.second =
      stencil.facetValue e (stencil.exchanged reading) := by
  obtain ⟨_, backward, _, _, -, contributes, -, splits, rfl⟩ := splits_of_edgeBlock formed
  obtain ⟨sound, value⟩ :=
    valueIn_backwardContribution positive evaluates onFacet length defined contributes
  rw [rowValue_of_linearSplit splits sound (regular backward contributes), value]

end Contributions

/-- The rows of an edge block mean what the integrand means on the facet, seen from each of the
endpoints, wherever the edge has a length, the integrand does not divide by zero and the
contributions are split off regularly. -/
theorem edgeBlock_means_integrand (positive : 0 < stencil.dim) {integrand : Integrand} {e : Expr}
    (evaluates : stencil.point.evaluate integrand = .ok e) (onFacet : stencil.FacetIntegrand e)
    {block : EdgeBlock Expr} (formed : stencil.edgeBlock integrand = .ok block)
    (length : reading.symbol edgeLength ≠ 0)
    (definedForward : e.Defined (stencil.facetReading reading))
    (definedBackward : e.Defined (stencil.facetReading (stencil.exchanged reading)))
    (regularForward : ∀ contribution, stencil.forwardContribution integrand = .ok contribution →
      SplitsRegularly reading contribution [block.linear.first.first, block.linear.first.second])
    (regularBackward : ∀ contribution, stencil.backwardContribution integrand = .ok contribution →
      SplitsRegularly reading contribution
        [block.linear.second.first, block.linear.second.second]) :
    stencil.rowValue reading block.linear.first block.affine.first =
        stencil.facetValue e reading ∧
      stencil.rowValue reading block.linear.second block.affine.second =
        stencil.facetValue e (stencil.exchanged reading) := by
  constructor
  · exact rowValue_first positive evaluates onFacet formed length definedForward regularForward
  · exact rowValue_second positive evaluates onFacet formed length definedBackward regularBackward

/-- A stencil on the line. -/
def line : Stencil := ⟨1, ⟨"u"⟩⟩

/-- Conduction along the line: the conductance grows with the position, and divides by a symbol. -/
theorem edgeBlock_means_integrand_conduction :
    let e : Expr := .mul [.sym "x_0", .pow (.sym "y") Exponent.negOne,
      .call .normalDerivative [line.field.sample line.point]]
    let reading : Interpretation ℚ := ⟨fun name => if name = "y" then 2 else 3, fun _ => 0,
      fun _ values => values.sum⟩
    ∃ block, line.edgeBlock (fun _ => pure e) = .ok block ∧
      line.rowValue reading block.linear.first block.affine.first = line.facetValue e reading ∧
      line.rowValue reading block.linear.second block.affine.second =
        line.facetValue e (line.exchanged reading) := by
  intro e reading
  let flux (factor : Rat) : Expr := .add
    [.mul [.num factor, .sym edgeRatio, .sym "x0_0", .pow (.sym "y") Exponent.negOne],
      .mul [.num factor, .sym edgeRatio, .sym "x1_0", .pow (.sym "y") Exponent.negOne]]
  have formed : line.edgeBlock (fun _ => pure e) = .ok
      ⟨⟨⟨flux (-1 / 2), flux (1 / 2)⟩, ⟨flux (1 / 2), flux (-1 / 2)⟩⟩, ⟨.num 0, .num 0⟩⟩ := by
    decide +kernel
  have onFacet : line.FacetIntegrand e := by
    refine .mul fun factor member => ?_
    simp only [List.mem_cons, List.not_mem_nil, or_false] at member
    rcases member with rfl | rfl | rfl
    · exact .sym ⟨by decide +kernel, by decide +kernel⟩
    · exact .pow _ (.sym ⟨by decide +kernel, by decide +kernel⟩)
    · exact .sample (Or.inr ⟨rfl, rfl⟩)
  have defined : ∀ other : Interpretation ℚ, other.symbol "y" = 2 →
      e.Defined (line.facetReading other) := by
    intro other isTwo
    have atPoint : (line.pointReading other).symbol "y" = 2 := by
      rw [pointReading_symbol_of_not_mem (by decide +kernel) (by decide +kernel), isTwo]
    refine ((hereditary_defined _).mul_iff _).mpr fun factor member => ?_
    simp only [List.mem_cons, List.not_mem_nil, or_false] at member
    rcases member with rfl | rfl | rfl
    · exact (sound_sym "x_0").1
    · refine ((hereditary_defined _).pow_iff _ _).mpr ⟨(sound_sym "y").1, fun _ => ?_⟩
      rw [valueIn_sym]
      exact atPoint.trans_ne (by decide)
    · exact (sound_call (by simp) (List.forall_mem_singleton.mpr sound_sample)).1
  have definedFlux : ∀ factor, (flux factor).Defined reading := by
    simp [flux, reading, Defined, NegativeBases, subterms, subtermsOfAll]
  refine ⟨_, formed, edgeBlock_means_integrand (by decide) rfl onFacet formed (by decide)
    (defined reading rfl) (defined _ (by decide +kernel)) (fun _ _ => Or.inr ?_)
    fun _ _ => Or.inr ?_⟩
  · exact forall_mem_pair ⟨definedFlux (-1 / 2), definedFlux (1 / 2)⟩
  · exact forall_mem_pair ⟨definedFlux (1 / 2), definedFlux (-1 / 2)⟩

/-! ### Coefficients that divide by zero -/

namespace HiddenZero

/-- The difference of two expressions, as a plain tree. -/
def difference (left right : Expr) : Expr := .add [left, .mul [.num (-1), right]]

/-- The reciprocal of `v + 1`. -/
def reciprocal (v : Expr) : Expr := .pow (.add [v, .num 1]) Exponent.negOne

/-- A power of `v + 1`, whose base only becomes visible when inner products are written out. -/
def veiledPower (v : Expr) (exponent : Exponent) : Expr :=
  .pow (.call .dot [.vector [.num 1], .vector [reciprocal v]]) exponent

/-- The square of `v + 1`, multiplied out. -/
def square (v : Expr) : Expr := .add [.num 1, .mul [.num 2, v], .pow v ⟨2, by decide, by decide⟩]

/-- The cube of `v + 1`, multiplied out. -/
def cube (v : Expr) : Expr :=
  .add [.num 1, .mul [.num 3, v], .mul [.num 3, .pow v ⟨2, by decide, by decide⟩],
    .pow v ⟨3, by decide, by decide⟩]

/-- Zero, in a form that takes several expansions to be seen through. -/
def zero (v : Expr) : Nat → Expr
  | 0 => difference (veiledPower v Exponent.negTwo) (square v)
  | depth + 1 =>
    difference (.pow (.add [reciprocal v, zero v depth]) Exponent.negTwo) (square v)

/-- Zero again, in a form whose derivative keeps a constant part. -/
def unevenZero (v : Expr) : Expr :=
  let hidden := difference (veiledPower v ⟨-3, by decide, by decide⟩) (cube v)
  difference (.mul [.pow (.add [reciprocal v, hidden]) Exponent.negTwo, reciprocal v])
    (.add [v, .num 1])

def root (e : Expr) : Expr := .call (.named "sqrt") [e]

/-- The value of the field, plus differences of roots that are equal. -/
def integrand : Expr :=
  let value := line.field.sample line.point
  let hidden := zero (root (.num 0)) 2
  .add [value,
    .mul [.num 2, root (.num 0),
      difference (root (.add [hidden, unevenZero value])) (root hidden)],
    .mul [.num (-2), root (.num 1),
      difference (root (.add [.num 1, unevenZero value])) (root (.num 1))]]

/-- An integrand with a known value that divides by nothing of value zero. -/
structure Evaluates (reading : Interpretation K) (value : K) (e : Expr) : Prop where
  onFacet : line.FacetIntegrand e
  sound : e.Sound reading
  value : e.valueIn reading = value

namespace Evaluates

omit [CharZero K]

/-- A number evaluates to itself. -/
theorem num (value : Rat) : Evaluates reading (value : K) (.num value) :=
  ⟨.num value, (hereditary_sound reading).num value, valueIn_num value⟩

/-- What expressions evaluate to one by one. -/
theorem all {values : List K} {es : List Expr}
    (evaluates : List.Forall₂ (Evaluates reading) values es) :
    (∀ e ∈ es, line.FacetIntegrand e) ∧ (∀ e ∈ es, e.Sound reading) ∧
      es.map (valueIn reading) = values := by
  induction evaluates with
  | nil => simp
  | cons first _ ih =>
    obtain ⟨onFacet, sound, values⟩ := ih
    exact ⟨List.forall_mem_cons.mpr ⟨first.onFacet, onFacet⟩,
      List.forall_mem_cons.mpr ⟨first.sound, sound⟩, congrArg₂ List.cons first.value values⟩

/-- A sum evaluates to the sum of what its terms evaluate to. -/
theorem add {values : List K} {terms : List Expr}
    (evaluates : List.Forall₂ (Evaluates reading) values terms) :
    Evaluates reading values.sum (.add terms) := by
  obtain ⟨onFacet, sound, values⟩ := all evaluates
  exact ⟨.add onFacet, ((hereditary_sound reading).add_iff terms).mpr sound, by
    rw [valueIn_add, values]⟩

/-- A product evaluates to the product of what its factors evaluate to. -/
theorem mul {values : List K} {factors : List Expr}
    (evaluates : List.Forall₂ (Evaluates reading) values factors) :
    Evaluates reading values.prod (.mul factors) := by
  obtain ⟨onFacet, sound, values⟩ := all evaluates
  exact ⟨.mul onFacet, ((hereditary_sound reading).mul_iff factors).mpr sound, by
    rw [valueIn_mul, values]⟩

variable {left right e v : Expr} {a b t : K}

/-- A power evaluates to the power of what its base evaluates to. -/
theorem pow {exponent : Exponent} (base : Evaluates reading a e)
    (nonzero : exponent.val < 0 → a ≠ 0) :
    Evaluates reading (a ^ exponent.val) (.pow e exponent) :=
  ⟨.pow exponent base.onFacet, ((hereditary_sound reading).pow_iff e exponent).mpr
    ⟨base.sound, base.value.symm ▸ nonzero⟩, by rw [valueIn_pow, base.value]⟩

theorem congr (evaluates : Evaluates reading a e) (same : a = b) : Evaluates reading b e :=
  same ▸ evaluates

/-- A difference evaluates to the difference. -/
theorem difference (first : Evaluates reading a left) (second : Evaluates reading b right) :
    Evaluates reading (a - b) (HiddenZero.difference left right) := by
  refine (add (.cons first (.cons (mul (.cons (num (-1)) (.cons second .nil))) .nil))).congr ?_
  simp [sub_eq_add_neg]

/-- The successor evaluates to one more. -/
theorem successor (evaluates : Evaluates reading t v) :
    Evaluates reading (t + 1) (.add [v, .num 1]) := by
  refine (add (.cons evaluates (.cons (num 1) .nil))).congr ?_
  simp

/-- The square evaluates to the square of the successor. -/
theorem square (evaluates : Evaluates reading t v) :
    Evaluates reading ((t + 1) ^ 2) (HiddenZero.square v) := by
  refine (add (.cons (num 1) (.cons (mul (.cons (num 2) (.cons evaluates .nil)))
    (.cons (evaluates.pow fun negative => absurd negative (by decide)) .nil)))).congr ?_
  simp
  ring

/-- The cube evaluates to the cube of the successor. -/
theorem cube (evaluates : Evaluates reading t v) :
    Evaluates reading ((t + 1) ^ 3) (HiddenZero.cube v) := by
  refine (add (.cons (num 1) (.cons (mul (.cons (num 3) (.cons evaluates .nil)))
    (.cons (mul (.cons (num 3)
      (.cons (evaluates.pow fun negative => absurd negative (by decide)) .nil)))
    (.cons (evaluates.pow fun negative => absurd negative (by decide)) .nil))))).congr ?_
  simp
  ring

/-- The reciprocal evaluates to the inverse of the successor. -/
theorem reciprocal (evaluates : Evaluates reading t v) (nonzero : t + 1 ≠ 0) :
    Evaluates reading (t + 1)⁻¹ (HiddenZero.reciprocal v) :=
  (evaluates.successor.pow fun _ => nonzero).congr (zpow_neg_one _)

/-- A veiled power evaluates to a power of the inverse of the successor. -/
theorem veiledPower (evaluates : Evaluates reading t v) (nonzero : t + 1 ≠ 0)
    (exponent : Exponent) :
    Evaluates reading ((t + 1)⁻¹ ^ exponent.val) (HiddenZero.veiledPower v exponent) := by
  have inverse := evaluates.reciprocal nonzero
  have sameLength : [Expr.num 1].length = [HiddenZero.reciprocal v].length := rfl
  have product : Evaluates reading (t + 1)⁻¹
      (.call .dot [.vector [.num 1], .vector [HiddenZero.reciprocal v]]) := by
    refine ⟨.dot sameLength (List.forall_mem_singleton.mpr (.num 1))
      (List.forall_mem_singleton.mpr inverse.onFacet), sound_dot sameLength (forall_mem_pair
        ⟨sound_vector (List.forall_mem_singleton.mpr ((hereditary_sound reading).num 1)),
          sound_vector (List.forall_mem_singleton.mpr inverse.sound)⟩), ?_⟩
    rw [valueIn_dot sameLength]
    simp [inverse.value]
  exact product.pow fun _ => inv_ne_zero nonzero

/-- The inverse to the power minus two is the square. -/
theorem inverse_pow_negTwo (y : K) : y⁻¹ ^ Exponent.negTwo.val = y ^ 2 := by
  simp [Exponent.negTwo, zpow_ofNat]

/-- The hidden zero evaluates to zero. -/
theorem zero (evaluates : Evaluates reading t v) (nonzero : t + 1 ≠ 0) (depth : Nat) :
    Evaluates reading 0 (HiddenZero.zero v depth) := by
  induction depth with
  | zero =>
    refine ((evaluates.veiledPower nonzero Exponent.negTwo).difference evaluates.square).congr ?_
    rw [inverse_pow_negTwo, sub_self]
  | succ depth ih =>
    have base : Evaluates reading (t + 1)⁻¹ _ :=
      (add (.cons (evaluates.reciprocal nonzero) (.cons ih .nil))).congr (by simp)
    refine ((base.pow fun _ => inv_ne_zero nonzero).difference evaluates.square).congr ?_
    rw [inverse_pow_negTwo, sub_self]

/-- The uneven hidden zero evaluates to zero. -/
theorem unevenZero (evaluates : Evaluates reading t v) (nonzero : t + 1 ≠ 0) :
    Evaluates reading 0 (HiddenZero.unevenZero v) := by
  have inverse := evaluates.reciprocal nonzero
  have hidden : Evaluates reading 0 _ :=
    ((evaluates.veiledPower nonzero ⟨-3, by decide, by decide⟩).difference evaluates.cube).congr (by
      simp [zpow_ofNat])
  have base : Evaluates reading (t + 1)⁻¹ _ :=
    (add (.cons inverse (.cons hidden .nil))).congr (by simp)
  have power : Evaluates reading ((t + 1) ^ 2) (.pow _ Exponent.negTwo) :=
    (base.pow fun _ => inv_ne_zero nonzero).congr (inverse_pow_negTwo _)
  have product : Evaluates reading (t + 1) _ :=
    (mul (.cons power (.cons inverse .nil))).congr (by
      rw [List.prod_cons, List.prod_singleton, sq, mul_assoc, mul_inv_cancel₀ nonzero, mul_one])
  exact (product.difference evaluates.successor).congr (sub_self _)

section Roots

variable (roots : ∀ value, reading.call (.named "sqrt") [value] = value)
include roots

/-- A root evaluates to what its argument evaluates to, as it is read here. -/
theorem root (evaluates : Evaluates reading a e) : Evaluates reading a (HiddenZero.root e) := by
  refine ⟨.call "sqrt" evaluates.onFacet,
    sound_call (by simp) (List.forall_mem_singleton.mpr evaluates.sound), ?_⟩
  rw [HiddenZero.root, valueIn_call_of_ne (by simp), List.map_singleton, evaluates.value, roots]

/-- The integrand has the value of the field, and divides by nothing of value zero. -/
theorem integrand (evaluates : Evaluates reading t (line.field.sample line.point))
    (nonzero : t + 1 ≠ 0) : Evaluates reading t HiddenZero.integrand := by
  have rootOfZero : Evaluates reading 0 (HiddenZero.root (.num 0)) :=
    ((num 0).root roots).congr Rat.cast_zero
  have rootOfOne : Evaluates reading 1 (HiddenZero.root (.num 1)) :=
    ((num 1).root roots).congr Rat.cast_one
  have hidden := rootOfZero.zero (by simp) 2
  have uneven := evaluates.unevenZero nonzero
  have first := ((add (.cons hidden (.cons uneven .nil))).root roots).difference (hidden.root roots)
  have second := ((add (.cons (num 1) (.cons uneven .nil))).root roots).difference rootOfOne
  refine (add (.cons evaluates (.cons
    (mul (.cons (num 2) (.cons rootOfZero (.cons first .nil)))) (.cons
    (mul (.cons (num (-2)) (.cons rootOfOne (.cons second .nil)))) .nil)))).congr ?_
  simp

end Roots

end Evaluates

end HiddenZero

/-- Rows need not mean what the integrand means where the contribution expands incompletely: the
integrand and the edge length divide by nothing of value zero, but the coefficients do. With the
root of zero read as zero, the first row is three where the facet contributes one. -/
theorem edgeBlock_root_of_hidden_zero :
    let reading : Interpretation ℚ := ⟨fun _ => 1, fun _ => 0, fun _ values => values.sum⟩
    0 < line.dim ∧ line.FacetIntegrand HiddenZero.integrand ∧ reading.symbol edgeLength ≠ 0 ∧
      HiddenZero.integrand.Defined (line.facetReading reading) ∧
      HiddenZero.integrand.Defined (line.facetReading (line.exchanged reading)) ∧
      ∃ block, line.edgeBlock (fun _ => pure HiddenZero.integrand) = .ok block ∧
        line.rowValue reading block.linear.first block.affine.first ≠
          line.facetValue HiddenZero.integrand reading := by
  intro reading
  have evaluates : ∀ other : Interpretation ℚ, other.call = reading.call →
      other.symbol (firstValue line.field) = 1 → other.symbol (secondValue line.field) = 1 →
      HiddenZero.Evaluates (line.facetReading other) 1 HiddenZero.integrand := by
    intro other sameCalls first second
    refine HiddenZero.Evaluates.integrand (fun value => ?_) ⟨.sample (Or.inl ⟨rfl, rfl⟩),
      sound_sample, ?_⟩ (by norm_num)
    · simp [facetReading, line, sameCalls, reading]
    · have mean : line.meanValue other = 1 := by
        rw [meanValue, first, second]
        norm_num
      exact valueIn_facetReading_sample.trans mean
  have here := evaluates reading rfl rfl rfl
  have there := evaluates (line.exchanged reading) rfl (by decide +kernel) (by decide +kernel)
  have area : line.facetValue HiddenZero.integrand reading = 1 := by
    rw [facetValue, here.value]
    simp [reading]
  -- the coefficient divides by the root of a zero
  let zero : Expr := .add [.num (-1), .mul [.num (-2), HiddenZero.root (.num 0)],
    .mul [.num (-1), .pow (HiddenZero.root (.num 0)) ⟨2, by decide, by decide⟩],
    .pow (.add [.num 1, HiddenZero.root (.num 0)]) ⟨2, by decide, by decide⟩]
  let coefficient : Expr := .add [.mul [.num (-1), .sym edgeRatio, .sym edgeLength,
      .pow (HiddenZero.root zero) Exponent.negOne, HiddenZero.root (.num 0)],
    .mul [.num (3 / 2), .sym edgeRatio, .sym edgeLength]]
  have formed : line.edgeBlock (fun _ => pure HiddenZero.integrand) = .ok
      ⟨⟨⟨coefficient, coefficient⟩, ⟨coefficient, coefficient⟩⟩, ⟨.num 0, .num 0⟩⟩ := by
    decide +kernel
  refine ⟨by decide, here.onFacet, by decide, here.sound.1, there.sound.1, _, formed, ?_⟩
  have value : coefficient.valueIn reading = 3 / 2 := by
    simp [coefficient, zero, HiddenZero.root, valueIn_add, valueIn_mul, valueIn_pow, reading,
      valueIn_call_of_ne]
  rw [area, rowValue, value]
  norm_num [reading]

end FiniteVolume.Stencil
