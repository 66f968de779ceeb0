import FiniteVolume.Proofs.Laurent.Expansion
import FiniteVolume.Proofs.Value.Expansion

/-!
# Monomials as characters

At nonzero values of the symbols, a product of powers of symbols is a character: it takes products
of assignments to products of values. Different canonical monomials are different characters
(`LaurentMonomial.eq_of_character_eq`).
-/

namespace FiniteVolume.Expr

/-- The reading of an expression without vectors and calls that gives values to its symbols. -/
def Interpretation.ofSymbols {K : Type*} [Field K] (symbol : String → K) : Interpretation K where
  symbol := symbol
  vector _ := 0
  call _ _ := 0

/-- Nonzero values of all symbols. -/
abbrev Assignment := String → ℚˣ

/-- The reading at nonzero values of the symbols. -/
def Assignment.reading (assignment : Assignment) : Interpretation ℚ :=
  .ofSymbols fun name => assignment name

/-- The factors of an expression that are not numbers. -/
def powers (e : Expr) : List Expr := e.factors.filter fun factor => !factor.isNum

/-- The symbol a factor is a power of. -/
def symbolName (e : Expr) : String := e.base.symbol?.getD ""

/-- The value of a power of a symbol, depending on the values of the symbols. -/
noncomputable def powerCharacter (e : Expr) : Assignment →* ℚ :=
  (Units.coeHom ℚ).comp
    ((zpowGroupHom e.factorExponent.val).comp (Pi.evalMonoidHom (fun _ => ℚˣ) e.symbolName))

/-- The value of a product of powers of symbols, depending on the values of the symbols. -/
noncomputable def character (e : Expr) : Assignment →* ℚ := (e.powers.map powerCharacter).prod

/-- The character of a monomial is the product of those of its powers. -/
theorem character_apply (e : Expr) (assignment : Assignment) :
    e.character assignment =
      (e.powers.map fun factor => factor.powerCharacter assignment).prod := by
  rw [character]
  refine (map_list_prod (MonoidHom.eval assignment) (e.powers.map powerCharacter)).trans ?_
  rw [List.map_map]
  rfl

/-- One, or a canonical product of powers of symbols. -/
def LaurentMonomial (e : Expr) : Prop := e = one ∨ e.Monomial ∧ e.PowerProduct

/-- The monomial of a term is a monomial of symbols. -/
theorem LaurentTerm.laurentMonomial {e : Expr} (term : e.LaurentTerm) :
    e.monomial.LaurentMonomial := by
  cases isNum : e.isNum with
  | true =>
    obtain ⟨value, rfl⟩ := eq_num_of_isNum isNum
    exact Or.inl rfl
  | false =>
    rw [monomial_of_not_num isNum]
    exact Or.inr ⟨(term.canonical.split isNum term.product.not_add).1, term.splitCoefficient isNum⟩

/-- The product of powers of different symbols. -/
def ofPowers : List Expr → Expr
  | [] => one
  | [power] => power
  | powers => .mul powers

/-- The value of a product of powers is the product of their values. -/
theorem valueIn_ofPowers {K : Type*} [Field K] {reading : Interpretation K} (powers : List Expr) :
    (ofPowers powers).valueIn reading = (powers.map (valueIn reading)).prod := by
  match powers with
  | [] => simp [ofPowers, one]
  | [power] => simp [ofPowers]
  | first :: second :: rest => exact valueIn_mul _

/-- The value of a written power is the power of the value of its base. -/
theorem valueIn_writtenPower {K : Type*} [Field K] {reading : Interpretation K} (base : Expr)
    (exponent : Exponent) :
    (writtenPower base exponent).valueIn reading = base.valueIn reading ^ exponent.val := by
  unfold writtenPower
  split
  · rename_i isZero
    simp [isZero, one]
  · split
    · rename_i isOne
      simp [isOne]
    · exact valueIn_pow base exponent

/-- The assignment of two to one symbol and of one to all others. -/
noncomputable def probe (name : String) : Assignment :=
  Function.update 1 name (Units.mk0 2 two_ne_zero)

/-- The probe of a symbol sees the exponents of its powers only. -/
theorem powerCharacter_probe (factor : Expr) (name : String) :
    factor.powerCharacter (probe name) =
      if factor.symbolName = name then 2 ^ factor.factorExponent.val else 1 := by
  by_cases same : factor.symbolName = name
  · simp [powerCharacter, probe, same]
  · simp [powerCharacter, probe, same]

namespace LaurentMonomial

variable {e : Expr}

/-- No factor of a monomial is a number. -/
theorem powers_eq_factors (isMonomial : e.Monomial) : e.powers = e.factors := by
  have noNumber : ∀ factor ∈ e.factors, factor.isNum = false := by
    cases e with
    | mul factors => exact isMonomial.noNumber
    | _ => exact List.forall_mem_singleton.mpr isMonomial.notNum
  exact List.filter_eq_self.mpr fun factor member => by simp [noNumber factor member]

/-- Every factor of a monomial is a power of a symbol as it is written. -/
theorem power (laurent : e.LaurentMonomial) {factor : Expr} (member : factor ∈ e.powers) :
    factor.base = .sym factor.symbolName ∧ factor.factorExponent.val ≠ 0 ∧
      writtenPower factor.base factor.factorExponent = factor := by
  rcases laurent with rfl | ⟨isMonomial, product⟩
  · cases member
  · obtain ⟨inside, notNum⟩ := List.mem_filter.mp member
    have notNum : factor.isNum = false := by simpa using notNum
    obtain ⟨canonical, notMul⟩ := isMonomial.canonical.not_mul_of_mem_factors inside
    obtain ⟨-, nonzero, written⟩ := canonical.entry notNum notMul
    obtain isNum | ⟨name, isSymbol⟩ := product factor inside
    · rw [notNum] at isNum
      cases isNum
    · exact ⟨by rw [symbolName, isSymbol]; rfl, nonzero, written⟩

/-- The powers of a monomial belong to different symbols. -/
theorem symbols (laurent : e.LaurentMonomial) : (e.powers.map symbolName).Nodup := by
  have bases : e.powers.Pairwise fun left right => left.base ≠ right.base := by
    rcases laurent with rfl | ⟨isMonomial, -⟩
    · exact .nil
    · exact isMonomial.canonical.factors_bases
  refine List.pairwise_map.mpr (bases.imp_of_mem fun inLeft inRight different same => different ?_)
  rw [(laurent.power inLeft).1, (laurent.power inRight).1, same]

/-- The powers of a monomial are in order. -/
theorem ascending (laurent : e.LaurentMonomial) : e.powers.Pairwise Before := by
  have sorted : e.powers.Pairwise NotAfter := by
    rcases laurent with rfl | ⟨isMonomial, -⟩
    · exact .nil
    · cases e with
      | mul factors =>
        have sorted := (canonical_mul_iff.mp isMonomial.canonical).1.sorted
        exact sorted.sublist List.filter_sublist
      | _ => exact (List.pairwise_singleton NotAfter _).sublist List.filter_sublist
  refine (sorted.and laurent.symbols.of_map).imp fun ⟨notAfter, different⟩ => ?_
  exact (notAfter_iff.mp notAfter).resolve_right different

/-- A monomial is put together from its powers. -/
theorem ofPowers (laurent : e.LaurentMonomial) : ofPowers e.powers = e := by
  rcases laurent with rfl | ⟨isMonomial, -⟩
  · rfl
  · rw [powers_eq_factors isMonomial]
    cases e with
    | mul factors =>
      match factors, (canonical_mul_iff.mp isMonomial.canonical).1.several with
      | first :: second :: rest, _ => rfl
    | _ => rfl

/-- A monomial has the value of its character. -/
theorem valueIn (laurent : e.LaurentMonomial) (assignment : Assignment) :
    e.valueIn assignment.reading = e.character assignment := by
  have power : ∀ factor ∈ e.powers,
      factor.valueIn assignment.reading = factor.powerCharacter assignment := by
    intro factor member
    obtain ⟨isSymbol, -, written⟩ := laurent.power member
    rw [← written, valueIn_writtenPower, isSymbol, valueIn_sym, ← isSymbol, written]
    simp [powerCharacter, Assignment.reading, Interpretation.ofSymbols]
  calc e.valueIn assignment.reading
      = (Expr.ofPowers e.powers).valueIn assignment.reading := by rw [laurent.ofPowers]
    _ = (e.powers.map (Expr.valueIn assignment.reading)).prod := valueIn_ofPowers _
    _ = (e.powers.map fun factor => factor.powerCharacter assignment).prod :=
        congrArg List.prod (List.map_congr_left power)
    _ = e.character assignment := (character_apply e assignment).symm

/-- The character of a monomial is a power of two where one symbol is two and all others are one. -/
theorem character_probe (laurent : e.LaurentMonomial) {factor : Expr} (member : factor ∈ e.powers) :
    e.character (probe factor.symbolName) = 2 ^ factor.factorExponent.val := by
  have others : ∀ factor', factor' ≠ factor → factor' ∈ e.powers →
      factor'.powerCharacter (probe factor.symbolName) = 1 := by
    intro factor' different member'
    rw [powerCharacter_probe, if_neg]
    exact fun same => different (List.inj_on_of_nodup_map laurent.symbols member' member same)
  rw [character_apply, List.prod_map_eq_pow_single factor _ others,
    List.count_eq_one_of_mem laurent.symbols.of_map member, pow_one, powerCharacter_probe,
    if_pos rfl]

/-- The character of a monomial is one where all symbols but one are one and the monomial does not
hold this one. -/
theorem character_probe_of_absent {name : String}
    (absent : ∀ factor ∈ e.powers, factor.symbolName ≠ name) : e.character (probe name) = 1 := by
  rw [character_apply]
  refine List.prod_eq_one fun value member => ?_
  obtain ⟨factor, inside, rfl⟩ := List.mem_map.mp member
  rw [powerCharacter_probe, if_neg (absent factor inside)]

/-- Monomials with the same character have the same powers. -/
theorem mem_powers_of_character_eq {e' : Expr} (laurent : e.LaurentMonomial)
    (laurent' : e'.LaurentMonomial) (same : e.character = e'.character) {factor : Expr}
    (member : factor ∈ e.powers) : factor ∈ e'.powers := by
  obtain ⟨isSymbol, nonzero, written⟩ := laurent.power member
  have value := laurent.character_probe member
  rw [same] at value
  by_cases present : ∃ factor' ∈ e'.powers, factor'.symbolName = factor.symbolName
  · obtain ⟨factor', member', sameSymbol⟩ := present
    obtain ⟨isSymbol', -, written'⟩ := laurent'.power member'
    rw [← sameSymbol, laurent'.character_probe member'] at value
    have sameExponent : factor'.factorExponent = factor.factorExponent :=
      Exponent.ext (zpow_right_injective₀ (by norm_num) (by norm_num) value)
    have same : factor' = factor := by
      rw [← written, ← written', isSymbol, isSymbol', sameSymbol, sameExponent]
    exact same ▸ member'
  · have trivial := character_probe_of_absent (e := e') fun factor' member' same =>
      present ⟨factor', member', same⟩
    rw [value] at trivial
    exact absurd
      (zpow_right_injective₀ (by norm_num) (by norm_num) (trivial.trans (zpow_zero _).symm))
      nonzero

/-- Different monomials have different characters. -/
theorem eq_of_character_eq {e' : Expr} (laurent : e.LaurentMonomial)
    (laurent' : e'.LaurentMonomial) (same : e.character = e'.character) : e = e' := by
  have powers : e.powers = e'.powers := laurent.ascending.eq_of_mem_iff laurent'.ascending
    fun factor => ⟨laurent.mem_powers_of_character_eq laurent' same,
      laurent'.mem_powers_of_character_eq laurent same.symm⟩
  rw [← laurent.ofPowers, ← laurent'.ofPowers, powers]

end LaurentMonomial

end FiniteVolume.Expr
