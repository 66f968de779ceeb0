import FiniteVolume.Kernel.Discretization
import FiniteVolume.Proofs.Expr.Mentions
import FiniteVolume.Proofs.Stencil.Names
import FiniteVolume.Proofs.Stencil.Rebuilding

/-!
# Names on a facet

The contributions of an integrand on a facet to the endpoints of its edge keep the names of the
integrand other than the coordinates, the normal and the unknown. What takes the place of these are
parameters of edge coefficients and, if the unknown is sampled, its values at the endpoints
(`mentionsOnly_discretizeEdge`, `mentionsOnly_exchange`).
-/

namespace FiniteVolume.Expr

variable {symbols symbols' : String → Prop} {heads heads' : Head → Prop} {e result : Expr}

/-- The operators bring no name in. -/
theorem rebuilding_mentionsOnly (symbols : String → Prop) (heads : Head → Prop) :
    Rebuilding (AllowedNode symbols heads) (MentionsOnly symbols heads) where
  num := (inherited_mentionsOnly symbols heads).num
  sym _ allowed := mentionsOnly_sym allowed
  sum _ mentions := (inherited_mentionsOnly symbols heads).sum mentions
  prod _ _ formed mentions := (inherited_mentionsOnly symbols heads).prod formed mentions
  power _ _ _ formed mentions :=
    (inherited_mentionsOnly symbols heads).power formed mentions fun _ => trivial
  vector := (inherited_mentionsOnly symbols heads).vector
  call _ _ _ allowed mentions := mentionsOnly_iff.mpr ⟨allowed, mentions⟩

/-- After a substitution the symbols are those without a rule and those that rules put in. A rule
only matters if what it replaces can occur. -/
theorem MentionsOnly.subst {rules : List Rule} (mentions : e.MentionsOnly symbols heads)
    (kept : ∀ name, symbols name → (∀ rule ∈ rules, rule.1 ≠ .sym name) → symbols' name)
    (called : ∀ head, heads head → heads' head)
    (new : ∀ rule ∈ rules, rule.1.MentionsOnly symbols heads → rule.2.MentionsOnly symbols' heads')
    (formed : e.subst rules = some result) : result.MentionsOnly symbols' heads' := by
  refine (rebuilding_mentionsOnly symbols' heads').replaceWith
    (inherited_mentionsOnly symbols heads).arg (fun subterm mentions unreplaced => ?_) mentions
    (fun subterm mentions replacement found => ?_) formed
  · have allowed := (mentionsOnly_iff.mp mentions).1
    cases subterm with
    | sym name =>
      have unmatched := List.find?_eq_none.mp (Option.map_eq_none_iff.mp unreplaced)
      exact kept name allowed fun rule member => by simpa using unmatched rule member
    | call head args => exact called head allowed
    | _ => trivial
  · obtain ⟨rule, first, rfl⟩ := Option.map_eq_some_iff.mp found
    have same : rule.1 = subterm := by simpa using List.find?_some first
    exact new rule (List.mem_of_find?_eq_some first) (same ▸ mentions)

/-- Normalization mentions nothing new. -/
theorem MentionsOnly.normalize (mentions : e.MentionsOnly symbols heads)
    (formed : e.normalize = some result) : result.MentionsOnly symbols heads :=
  (rebuilding_mentionsOnly symbols heads).replaceWith (inherited_mentionsOnly symbols heads).arg
    (fun _ mentions _ => (mentionsOnly_iff.mp mentions).1) mentions
    (fun _ _ _ found => absurd found (by simp)) formed

end FiniteVolume.Expr

namespace FiniteVolume.Stencil

open FiniteVolume.Expr

variable {stencil : Stencil} {symbols : String → Prop} {heads : Head → Prop} {sampled : Prop}
  {e result : Expr} {rules : List Rule}

/-- A symbol on a facet: a parameter of edge coefficients, a value of the unknown if it is sampled,
or one of the given symbols. -/
def FacetSymbol (stencil : Stencil) (sampled : Prop) (symbols : String → Prop) (name : String) :
    Prop :=
  name ∈ stencil.edgeParams ∨
    (sampled ∧ (name = firstValue stencil.field ∨ name = secondValue stencil.field)) ∨ symbols name

/-- The heads without the unknown. -/
def OtherHead (stencil : Stencil) (heads : Head → Prop) (head : Head) : Prop :=
  heads head ∧ head ≠ .named stencil.field.name

/-- The coordinates of the first end are parameters of the kernel of an edge. -/
theorem first_mem_edgeParams {name : String} (member : name ∈ stencil.firstSymbols) :
    name ∈ stencil.edgeParams := by
  simp [edgeParams, member]

/-- The coordinates of the second end are parameters of the kernel of an edge. -/
theorem second_mem_edgeParams {name : String} (member : name ∈ stencil.secondSymbols) :
    name ∈ stencil.edgeParams := by
  simp [edgeParams, member]

/-- The parameters of the kernel of an edge may be mentioned on a facet. -/
theorem mentionsOnly_param {name : String} (member : name ∈ stencil.edgeParams) :
    (Expr.sym name).MentionsOnly (stencil.FacetSymbol sampled symbols) heads :=
  mentionsOnly_sym (Or.inl member)

/-- The length of the edge may be mentioned on a facet. -/
theorem mentionsOnly_edgeLength :
    (Expr.sym edgeLength).MentionsOnly (stencil.FacetSymbol sampled symbols) heads :=
  mentionsOnly_param (by simp [edgeParams])

/-- The ratio of the edge may be mentioned on a facet. -/
theorem mentionsOnly_edgeRatio :
    (Expr.sym edgeRatio).MentionsOnly (stencil.FacetSymbol sampled symbols) heads :=
  mentionsOnly_param (by simp [edgeParams])

/-- A difference quotient samples the same field as the normal derivative. -/
theorem mentionsOnly_differenceQuotient (args : List Expr)
    (mentions : (Expr.call .normalDerivative args).MentionsOnly symbols heads) (result : Expr)
    (formed : stencil.differenceQuotient args = .ok result) :
    result.MentionsOnly (stencil.FacetSymbol sampled symbols) heads := by
  have rebuilding := rebuilding_mentionsOnly (stencil.FacetSymbol sampled symbols) heads
  obtain ⟨field, difference, rfl, subtracts, divides⟩ := differenceQuotient_cases formed
  have called : heads (.named field.name) :=
    (mentionsOnly_iff.mp ((mentionsOnly_iff.mp mentions).2 _ List.mem_cons_self)).1
  have value : ∀ names, (∀ name ∈ names, name ∈ stencil.edgeParams) →
      (field.valueAt (vectorOf names)).MentionsOnly
        (stencil.FacetSymbol sampled symbols) heads := by
    intro names params
    refine mentionsOnly_iff.mpr ⟨called, List.forall_mem_singleton.mpr ?_⟩
    refine rebuilding.vector _ fun component present => ?_
    obtain ⟨name, member, rfl⟩ := List.mem_map.mp present
    exact mentionsOnly_param (params name member)
  exact rebuilding.quot divides (rebuilding.sub subtracts
    (value stencil.secondSymbols fun _ => second_mem_edgeParams)
    (value stencil.firstSymbols fun _ => first_mem_edgeParams)) mentionsOnly_edgeLength

/-- Localization mentions what belongs to an edge only. -/
theorem mentionsOnly_localize (mentions : e.MentionsOnly symbols heads)
    (localizes : stencil.localize e = .ok result) :
    result.MentionsOnly (stencil.FacetSymbol sampled symbols) heads := by
  refine forall_localize (rebuilding_mentionsOnly _ _) (inherited_mentionsOnly symbols heads)
    (fun part mentions => ?_) mentionsOnly_differenceQuotient mentions localizes
  exact (mentionsOnly_iff.mp (mentions.mono (fun _ member => Or.inr (Or.inr member))
    fun _ => id)).1

/-- The mean of two symbols mentions nothing else. -/
theorem mentionsOnly_mean {left right : String}
    (allowedLeft : (Expr.sym left).MentionsOnly symbols heads)
    (allowedRight : (Expr.sym right).MentionsOnly symbols heads)
    (formed : mean left right = some result) : result.MentionsOnly symbols heads := by
  have rebuilding := rebuilding_mentionsOnly symbols heads
  exact rebuilding.quot formed
    (rebuilding.sum _ (forall_mem_pair ⟨allowedLeft, allowedRight⟩)) (rebuilding.num _)

/-- Sampling leaves no application of the unknown, and only puts its values in if there is one. -/
theorem mentionsOnly_sampleField
    (mentions : e.MentionsOnly (stencil.FacetSymbol sampled symbols) heads)
    (applied : heads (.named stencil.field.name) → sampled)
    (formed : stencil.sampleField e stencil.field = .ok result) :
    result.MentionsOnly (stencil.FacetSymbol sampled symbols) (stencil.OtherHead heads) := by
  obtain ⟨withoutFirst, withoutSecond, middle, putsFirst, putsSecond, meanFormed, putsMiddle,
    unsampled⟩ := sampleField_cases formed
  have puts : ∀ {before after position new : Expr},
      before.MentionsOnly (stencil.FacetSymbol sampled symbols) heads →
      (sampled → new.MentionsOnly (stencil.FacetSymbol sampled symbols) heads) →
      before.subst [(stencil.field.valueAt position, new)] = some after →
      after.MentionsOnly (stencil.FacetSymbol sampled symbols) heads := by
    intro before after position new mentions allowed formed
    refine mentions.subst (fun _ named _ => named) (fun _ => id) (fun rule member sample => ?_)
      formed
    cases List.mem_singleton.mp member
    exact allowed (applied (mentionsOnly_iff.mp sample).1)
  have first : sampled → (Expr.sym (firstValue stencil.field)).MentionsOnly
      (stencil.FacetSymbol sampled symbols) heads :=
    fun sampled => mentionsOnly_sym (Or.inr (Or.inl ⟨sampled, Or.inl rfl⟩))
  have second : sampled → (Expr.sym (secondValue stencil.field)).MentionsOnly
      (stencil.FacetSymbol sampled symbols) heads :=
    fun sampled => mentionsOnly_sym (Or.inr (Or.inl ⟨sampled, Or.inr rfl⟩))
  have middleAllowed : sampled →
      middle.MentionsOnly (stencil.FacetSymbol sampled symbols) heads :=
    fun sampled => mentionsOnly_mean (first sampled) (second sampled) meanFormed
  exact (puts (puts (puts mentions first putsFirst) second putsSecond) middleAllowed
    putsMiddle).without unsampled

/-- Rules for the components of a vector leave none of them. -/
theorem mentionsOnly_subst_components {names : List String}
    (mentions : e.MentionsOnly (stencil.FacetSymbol sampled symbols) heads)
    (replaced : rules.map Prod.fst = names.map .sym)
    (new : ∀ rule ∈ rules, rule.2.MentionsOnly
      (stencil.FacetSymbol sampled fun name => symbols name ∧ name ∉ names) heads)
    (formed : e.subst rules = some result) :
    result.MentionsOnly (stencil.FacetSymbol sampled fun name => symbols name ∧ name ∉ names)
      heads := by
  refine mentions.subst (fun name named unmatched => ?_) (fun _ => id)
    (fun rule member _ => new rule member) formed
  refine named.imp_right (Or.imp_right fun given => ⟨given, fun member => ?_⟩)
  have matched : .sym name ∈ rules.map Prod.fst := replaced ▸ List.mem_map_of_mem member
  obtain ⟨rule, inRules, same⟩ := List.mem_map.mp matched
  exact unmatched rule inRules same

/-- What is zipped to as many names as there are can be forgotten. -/
theorem map_zip_components {kind : String} :
    ((stencil.components kind).zip (stencil.firstSymbols.zip stencil.secondSymbols)).map
      (fun entry => Expr.sym entry.1) = (stencil.components kind).map .sym := by
  have shortest : (stencil.components kind).length ≤
      (stencil.firstSymbols.zip stencil.secondSymbols).length := by
    simp [firstSymbols, secondSymbols, length_components]
  conv_rhs => rw [← List.map_fst_zip shortest, List.map_map]
  rfl

/-- The rules for the midpoint replace all coordinates. -/
theorem map_fst_midpointRules (formed : stencil.midpointRules = some rules) :
    rules.map Prod.fst = stencil.coordSymbols.map .sym := by
  rw [coordSymbols, ← map_zip_components]
  refine map_eq_of_mapM formed (fun entry => Expr.sym entry.1) fun entry _ rule formed => ?_
  obtain ⟨_, -, same⟩ := Option.bind_eq_some_iff.mp formed
  cases same
  rfl

/-- The rules for the normal replace all of its components. -/
theorem map_fst_normalRules (formed : stencil.normalRules = some rules) :
    rules.map Prod.fst = stencil.normalSymbols.map .sym := by
  rw [normalSymbols, ← map_zip_components]
  refine map_eq_of_mapM formed (fun entry => Expr.sym entry.1) fun entry _ rule formed => ?_
  obtain ⟨_, -, formed⟩ := Option.bind_eq_some_iff.mp formed
  obtain ⟨_, -, same⟩ := Option.bind_eq_some_iff.mp formed
  cases same
  rfl

/-- The rules for the midpoint mention what belongs to an edge only. -/
theorem mentionsOnly_midpointRules (formed : stencil.midpointRules = some rules) :
    ∀ rule ∈ rules, rule.2.MentionsOnly (stencil.FacetSymbol sampled symbols) heads := by
  intro rule present
  obtain ⟨-, -, first, inFirst, second, inSecond, -, meanFormed⟩ :=
    exists_of_mem_midpointRules formed present
  exact mentionsOnly_mean (mentionsOnly_param (first_mem_edgeParams inFirst))
    (mentionsOnly_param (second_mem_edgeParams inSecond)) meanFormed

/-- The rules for the normal mention what belongs to an edge only. -/
theorem mentionsOnly_normalRules (formed : stencil.normalRules = some rules) :
    ∀ rule ∈ rules, rule.2.MentionsOnly (stencil.FacetSymbol sampled symbols) heads := by
  intro rule present
  have rebuilding := rebuilding_mentionsOnly (stencil.FacetSymbol sampled symbols) heads
  obtain ⟨-, -, first, inFirst, second, inSecond, difference, -, subtracts, divides⟩ :=
    exists_of_mem_normalRules formed present
  exact rebuilding.quot divides (rebuilding.sub subtracts
    (mentionsOnly_param (second_mem_edgeParams inSecond))
    (mentionsOnly_param (first_mem_edgeParams inFirst))) mentionsOnly_edgeLength

/-- Exchanging the endpoints only puts a value of the unknown in if there is the other one. -/
theorem mentionsOnly_exchange
    (mentions : e.MentionsOnly (stencil.FacetSymbol sampled symbols) heads)
    (given : symbols (firstValue stencil.field) ∨ symbols (secondValue stencil.field) → sampled)
    (formed : e.subst stencil.exchangeRules = some result) :
    result.MentionsOnly (stencil.FacetSymbol sampled symbols) heads := by
  refine mentions.subst (fun _ named _ => named) (fun _ => id) (fun rule present allowed => ?_)
    formed
  obtain ⟨⟨first, second⟩, member, present⟩ := List.mem_flatMap.mp present
  simp only [List.mem_cons, List.not_mem_nil, or_false] at present
  rcases List.mem_cons.mp member with same | member
  · cases same
    have value : ∀ {name other : String}, (name = firstValue stencil.field ∨
        name = secondValue stencil.field) → (other = firstValue stencil.field ∨
        other = secondValue stencil.field) →
        (Expr.sym name).MentionsOnly (stencil.FacetSymbol sampled symbols) heads →
        (Expr.sym other).MentionsOnly (stencil.FacetSymbol sampled symbols) heads := by
      intro name other isValue isOther allowed
      refine mentionsOnly_sym (Or.inr (Or.inl ⟨?_, isOther⟩))
      rcases allowed.symbol (self_mem_subterms _) with isParam | ⟨sampled, -⟩ | named
      · obtain ⟨notFirst, notSecond⟩ := ne_values_of_mem_edgeParams isParam
        exact absurd isValue (not_or.mpr ⟨notFirst, notSecond⟩)
      · exact sampled
      · rcases isValue with rfl | rfl
        · exact given (Or.inl named)
        · exact given (Or.inr named)
    rcases present with rfl | rfl
    · exact value (Or.inl rfl) (Or.inr rfl) allowed
    · exact value (Or.inr rfl) (Or.inl rfl) allowed
  · obtain ⟨inFirst, inSecond⟩ := List.of_mem_zip member
    rcases present with rfl | rfl
    · exact mentionsOnly_param (second_mem_edgeParams inSecond)
    · exact mentionsOnly_param (first_mem_edgeParams inFirst)

/-- Symbols other than the coordinates and the components of the normal. -/
def OffPoint (stencil : Stencil) (symbols : String → Prop) (name : String) : Prop :=
  (symbols name ∧ name ∉ stencil.coordSymbols) ∧ name ∉ stencil.normalSymbols

/-- The contribution of an integrand on a facet has the names of the integrand without those of the
point and the unknown, and the names that take their place. -/
theorem mentionsOnly_discretizeEdge {integrand : Integrand}
    (mentions : e.MentionsOnly symbols heads)
    (applied : heads (.named stencil.field.name) → sampled)
    (evaluates : stencil.point.evaluate integrand = .ok e)
    (formed : stencil.discretizeEdge integrand [stencil.field] = .ok result) :
    result.MentionsOnly (stencil.FacetSymbol sampled (stencil.OffPoint symbols))
      (stencil.OtherHead heads) := by
  obtain ⟨area, localized, contribution, sampledExpr, middle, atMiddle, normal, areaFormed,
    localizes, multiplied, samples, middleFormed, putsMiddle, normalFormed, putsNormal⟩ :=
    discretizeEdge_cases evaluates formed
  have rebuilding := rebuilding_mentionsOnly (stencil.FacetSymbol sampled symbols) heads
  have areaMentions :=
    rebuilding.prod_pair areaFormed mentionsOnly_edgeLength mentionsOnly_edgeRatio
  have afterSampling := mentionsOnly_sampleField (rebuilding.prod_pair multiplied areaMentions
    (mentionsOnly_localize mentions localizes)) applied samples
  have afterMidpoint := mentionsOnly_subst_components afterSampling
    (map_fst_midpointRules middleFormed) (mentionsOnly_midpointRules middleFormed) putsMiddle
  exact mentionsOnly_subst_components afterMidpoint (map_fst_normalRules normalFormed)
    (mentionsOnly_normalRules normalFormed) putsNormal

end FiniteVolume.Stencil
