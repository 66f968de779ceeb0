import FiniteVolume.Expr.Substitution
import FiniteVolume.Proofs.PartialMap

/-!
# Steps of a substitution

A substitution replaces a tree or rebuilds it from its substituted children (`replaceWith_cases`).
Vectors that are not replaced stay vectors of the same length, so inner products stay inner products
(`rebuilds_dot`). Rules for symbols replace nothing else, and each symbol by the first rule that is
given for it (`replacement?_symbolRules`).
-/

namespace FiniteVolume.Expr

/-- What a tree is rebuilt as that has no replacement itself. -/
inductive Rebuilds (replacement? : Expr → Option Expr) : Expr → Expr → Prop where
  | num (value : Rat) : Rebuilds replacement? (.num value) (.num value)
  | sym (name : String) : Rebuilds replacement? (.sym name) (.sym name)
  | add {terms results : List Expr}
    (rebuilt : terms.mapM (replaceWith replacement?) = some results) :
    Rebuilds replacement? (.add terms) (sum results)
  | mul {factors results : List Expr} {result : Expr}
    (rebuilt : factors.mapM (replaceWith replacement?) = some results)
    (formed : prod results = some result) : Rebuilds replacement? (.mul factors) result
  | pow {base inner result : Expr} {exponent : Exponent}
    (rebuilt : replaceWith replacement? base = some inner)
    (formed : power inner exponent = some result) :
    Rebuilds replacement? (.pow base exponent) result
  | vector {components results : List Expr}
    (rebuilt : components.mapM (replaceWith replacement?) = some results) :
    Rebuilds replacement? (.vector components) (.vector results)
  | call {head : Head} {args results : List Expr}
    (rebuilt : args.mapM (replaceWith replacement?) = some results) :
    Rebuilds replacement? (.call head args) (.call head results)

/-- A tree is replaced or rebuilt. -/
theorem replaceWith_cases {replacement? : Expr → Option Expr} {e result : Expr}
    (formed : replaceWith replacement? e = some result) :
    replacement? e = some result ∨
      replacement? e = none ∧ Rebuilds replacement? e result := by
  cases found : replacement? e with
  | some replacement =>
    cases (replaceWith_of_some found).symm.trans formed
    exact Or.inl rfl
  | none =>
    refine Or.inr ⟨rfl, ?_⟩
    unfold replaceWith at formed
    rw [found] at formed
    simp only [replaceAllWith_eq_mapM] at formed
    cases e with
    | num value =>
      cases formed
      exact .num value
    | sym name =>
      cases formed
      exact .sym name
    | add terms =>
      obtain ⟨results, rebuilt, same⟩ := Option.bind_eq_some_iff.mp formed
      cases same
      exact .add rebuilt
    | mul factors =>
      obtain ⟨results, rebuilt, multiplied⟩ := Option.bind_eq_some_iff.mp formed
      exact .mul rebuilt multiplied
    | pow base exponent =>
      obtain ⟨inner, rebuilt, powered⟩ := Option.bind_eq_some_iff.mp formed
      exact .pow rebuilt powered
    | vector components =>
      obtain ⟨results, rebuilt, same⟩ := Option.bind_eq_some_iff.mp formed
      cases same
      exact .vector rebuilt
    | call head args =>
      obtain ⟨results, rebuilt, same⟩ := Option.bind_eq_some_iff.mp formed
      cases same
      exact .call rebuilt

/-- A tree without a replacement is rebuilt. -/
theorem rebuilds_of_none {replacement? : Expr → Option Expr} {e result : Expr}
    (unreplaced : replacement? e = none) (formed : replaceWith replacement? e = some result) :
    Rebuilds replacement? e result := by
  obtain found | ⟨-, rebuilds⟩ := replaceWith_cases formed
  · rw [unreplaced] at found
    cases found
  · exact rebuilds

/-- The rules that replace symbols by expressions. -/
def symbolRules (replacements : List (String × Expr)) : List Rule :=
  replacements.map fun (name, replacement) => (.sym name, replacement)

/-- Only symbols are replaced, each by what comes first for it. -/
theorem replacement?_symbolRules (replacements : List (String × Expr)) (e : Expr) :
    replacement? (symbolRules replacements) e =
      e.symbol?.bind fun name => replacements.lookup name := by
  induction replacements with
  | nil => cases e <;> rfl
  | cons entry rest ih =>
    rw [replacement?] at ih ⊢
    rw [symbolRules, List.map_cons, List.find?_cons]
    cases e with
    | sym name =>
      rw [symbol?, Option.bind_some, List.lookup_cons]
      by_cases same : name = entry.1
      · simp [same]
      · rw [decide_eq_false (by simpa using Ne.symm same), beq_false_of_ne same]
        exact ih
    | _ =>
      rw [decide_eq_false (by simp)]
      exact ih

/-- What takes the place of a symbol is not looked at again. -/
theorem subst_sym (replacements : List (String × Expr)) (name : String) :
    (Expr.sym name).subst (symbolRules replacements) =
      some ((replacements.lookup name).getD (.sym name)) := by
  unfold subst replaceWith
  rw [replacement?_symbolRules, symbol?, Option.bind_some]
  cases replacements.lookup name <;> rfl

/-- A vector of symbols that have no replacement is rebuilt as it is. -/
theorem replaceWith_vector_sym {replacement? : Expr → Option Expr} {names : List String}
    (vector : replacement? (.vector (names.map .sym)) = none)
    (kept : ∀ name ∈ names, replacement? (.sym name) = none) :
    replaceWith replacement? (.vector (names.map .sym)) = some (.vector (names.map .sym)) := by
  have components : replaceAllWith replacement? (names.map .sym) = some (names.map .sym) := by
    rw [replaceAllWith_eq_mapM, List.mapM_map]
    refine mapM_eq_some_map fun name member => ?_
    simp [replaceWith, kept name member]
  unfold replaceWith
  rw [vector]
  dsimp only
  rw [components]
  rfl

/-- Where no vector is replaced, two vectors of equal length are rebuilt as such. -/
theorem rebuilds_dot {replacement? : Expr → Option Expr} {left right results : List Expr}
    (vectors : ∀ components, replacement? (.vector components) = none)
    (sameLength : left.length = right.length)
    (rebuilt : [Expr.vector left, .vector right].mapM (replaceWith replacement?) = some results) :
    ∃ left' right', results = [.vector left', .vector right'] ∧
      left.mapM (replaceWith replacement?) = some left' ∧
      right.mapM (replaceWith replacement?) = some right' ∧ left'.length = right'.length := by
  have components : ∀ {es : List Expr} {result : Expr},
      replaceWith replacement? (.vector es) = some result →
      ∃ results, result = .vector results ∧ es.mapM (replaceWith replacement?) = some results := by
    intro es result built
    cases rebuilds_of_none (vectors es) built with
    | vector rebuilt => exact ⟨_, rfl, rebuilt⟩
  obtain ⟨_, _, rebuiltLeft, rebuiltRight, rfl⟩ := mapM_pair_eq_some rebuilt
  obtain ⟨left', rfl, lefts⟩ := components rebuiltLeft
  obtain ⟨right', rfl, rights⟩ := components rebuiltRight
  refine ⟨left', right', rfl, lefts, rights, ?_⟩
  rw [mapM_eq_some_iff] at lefts rights
  exact lefts.length_eq.symm.trans (sameLength.trans rights.length_eq)

end FiniteVolume.Expr
