import FiniteVolume.Proofs.Canonical.Power
import FiniteVolume.Proofs.Canonical.Renaming
import FiniteVolume.Proofs.Kernel.Reflection

/-!
# Exchanging endpoints twice

The rules that exchange the endpoints of an edge permute its symbols (`rules_exchange`). Like every
permutation of symbols they can be undone, and they undo themselves
(`subst_permutation_reversible`).
-/

namespace FiniteVolume

namespace Stencil

/-- The permutation that exchanges the endpoints of an edge. -/
def exchange (stencil : Stencil) : SymbolPermutation where
  pairs := stencil.endpointPairs.flatMap fun pair => [pair, pair.swap]
  distinct := by
    obtain ⟨apart, different⟩ := stencil.endpointPairs_apart
    rw [List.map_flatMap, List.nodup_flatMap]
    refine ⟨fun pair member => by simpa using different pair member, apart.imp ?_⟩
    intro pair other ⟨firsts, firstSecond, secondFirst, seconds⟩
    simp [Function.onFun, firsts.symm, firstSecond.symm, secondFirst.symm, seconds.symm]
  permutes := by
    rw [List.map_flatMap, List.map_flatMap]
    exact List.Perm.flatMap_left _ fun pair _ => .swap _ _ _

/-- The exchange of the ends has the rules that blocks are exchanged by. -/
theorem rules_exchange (stencil : Stencil) : stencil.exchange.rules = stencil.exchangeRules := by
  rw [SymbolPermutation.rules, Expr.symbolRules, exchange, List.map_map, List.map_flatMap]
  rfl

/-- The exchange of the ends is its own inverse. -/
theorem involutive_exchange (stencil : Stencil) : Function.Involutive stencil.exchange.apply := by
  refine stencil.exchange.involutive fun pair member => ?_
  obtain ⟨source, inside, member⟩ := List.mem_flatMap.mp member
  refine List.mem_flatMap.mpr ⟨source, inside, ?_⟩
  simp only [List.mem_cons, List.not_mem_nil, or_false] at member ⊢
  rcases member with rfl | rfl
  · exact Or.inr rfl
  · exact Or.inl rfl

end Stencil

namespace Expr

/-- A permutation of symbols never fails on a canonical tree: it renames the symbols and sorts the
operands, the result is canonical again, and the inverse permutation restores the tree. Exchanging
the endpoints of an edge is undone by exchanging them once more. -/
theorem subst_permutation_reversible {e : Expr} (canonical : e.Canonical) :
    (∀ permutation : SymbolPermutation,
      e.subst permutation.rules = some (e.rename permutation.apply) ∧
        (e.rename permutation.apply).Canonical ∧
        (e.rename permutation.apply).subst permutation.inverse.rules = some e) ∧
    ∀ stencil : Stencil, ∃ exchanged, e.subst stencil.exchangeRules = some exchanged ∧
      exchanged.Canonical ∧ exchanged.subst stencil.exchangeRules = some e := by
  constructor
  · intro permutation
    have renamed := canonical.rename permutation.leftInverse
    refine ⟨permutation.subst_rules canonical, renamed, ?_⟩
    rw [permutation.inverse.subst_rules renamed, canonical.rename_back permutation.leftInverse]
  · intro stencil
    have twice : Function.LeftInverse stencil.exchange.apply stencil.exchange.apply :=
      stencil.involutive_exchange
    have renamed := canonical.rename twice
    refine ⟨e.rename stencil.exchange.apply, ?_, renamed, ?_⟩
    · rw [← stencil.rules_exchange, stencil.exchange.subst_rules canonical]
    · rw [← stencil.rules_exchange, stencil.exchange.subst_rules renamed,
        canonical.rename_back twice]

/-- Three symbols change places in a sum with a term that divides by zero. The factors of one
product and the two terms are sorted again, and back. -/
theorem subst_permutation_reversible_cycle :
    let pole : Expr := .pow (.num 0) Exponent.negOne
    let e : Expr := .add [.mul [.sym "a", pole], .mul [.sym "b", .sym "c"]]
    let cycle : SymbolPermutation :=
      ⟨[("a", "b"), ("b", "c"), ("c", "a")], by decide, by decide⟩
    let renamed : Expr := .add [.mul [.sym "a", .sym "c"], .mul [.sym "b", pole]]
    e.rename cycle.apply = renamed ∧ renamed.subst cycle.inverse.rules = some e := by
  intro pole e cycle renamed
  have canonical : e.Canonical := by
    have quotient : (Expr.mul [.sym "a", pole]).Canonical :=
      (canonical_sym "a").quot (canonical_num 0) rfl rfl (by decide +kernel)
    have multiplied : prod [.sym "b", .sym "c"] = some (.mul [.sym "b", .sym "c"]) := by
      decide +kernel
    have product : (Expr.mul [.sym "b", .sym "c"]).Canonical :=
      canonical_prod (forall_mem_pair ⟨canonical_sym "b", canonical_sym "c"⟩)
        (forall_mem_pair ⟨regular_bases rfl, regular_bases rfl⟩) multiplied
    have total : sum [.mul [.sym "a", pole], .mul [.sym "b", .sym "c"]] = e := by decide +kernel
    exact total ▸ canonical_sum (forall_mem_pair ⟨quotient, product⟩)
  have moved : e.rename cycle.apply = renamed := by decide +kernel
  exact ⟨moved, moved ▸ ((subst_permutation_reversible canonical).1 cycle).2.2⟩

end Expr

end FiniteVolume
