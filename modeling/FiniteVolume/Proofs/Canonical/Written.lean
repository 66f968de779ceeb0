import FiniteVolume.Proofs.Canonical.Gathered
import FiniteVolume.Proofs.Expr.Recursion
import FiniteVolume.Proofs.Outcome

/-!
# Written forms

A tree has a written form unless a magnitude inside it has no value. Magnitudes of gathered factors
always have one (`exists_render`), and expansion gathers the factors of any tree
(`gathered_expand`), so whatever was expanded can be written.
-/

namespace FiniteVolume.Expr

/-- Expansion gathers the factors of any tree. -/
theorem gathered_expand {e result : Expr} (expands : expand e = some result) : result.Gathered := by
  refine expand_induction (motive := fun _ result => result.Gathered) gathered_num gathered_sym ?add
    ?mul ?powSum ?pow ?vector (fun _ _ _ _ _ _ gathered => gathered) ?call expands
  case add =>
    intro terms results each
    exact closed_gathered.sum _ (forall_mem_of_forall₂ each.flip)
  case mul =>
    intro factors results result each distributed
    exact closed_gathered.distributeFrom distributed (gathered_num 1)
      (forall_mem_of_forall₂ each.flip)
  case powSum =>
    intro base terms exponent result gathered _ multiplied
    exact closed_gathered.distributeRepeatedly multiplied (gathered_num 1) gathered
  case pow =>
    intro base exponent inner result _ gathered _ powered
    exact gathered_power gathered powered
  case vector =>
    intro components results each
    exact gathered_iff.mpr ⟨trivial, forall_mem_of_forall₂ each.flip⟩
  case call =>
    intro head args results _ _ each
    exact gathered_iff.mpr ⟨trivial, forall_mem_of_forall₂ each.flip⟩

/-- The magnitude of a term with gathered factors has a value, and its factors are gathered. -/
theorem exists_magnitude {term : Expr} (gathered : term.Gathered) :
    ∃ magnitude, term.magnitude = some magnitude ∧ magnitude.Gathered := by
  unfold magnitude
  split
  · exact ⟨_, rfl, gathered_num _⟩
  · rename_i coefficient factors
    obtain ⟨distinct, parts⟩ := gathered_mul_iff.mp gathered
    obtain ⟨-, later⟩ := List.forall_mem_cons.mp parts
    obtain ⟨product, multiplied⟩ :=
      exists_prodToDepth _ factors later (distinctBases_cons_num.mp distinct)
    refine ⟨scale (-coefficient) product,
      Option.bind_eq_some_iff.mpr ⟨product, multiplied, rfl⟩, ?_⟩
    exact gathered_scale (closed_gathered.prod factors product multiplied later)
  · exact ⟨term, rfl, gathered⟩

/-- Trees with gathered factors have a written form if their magnitudes have one. -/
theorem exists_renderWith {renderMagnitude : Expr → Option String}
    (magnitudes : ∀ e : Expr, e.Gathered → ∃ text, renderMagnitude e = some text) (e : Expr) :
    e.Gathered → ∃ text, renderWith renderMagnitude e = some text := by
  have factors : ∀ es : List Expr, (∀ e ∈ es, ∃ text, renderWith renderMagnitude e = some text) →
      ∃ texts, renderFactors renderMagnitude es = some texts := by
    intro es written
    induction es with
    | nil => exact ⟨[], rfl⟩
    | cons e rest ih =>
      obtain ⟨⟨text, writes⟩, later⟩ := List.forall_mem_cons.mp written
      obtain ⟨texts, writesRest⟩ := ih later
      exact ⟨_, by rw [renderFactors, writes, writesRest]; rfl⟩
  have list : ∀ es : List Expr, (∀ e ∈ es, ∃ text, renderWith renderMagnitude e = some text) →
      ∃ texts, renderList renderMagnitude es = some texts := by
    intro es written
    induction es with
    | nil => exact ⟨[], rfl⟩
    | cons e rest ih =>
      obtain ⟨⟨text, writes⟩, later⟩ := List.forall_mem_cons.mp written
      obtain ⟨texts, writesRest⟩ := ih later
      exact ⟨_, by rw [renderList, writes, writesRest]; rfl⟩
  have terms : ∀ es : List Expr, (∀ e ∈ es, e.Gathered) →
      (∀ e ∈ es, ∃ text, renderWith renderMagnitude e = some text) →
      ∃ texts, renderTerms renderMagnitude es = some texts := by
    intro es gathered written
    induction es with
    | nil => exact ⟨[], rfl⟩
    | cons e rest ih =>
      obtain ⟨gatheredFirst, gatheredRest⟩ := List.forall_mem_cons.mp gathered
      obtain ⟨⟨text, writes⟩, later⟩ := List.forall_mem_cons.mp written
      obtain ⟨texts, writesRest⟩ := ih gatheredRest later
      obtain ⟨magnitude, hasMagnitude, gatheredMagnitude⟩ := exists_magnitude gatheredFirst
      obtain ⟨size, writesMagnitude⟩ := magnitudes magnitude gatheredMagnitude
      rw [renderTerms, writesRest, hasMagnitude, writes]
      cases e.isNegative with
      | false => exact ⟨_, rfl⟩
      | true =>
        dsimp only [Option.bind_eq_bind, Option.bind_some]
        rw [writesMagnitude]
        exact ⟨_, rfl⟩
  induction e with
  | num value | sym name => exact fun _ => ⟨_, rfl⟩
  | add es ih =>
    intro gathered
    obtain ⟨texts, writes⟩ := terms es (fun _ => gathered.arg) fun e member =>
      ih e member (gathered.arg member)
    exact ⟨_, by rw [renderWith, writes]; rfl⟩
  | mul es ih =>
    intro gathered
    obtain ⟨texts, writes⟩ := factors es fun e member => ih e member (gathered.arg member)
    exact ⟨_, by rw [renderWith, writes]; rfl⟩
  | pow base exponent ih =>
    intro gathered
    obtain ⟨text, writes⟩ := ih (gathered_pow_iff.mp gathered).2
    exact ⟨_, by rw [renderWith, writes]; rfl⟩
  | vector es ih | call head es ih =>
    intro gathered
    obtain ⟨texts, writes⟩ := list es fun e member => ih e member (gathered.arg member)
    exact ⟨_, by rw [renderWith, writes]; rfl⟩

/-- A tree with gathered factors has a written form. -/
theorem exists_render {e : Expr} (gathered : e.Gathered) : ∃ text, e.render = some text := by
  have toDepth : ∀ (depth : Nat) (e : Expr), e.Gathered →
      ∃ text, renderToDepth depth e = some text := by
    intro depth
    induction depth with
    | zero => exact fun _ _ => ⟨"", rfl⟩
    | succ depth ih => exact exists_renderWith ih
  exact toDepth _ e gathered

theorem exists_text {e : Expr} (gathered : e.Gathered) : ∃ text, e.text = .ok text := by
  obtain ⟨text, writes⟩ := exists_render gathered
  exact ⟨text, Outcome.ofPower?_eq_ok_iff.mpr writes⟩

end FiniteVolume.Expr
