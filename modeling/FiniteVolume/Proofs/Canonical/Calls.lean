import FiniteVolume.Expr.Substitution
import FiniteVolume.Proofs.PartialMap

/-!
# The constructors as calls of one another

Sums, products, powers and normalization call one another and take operands from a stack that grows
while nested sums and products are dissolved. Here nothing bounds them: a call has a body
(`Call.body`), a body may make calls, and a machine runs bodies step by step on a stack of frames
(`State.step`). A run ends with a value or stops at an exponent that does not fit into 64 bits. At
the reciprocal of zero it comes to neither.

How a body ends is put together from the calls that it makes (`Program.Ends.call`,
`Program.Ends.callEach`), and a call whose body ends is one that the machine comes back from
(`terminates_of_ends`).
-/

namespace FiniteVolume.Construction

open FiniteVolume.Expr

/-- An exponent that does not fit into 64 bits. -/
structure Overflow where
  exponent : Int
  outside : Exponent.ofInt? exponent = none

/-- A call of a constructor, or one more turn of the loop of one. -/
inductive Call where
  | sum (terms : List Expr)
  /-- The loop of a sum over a stack of terms, the top first. -/
  | addTerms (collected : LikeTerms) (stack : List Expr)
  | product (factors : List Expr)
  /-- The loop of a product over a stack of factors, the top first. -/
  | multiplyFactors (collected : LikeFactors) (stack : List Expr)
  | power (base : Expr) (exponent : Exponent)
  /-- The loop of a power of a number, with how many factors are left to be multiplied. -/
  | multiplyNumber (accumulated value : Rat) (remaining : Nat) (inverted : Bool)
  | normalize (e : Expr)

/-- What is left to be done: nothing but to answer or to stop, or a call and what is done with its
answer. A program that divides by zero does none of these. -/
inductive Program where
  | answer (value : Expr)
  | stop (overflow : Overflow)
  | divideByZero
  | call (callee : Call) (next : Expr → Program)

namespace Program

/-- Makes a last call and answers as it does. -/
def callLast (callee : Call) : Program := .call callee .answer

/-- Makes calls one after the other and goes on with their answers. -/
def callEach : List Call → (List Expr → Program) → Program
  | [], next => next []
  | callee :: rest, next =>
    .call callee fun value => callEach rest fun values => next (value :: values)

/-- Goes on with an exponent, or stops if it is out of range. -/
def checked (exponent : Int) (next : Exponent → Program) : Program :=
  match outside : Exponent.ofInt? exponent with
  | some exponent => next exponent
  | none => .stop ⟨exponent, outside⟩

/-- Answers with the reciprocal of a number. -/
def reciprocal (value : Rat) : Program :=
  if value = 0 then .divideByZero else .answer (.num value⁻¹)

/-- One turn of the loop of a sum: the topmost term is dissolved or collected. -/
def addTerms (collected : LikeTerms) : List Expr → Program
  | [] => .answer (ofTerms collected.toTerms)
  | .add inner :: stack => callLast (.addTerms collected (inner.reverse ++ stack))
  | term :: stack => callLast (.addTerms (LikeTerms.insert term collected) stack)

/-- Puts a product together from its coefficient and its other factors. -/
def assemble (coefficient : Rat) : List Expr → Program
  | [] => .answer (.num coefficient)
  | [.add terms] =>
    if coefficient = 1 then
      .answer (.add terms)
    else
      callEach (terms.map fun term => .product [.num coefficient, term]) fun products =>
        callLast (.sum products)
  | [factor] => .answer (scale coefficient factor)
  | factors =>
    .answer (if coefficient = 1 then .mul factors else .mul (.num coefficient :: factors))

/-- What a product does once its factors are collected. -/
def raiseBases (collected : LikeFactors) : Program :=
  if collected.coefficient = 0 ∧ ¬collected.isSingular then
    .answer zero
  else
    callEach (collected.exponents.map fun entry => .power entry.1 entry.2) fun powers =>
      let factors := powers.flatMap factors
      let coefficient := (factors.filterMap value?).foldl (· * ·) collected.coefficient
      if coefficient = 0 ∧ ¬collected.isSingular then
        .answer zero
      else
        assemble coefficient (sort (factors.filter fun factor => !factor.isNum))

/-- Collects a power of a base and goes on with the factors that are left on the stack. -/
def multiplyPower (collected : LikeFactors) (base : Expr) (exponent : Exponent)
    (stack : List Expr) : Program :=
  let before := (collected.exponents.get? base).getD Exponent.zero
  checked (before.val + exponent.val) fun total =>
    callLast (.multiplyFactors
      { collected with exponents := collected.exponents.insert base total } stack)

/-- One turn of the loop of a product: the topmost factor is dissolved or collected. -/
def multiplyFactors (collected : LikeFactors) : List Expr → Program
  | [] => raiseBases collected
  | .num value :: stack =>
    callLast (.multiplyFactors
      { collected with coefficient := collected.coefficient * value } stack)
  | .mul inner :: stack => callLast (.multiplyFactors collected (inner.reverse ++ stack))
  | .pow base exponent :: stack => multiplyPower collected base exponent stack
  | factor :: stack => multiplyPower collected factor Exponent.one stack

def power (base : Expr) (exponent : Exponent) : Program :=
  if exponent.val = 0 then
    .answer one
  else if exponent.val = 1 then
    .answer base
  else
    match base with
    | .num value =>
      if value = 0 ∧ exponent.val < 0 then
        .answer (.pow (.num value) exponent)
      else
        callLast (.multiplyNumber 1 value exponent.val.natAbs (decide (exponent.val < 0)))
    | .pow base inner =>
      checked (inner.val * exponent.val) fun total => callLast (.power base total)
    | .mul factors =>
      callEach (factors.map fun factor => .power factor exponent) fun powers =>
        callLast (.product powers)
    | base => .answer (.pow base exponent)

/-- One turn of the loop of a power of a number. -/
def multiplyNumber (accumulated value : Rat) (inverted : Bool) : Nat → Program
  | 0 => if inverted then reciprocal accumulated else .answer (.num accumulated)
  | remaining + 1 =>
    callLast (.multiplyNumber (accumulated * value) value remaining inverted)

/-- Normalizes children one after the other and goes on with what they are normalized to. -/
def normalizeEach (es : List Expr) (next : List Expr → Program) : Program :=
  callEach (es.map .normalize) next

def normalize : Expr → Program
  | .num value => .answer (.num value)
  | .sym name => .answer (.sym name)
  | .add terms => normalizeEach terms fun terms => callLast (.sum terms)
  | .mul factors => normalizeEach factors fun factors => callLast (.product factors)
  | .pow base exponent =>
    .call (.normalize base) fun base => callLast (.power base exponent)
  | .vector components => normalizeEach components fun components => .answer (.vector components)
  | .call head args => normalizeEach args fun args => .answer (.call head args)

end Program

/-- What a call does. -/
def Call.body : Call → Program
  | .sum terms => .callLast (.addTerms {} terms.reverse)
  | .addTerms collected stack => .addTerms collected stack
  | .product factors => .callLast (.multiplyFactors {} factors.reverse)
  | .multiplyFactors collected stack => .multiplyFactors collected stack
  | .power base exponent => .power base exponent
  | .multiplyNumber accumulated value remaining inverted =>
    .multiplyNumber accumulated value inverted remaining
  | .normalize e => .normalize e

/-- A state of a run: a program with the callers that wait for its answer, or the end of the run. -/
inductive State where
  | running (program : Program) (frames : List (Expr → Program))
  | returned (value : Expr)
  | stopped (overflow : Overflow)

namespace State

/-- The state in which a call is about to be carried out. -/
def start (call : Call) : State := .running call.body []

/-- One step of a run. A call puts a frame on the stack, an answer takes one off, and an overflow
leaves all callers at once. A division by zero never gets any further. -/
def step : State → State
  | .running (.answer value) [] => .returned value
  | .running (.answer value) (next :: frames) => .running (next value) frames
  | .running (.stop overflow) _ => .stopped overflow
  | .running (.call callee next) frames => .running callee.body (next :: frames)
  | .running .divideByZero frames => .running .divideByZero frames
  | .returned value => .returned value
  | .stopped overflow => .stopped overflow

/-- A state comes after another one by finitely many steps. -/
def Reaches (state later : State) : Prop := ∃ steps, step^[steps] state = later

/-- A state is reached from itself. -/
theorem Reaches.refl (state : State) : state.Reaches state := ⟨0, rfl⟩

/-- What is reached in two runs is reached in one. -/
theorem Reaches.trans {first second third : State} (before : first.Reaches second)
    (after : second.Reaches third) : first.Reaches third := by
  obtain ⟨steps, rfl⟩ := before
  obtain ⟨more, rfl⟩ := after
  exact ⟨more + steps, Function.iterate_add_apply step more steps first⟩

/-- One step is a run. -/
theorem reaches_step (state : State) : state.Reaches state.step := ⟨1, rfl⟩

/-- A run ends in at most one way. -/
theorem eq_of_reaches {state first second : State} (before : state.Reaches first)
    (before' : state.Reaches second) (final : first.step = first) (final' : second.step = second) :
    first = second := by
  obtain ⟨steps, rfl⟩ := before
  obtain ⟨steps', rfl⟩ := before'
  rcases Nat.le_total steps steps' with fewer | fewer
  · obtain ⟨more, rfl⟩ := Nat.exists_eq_add_of_le' fewer
    rw [Function.iterate_add_apply, Function.iterate_fixed final]
  · obtain ⟨more, rfl⟩ := Nat.exists_eq_add_of_le' fewer
    rw [Function.iterate_add_apply, Function.iterate_fixed final']

end State

/-- A call comes back with a value after finitely many steps, or, where none is expected, its run
stops at an overflow after finitely many steps. -/
def Terminates (call : Call) : Option Expr → Prop
  | some value => (State.start call).Reaches (.returned value)
  | none => ∃ overflow, (State.start call).Reaches (.stopped overflow)

/-- A call comes to one end only. -/
theorem eq_of_terminates {call : Call} {first? second? : Option Expr}
    (ends : Terminates call first?) (ends' : Terminates call second?) : first? = second? := by
  cases first? with
  | none =>
    obtain ⟨overflow, ends⟩ := ends
    cases second? with
    | none => rfl
    | some second => cases State.eq_of_reaches ends ends' rfl rfl
  | some first =>
    cases second? with
    | none =>
      obtain ⟨overflow, ends'⟩ := ends'
      cases State.eq_of_reaches ends ends' rfl rfl
    | some second =>
      cases State.eq_of_reaches ends ends' rfl rfl
      rfl

namespace Program

/-- A program ends with a value, or with an overflow where none is expected, whoever waits for its
answer. -/
def Ends (program : Program) : Option Expr → Prop
  | some value => ∀ frames,
    State.Reaches (.running program frames) (.running (.answer value) frames)
  | none => ∀ frames, ∃ overflow, State.Reaches (.running program frames) (.stopped overflow)

/-- A program that answers ends with its answer. -/
theorem ends_answer (value : Expr) : (answer value).Ends (some value) :=
  fun frames => .refl (.running (.answer value) frames)

/-- A program that stops ends with an overflow. -/
theorem ends_stop (overflow : Overflow) : (stop overflow).Ends none :=
  fun frames => ⟨overflow, State.reaches_step (.running (.stop overflow) frames)⟩

/-- The reciprocal of a number other than zero is answered. -/
theorem ends_reciprocal {value : Rat} (nonzero : value ≠ 0) :
    (reciprocal value).Ends (some (.num value⁻¹)) := by
  rw [reciprocal, if_neg nonzero]
  exact ends_answer _

namespace Ends

variable {callee : Call} {next : Expr → Program} {value? : Option Expr}

/-- A call ends as the callee does, and then as its caller goes on with the answer. -/
theorem call {rest : Expr → Option Expr} (made : callee.body.Ends value?)
    (continues : ∀ value, value? = some value → (next value).Ends (rest value)) :
    (Program.call callee next).Ends (value?.bind rest) := by
  have enters : ∀ frames, State.Reaches (.running (.call callee next) frames)
      (.running callee.body (next :: frames)) :=
    fun frames => State.reaches_step (.running (.call callee next) frames)
  cases value? with
  | none =>
    intro frames
    obtain ⟨overflow, stops⟩ := made (next :: frames)
    exact ⟨overflow, (enters frames).trans stops⟩
  | some value =>
    have returns : ∀ frames, State.Reaches (.running (.call callee next) frames)
        (.running (next value) frames) := by
      intro frames
      have answered := (enters frames).trans (made (next :: frames))
      exact answered.trans (State.reaches_step (.running (.answer value) (next :: frames)))
    have rests := continues value rfl
    rw [Option.bind_some]
    cases outcome : rest value with
    | none =>
      rw [outcome] at rests
      intro frames
      obtain ⟨overflow, stops⟩ := rests frames
      exact ⟨overflow, (returns frames).trans stops⟩
    | some result =>
      rw [outcome] at rests
      exact fun frames => (returns frames).trans (rests frames)

/-- A last call ends as the call does. -/
theorem callLast (made : callee.body.Ends value?) : (callLast callee).Ends value? := by
  have answers := made.call fun value _ => ends_answer value
  rwa [Option.bind_fun_some] at answers

/-- Calls for the members of a list end with the answers for all of them, or with an overflow in the
first one that overflows. -/
theorem callEach {α : Type} {callOf : α → Call} {answer : α → Option Expr} {members : List α}
    (made : ∀ member ∈ members, (callOf member).body.Ends (answer member)) :
    ∀ {next : List Expr → Program} {rest : List Expr → Option Expr},
      (∀ values, members.mapM answer = some values → (next values).Ends (rest values)) →
      (callEach (members.map callOf) next).Ends ((members.mapM answer).bind rest) := by
  induction members with
  | nil => exact fun continues => continues [] rfl
  | cons member others ih =>
    intro next rest continues
    obtain ⟨first, later⟩ := List.forall_mem_cons.mp made
    have inOrder : ((member :: others).mapM answer).bind rest = (answer member).bind fun value =>
        (others.mapM answer).bind fun values => rest (value :: values) := by
      rw [List.mapM_cons]
      cases answer member with
      | none => rfl
      | some value => cases others.mapM answer <;> rfl
    rw [inOrder]
    refine first.call fun value answered => ih later fun values mapped => ?_
    refine continues (value :: values) ?_
    rw [List.mapM_cons, answered, mapped]
    rfl

/-- A check of an exponent ends with an overflow or as what follows it. -/
theorem checked {exponent : Int} {next : Exponent → Program} {rest : Exponent → Option Expr}
    (continues : ∀ inRange, Exponent.ofInt? exponent = some inRange →
      (next inRange).Ends (rest inRange)) :
    (checked exponent next).Ends ((Exponent.ofInt? exponent).bind rest) := by
  unfold Program.checked
  split
  · rename_i inRange found
    rw [found]
    exact continues inRange found
  · rename_i outside
    have nothing : (Exponent.ofInt? exponent).bind rest = none := by rw [outside, Option.bind_none]
    rw [nothing]
    exact ends_stop ⟨exponent, outside⟩

end Ends

end Program

/-- A call whose body ends is one that a run comes back from. -/
theorem terminates_of_ends {callee : Call} {value? : Option Expr}
    (ends : callee.body.Ends value?) : Terminates callee value? := by
  cases value? with
  | none => exact ends []
  | some value => exact (ends []).trans (State.reaches_step (.running (.answer value) []))

end FiniteVolume.Construction
