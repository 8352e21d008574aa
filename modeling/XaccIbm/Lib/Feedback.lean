import Mathlib.Algebra.BigOperators.Group.List.Basic
import Mathlib.GroupTheory.Congruence.Defs

/-!
# Feedback — circuits that measure and look at what they measured

A step of such a circuit applies an operator, or measures and writes the
outcome into a cell; it is taken when the cells it is guarded by are all set.
Once the outcomes of a run are known, the circuit is a product of operators,
in which a measurement is the projector of its outcome. Two circuits that
remember their outcomes in different cells are compared by where the outcomes
of the one are found in the other.
-/

namespace XaccIbm.Feedback

/-- What a step does to the qubits `ι`, with cells `κ` for the outcomes. -/
inductive Action (ι κ M : Type) where
  | apply (A : M)
  | measure (q : ι) (c : κ)

structure Step (ι κ M : Type) where
  guards : List κ
  action : Action ι κ M

/-- The cells, and the number of measurements made. -/
structure Memory (κ : Type) where
  cell : κ → Bool := fun _ => false
  measured : Nat := 0

variable {ι κ κ' M : Type}

namespace Step

/-- A step without guards. -/
def always (a : Action ι κ M) : Step ι κ M := ⟨[], a⟩

/-- Whether the step is taken. -/
def taken (s : Step ι κ M) (m : Memory κ) : Bool := s.guards.all m.cell

@[simp] theorem taken_always (a : Action ι κ M) (m : Memory κ) : (always a).taken m = true := rfl

variable [DecidableEq κ] (outcome : Nat → Bool)

/-- The memory after the step; the measurements take the outcomes in turn. -/
def after (s : Step ι κ M) (m : Memory κ) : Memory κ :=
  if s.taken m then
    match s.action with
    | .apply _ => m
    | .measure _ c =>
        { cell := Function.update m.cell c (outcome m.measured), measured := m.measured + 1 }
  else m

variable [Monoid M] (projector : ι → Bool → M)

/-- The operator of the step under the outcomes. -/
def operator (s : Step ι κ M) (m : Memory κ) : M :=
  if s.taken m then
    match s.action with
    | .apply A => A
    | .measure q _ => projector q (outcome m.measured)
  else 1

end Step

section

variable [DecidableEq κ] (outcome : Nat → Bool)

/-- The memory after a circuit. -/
def memory (m : Memory κ) : List (Step ι κ M) → Memory κ
  | [] => m
  | s :: ss => memory (s.after outcome m) ss

theorem memory_always (m : Memory κ) (As : List M) (ss : List (Step ι κ M)) :
    memory outcome m (As.map (fun A => .always (.apply A)) ++ ss) = memory outcome m ss := by
  induction As with
  | nil => rfl
  | cons A As ih => exact ih

variable [Monoid M] (projector : ι → Bool → M)

/-- The operator of a circuit under the outcomes, its first step applied
first. -/
def operator (m : Memory κ) : List (Step ι κ M) → M
  | [] => 1
  | s :: ss => operator (s.after outcome m) ss * s.operator outcome projector m

/-- Operators in front of a circuit. -/
theorem operator_always (m : Memory κ) (As : List M) (ss : List (Step ι κ M)) :
    operator outcome projector m (As.map (fun A => .always (.apply A)) ++ ss)
      = operator outcome projector m ss * As.reverse.prod := by
  induction As with
  | nil => simp
  | cons A As ih =>
      rw [List.map_cons, List.cons_append, operator]
      show operator outcome projector m (As.map (fun A => .always (.apply A)) ++ ss) * A = _
      rw [ih, List.reverse_cons, List.prod_append, List.prod_singleton, mul_assoc]

/-- Steps without guards that do the same, the outcomes in any cells. -/
inductive Alike (r : M → M → Prop) : Step ι κ M → Step ι κ' M → Prop
  | apply {A A' : M} (h : r A' A) : Alike r (.always (.apply A)) (.always (.apply A'))
  | measure (q : ι) (c : κ) (c' : κ') : Alike r (.always (.measure q c)) (.always (.measure q c'))

/-- **Without guards the cells do not matter.** -/
theorem operator_alike [DecidableEq κ'] {r : Con M} {ss : List (Step ι κ M)}
    {ss' : List (Step ι κ' M)} (h : List.Forall₂ (Alike r) ss ss') {m : Memory κ}
    {m' : Memory κ'} (hm : m'.measured = m.measured) :
    r (operator outcome projector m' ss') (operator outcome projector m ss) := by
  induction h generalizing m m' with
  | nil => exact r.refl 1
  | cons hstep _ ih =>
      cases hstep with
      | apply hA => exact r.mul (ih hm) hA
      | measure q c c' =>
          apply r.mul
          · apply ih
            show m'.measured + 1 = m.measured + 1
            rw [hm]
          · show r (projector q (outcome m'.measured)) (projector q (outcome m.measured))
            rw [hm]
            exact r.refl _

end

/-! ## Other cells -/

/-- A partial map from cells to the cells where their outcomes are found, and
the memories that go with it. -/
structure Agrees (place : κ → Option κ') (m : Memory κ) (m' : Memory κ') : Prop where
  cell : ∀ c c', place c = some c' → m'.cell c' = m.cell c
  measured : m'.measured = m.measured

/-- **A circuit with its outcomes in other cells.** An operator may become
several; a measurement takes a cell that no other outcome is in; a guard looks
where the outcome is. `place` is the map before the circuit, `last` the one
after it. -/
inductive Placed [DecidableEq κ] [Monoid M] (r : Con M) :
    (κ → Option κ') → List (Step ι κ M) → List (Step ι κ' M) → (κ → Option κ') → Prop
  | nil {place} : Placed r place [] [] place
  | always {place last ss ss' A} {As : List M} (h : r As.reverse.prod A)
      (hrest : Placed r place ss ss' last) :
      Placed r place (.always (.apply A) :: ss)
        (As.map (fun A => .always (.apply A)) ++ ss') last
  | guarded {place last ss ss' A A' c c'} (hc : place c = some c') (h : r A' A)
      (hrest : Placed r place ss ss' last) :
      Placed r place (⟨[c], .apply A⟩ :: ss) (⟨[c'], .apply A'⟩ :: ss') last
  | measure {place last ss ss' q c c'} (hfresh : ∀ d, d ≠ c → place d ≠ some c')
      (hrest : Placed r (Function.update place c (some c')) ss ss' last) :
      Placed r place (.always (.measure q c) :: ss) (.always (.measure q c') :: ss') last

/-- Both circuits look at the same outcome. -/
theorem Agrees.taken {place : κ → Option κ'} {m : Memory κ} {m' : Memory κ'}
    (h : Agrees place m m') {c : κ} {c' : κ'} (hc : place c = some c')
    (a : Action ι κ M) (a' : Action ι κ' M) :
    (⟨[c'], a'⟩ : Step ι κ' M).taken m' = (⟨[c], a⟩ : Step ι κ M).taken m := by
  simp [Step.taken, h.cell c c' hc]

section

variable [DecidableEq κ] [DecidableEq κ'] {place : κ → Option κ'} {m : Memory κ}
  {m' : Memory κ'} (outcome : Nat → Bool)

/-- Both circuits measure. -/
theorem Agrees.measure (h : Agrees place m m') {q : ι} {c : κ} {c' : κ'}
    (hfresh : ∀ d, d ≠ c → place d ≠ some c') :
    Agrees (Function.update place c (some c'))
      ((Step.always (.measure q c) : Step ι κ M).after outcome m)
      ((Step.always (.measure q c') : Step ι κ' M).after outcome m') := by
  constructor
  · intro d d' hd
    show Function.update m'.cell c' (outcome m'.measured) d'
      = Function.update m.cell c (outcome m.measured) d
    by_cases hdc : d = c
    · subst hdc
      rw [Function.update_self] at hd
      cases hd
      rw [Function.update_self, Function.update_self, h.measured]
    · rw [Function.update_of_ne hdc] at hd
      have hne : d' ≠ c' := by
        rintro rfl
        exact hfresh d hdc hd
      rw [Function.update_of_ne hne, Function.update_of_ne hdc, h.cell d d' hd]
  · show m'.measured + 1 = m.measured + 1
    rw [h.measured]

theorem Step.after_apply (guards : List κ) (A : M) (m : Memory κ) :
    (⟨guards, .apply A⟩ : Step ι κ M).after outcome m = m := by
  rw [Step.after]
  split <;> rfl

variable [Monoid M] (projector : ι → Bool → M) {r : Con M} {last : κ → Option κ'}
  {ss : List (Step ι κ M)} {ss' : List (Step ι κ' M)}

/-- **The operators agree**, whatever the outcomes are. -/
theorem Placed.operator (h : Placed r place ss ss' last) (hm : Agrees place m m') :
    r (operator outcome projector m' ss') (operator outcome projector m ss) := by
  induction h generalizing m m' with
  | nil => exact r.refl 1
  | always h _ ih =>
      rw [operator_always]
      exact r.mul (ih hm) h
  | @guarded place last ss ss' A A' c c' hc h _ ih =>
      simp only [Feedback.operator, Step.after_apply, Step.operator, hm.taken hc (.apply A)]
      apply r.mul (ih hm)
      by_cases htaken : (⟨[c], .apply A⟩ : Step ι κ M).taken m = true
      · rw [if_pos htaken, if_pos htaken]
        exact h
      · rw [if_neg htaken, if_neg htaken]
        exact r.refl 1
  | @measure place last ss ss' q c c' hfresh _ ih =>
      have hafter := hm.measure outcome (M := M) (q := q) hfresh
      apply r.mul (ih hafter)
      show r (projector q (outcome m'.measured)) (projector q (outcome m.measured))
      rw [hm.measured]
      exact r.refl _

/-- **The outcomes are found** where the last map says. -/
theorem Placed.memory (h : Placed r place ss ss' last) (hm : Agrees place m m') :
    Agrees last (memory outcome m ss) (memory outcome m' ss') := by
  induction h generalizing m m' with
  | nil => exact hm
  | always h _ ih =>
      rw [memory_always]
      exact ih hm
  | guarded hc h _ ih =>
      simp only [Feedback.memory, Step.after_apply]
      exact ih hm
  | measure hfresh _ ih => exact ih (hm.measure outcome hfresh)

end

end XaccIbm.Feedback
