import XaccIbm.IR
import XaccIbm.Lib.Rotations
import XaccIbm.OpenQasm.Program

/-!
# Unitary — what gates do to `n` qubits

The unitary of a gate of the IR, and the unitary of a quantum operation of
an OpenQASM text as OpenQASM 2 and `qelib1.inc` define it: `U(θ, φ, λ)` is
`Rz(φ) Ry(θ) Rz(λ)`, and `u1`, `u2`, `u3`, `cx` and `id` come down to `U`
and the controlled not. How a parameter is read as a real number is given by
`value`; the constants are exact multiples of pi.

A measurement has no unitary. It stands as the identity here, and the
sequences that are compared contain none.
-/

namespace XaccIbm

open Rotations Wires

noncomputable section

variable {P : Type} (value : P → ℝ) (n : Nat)

/-! ## Operators on numbered qubits -/

/-- A one-qubit matrix on qubit `q` of `n`. -/
def onQubit (q : Nat) (A : M2) : Op (Fin n) :=
  if h : q < n then on ⟨q, h⟩ A else 1

/-- A map of basis states on two qubits of `n`. -/
def onPair (f : Fin n → Fin n → (Fin n → Fin 2) → Fin n → Fin 2) (a b : Nat) :
    Op (Fin n) :=
  if h : a < n ∧ b < n then perm (f ⟨a, h.1⟩ ⟨b, h.2⟩) else 1

/-- The phase of `θ` where both qubits are one. -/
def controlledPhase (θ : ℝ) (a b : Nat) : Op (Fin n) :=
  if h : a < n ∧ b < n then
    Matrix.diagonal fun s =>
      if s ⟨a, h.1⟩ = 1 ∧ s ⟨b, h.2⟩ = 1 then phase θ else 1
  else 1

/-! ## The operations of a text -/

def Angle.real : Angle P → ℝ
  | zero => 0
  | pi => Real.pi
  | halfPi => quarterTurn
  | negHalfPi => -quarterTurn
  | param p => value p

/-- `qelib1.inc`, down to `U` and `CX`. -/
def QOp.unitary : QOp P → Op (Fin n)
  | .id q => onQubit n q (zyz 0 0 0)
  | .u1 a q => onQubit n q (zyz 0 0 (a.real value))
  | .u2 a b q => onQubit n q (zyz quarterTurn (a.real value) (b.real value))
  | .u3 a b c q | .U a b c q =>
      onQubit n q (zyz (a.real value) (b.real value) (c.real value))
  | .cx a b => onPair n cnotMap a b
  | .measure _ _ => 1

/-- The unitary of the operations of a text, in their order. -/
def textUnitary (ps : List (Piece P)) : Op (Fin n) :=
  circuit ((operations ps).map fun g => g.op.unitary value n)

/-! ## The gates of the IR -/

def Gate.unitary : Gate P → Op (Fin n)
  | .identity _ => 1
  | .hadamard q => onQubit n q Rotations.hadamard
  | .x q => onQubit n q pauliX
  | .y q => onQubit n q pauliY
  | .z q => onQubit n q pauliZ
  | .cnot a b => onPair n cnotMap a b
  | .swap a b => onPair n swapMap a b
  | .cz a b => controlledPhase n Real.pi a b
  | .cphase theta a b => controlledPhase n (value theta) a b
  | .rx theta q => onQubit n q (Rotations.rx (value theta))
  | .ry theta q => onQubit n q (Rotations.ry (value theta))
  | .rz theta q => onQubit n q (Rotations.rz (value theta))
  | .u theta phi lambda q =>
      onQubit n q (u3 (value theta) (value phi) (value lambda))
  | .measure _ _ => 1

/-- The unitary of a sequence of gates, in their order. -/
def gatesUnitary (gs : List (Gate P)) : Op (Fin n) :=
  circuit (gs.map fun g => g.unitary value n)

/-- Gates with a unitary, on distinct qubits below `n`. -/
def Gate.OnQubits (g : Gate P) : Prop :=
  g.measured = none ∧ (∀ q ∈ g.bits, q < n) ∧ g.bits.Nodup

/-! ## Facts about the operators -/

theorem onQubit_upToPhase {A B : M2} (h : UpToPhase A B) (q : Nat) :
    UpToPhase (onQubit n q A) (onQubit n q B) := by
  rw [onQubit, onQubit]
  split
  · exact (on_upToPhase _).mpr h
  · exact UpToPhase.refl _

theorem isUnit_onQubit {A : M2} (h : IsUnit A) (q : Nat) :
    IsUnit (onQubit n q A) := by
  rw [onQubit]
  split
  · exact isUnit_on h
  · exact isUnit_one

@[simp] theorem onQubit_one (q : Nat) : onQubit n q 1 = 1 := by
  rw [onQubit]
  split
  · exact on_one _
  · rfl

theorem isUnit_onPair {f : Fin n → Fin n → (Fin n → Fin 2) → Fin n → Fin 2}
    (hf : ∀ a b, a ≠ b → Function.Involutive (f a b)) {a b : Nat} (hab : a ≠ b) :
    IsUnit (onPair n f a b) := by
  rw [onPair]
  split
  · exact isUnit_perm (hf _ _ (by simpa using hab))
  · exact isUnit_one

theorem isUnit_controlledPhase (θ : ℝ) (a b : Nat) :
    IsUnit (controlledPhase n θ a b) := by
  rw [controlledPhase]
  split
  · rw [Matrix.isUnit_iff_isUnit_det, Matrix.det_diagonal, isUnit_iff_ne_zero,
      Finset.prod_ne_zero_iff]
    intro s _
    split
    · exact phase_ne_zero θ
    · exact one_ne_zero
  · exact isUnit_one

/-- The three `cx` of a `Swap`. -/
theorem onPair_cnot_three {a b : Nat} (hab : a ≠ b) :
    onPair n cnotMap a b * (onPair n cnotMap b a * onPair n cnotMap a b)
      = onPair n swapMap a b := by
  by_cases h : a < n ∧ b < n
  · have hne : (⟨a, h.1⟩ : Fin n) ≠ ⟨b, h.2⟩ := by simpa using hab
    rw [onPair, onPair, onPair, dif_pos h, dif_pos h.symm, dif_pos h, perm_mul,
      perm_mul, cnotMap_three hne]
  · have h' : ¬ (b < n ∧ a < n) := fun hba => h hba.symm
    rw [onPair, onPair, onPair, dif_neg h, dif_neg h', dif_neg h]
    simp

/-- Leaving a controlled phase out is right for whole turns only. -/
theorem one_upToPhase_controlledPhase {a b : Nat} (ha : a < n) (hb : b < n)
    (θ : ℝ) :
    UpToPhase 1 (controlledPhase n θ a b) ↔ WholeTurns θ := by
  rw [← phase_eq_one_iff]
  have hdef : controlledPhase n θ a b = Matrix.diagonal fun s =>
      if s ⟨a, ha⟩ = 1 ∧ s ⟨b, hb⟩ = 1 then phase θ else 1 :=
    dif_pos ⟨ha, hb⟩
  constructor
  · rintro ⟨c, -, h⟩
    rw [hdef] at h
    have h0 := congrFun (congrFun h fun _ => 0) fun _ => 0
    have h1 := congrFun (congrFun h fun _ => 1) fun _ => 1
    simp at h0 h1
    rw [← h0, one_mul] at h1
    exact h1.symm
  · intro h
    have h1 : controlledPhase n θ a b = 1 := by
      rw [hdef, h]
      simp
    rw [h1]
    exact UpToPhase.refl 1

end

end XaccIbm
