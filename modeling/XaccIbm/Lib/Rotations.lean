import Mathlib.Analysis.SpecialFunctions.Complex.Log
import Mathlib.LinearAlgebra.Matrix.Notation
import XaccIbm.Lib.Wires

/-!
# Rotations — one-qubit matrices

The standard one-qubit matrices and the rotation by three Euler angles.
`zyz` is the rotation as a product; `u3` is the same rotation written as one
matrix whose first entry is real, and the two differ by a phase. The values
of `u3` at multiples of a quarter turn are the named matrices.
-/

namespace XaccIbm.Rotations

open Complex Matrix

noncomputable section

/-- A one-qubit matrix. -/
abbrev M2 := Matrix (Fin 2) (Fin 2) ℂ

/-- The angle pi/2. -/
def quarterTurn : ℝ := Real.pi / 2

/-- An angle that comes to nothing. -/
def WholeTurns (θ : ℝ) : Prop := ∃ m : ℤ, θ = m * (2 * Real.pi)

def hadamard : M2 := ((√2 / 2 : ℝ) : ℂ) • !![1, 1; 1, -1]

def pauliX : M2 := !![0, 1; 1, 0]

def pauliY : M2 := !![0, -I; I, 0]

def pauliZ : M2 := !![1, 0; 0, -1]

def rx (θ : ℝ) : M2 :=
  !![(Real.cos (θ / 2) : ℂ), -I * Real.sin (θ / 2);
    -I * Real.sin (θ / 2), (Real.cos (θ / 2) : ℂ)]

def ry (θ : ℝ) : M2 :=
  !![(Real.cos (θ / 2) : ℂ), -(Real.sin (θ / 2) : ℂ);
    (Real.sin (θ / 2) : ℂ), (Real.cos (θ / 2) : ℂ)]

/-- The phase of an angle. -/
def phase (x : ℝ) : ℂ := exp (x * I)

def rz (θ : ℝ) : M2 := !![phase (-(θ / 2)), 0; 0, phase (θ / 2)]

/-- The rotation by three Euler angles. -/
def zyz (θ φ lam : ℝ) : M2 := rz φ * ry θ * rz lam

/-- The same rotation with a real first entry. -/
def u3 (θ φ lam : ℝ) : M2 :=
  !![(Real.cos (θ / 2) : ℂ), -phase lam * Real.sin (θ / 2);
    phase φ * Real.sin (θ / 2), phase (φ + lam) * Real.cos (θ / 2)]

/-! ## Phases -/

@[simp] theorem norm_phase (x : ℝ) : ‖phase x‖ = 1 := norm_exp_ofReal_mul_I x

theorem phase_add (x y : ℝ) : phase (x + y) = phase x * phase y := by
  rw [phase, phase, phase, ← exp_add]
  push_cast
  ring_nf

@[simp] theorem phase_zero : phase 0 = 1 := by simp [phase]

@[simp] theorem phase_pi : phase Real.pi = -1 := by simp [phase]

@[simp] theorem phase_quarterTurn : phase quarterTurn = I := by
  simp [phase, quarterTurn, exp_pi_div_two_mul_I]

@[simp] theorem phase_neg_quarterTurn : phase (-quarterTurn) = -I := by
  have h := exp_neg_pi_div_two_mul_I
  rw [phase, quarterTurn]
  rw [← h]
  push_cast
  ring_nf

theorem phase_ne_zero (x : ℝ) : phase x ≠ 0 := exp_ne_zero _

/-- A phase is one at the whole turns only. -/
theorem phase_eq_one_iff (x : ℝ) :
    phase x = 1 ↔ WholeTurns x := by
  rw [phase, exp_eq_one_iff, WholeTurns]
  constructor
  · rintro ⟨m, hm⟩
    refine ⟨m, ?_⟩
    have := mul_right_cancel₀ I_ne_zero (hm.trans (by ring :
      (m : ℂ) * (2 * Real.pi * I) = (m * (2 * Real.pi)) * I))
    exact_mod_cast this
  · rintro ⟨m, rfl⟩
    exact ⟨m, by push_cast; ring⟩

/-! ## The rotation and its special cases -/

theorem zyz_upToPhase (θ φ lam : ℝ) :
    UpToPhase (zyz θ φ lam) (u3 θ φ lam) := by
  have hφ : phase φ = phase (φ / 2) * phase (φ / 2) := by
    rw [← phase_add, add_halves]
  have hlam : phase lam = phase (lam / 2) * phase (lam / 2) := by
    rw [← phase_add, add_halves]
  have hcancel : ∀ x, phase (-x) * phase x = 1 := by
    intro x
    rw [← phase_add, neg_add_cancel, phase_zero]
  -- the outer rotations are symmetric, `u3` is not: half of both angles is left over
  refine ⟨phase (-(φ / 2)) * phase (-(lam / 2)), by simp, ?_⟩
  have h1 := hcancel (φ / 2)
  have h2 := hcancel (lam / 2)
  ext i j
  fin_cases i <;> fin_cases j <;>
    simp [zyz, rz, ry, u3, Matrix.mul_apply, Fin.sum_univ_two, phase_add,
      hφ, hlam]
  · ring
  · linear_combination
      -(phase (-(φ / 2)) * sin (θ / 2) * phase (lam / 2)) * h2
  · linear_combination
      -(phase (φ / 2) * sin (θ / 2) * phase (-(lam / 2))) * h1
  · linear_combination -(phase (φ / 2) * cos (θ / 2) * phase (lam / 2))
      * (h1 * (phase (-(lam / 2)) * phase (lam / 2)) + h2)

theorem u3_hadamard : u3 quarterTurn 0 Real.pi = hadamard := by
  have h : quarterTurn / 2 = Real.pi / 4 := by
    rw [quarterTurn]
    ring
  rw [u3, hadamard, h, zero_add, phase_zero, phase_pi, Real.cos_pi_div_four,
    Real.sin_pi_div_four]
  ext i j
  fin_cases i <;> fin_cases j <;> simp

theorem u3_pauliX : u3 Real.pi 0 Real.pi = pauliX := by
  ext i j
  fin_cases i <;> fin_cases j <;> simp [u3, pauliX]

theorem u3_pauliZ : u3 0 0 Real.pi = pauliZ := by
  ext i j
  fin_cases i <;> fin_cases j <;> simp [u3, pauliZ]

theorem u3_rx (θ : ℝ) : u3 θ (-quarterTurn) quarterTurn = rx θ := by
  rw [u3, rx, neg_add_cancel, phase_zero, phase_neg_quarterTurn,
    phase_quarterTurn, one_mul]

theorem u3_ry (θ : ℝ) : u3 θ 0 0 = ry θ := by
  rw [u3, ry, zero_add, phase_zero, one_mul, one_mul, neg_one_mul]

theorem u3_one : u3 0 0 0 = 1 := by
  ext i j
  fin_cases i <;> fin_cases j <;> simp [u3]

theorem u3_upToPhase_rz (lam : ℝ) : UpToPhase (u3 0 0 lam) (rz lam) := by
  have hlam : phase lam = phase (lam / 2) * phase (lam / 2) := by
    rw [← phase_add, add_halves]
  have hcancel : phase (lam / 2) * phase (-(lam / 2)) = 1 := by
    rw [← phase_add, add_neg_cancel, phase_zero]
  refine ⟨phase (lam / 2), norm_phase _, ?_⟩
  ext i j
  fin_cases i <;> fin_cases j <;> simp [u3, rz, hlam, hcancel]

/-! ## Turning a controlled not around -/

private theorem half_sqrt_two_sq : ((√2 / 2 : ℝ) : ℂ) * ((√2 / 2 : ℝ) : ℂ) = 1 / 2 := by
  have h : (√2 / 2) * (√2 / 2) = (1 / 2 : ℝ) := by
    have h2 := Real.mul_self_sqrt (show (0 : ℝ) ≤ 2 by norm_num)
    linarith
  rw [← ofReal_mul, h]
  norm_num

theorem hadamard_mul_self : hadamard * hadamard = 1 := by
  rw [hadamard, Matrix.smul_mul, Matrix.mul_smul, smul_smul, half_sqrt_two_sq]
  ext i j
  fin_cases i <;> fin_cases j <;>
    simp <;> norm_num

/-- Between two Hadamards the projection on one is half of an exchange. -/
theorem hadamard_conj_one :
    hadamard * !![0, 0; 0, 1] * hadamard = (-1 / 2 : ℂ) • !![-1, 1; 1, -1] := by
  rw [hadamard, Matrix.smul_mul, Matrix.smul_mul, Matrix.mul_smul, smul_smul,
    half_sqrt_two_sq]
  ext i j
  fin_cases i <;> fin_cases j <;>
    simp <;> norm_num

theorem hadamard_conj_flip :
    hadamard * !![-1, 1; 1, -1] * hadamard = (-2 : ℂ) • !![0, 0; 0, 1] := by
  rw [hadamard, Matrix.smul_mul, Matrix.smul_mul, Matrix.mul_smul, smul_smul,
    half_sqrt_two_sq]
  ext i j
  fin_cases i <;> fin_cases j <;>
    simp
  norm_num

open Wires in
/-- **A controlled not between Hadamards on both wires is the one the other
way round.** -/
theorem hadamards_cnot {ι : Type} [DecidableEq ι] [Fintype ι] {a b : ι} (h : a ≠ b) :
    circuit [on a hadamard, on b hadamard, perm (cnotMap b a), on a hadamard, on b hadamard]
      = perm (cnotMap a b) := by
  have hpass := on_comm h
  -- each of the two matrices of the controlled part is between Hadamards
  have hpart : on b hadamard * on a hadamard * (on b !![0, 0; 0, 1] * on a !![-1, 1; 1, -1])
        * on b hadamard * on a hadamard
      = on b (hadamard * !![0, 0; 0, 1] * hadamard)
          * on a (hadamard * !![-1, 1; 1, -1] * hadamard) := by
    simp only [on_mul, Matrix.mul_assoc]
    rw [← Matrix.mul_assoc (on a hadamard) (on b _), hpass, ← Matrix.mul_assoc (on a _) (on b _),
      hpass]
    simp only [Matrix.mul_assoc]
    rw [← Matrix.mul_assoc (on a hadamard) (on b hadamard), hpass]
    simp only [Matrix.mul_assoc]
  have hid : on b hadamard * on a hadamard * on b hadamard * on a hadamard = 1 := by
    rw [Matrix.mul_assoc (on b _), hpass, ← Matrix.mul_assoc, ← on_mul, hadamard_mul_self,
      on_one, Matrix.one_mul, ← on_mul, hadamard_mul_self, on_one]
  rw [perm_cnotMap h, perm_cnotMap h.symm]
  simp only [circuit_cons, circuit_nil, Matrix.one_mul]
  rw [Matrix.mul_add, Matrix.mul_one, Matrix.add_mul, Matrix.add_mul, hid, hpart,
    hadamard_conj_one, hadamard_conj_flip, on_smul, on_smul, Matrix.smul_mul,
    Matrix.mul_smul, smul_smul, hpass]
  norm_num

/-- The rotation by `(π, π/2, π)` is no multiple of `Y`: its two entries are
a quarter turn apart, those of `Y` a half turn. -/
theorem not_u3_upToPhase_pauliY :
    ¬ UpToPhase (u3 Real.pi quarterTurn Real.pi) pauliY := by
  rintro ⟨c, -, h⟩
  have h01 : (1 : ℂ) = c * -I := by
    simpa [u3, pauliY] using congrFun (congrFun h 0) 1
  have h10 : I = c * I := by
    simpa [u3, pauliY] using congrFun (congrFun h 1) 0
  have hc : c = 1 := mul_right_cancel₀ I_ne_zero (by rw [← h10, one_mul])
  rw [hc, one_mul] at h01
  simpa using congrArg re h01

/-! ## The matrices can be undone -/

private theorem isUnit_of_det {A : M2} (h : A.det ≠ 0) : IsUnit A := by
  rw [Matrix.isUnit_iff_isUnit_det]
  exact isUnit_iff_ne_zero.mpr h

theorem isUnit_pauliY : IsUnit pauliY :=
  isUnit_of_det (by simp [pauliY, det_fin_two])

theorem isUnit_u3 (θ φ lam : ℝ) : IsUnit (u3 θ φ lam) := by
  have hcs : (Real.cos (θ / 2) : ℂ) ^ 2 + (Real.sin (θ / 2) : ℂ) ^ 2 = 1 := by
    exact_mod_cast Real.cos_sq_add_sin_sq (θ / 2)
  have hdet : (u3 θ φ lam).det = phase φ * phase lam := by
    rw [u3, det_fin_two_of, phase_add]
    linear_combination (phase φ * phase lam) * hcs
  refine isUnit_of_det ?_
  rw [hdet]
  exact mul_ne_zero (phase_ne_zero φ) (phase_ne_zero lam)

end

end XaccIbm.Rotations
