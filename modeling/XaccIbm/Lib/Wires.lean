import Mathlib.Analysis.Complex.Basic
import Mathlib.LinearAlgebra.Matrix.Kronecker
import Mathlib.LinearAlgebra.Matrix.NonsingularInverse

/-!
# Wires — operators on a register of two-level systems

A basis state of a register gives each wire a value in `Fin 2`; an operator
is a matrix indexed by basis states. Three kinds are enough for circuits: a
one-wire matrix applied `on` a wire, the `perm` of a map of basis states,
and diagonal matrices. A circuit is a list of operators, the first one
applied first, and two operators that differ by a phase are `UpToPhase`.
-/

namespace XaccIbm

open Matrix
open scoped Kronecker

namespace Wires

/-- An operator on the wires `ι`. -/
abbrev Op (ι : Type) := Matrix (ι → Fin 2) (ι → Fin 2) ℂ

variable {ι : Type}

/-! ## Maps of basis states -/

section Maps

variable [DecidableEq ι]

/-- Flip wire `t` where wire `c` is one. -/
def cnotMap (c t : ι) (s : ι → Fin 2) : ι → Fin 2 :=
  Function.update s t (s t + s c)

/-- Exchange two wires. -/
def swapMap (a b : ι) (s : ι → Fin 2) : ι → Fin 2 := s ∘ Equiv.swap a b

private theorem add_add_self (x y : Fin 2) : x + y + y = x := by
  revert x y
  decide

theorem cnotMap_involutive {c t : ι} (h : c ≠ t) :
    Function.Involutive (cnotMap c t) := by
  intro s
  funext j
  by_cases hj : j = t
  · subst hj
    simp [cnotMap, Function.update_of_ne h, add_add_self]
  · simp [cnotMap, Function.update_of_ne hj]

theorem swapMap_involutive (a b : ι) : Function.Involutive (swapMap a b) := by
  intro s
  funext j
  simp [swapMap]

/-- **Three controlled flips exchange two wires.** -/
theorem cnotMap_three {a b : ι} (h : a ≠ b) :
    cnotMap a b ∘ cnotMap b a ∘ cnotMap a b = swapMap a b := by
  have hsum : ∀ x y : Fin 2, y + x + (x + (y + x)) = x ∧ x + (y + x) = y := by
    decide
  funext s j
  obtain ⟨h1, h2⟩ := hsum (s a) (s b)
  by_cases ha : j = a
  · subst ha
    simp [cnotMap, swapMap, Function.update_of_ne h, h2]
  · by_cases hb : j = b
    · subst hb
      simp [cnotMap, swapMap, Function.update_of_ne ha, Function.update_of_ne h, h1]
    · simp [cnotMap, swapMap, Function.update_of_ne ha, Function.update_of_ne hb,
        Equiv.swap_apply_of_ne_of_ne ha hb]

end Maps

section Perm

variable [Fintype ι]

/-- The operator that sends each basis state `t` to `f t`. -/
def perm (f : (ι → Fin 2) → (ι → Fin 2)) : Op ι :=
  Matrix.of fun s t => if s = f t then 1 else 0

@[simp] theorem perm_id : perm (id : (ι → Fin 2) → (ι → Fin 2)) = 1 := by
  ext s t
  simp [perm, Matrix.one_apply]

end Perm

variable [DecidableEq ι] [Fintype ι]

theorem perm_mul (f g : (ι → Fin 2) → (ι → Fin 2)) :
    perm f * perm g = perm (f ∘ g) := by
  ext s t
  simp [perm, Matrix.mul_apply]

theorem isUnit_perm {f : (ι → Fin 2) → (ι → Fin 2)}
    (h : Function.Involutive f) : IsUnit (perm f) := by
  have hff : perm f * perm f = 1 := by
    rw [perm_mul, h.comp_self, perm_id]
  exact isUnit_iff_exists.mpr ⟨perm f, hff, hff⟩

/-! ## One-wire operators -/

/-- A one-wire matrix on wire `q`: the wires are split into `q` and the
rest, and nothing happens to the rest. -/
def on (q : ι) (A : Matrix (Fin 2) (Fin 2) ℂ) : Op ι :=
  (A ⊗ₖ (1 : Matrix ({j // j ≠ q} → Fin 2) ({j // j ≠ q} → Fin 2) ℂ)).submatrix
    (Equiv.funSplitAt q (Fin 2)) (Equiv.funSplitAt q (Fin 2))

/-- The entries of a one-wire operator. -/
theorem on_apply (q : ι) (A : Matrix (Fin 2) (Fin 2) ℂ) (s t : ι → Fin 2) :
    on q A s t = if ∀ j, j ≠ q → s j = t j then A (s q) (t q) else 0 := by
  rw [on, submatrix_apply, kroneckerMap_apply, one_apply]
  simp only [Equiv.funSplitAt_apply, funext_iff, Subtype.forall, mul_ite,
    mul_one, mul_zero]

@[simp] theorem on_one (q : ι) : on q (1 : Matrix (Fin 2) (Fin 2) ℂ) = 1 := by
  rw [on, one_kronecker_one, submatrix_one_equiv]

theorem on_mul (q : ι) (A B : Matrix (Fin 2) (Fin 2) ℂ) :
    on q (A * B) = on q A * on q B := by
  rw [on, on, on, submatrix_mul_equiv, ← mul_kronecker_mul, Matrix.one_mul]

theorem on_smul (q : ι) (c : ℂ) (A : Matrix (Fin 2) (Fin 2) ℂ) :
    on q (c • A) = c • on q A := by
  rw [on, smul_kronecker]
  rfl

/-- A wire's operator determines its matrix. -/
theorem on_injective (q : ι) : Function.Injective (on q) := by
  intro A B h
  ext i j
  have hs := congrFun (congrFun h (fun _ => i)) (Function.update (fun _ => i) q j)
  have hrest : ∀ k, k ≠ q → i = Function.update (fun _ => i) q j k := by
    intro k hk
    rw [Function.update_of_ne hk]
  rwa [on_apply, on_apply, if_pos hrest, if_pos hrest,
    Function.update_self] at hs

theorem isUnit_on {q : ι} {A : Matrix (Fin 2) (Fin 2) ℂ} (h : IsUnit A) :
    IsUnit (on q A) := by
  obtain ⟨B, hAB, hBA⟩ := isUnit_iff_exists.mp h
  refine isUnit_iff_exists.mpr ⟨on q B, ?_, ?_⟩
  · rw [← on_mul, hAB, on_one]
  · rw [← on_mul, hBA, on_one]

/-! ## Two wires -/

/-- The entries of one-wire operators on two wires. -/
theorem on_mul_on_apply {p q : ι} (h : p ≠ q) (A B : Matrix (Fin 2) (Fin 2) ℂ)
    (s t : ι → Fin 2) :
    (on p A * on q B) s t =
      if ∀ j, j ≠ p → j ≠ q → s j = t j then A (s p) (t p) * B (s q) (t q) else 0 := by
  -- the state in between has wire `p` after the first and all else as before
  rw [mul_apply, Finset.sum_eq_single (Function.update s p (t p))]
  · have hleft : ∀ j, j ≠ p → s j = Function.update s p (t p) j := by
      intro j hj
      rw [Function.update_of_ne hj]
    have hright : (∀ j, j ≠ q → Function.update s p (t p) j = t j) ↔
        ∀ j, j ≠ p → j ≠ q → s j = t j := by
      constructor
      · intro hall j hp hq
        rw [← hall j hq, Function.update_of_ne hp]
      · intro hall j hq
        by_cases hp : j = p
        · rw [hp, Function.update_self]
        · rw [Function.update_of_ne hp, hall j hp hq]
    rw [on_apply, on_apply, if_pos hleft, Function.update_self,
      Function.update_of_ne h.symm]
    simp only [hright, mul_ite, mul_zero]
  · intro u _ hu
    rw [on_apply, on_apply]
    by_cases hs : ∀ j, j ≠ p → s j = u j
    · rw [if_neg (c := ∀ j, j ≠ q → u j = t j), mul_zero]
      intro ht
      refine hu (funext fun j => ?_)
      by_cases hj : j = p
      · rw [hj, Function.update_self, ht p h]
      · rw [Function.update_of_ne hj, hs j hj]
    · rw [if_neg hs, zero_mul]
  · intro hmem
    exact absurd (Finset.mem_univ _) hmem

/-- Operators on different wires commute. -/
theorem on_comm {p q : ι} (h : p ≠ q) (A B : Matrix (Fin 2) (Fin 2) ℂ) :
    on p A * on q B = on q B * on p A := by
  ext s t
  rw [on_mul_on_apply h, on_mul_on_apply h.symm, mul_comm (A _ _)]
  congr 1
  exact propext ⟨fun hall j hq hp => hall j hp hq, fun hall j hp hq => hall j hq hp⟩

/-- The entries of a controlled flip, on its two wires. -/
private theorem flip_entry : ∀ x y a b : Fin 2,
    (if x = y ∧ a = b + y then (1 : ℂ) else 0) = (if x = y ∧ a = b then 1 else 0)
      + !![0, 0; 0, 1] x y * !![-1, 1; 1, -1] a b := by
  intro x y a b
  fin_cases x <;> fin_cases y <;> fin_cases a <;> fin_cases b <;> simp

/-- **A controlled flip** changes a state only where its control is one. -/
theorem perm_cnotMap {c t : ι} (h : c ≠ t) :
    perm (cnotMap c t) = 1 + on c !![0, 0; 0, 1] * on t !![-1, 1; 1, -1] := by
  ext s u
  have hflip : s = cnotMap c t u ↔
      (∀ j, j ≠ c → j ≠ t → s j = u j) ∧ s c = u c ∧ s t = u t + u c := by
    rw [funext_iff]
    constructor
    · intro hall
      refine ⟨fun j _ ht => ?_, ?_, ?_⟩
      · rw [hall j, cnotMap, Function.update_of_ne ht]
      · rw [hall c, cnotMap, Function.update_of_ne h]
      · rw [hall t, cnotMap, Function.update_self]
    · rintro ⟨hrest, hc, ht⟩ j
      by_cases hjt : j = t
      · rw [hjt, ht, cnotMap, Function.update_self]
      · rw [cnotMap, Function.update_of_ne hjt]
        by_cases hjc : j = c
        · rw [hjc, hc]
        · exact hrest j hjc hjt
  have hsame : s = u ↔
      (∀ j, j ≠ c → j ≠ t → s j = u j) ∧ s c = u c ∧ s t = u t := by
    constructor
    · rintro rfl
      exact ⟨fun _ _ _ => rfl, rfl, rfl⟩
    · rintro ⟨hrest, hc, ht⟩
      funext j
      by_cases hjt : j = t
      · rw [hjt, ht]
      · by_cases hjc : j = c
        · rw [hjc, hc]
        · exact hrest j hjc hjt
  rw [perm, Matrix.of_apply, Matrix.add_apply, on_mul_on_apply h, one_apply]
  -- off the two wires both sides ask for the same bits; on them it is a table
  by_cases hrest : ∀ j, j ≠ c → j ≠ t → s j = u j
  · rw [if_pos hrest]
    simp only [hflip, hsame, and_iff_right hrest]
    exact flip_entry _ _ _ _
  · rw [if_neg fun hf => hrest (hflip.mp hf).1, if_neg fun hf => hrest (hsame.mp hf).1,
      if_neg hrest, add_zero]

/-! ## Circuits -/

/-- The operator of a list of operators, the first one applied first. -/
def circuit : List (Op ι) → Op ι
  | [] => 1
  | A :: As => circuit As * A

@[simp] theorem circuit_nil : circuit ([] : List (Op ι)) = 1 := rfl

@[simp] theorem circuit_cons (A : Op ι) (As : List (Op ι)) :
    circuit (A :: As) = circuit As * A := rfl

theorem circuit_append (As Bs : List (Op ι)) :
    circuit (As ++ Bs) = circuit Bs * circuit As := by
  induction As with
  | nil => simp
  | cons A As ih => simp [ih, Matrix.mul_assoc]

theorem isUnit_circuit {As : List (Op ι)} (h : ∀ A ∈ As, IsUnit A) :
    IsUnit (circuit As) := by
  induction As with
  | nil => exact isUnit_one
  | cons A As ih =>
      exact (ih fun B hB => h B (List.mem_cons_of_mem _ hB)).mul (h A (by simp))

end Wires

/-! ## Equality up to a phase -/

/-- `A` is `B` times a number of modulus one. -/
def UpToPhase {κ : Type} (A B : Matrix κ κ ℂ) : Prop :=
  ∃ c : ℂ, ‖c‖ = 1 ∧ A = c • B

namespace UpToPhase

variable {κ : Type}

theorem refl (A : Matrix κ κ ℂ) : UpToPhase A A := ⟨1, norm_one, (one_smul _ A).symm⟩

theorem symm {A B : Matrix κ κ ℂ} (h : UpToPhase A B) : UpToPhase B A := by
  obtain ⟨c, hc, rfl⟩ := h
  have hne : c ≠ 0 := norm_ne_zero_iff.mp (by rw [hc]; exact one_ne_zero)
  refine ⟨c⁻¹, by rw [norm_inv, hc, inv_one], ?_⟩
  rw [smul_smul, inv_mul_cancel₀ hne, one_smul]

theorem trans {A B C : Matrix κ κ ℂ} (h : UpToPhase A B) (h' : UpToPhase B C) :
    UpToPhase A C := by
  obtain ⟨c, hc, rfl⟩ := h
  obtain ⟨d, hd, rfl⟩ := h'
  exact ⟨c * d, by rw [norm_mul, hc, hd, one_mul], smul_smul c d C⟩

variable [Fintype κ]

theorem mul {A B C D : Matrix κ κ ℂ} (h : UpToPhase A B) (h' : UpToPhase C D) :
    UpToPhase (A * C) (B * D) := by
  obtain ⟨c, hc, rfl⟩ := h
  obtain ⟨d, hd, rfl⟩ := h'
  refine ⟨c * d, by rw [norm_mul, hc, hd, one_mul], ?_⟩
  rw [Matrix.smul_mul, Matrix.mul_smul, smul_smul]

/-- What was applied first, and can be undone, does not matter. -/
theorem of_mul_right [DecidableEq κ] {A B C D : Matrix κ κ ℂ} (hD : IsUnit D)
    (h : UpToPhase (A * C) (B * D)) (h' : UpToPhase C D) : UpToPhase A B := by
  obtain ⟨E, hDE, _⟩ := isUnit_iff_exists.mp hD
  have hAD : UpToPhase (A * D) (B * D) := ((refl A).mul h'.symm).trans h
  have hE := hAD.mul (refl E)
  rwa [Matrix.mul_assoc, Matrix.mul_assoc, hDE, Matrix.mul_one,
    Matrix.mul_one] at hE

/-- A phase can be undone. -/
theorem isUnit [DecidableEq κ] {A B : Matrix κ κ ℂ} (h : UpToPhase A B)
    (hB : IsUnit B) : IsUnit A := by
  obtain ⟨c, hc, rfl⟩ := h
  have hne : c ≠ 0 := norm_ne_zero_iff.mp (by rw [hc]; exact one_ne_zero)
  obtain ⟨E, hBE, hEB⟩ := isUnit_iff_exists.mp hB
  refine isUnit_iff_exists.mpr ⟨c⁻¹ • E, ?_, ?_⟩
  · rw [Matrix.smul_mul, Matrix.mul_smul, hBE, smul_smul, mul_inv_cancel₀ hne,
      one_smul]
  · rw [Matrix.smul_mul, Matrix.mul_smul, hEB, smul_smul, inv_mul_cancel₀ hne,
      one_smul]

end UpToPhase

theorem Wires.on_upToPhase {ι : Type} [DecidableEq ι] [Fintype ι] (q : ι)
    {A B : Matrix (Fin 2) (Fin 2) ℂ} :
    UpToPhase (Wires.on q A) (Wires.on q B) ↔ UpToPhase A B := by
  constructor
  · rintro ⟨c, hc, h⟩
    rw [← Wires.on_smul] at h
    exact ⟨c, hc, Wires.on_injective q h⟩
  · rintro ⟨c, hc, rfl⟩
    exact ⟨c, hc, Wires.on_smul q c B⟩

end XaccIbm
