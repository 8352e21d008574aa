import Mathlib.Algebra.BigOperators.Group.Finset.Piecewise
import Mathlib.Algebra.Order.Ring.Int

/-!
# Tally — what a list of amounts adds up to

Entries of a key and an amount, as they are listed. The mass of a set of keys
is the sum of the amounts listed under them: renaming the keys takes the mass
of a set to the mass of its preimage, so entries whose keys are merged add up.
-/

namespace XaccIbm.Tally

variable {κ κ' ν : Type} [AddCommMonoid ν]

/-- The sum of the amounts under the keys with `p`. -/
def mass (p : κ → Prop) [DecidablePred p] (entries : List (κ × ν)) : ν :=
  (entries.map fun e => if p e.1 then e.2 else 0).sum

/-- The sum of all amounts. -/
def total (entries : List (κ × ν)) : ν := mass (fun _ => True) entries

section

variable (p : κ → Prop) [DecidablePred p]

@[simp] theorem mass_nil : mass p ([] : List (κ × ν)) = 0 := rfl

@[simp] theorem mass_cons (e : κ × ν) (entries : List (κ × ν)) :
    mass p (e :: entries) = (if p e.1 then e.2 else 0) + mass p entries := by
  simp [mass]

theorem mass_append (xs ys : List (κ × ν)) :
    mass p (xs ++ ys) = mass p xs + mass p ys := by
  simp [mass]

theorem mass_flatten (tables : List (List (κ × ν))) :
    mass p tables.flatten = (tables.map (mass p)).sum := by
  induction tables with
  | nil => rfl
  | cons entries tables ih =>
      rw [List.flatten_cons, mass_append, ih, List.map_cons, List.sum_cons]

/-- Renamed keys have the mass of what is renamed to them. -/
theorem mass_map (f : κ' → κ) (entries : List (κ' × ν)) :
    mass p (entries.map fun e => (f e.1, e.2)) = mass (fun k => p (f k)) entries := by
  simp only [mass, List.map_map]
  rfl

/-- The mass depends on the listed keys only. -/
theorem mass_congr {q : κ → Prop} [DecidablePred q] {entries : List (κ × ν)}
    (h : ∀ e ∈ entries, (p e.1 ↔ q e.1)) : mass p entries = mass q entries := by
  refine congrArg List.sum (List.map_congr_left fun e he => ?_)
  exact if_congr (h e he) rfl rfl

theorem mass_eq_zero {entries : List (κ × ν)} (h : ∀ e ∈ entries, ¬ p e.1) :
    mass p entries = 0 := by
  induction entries with
  | nil => rfl
  | cons e entries ih =>
      rw [mass_cons, if_neg (h e (by simp)), ih fun e he => h e (by simp [he]), add_zero]

/-- The mass of a set of keys is that of its keys, taken one by one. -/
theorem mass_eq_sum [DecidableEq κ] (keys : Finset κ) {entries : List (κ × ν)}
    (h : ∀ e ∈ entries, e.1 ∈ keys) :
    mass p entries = ∑ k ∈ keys, if p k then mass (· = k) entries else 0 := by
  induction entries with
  | nil => simp
  | cons e entries ih =>
      rw [mass_cons, ih fun x hx => h x (List.mem_cons_of_mem _ hx)]
      have hone : (∑ k ∈ keys, if k = e.1 then (if p k then e.2 else 0) else 0)
          = if p e.1 then e.2 else 0 := by
        rw [Finset.sum_ite_eq', if_pos (h e (by simp))]
      rw [← hone, ← Finset.sum_add_distrib]
      apply Finset.sum_congr rfl
      intro k _
      by_cases hk : p k
      · simp only [hk, if_true, mass_cons, eq_comm]
      · simp [hk]

/-- Lists with the same amount under every key have the same masses. -/
theorem mass_eq_of_count_eq [DecidableEq κ] {xs ys : List (κ × ν)}
    (h : ∀ k, mass (· = k) xs = mass (· = k) ys) : mass p xs = mass p ys := by
  have hmem : ∀ zs : List (κ × ν), ∀ e ∈ zs, e.1 ∈ (zs.map Prod.fst).toFinset := by
    intro zs e he
    exact List.mem_toFinset.mpr (List.mem_map_of_mem he)
  have hxs := mass_eq_sum p ((xs.map Prod.fst).toFinset ∪ (ys.map Prod.fst).toFinset)
    fun e he => Finset.mem_union_left _ (hmem xs e he)
  have hys := mass_eq_sum p ((xs.map Prod.fst).toFinset ∪ (ys.map Prod.fst).toFinset)
    fun e he => Finset.mem_union_right _ (hmem ys e he)
  rw [hxs, hys]
  simp only [h]

theorem mass_replicate_one (k : κ) (n : Nat) :
    mass p (List.replicate n (k, (1 : Int))) = if p k then (n : Int) else 0 := by
  induction n with
  | zero => simp
  | succ n ih =>
      rw [List.replicate_succ, mass_cons, ih]
      by_cases h : p k
      · simp only [if_pos h]
        omega
      · simp only [if_neg h, add_zero]

theorem mass_nonneg {entries : List (κ × Int)} (h : ∀ e ∈ entries, 0 ≤ e.2) :
    0 ≤ mass p entries := by
  induction entries with
  | nil => exact le_refl _
  | cons e entries ih =>
      rw [mass_cons]
      have hhead : 0 ≤ e.2 := h e (by simp)
      have htail := ih fun x hx => h x (List.mem_cons_of_mem _ hx)
      split <;> omega

/-- Every key once, with the amount that is listed under it. -/
def collect [DecidableEq κ] (entries : List (κ × ν)) : List (κ × ν) :=
  (entries.map Prod.fst).dedup.map fun k => (k, mass (· = k) entries)

theorem count_collect [DecidableEq κ] (entries : List (κ × ν)) (k : κ) :
    mass (· = k) (collect entries) = mass (· = k) entries := by
  have hsum : mass (· = k) (collect entries)
      = ∑ j ∈ (entries.map Prod.fst).dedup.toFinset,
          if j = k then mass (· = j) entries else 0 := by
    rw [List.sum_toFinset _ (List.nodup_dedup _), mass, collect, List.map_map]
    rfl
  rw [hsum, Finset.sum_ite_eq']
  by_cases hk : k ∈ (entries.map Prod.fst).dedup.toFinset
  · rw [if_pos hk]
  · rw [if_neg hk, mass_eq_zero]
    intro e he heq
    apply hk
    rw [List.mem_toFinset, List.mem_dedup, ← heq]
    exact List.mem_map_of_mem he

/-- An amount that is not negative may be listed one at a time. -/
theorem mass_ones {entries : List (κ × Int)} (h : ∀ e ∈ entries, 0 ≤ e.2) :
    mass p (entries.flatMap fun e => List.replicate e.2.toNat (e.1, 1))
      = mass p entries := by
  induction entries with
  | nil => rfl
  | cons e entries ih =>
      rw [List.flatMap_cons, mass_append, mass_replicate_one, mass_cons,
        ih fun e he => h e (by simp [he]), Int.toNat_of_nonneg (h e (by simp))]

end

end XaccIbm.Tally
