import Mathlib.Data.List.Sort

/-!
# LastValue — reading the last write

A list of keys and a list of values describe a sequence of writes; what is
read back for a key is the value of its last write. Sorting the keys while
the values stay in place gives every key the value of its own last write
only if the keys were sorted before.
-/

namespace XaccIbm

/-- The last occurrence of `q` is at `k`. -/
def LastAt {κ : Type} (q : κ) (k : Nat) (qs : List κ) : Prop :=
  qs[k]? = some q ∧ ∀ j, k < j → qs[j]? ≠ some q

section LastValue

variable {κ α : Type} [DecidableEq κ]

/-- The value that goes with the last occurrence of a key. -/
def lastValue (q : κ) : List κ → List α → Option α
  | p :: ps, c :: cs => (lastValue q ps cs).or (if p = q then some c else none)
  | _, _ => none

theorem lastValue_eq_none {q : κ} {qs : List κ} (h : q ∉ qs) (cs : List α) :
    lastValue q qs cs = none := by
  induction qs generalizing cs with
  | nil => rfl
  | cons p qs ih =>
      cases cs with
      | nil => rfl
      | cons c cs =>
          rw [List.mem_cons, not_or] at h
          rw [lastValue, ih h.2, if_neg (Ne.symm h.1)]
          rfl

/-- What is read is what was written last. -/
theorem lastValue_of_lastAt {q : κ} {k : Nat} {qs : List κ}
    (h : LastAt q k qs) (cs : List α) (hlen : qs.length ≤ cs.length) :
    lastValue q qs cs = cs[k]? := by
  induction qs generalizing k cs with
  | nil => simp [LastAt] at h
  | cons p qs ih =>
      cases cs with
      | nil => simp at hlen
      | cons c cs =>
          rw [lastValue]
          cases k with
          | zero =>
              obtain ⟨hk, hlast⟩ := h
              have hnot : q ∉ qs := by
                intro hmem
                obtain ⟨j, hj⟩ := List.mem_iff_getElem?.mp hmem
                exact hlast (j + 1) (by omega) (by simpa using hj)
              rw [lastValue_eq_none hnot]
              simp at hk
              simp [hk]
          | succ k =>
              have htail : LastAt q k qs :=
                ⟨by simpa using h.1, fun j hj => by
                  simpa using h.2 (j + 1) (by omega)⟩
              rw [ih htail cs (by simpa using hlen)]
              have hk : k < cs.length := by
                have := (List.getElem?_eq_some_iff.mp htail.1).1
                have hl : qs.length ≤ cs.length := by simpa using hlen
                omega
              simp [List.getElem?_eq_getElem hk]

theorem exists_lastAt {q : κ} {qs : List κ} (h : q ∈ qs) :
    ∃ k, LastAt q k qs := by
  induction qs with
  | nil => cases h
  | cons p qs ih =>
      by_cases hq : q ∈ qs
      · obtain ⟨k, hk, hlast⟩ := ih hq
        refine ⟨k + 1, by simpa using hk, fun j hj => ?_⟩
        obtain ⟨i, rfl⟩ : ∃ i, j = i + 1 := ⟨j - 1, by omega⟩
        simpa using hlast i (by omega)
      · have hp : q = p := by simpa [hq] using h
        refine ⟨0, by simp [hp], fun j hj hget => hq ?_⟩
        obtain ⟨i, rfl⟩ : ∃ i, j = i + 1 := ⟨j - 1, by omega⟩
        exact List.mem_of_getElem? (by simpa using hget)

/-- Keys written once each, in the order of their values. -/
theorem lastValue_of_nodup {q : κ} {k : Nat} {qs : List κ} (hn : qs.Nodup)
    (h : qs[k]? = some q) (cs : List α) (hlen : qs.length ≤ cs.length) :
    lastValue q qs cs = cs[k]? := by
  refine lastValue_of_lastAt ⟨h, fun j hj hget => ?_⟩ cs hlen
  have hkl := (List.getElem?_eq_some_iff.mp h).1
  have := (List.getElem?_inj hkl hn).mp (h.trans hget.symm)
  omega

/-- Keys behind the last value are not read. -/
theorem lastValue_take (q : κ) (qs : List κ) (cs : List α) :
    lastValue q (qs.take cs.length) cs = lastValue q qs cs := by
  induction qs generalizing cs with
  | nil => simp
  | cons p qs ih =>
      cases cs with
      | nil => rfl
      | cons c cs => rw [List.length_cons, List.take_succ_cons, lastValue, lastValue, ih]

end LastValue

/-- Two lists have every key at the same last place. -/
def SameLasts {κ : Type} (qs ss : List κ) : Prop := ∀ q k, LastAt q k qs ↔ LastAt q k ss

theorem SameLasts.mem_iff {κ : Type} {qs ss : List κ} [DecidableEq κ] (h : SameLasts qs ss)
    {q : κ} : q ∈ qs ↔ q ∈ ss := by
  constructor
  · intro hq
    obtain ⟨k, hk⟩ := exists_lastAt hq
    exact List.mem_of_getElem? ((h q k).mp hk).1
  · intro hq
    obtain ⟨k, hk⟩ := exists_lastAt hq
    exact List.mem_of_getElem? ((h q k).mpr hk).1

/-- **Keys with the same last places read the same values.** -/
theorem SameLasts.lastValue_eq {κ α : Type} [DecidableEq κ] {qs ss : List κ}
    (h : SameLasts qs ss) {cs : List α} (hqs : qs.length ≤ cs.length)
    (hss : ss.length ≤ cs.length) (q : κ) : lastValue q ss cs = lastValue q qs cs := by
  by_cases hq : q ∈ qs
  · obtain ⟨k, hk⟩ := exists_lastAt hq
    rw [lastValue_of_lastAt hk cs hqs, lastValue_of_lastAt ((h q k).mp hk) cs hss]
  · rw [lastValue_eq_none hq, lastValue_eq_none fun hss => hq (h.mem_iff.mpr hss)]

/-! ## Sorted keys -/

variable {κ : Type} [LinearOrder κ]

/-- In a sorted list the last occurrence of a key counts the keys up to it. -/
theorem countP_of_lastAt {q : κ} {k : Nat} {qs : List κ}
    (hs : qs.Pairwise (· ≤ ·)) (h : LastAt q k qs) :
    qs.countP (· ≤ q) = k + 1 := by
  obtain ⟨hk, hlast⟩ := h
  obtain ⟨hlt, hget⟩ := List.getElem?_eq_some_iff.mp hk
  have hpre : (qs.take (k + 1)).countP (· ≤ q) = k + 1 := by
    rw [List.countP_eq_length.mpr, List.length_take]
    · omega
    · intro a ha
      obtain ⟨j, hj, rfl⟩ := List.mem_take_iff_getElem.mp ha
      have hle : qs[j] ≤ qs[k] := by
        rcases Nat.lt_or_ge j k with h | h
        · exact List.pairwise_iff_getElem.mp hs j k (by omega) hlt h
        · have : j = k := by omega
          simp [this]
      simpa [hget] using hle
  have hpost : (qs.drop (k + 1)).countP (· ≤ q) = 0 := by
    rw [List.countP_eq_zero]
    intro a ha
    obtain ⟨j, hj, rfl⟩ := List.mem_drop_iff_getElem.mp ha
    have hle : qs[k] ≤ qs[k + 1 + j] :=
      List.pairwise_iff_getElem.mp hs k (k + 1 + j) hlt (by omega) (by omega)
    have hne : qs[k + 1 + j] ≠ q := fun heq =>
      hlast (k + 1 + j) (by omega) (by rw [List.getElem?_eq_getElem (by omega), heq])
    rw [hget] at hle
    simp only [decide_eq_true_eq]
    exact fun hle' => hne (le_antisymm hle' hle)
  rw [← List.take_append_drop (k + 1) qs, List.countP_append, hpre, hpost]

/-- Keys that are as many as the places they stand at fill a prefix. -/
theorem le_of_countP_prefix {q : κ} {n : Nat} {qs : List κ}
    (hcount : qs.countP (· ≤ q) = n)
    (hpos : ∀ l, (hl : l < qs.length) → qs[l] ≤ q → l < n) {i : Nat}
    (hi : i < qs.length) (hin : i < n) : qs[i] ≤ q := by
  have hdrop : (qs.drop n).countP (· ≤ q) = 0 := by
    rw [List.countP_eq_zero]
    intro a ha
    obtain ⟨l, hl, rfl⟩ := List.mem_drop_iff_getElem.mp ha
    simp only [decide_eq_true_eq]
    intro hle
    have := hpos (n + l) (by omega) hle
    omega
  have htake : (qs.take n).countP (· ≤ q) = n := by
    have hsplit : (qs.take n ++ qs.drop n).countP (· ≤ q) = n := by
      rw [List.take_append_drop]
      exact hcount
    rwa [List.countP_append, hdrop, Nat.add_zero] at hsplit
  have hlen : (qs.take n).countP (· ≤ q) = (qs.take n).length := by
    have h1 : (qs.take n).countP (· ≤ q) ≤ (qs.take n).length :=
      List.countP_le_length
    have h2 := List.length_take_le n qs
    omega
  have hmem : qs[i] ∈ qs.take n :=
    List.mem_take_iff_getElem.mpr ⟨i, by omega, rfl⟩
  simpa using List.countP_eq_length.mp hlen _ hmem

/-- **Keys whose last occurrences do not move when they are sorted were
sorted.** -/
theorem pairwise_of_lastAt {qs ss : List κ} (hperm : ss.Perm qs)
    (hss : ss.Pairwise (· ≤ ·))
    (h : ∀ q ∈ qs, ∃ k, LastAt q k qs ∧ LastAt q k ss) :
    qs.Pairwise (· ≤ ·) := by
  have hcount : ∀ q k, LastAt q k ss → qs.countP (· ≤ q) = k + 1 := by
    intro q k hk
    have := countP_of_lastAt hss hk
    rwa [hperm.countP_eq] at this
  rw [List.pairwise_iff_getElem]
  intro i j hi hj hij
  obtain ⟨K, hK, hK'⟩ := h qs[j] (List.getElem_mem hj)
  -- The keys up to `qs[j]` stand at positions up to `K`, so they fill the
  -- prefix that `qs[i]` is in.
  have hpos : ∀ l, (hl : l < qs.length) → qs[l] ≤ qs[j] → l < K + 1 := by
    intro l hl hle
    obtain ⟨k, hk, hk'⟩ := h qs[l] (List.getElem_mem hl)
    have hmono : qs.countP (· ≤ qs[l]) ≤ qs.countP (· ≤ qs[j]) :=
      List.countP_mono_left fun a _ ha => by
        simp only [decide_eq_true_eq] at ha ⊢
        exact le_trans ha hle
    rw [hcount _ k hk', hcount _ K hK'] at hmono
    have hlk : l ≤ k := by
      by_contra hgt
      exact hk.2 l (by omega) (List.getElem?_eq_getElem hl)
    omega
  have hjK := hpos j hj le_rfl
  exact le_of_countP_prefix (hcount _ K hK') hpos hi (by omega)

/-- So the last places are those of the sorted keys exactly when the keys were
sorted. -/
theorem sameLasts_iff_pairwise {qs ss : List κ} (hperm : ss.Perm qs)
    (hss : ss.Pairwise (· ≤ ·)) : SameLasts qs ss ↔ qs.Pairwise (· ≤ ·) := by
  constructor
  · intro h
    refine pairwise_of_lastAt hperm hss fun q hq => ?_
    obtain ⟨k, hk⟩ := exists_lastAt hq
    exact ⟨k, hk, (h q k).mp hk⟩
  · intro hqs q k
    rw [hperm.eq_of_pairwise' hss hqs]

/-- In a sorted list the first `k` entries are below a bound if and only if at
least `k` of the entries are. -/
theorem forall_lt_of_sorted_iff {κ : Type} [LinearOrder κ] {qs : List κ}
    (hs : qs.Pairwise (· ≤ ·)) (n : κ) (k : Nat) :
    (∀ i < k, ∃ q, qs[i]? = some q ∧ q < n) ↔ k ≤ qs.countP (· < n) := by
  induction qs generalizing k with
  | nil =>
      cases k with
      | zero => simp
      | succ k => exact iff_of_false (fun h => by simpa using h 0 (by omega)) (by simp)
  | cons p qs ih =>
      obtain ⟨hp, hs⟩ := List.pairwise_cons.mp hs
      cases k with
      | zero => simp
      | succ k =>
          by_cases hpn : p < n
          · rw [List.countP_cons_of_pos (by simpa using hpn), Nat.add_le_add_iff_right, ← ih hs]
            refine ⟨fun h i hi => h (i + 1) (by omega), fun h i hi => ?_⟩
            cases i with
            | zero => exact ⟨p, rfl, hpn⟩
            | succ i => exact h i (by omega)
          · -- the smallest entry is not below the bound, and so none is
            have hzero : (p :: qs).countP (· < n) = 0 := by
              refine List.countP_eq_zero.mpr fun q hq => ?_
              rcases List.mem_cons.mp hq with rfl | hq
              · simpa using hpn
              · simpa using (not_lt.mp hpn).trans (hp q hq)
            rw [hzero]
            refine iff_of_false (fun h => ?_) (by omega)
            obtain ⟨q, hq, hqn⟩ := h 0 (by omega)
            cases hq
            exact hpn hqn

end XaccIbm
