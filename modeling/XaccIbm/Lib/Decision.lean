import Mathlib.Data.List.Basic

/-!
# Decision — asking until an answer decides

Answers come one after the other, and a test says what an answer decides, if
it decides anything. Asking ends with the first answer that does. Two tests
end alike on a list of answers exactly when they agree up to the first answer
that one of them decides: an earlier end leaves more answers unasked for.
-/

namespace XaccIbm.Decision

variable {α β : Type} {test : α → Option β}

/-- The first decision, and the answers that were not asked for. -/
def first (test : α → Option β) : List α → Option (β × List α)
  | [] => none
  | a :: later =>
      match test a with
      | some b => some (b, later)
      | none => first test later

theorem first_cons_of_some {a : α} {b : β} (h : test a = some b) (later : List α) :
    first test (a :: later) = some (b, later) := by
  rw [first, h]

theorem first_cons_of_none {a : α} (h : test a = none) (later : List α) :
    first test (a :: later) = first test later := by
  rw [first, h]

theorem first_eq_none_iff {answers : List α} :
    first test answers = none ↔ ∀ a ∈ answers, test a = none := by
  induction answers with
  | nil => simp [first]
  | cons a later ih =>
      cases h : test a with
      | some b => simp [first_cons_of_some h, h]
      | none => simp [first_cons_of_none h, h, ih]

theorem first_append_of_none {earlier : List α} (h : ∀ a ∈ earlier, test a = none)
    (later : List α) : first test (earlier ++ later) = first test later := by
  induction earlier with
  | nil => rfl
  | cons a earlier ih =>
      rw [List.cons_append, first_cons_of_none (h a (by simp))]
      exact ih fun x hx => h x (List.mem_cons_of_mem _ hx)

/-- The first decision is of the first answer that is decided. -/
theorem first_eq_some_iff {answers later : List α} {b : β} :
    first test answers = some (b, later) ↔ ∃ earlier a,
      answers = earlier ++ a :: later ∧ (∀ x ∈ earlier, test x = none) ∧ test a = some b := by
  constructor
  · intro h
    induction answers with
    | nil => cases h
    | cons a rest ih =>
        cases ha : test a with
        | some b' =>
            rw [first_cons_of_some ha] at h
            cases h
            exact ⟨[], a, rfl, by simp, ha⟩
        | none =>
            rw [first_cons_of_none ha] at h
            obtain ⟨earlier, a', rfl, hearlier, ha'⟩ := ih h
            refine ⟨a :: earlier, a', rfl, fun x hx => ?_, ha'⟩
            rcases List.mem_cons.mp hx with rfl | hx
            · exact ha
            · exact hearlier x hx
  · rintro ⟨earlier, a, rfl, hearlier, ha⟩
    rw [first_append_of_none hearlier, first_cons_of_some ha]

/-- Some answer is asked for. -/
theorem length_of_first {answers later : List α} {b : β}
    (h : first test answers = some (b, later)) : later.length < answers.length := by
  obtain ⟨earlier, a, rfl, _, _⟩ := first_eq_some_iff.mp h
  simp
  omega

/-- Tests with the same end decide the same of the first answer. -/
theorem test_eq_of_first_eq {f g : α → Option β} {a : α} {later : List α}
    (h : first f (a :: later) = first g (a :: later)) : f a = g a := by
  cases hf : f a with
  | some b =>
      cases hg : g a with
      | some b' =>
          rw [first_cons_of_some hf, first_cons_of_some hg] at h
          cases h
          rfl
      | none =>
          rw [first_cons_of_some hf, first_cons_of_none hg] at h
          exact absurd (length_of_first h.symm) (Nat.lt_irrefl _)
  | none =>
      cases hg : g a with
      | some b =>
          rw [first_cons_of_none hf, first_cons_of_some hg] at h
          exact absurd (length_of_first h) (Nat.lt_irrefl _)
      | none => rfl

/-- **When two tests end alike.** -/
theorem first_eq_iff {f g : α → Option β} {answers : List α} :
    first f answers = first g answers ↔
      ∀ earlier a later, answers = earlier ++ a :: later →
        (∀ x ∈ earlier, g x = none) → f a = g a := by
  constructor
  · rintro h earlier a later rfl hearlier
    induction earlier with
    | nil => exact test_eq_of_first_eq h
    | cons x earlier ih =>
        have hg : g x = none := hearlier x (by simp)
        have hf : f x = none := by
          rw [← hg]
          exact test_eq_of_first_eq h
        rw [List.cons_append, first_cons_of_none hf, first_cons_of_none hg] at h
        exact ih h fun y hy => hearlier y (List.mem_cons_of_mem _ hy)
  · intro h
    induction answers with
    | nil => rfl
    | cons a later ih =>
        have ha : f a = g a := h [] a later rfl (by simp)
        cases hg : g a with
        | some b =>
            rw [first_cons_of_some hg, first_cons_of_some (ha.trans hg)]
        | none =>
            rw [first_cons_of_none hg, first_cons_of_none (ha.trans hg)]
            apply ih
            intro earlier x rest hsplit hearlier
            apply h (a :: earlier) x rest (by rw [hsplit, List.cons_append])
            intro y hy
            rcases List.mem_cons.mp hy with rfl | hy
            · exact hg
            · exact hearlier y hy

end XaccIbm.Decision
