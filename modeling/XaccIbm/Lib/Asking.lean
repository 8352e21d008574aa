import XaccIbm.Lib.Decision
import XaccIbm.Lib.Exec

/-!
# Asking — loops that take answers until one decides

The state of a call has a list of answers in it, and `Queue` says where. `ask`
takes the next answer and reads it, which may raise an exception; `poll` asks
until a test of what it has read decides. A loop ends with the first decision
over the answers that are there, and leaves the answers behind it.
-/

namespace XaccIbm.Asking

/-- The answers still to come, as a part of a state. -/
structure Queue (σ ρ : Type) where
  pending : σ → List ρ
  leave : List ρ → σ → σ
  pending_leave : ∀ later s, pending (leave later s) = later
  leave_pending : ∀ s, leave (pending s) s = s
  leave_leave : ∀ later rest s, leave later (leave rest s) = leave later s

variable {σ ρ α β : Type} (q : Queue σ ρ) (read : ρ → Except String α)

/-- Take the next answer and read it. -/
def ask : Exec σ α := fun s =>
  match q.pending s with
  | [] => .error .waiting s
  | a :: later => Exec.reply (read a) (q.leave later s)

variable {q read}

theorem ask_nil {s : σ} (h : q.pending s = []) : ask q read s = .error .waiting s := by
  rw [ask, h]

theorem ask_cons {s : σ} {a : ρ} {later : List ρ} (h : q.pending s = a :: later) :
    ask q read s = Exec.reply (read a) (q.leave later s) := by
  rw [ask, h]

/-- A call that goes on from an answer takes one and reads it. -/
theorem ask_bind_ok {f : α → Exec σ β} {s s' : σ} {b : β} :
    (ask q read >>= f) s = .ok b s' ↔ ∃ a later x,
      q.pending s = a :: later ∧ read a = .ok x ∧ f x (q.leave later s) = .ok b s' := by
  rw [Exec.bind_ok]
  constructor
  · rintro ⟨x, s1, hask, hf⟩
    cases hs : q.pending s with
    | nil =>
        rw [ask_nil hs] at hask
        cases hask
    | cons a later =>
        rw [ask_cons hs] at hask
        cases hread : read a with
        | error msg =>
            rw [hread] at hask
            cases hask
        | ok y =>
            rw [hread] at hask
            cases hask
            exact ⟨a, later, x, rfl, hread, hf⟩
  · rintro ⟨a, later, x, hs, hread, hf⟩
    refine ⟨x, q.leave later s, ?_, hf⟩
    rw [ask_cons hs, hread]
    rfl

/-! ## A loop -/

variable (q read) (test : α → Option (Except Failure β))

/-- Ask until what is read decides. -/
def poll : Nat → Exec σ β
  | 0 => throw .waiting
  | fuel + 1 => do
      let x ← ask q read
      match test x with
      | none => poll fuel
      | some (.ok b) => pure b
      | some (.error e) => throw e

/-- What an answer decides: an exception of reading it, or what its test says. -/
def verdict (a : ρ) : Option (Except Failure β) :=
  match read a with
  | .error msg => some (.error (.error msg))
  | .ok x => test x

variable {q read test}

theorem verdict_of_ok {a : ρ} {x : α} (h : read a = .ok x) :
    verdict read test a = test x := by
  rw [verdict, h]

theorem verdict_eq_none {a : ρ} :
    verdict read test a = none ↔ ∃ x, read a = .ok x ∧ test x = none := by
  rw [verdict]
  cases read a <;> simp

theorem verdict_eq_ok {a : ρ} {b : β} :
    verdict read test a = some (.ok b) ↔ ∃ x, read a = .ok x ∧ test x = some (.ok b) := by
  rw [verdict]
  cases read a <;> simp

/-- **A loop ends with the first verdict**, when it has a round for every
answer and one more. -/
theorem poll_eq {fuel : Nat} {s : σ} (hfuel : (q.pending s).length < fuel) :
    poll q read test fuel s =
      match Decision.first (verdict read test) (q.pending s) with
      | none => .error .waiting (q.leave [] s)
      | some (.ok b, later) => .ok b (q.leave later s)
      | some (.error e, later) => .error e (q.leave later s) := by
  induction fuel generalizing s with
  | zero => omega
  | succ fuel ih =>
      cases hs : q.pending s with
      | nil =>
          rw [poll, Exec.bind_apply, ask_nil hs, ← hs, q.leave_pending]
          rw [hs]
          rfl
      | cons a later =>
          rw [poll, Exec.bind_apply, ask_cons hs]
          cases hread : read a with
          | error msg =>
              have hverdict : verdict read test a = some (.error (.error msg)) := by
                rw [verdict, hread]
              rw [Decision.first_cons_of_some hverdict]
              rfl
          | ok x =>
              have hverdict : verdict read test a = test x := verdict_of_ok hread
              cases htest : test x with
              | some decision =>
                  rw [htest] at hverdict
                  rw [Decision.first_cons_of_some hverdict]
                  simp only [Exec.reply_ok, htest]
                  cases decision <;> rfl
              | none =>
                  rw [htest] at hverdict
                  have hlater : (q.pending (q.leave later s)).length < fuel := by
                    rw [q.pending_leave]
                    rw [hs, List.length_cons] at hfuel
                    omega
                  rw [Decision.first_cons_of_none hverdict]
                  simp only [Exec.reply_ok, htest]
                  rw [ih hlater, q.pending_leave]
                  simp only [q.leave_leave]

/-- **When a loop returns**: the answers up to the one that decides were read,
and did not decide. -/
theorem poll_ok_iff {fuel : Nat} {s s' : σ} {b : β} (hfuel : (q.pending s).length < fuel) :
    poll q read test fuel s = .ok b s' ↔ ∃ earlier a later,
      q.pending s = earlier ++ a :: later ∧
      (∀ x ∈ earlier, ∃ y, read x = .ok y ∧ test y = none) ∧
      (∃ y, read a = .ok y ∧ test y = some (.ok b)) ∧ s' = q.leave later s := by
  rw [poll_eq hfuel]
  constructor
  · intro h
    cases hfirst : Decision.first (verdict read test) (q.pending s) with
    | none =>
        rw [hfirst] at h
        cases h
    | some decision =>
        obtain ⟨_ | _, later⟩ := decision
        · rw [hfirst] at h
          cases h
        · rw [hfirst] at h
          cases h
          obtain ⟨earlier, a, hsplit, hearlier, ha⟩ := Decision.first_eq_some_iff.mp hfirst
          exact ⟨earlier, a, later, hsplit, fun x hx => verdict_eq_none.mp (hearlier x hx),
            verdict_eq_ok.mp ha, rfl⟩
  · rintro ⟨earlier, a, later, hsplit, hearlier, ha, rfl⟩
    have hfirst : Decision.first (verdict read test) (q.pending s) = some (.ok b, later) :=
      Decision.first_eq_some_iff.mpr ⟨earlier, a, hsplit,
        fun x hx => verdict_eq_none.mpr (hearlier x hx), verdict_eq_ok.mpr ha⟩
    rw [hfirst]

end XaccIbm.Asking
