import Mathlib.Logic.Function.Basic
import XaccIbm.Lib.Ledger

/-!
# Journal — owners who use one object, each with a record

Several owners use one object, in any order. Each has a record, which is handed
over for a use and comes back with what the use has written to it. A record
holds what was in it and then what the uses of its owner appended, each at the
state that the object was in when it came: the uses of the others show in the
object alone.
-/

namespace XaccIbm.Journal

variable {ι κ σ ρ τ ε α β : Type} [DecidableEq ι]

/-- An object, and the records of its owners. -/
structure Shared (ι σ ρ : Type) where
  object : σ
  record : ι → ρ

variable (step : κ → σ → ρ → σ × ρ)

/-- One use, by one owner. -/
def use (u : ι × κ) (x : Shared ι σ ρ) : Shared ι σ ρ where
  object := (step u.2 x.object (x.record u.1)).1
  record := Function.update x.record u.1 (step u.2 x.object (x.record u.1)).2

/-- The object and the records after uses one after the other. -/
def after (x : Shared ι σ ρ) (uses : List (ι × κ)) : Shared ι σ ρ :=
  Ledger.stateAfter (use step) x uses

/-- What a function says of the uses of an owner, each at the state it comes
in. -/
def along (f : κ → σ → ρ → α) (i : ι) : Shared ι σ ρ → List (ι × κ) → List α
  | _, [] => []
  | x, u :: rest =>
      if u.1 = i then f u.2 x.object (x.record u.1) :: along f i (use step u x) rest
      else along f i (use step u x) rest

theorem after_cons (x : Shared ι σ ρ) (u : ι × κ) (rest : List (ι × κ)) :
    after step x (u :: rest) = after step (use step u x) rest := rfl

theorem use_record_self (u : ι × κ) (x : Shared ι σ ρ) :
    (use step u x).record u.1 = (step u.2 x.object (x.record u.1)).2 :=
  Function.update_self ..

theorem use_record_ne {u : ι × κ} {i : ι} (h : u.1 ≠ i) (x : Shared ι σ ρ) :
    (use step u x).record i = x.record i :=
  Function.update_of_ne (Ne.symm h) ..

theorem map_along (f : κ → σ → ρ → α) (g : α → β) (i : ι) (x : Shared ι σ ρ)
    (uses : List (ι × κ)) :
    (along step f i x uses).map g = along step (fun k s r => g (f k s r)) i x uses := by
  induction uses generalizing x with
  | nil => rfl
  | cons u rest ih =>
      rw [along, along]
      by_cases h : u.1 = i
      · rw [if_pos h, if_pos h, List.map_cons, ih]
      · rw [if_neg h, if_neg h, ih]

/-- A part of the records that no use writes. -/
theorem part_after (part : ρ → τ) (h : ∀ k s r, part (step k s r).2 = part r)
    (x : Shared ι σ ρ) (uses : List (ι × κ)) (i : ι) :
    part ((after step x uses).record i) = part (x.record i) := by
  induction uses generalizing x with
  | nil => rfl
  | cons u rest ih =>
      rw [after_cons, ih]
      by_cases hi : u.1 = i
      · rw [← hi, use_record_self, h]
      · rw [use_record_ne step hi]

/-- **Each record has the entries of its own uses**, in order and each once. -/
theorem entries_after {entries : ρ → List ε} {appends : κ → σ → ρ → List ε}
    (h : ∀ k s r, entries (step k s r).2 = entries r ++ appends k s r)
    (x : Shared ι σ ρ) (uses : List (ι × κ)) (i : ι) :
    entries ((after step x uses).record i)
      = entries (x.record i) ++ (along step appends i x uses).flatten := by
  induction uses generalizing x with
  | nil => exact (List.append_nil _).symm
  | cons u rest ih =>
      rw [after_cons, ih, along]
      by_cases hi : u.1 = i
      · rw [if_pos hi, List.flatten_cons, ← List.append_assoc, ← hi, use_record_self, h]
      · rw [if_neg hi, use_record_ne step hi]

end XaccIbm.Journal
