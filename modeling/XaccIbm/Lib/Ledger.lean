import Mathlib.Data.List.Induction

/-!
# Ledger — slots that calls append to

A call works through a list of items: item `k` appends to slot `k`, and the
first item that is rejected ends the call. A call that succeeds clears every
slot at its end, and a call that fails clears none, so what failed calls
appended is still there when a later call reads. `leftover` is what is
there at a call boundary, and `Clean` says of a slot that nothing is.
-/

namespace XaccIbm.Ledger

section

variable {K α : Type} (accepted : K → Bool) (writes : K → List α)

/-- What a list of items appends to each slot: every item up to the first
rejected one, which still writes. -/
def written : List K → Nat → List α
  | [], _ => []
  | item :: _, 0 => writes item
  | item :: rest, k + 1 => if accepted item then written rest k else []

/-- When no item is rejected, every item has written to its slot. -/
theorem written_of_accepted {items : List K}
    (h : ∀ item ∈ items, accepted item = true) (k : Nat) :
    written accepted writes items k = (items[k]?.map writes).getD [] := by
  induction items generalizing k with
  | nil => rfl
  | cons item rest ih =>
      cases k with
      | zero => rfl
      | succ k =>
          rw [written, if_pos (h item (by simp)), List.getElem?_cons_succ]
          exact ih (fun i hi => h i (List.mem_cons_of_mem _ hi)) k

/-- **A loop that writes slot by slot.** When every round writes the slot of
its number and goes on after an accepted item only, the loop has written
what its items say. -/
theorem slots_loop {σ : Type} (slots : σ → Nat → List α)
    (run : Nat → List K → σ → σ) (hnil : ∀ n s, slots (run n [] s) = slots s)
    (hcons : ∀ n item rest s, ∃ s1,
      (∀ k, slots s1 k = slots s k ++ if k = n then writes item else []) ∧
        slots (run n (item :: rest) s)
          = slots (if accepted item then run (n + 1) rest s1 else s1))
    (items : List K) (n : Nat) (s : σ) (k : Nat) :
    slots (run n items s) k = slots s k ++
      if k < n then [] else written accepted writes items (k - n) := by
  induction items generalizing n s with
  | nil => simp [hnil, written]
  | cons item rest ih =>
      obtain ⟨s1, hs1, hrun⟩ := hcons n item rest s
      have hother : ∀ k, k ≠ n → slots s1 k = slots s k := by
        intro k hk
        rw [hs1, if_neg hk, List.append_nil]
      have hown : slots s1 n = slots s n ++ writes item := by
        rw [hs1, if_pos rfl]
      rw [hrun]
      -- A slot below the counter, the slot of this round, or one above.
      rcases Nat.lt_trichotomy k n with h | rfl | h
      · rw [if_pos h, List.append_nil]
        cases accepted item with
        | false => exact hother k (by omega)
        | true =>
            rw [if_pos rfl, ih, if_pos (by omega), List.append_nil]
            exact hother k (by omega)
      · rw [if_neg (Nat.lt_irrefl k), Nat.sub_self, written]
        cases accepted item with
        | false => exact hown
        | true =>
            rw [if_pos rfl, ih, if_pos (by omega), List.append_nil]
            exact hown
      · obtain ⟨j, rfl⟩ : ∃ j, k = n + j + 1 := ⟨k - n - 1, by omega⟩
        rw [if_neg (show ¬ n + j + 1 < n by omega),
          show n + j + 1 - n = j + 1 by omega, written]
        cases accepted item with
        | false =>
            rw [if_neg Bool.false_ne_true, if_neg Bool.false_ne_true,
              List.append_nil]
            exact hother _ (by omega)
        | true =>
            rw [if_pos rfl, if_pos rfl, ih,
              if_neg (show ¬ n + j + 1 < n + 1 by omega), hother _ (by omega),
              show n + j + 1 - (n + 1) = j by omega]

end

variable {α : Type}

/-- One call: what it appends, and whether it succeeds. -/
structure Call (α : Type) where
  written : Nat → List α
  succeeds : Bool

/-- The slots after a call. -/
def Call.after (c : Call α) (slots : Nat → List α) : Nat → List α :=
  if c.succeeds then fun _ => [] else fun k => slots k ++ c.written k

theorem Call.after_apply (c : Call α) (slots : Nat → List α) (k : Nat) :
    c.after slots k = if c.succeeds then [] else slots k ++ c.written k := by
  rw [Call.after]
  split
  · rfl
  · rfl

/-- The slots after calls that started with none. -/
def leftover (calls : List (Call α)) : Nat → List α :=
  calls.foldl (fun slots c => c.after slots) fun _ => []

theorem leftover_concat (calls : List (Call α)) (c : Call α) :
    leftover (calls ++ [c]) = c.after (leftover calls) := by
  rw [leftover, List.foldl_append]
  rfl

/-- No call since the last that succeeded has written to the slot. -/
def Clean (calls : List (Call α)) (k : Nat) : Prop :=
  ∀ before c later, calls = before ++ c :: later → c.succeeds = false →
    (∀ d ∈ later, d.succeeds = false) → c.written k = []

theorem clean_nil (k : Nat) : Clean ([] : List (Call α)) k := by
  intro before c later h
  simp at h

theorem clean_concat {calls : List (Call α)} {c : Call α} {k : Nat} :
    Clean (calls ++ [c]) k ↔
      c.succeeds = true ∨ Clean calls k ∧ c.written k = [] := by
  constructor
  · intro h
    cases hc : c.succeeds with
    | true => exact .inl rfl
    | false =>
        refine .inr ⟨?_, h calls c [] rfl hc (by simp)⟩
        intro before d later hsplit hd hlater
        refine h before d (later ++ [c]) (by simp [hsplit]) hd ?_
        intro e he
        rcases List.mem_append.mp he with he | he
        · exact hlater e he
        · rw [List.mem_singleton.mp he, hc]
  · intro h before d later hsplit hd hlater
    -- The failed call is the last one, or one before it.
    rcases List.eq_nil_or_concat later with rfl | ⟨later', e, rfl⟩
    · obtain ⟨_, he⟩ := List.append_inj' hsplit rfl
      cases he
      rcases h with h | h
      · rw [hd] at h
        cases h
      · exact h.2
    · rw [List.concat_eq_append] at hsplit hlater
      rw [← List.cons_append, ← List.append_assoc] at hsplit
      obtain ⟨hcalls, he⟩ := List.append_inj' hsplit rfl
      cases he
      rcases h with h | h
      · rw [hlater c (by simp)] at h
        cases h
      · exact h.1 before d later' hcalls hd fun x hx =>
          hlater x (List.mem_append_left _ hx)

/-- **When a slot is empty at a call boundary.** -/
theorem leftover_eq_nil_iff (calls : List (Call α)) (k : Nat) :
    leftover calls k = [] ↔ Clean calls k := by
  induction calls using List.reverseRecOn with
  | nil => exact ⟨fun _ => clean_nil k, fun _ => rfl⟩
  | append_singleton calls c ih =>
      rw [leftover_concat, clean_concat, Call.after]
      cases hc : c.succeeds with
      | true => simp
      | false => simp [ih]

/-! ## An object whose slots are a ledger -/

section

variable {σ ι : Type} (next : ι → σ → σ) (toCall : ι → σ → Call α)

/-- The object after a history of inputs. -/
def stateAfter (s : σ) (inputs : List ι) : σ :=
  inputs.foldl (fun s i => next i s) s

theorem stateAfter_concat (s : σ) (inputs : List ι) (i : ι) :
    stateAfter next s (inputs ++ [i]) = next i (stateAfter next s inputs) := by
  rw [stateAfter, List.foldl_append]
  rfl

/-- **Invariants over a history**: what holds at the start, and is kept by
each input of the history at its state, holds at the end. -/
theorem invariant_stateAfter {inv : σ → Prop} {s : σ} (hs : inv s) {inputs : List ι}
    (hstep : ∀ earlier i later, inputs = earlier ++ i :: later →
      inv (stateAfter next s earlier) → inv (next i (stateAfter next s earlier))) :
    inv (stateAfter next s inputs) := by
  induction inputs using List.reverseRecOn with
  | nil => exact hs
  | append_singleton inputs i ih =>
      rw [stateAfter_concat]
      apply hstep inputs i [] rfl
      apply ih
      intro earlier j later hsplit
      apply hstep earlier j (later ++ [i])
      rw [hsplit, List.append_assoc, List.cons_append]

/-- The calls of a history, each as it goes at its state. -/
def calls : σ → List ι → List (Call α)
  | _, [] => []
  | s, i :: rest => toCall i s :: calls (next i s) rest

/-- **Step by step, run by run**: an object whose slots follow the ledger at
every call follows it along every history. -/
theorem slots_stateAfter {slots : σ → Nat → List α}
    (hstep : ∀ i s, slots (next i s) = (toCall i s).after (slots s)) {s : σ}
    (hs : slots s = fun _ => []) (inputs : List ι) :
    slots (stateAfter next s inputs) = leftover (calls next toCall s inputs) := by
  have hfold : ∀ inputs s, slots (stateAfter next s inputs)
      = (calls next toCall s inputs).foldl (fun slots c => c.after slots)
          (slots s) := by
    intro inputs
    induction inputs with
    | nil => exact fun _ => rfl
    | cons i rest ih =>
        intro s
        rw [stateAfter, List.foldl_cons, ← stateAfter, ih, hstep]
        rfl
  rw [hfold, hs]
  rfl

/-- **Reads over a history.** When an input goes well exactly if the slots it
reads are empty, every input of a history goes well if and only if each
reads only slots that are clean when it comes. -/
theorem history_iff {slots : σ → Nat → List α}
    (hstep : ∀ i s, slots (next i s) = (toCall i s).after (slots s)) {s : σ}
    (hs : slots s = fun _ => []) {goesWell : ι → σ → Prop}
    {reads : ι → σ → Nat → Prop}
    (hwell : ∀ i s, goesWell i s ↔ ∀ k, reads i s k → slots s k = [])
    (inputs : List ι) :
    (∀ earlier i later, inputs = earlier ++ i :: later →
        goesWell i (stateAfter next s earlier)) ↔
      ∀ earlier i later, inputs = earlier ++ i :: later →
        ∀ k, reads i (stateAfter next s earlier) k →
          Clean (calls next toCall s earlier) k := by
  refine forall_congr' fun earlier => forall_congr' fun i =>
    forall_congr' fun later => imp_congr_right fun _ => ?_
  rw [hwell]
  refine forall_congr' fun k => imp_congr_right fun _ => ?_
  rw [slots_stateAfter next toCall hstep hs, leftover_eq_nil_iff]

end

end XaccIbm.Ledger
