import XaccIbm.Lib.Decimal
import XaccIbm.OpenQasmVisitor.Emission

/-!
# OpenQasmVisitor — History

Conditional functions, second half: the register the guard names. It is
read from a map that measurements and conditionals both write: `insert`
keeps the entry of an earlier measurement, and reading a qubit that has no
entry makes one. What the guard should name is the register of the most
recent measurement of the qubit. A history is any list of instructions
visited by one visitor, rejected ones included (the caller catches the
exception and goes on).
-/

namespace XaccIbm

open OpenQasmVisitor

variable {P : Type}

/-! ## Measurements in a history -/

/-- The number of measurements. -/
def measurements : List (Instruction (Gate P)) → Nat
  | [] => 0
  | .leaf _ (.measure _ _) :: is => measurements is + 1
  | _ :: is => measurements is

/-- What is counted is there. -/
theorem exists_measure_of_pos {is : List (Instruction (Gate P))} (h : 0 < measurements is) :
    ∃ e q k, .leaf e (.measure q k) ∈ is := by
  induction is with
  | nil => cases h
  | cons i is ih =>
      have hrest : 0 < measurements is → ∃ e q k, .leaf e (.measure q k) ∈ i :: is := by
        intro h
        obtain ⟨e, q, k, hmem⟩ := ih h
        exact ⟨e, q, k, List.mem_cons_of_mem i hmem⟩
      cases i with
      | leaf e g =>
          cases g with
          | measure q k => exact ⟨e, q, k, List.mem_cons_self⟩
          | _ => exact hrest h
      | _ => exact hrest h

/-- Whether the instruction measures `q`. -/
def measures (q : Nat) : Instruction (Gate P) → Bool
  | .leaf _ (.measure q' _) => q' == q
  | _ => false

/-- Whether the instruction is a conditional on `q`. -/
def conditionsOn (q : Nat) : Instruction (Gate P) → Bool
  | .conditional _ q' _ => q' == q
  | _ => false

/-- The register of the most recent measurement of `q`: measurements take
the registers in order, from `c` on. -/
def lastRegisterFrom (c q : Nat) : List (Instruction (Gate P)) → Option Nat
  | [] => none
  | .leaf _ (.measure q' _) :: is =>
      (lastRegisterFrom (c + 1) q is).or (if q' = q then some c else none)
  | _ :: is => lastRegisterFrom c q is

/-- The register a guard on `q` should name after a history. -/
def lastRegister (q : Nat) (is : List (Instruction (Gate P))) : Option Nat :=
  lastRegisterFrom 0 q is

/-- What one instruction would put into the map for `q`. -/
def entry (c q : Nat) : Instruction (Gate P) → Option Nat
  | .leaf _ (.measure q' _) => if q' = q then some c else none
  | .conditional _ q' _ => if q' = q then some 0 else none
  | _ => none

/-- The entry the map has for `q`: the first one put there stays. -/
def firstEntryFrom (c q : Nat) : List (Instruction (Gate P)) → Option Nat
  | [] => none
  | i :: is =>
      (entry c q i).or (firstEntryFrom (c + measurements [i]) q is)

theorem measurements_cons (i : Instruction (Gate P))
    (is : List (Instruction (Gate P))) :
    measurements (i :: is) = measurements [i] + measurements is := by
  cases i with
  | leaf e g =>
      cases g with
      | measure q c => exact Nat.add_comm _ _
      | _ => exact (Nat.zero_add _).symm
  | conditional e q body => exact (Nat.zero_add _).symm
  | function e n body => exact (Nat.zero_add _).symm

theorem lastRegisterFrom_cons (c q : Nat) (i : Instruction (Gate P))
    (is : List (Instruction (Gate P))) :
    lastRegisterFrom c q (i :: is)
      = (lastRegisterFrom (c + measurements [i]) q is).or
          (if measures q i then some c else none) := by
  cases i with
  | leaf e g =>
      cases g with
      | measure q' c' => simp [lastRegisterFrom, measurements, measures]
      | _ => exact Option.or_none.symm
  | conditional e q' body => exact Option.or_none.symm
  | function e n body => exact Option.or_none.symm

theorem step_counter (r : Registers) (i : Instruction (Gate P)) :
    (r.step i).counter = r.counter + measurements [i] := by
  cases i with
  | leaf e g => cases g <;> rfl
  | conditional e q body => rfl
  | function e n body => rfl

theorem step_index (r : Registers) (i : Instruction (Gate P)) (q : Nat) :
    (r.step i).index.find q = (r.index.find q).or (entry r.counter q i) := by
  have hins : ∀ q' c, (r.index.insert q' c).find q
      = (r.index.find q).or (if q' = q then some c else none) := by
    intro q' c
    by_cases h : q = q'
    · subst h
      rw [StdMap.find_insert_self, if_pos rfl, StdMap.getD]
      cases r.index.find q <;> rfl
    · rw [StdMap.find_insert_ne _ _ h, if_neg (Ne.symm h), Option.or_none]
  cases i with
  | leaf e g =>
      cases g with
      | measure q' c => exact hins q' r.counter
      | _ => exact Option.or_none.symm
  | conditional e q' body => exact hins q' 0
  | function e n body => exact Option.or_none.symm

/-- **The register map over a history.** -/
theorem steps_index (r : Registers) (is : List (Instruction (Gate P)))
    (q : Nat) :
    (r.steps is).index.find q
      = (r.index.find q).or (firstEntryFrom r.counter q is) := by
  induction is generalizing r with
  | nil => simp [firstEntryFrom]
  | cons i is ih =>
      rw [Registers.steps_cons, ih, step_index, step_counter, firstEntryFrom,
        Option.or_assoc]

theorem lastRegisterFrom_append (c q : Nat)
    (is js : List (Instruction (Gate P))) :
    lastRegisterFrom c q (is ++ js)
      = (lastRegisterFrom (c + measurements is) q js).or
          (lastRegisterFrom c q is) := by
  induction is generalizing c with
  | nil => simp [lastRegisterFrom, measurements]
  | cons i is ih =>
      rw [List.cons_append, lastRegisterFrom_cons, ih, lastRegisterFrom_cons,
        measurements_cons i is, Nat.add_assoc, Option.or_assoc]

theorem firstEntryFrom_append (c q : Nat)
    (is js : List (Instruction (Gate P))) :
    firstEntryFrom c q (is ++ js)
      = (firstEntryFrom c q is).or
          (firstEntryFrom (c + measurements is) q js) := by
  induction is generalizing c with
  | nil => simp [firstEntryFrom, measurements]
  | cons i is ih =>
      rw [List.cons_append, firstEntryFrom, ih, firstEntryFrom,
        measurements_cons i is, Nat.add_assoc, Option.or_assoc]

/-- Registers only grow. -/
theorem le_of_lastRegisterFrom {c q k : Nat}
    {is : List (Instruction (Gate P))}
    (h : lastRegisterFrom c q is = some k) : c ≤ k := by
  induction is generalizing c with
  | nil => cases h
  | cons i is ih =>
      rw [lastRegisterFrom_cons, Option.or_eq_some_iff] at h
      rcases h with h | ⟨_, h⟩
      · have := ih h
        omega
      · split at h
        · cases h
          exact Nat.le_refl _
        · cases h

theorem lastRegisterFrom_eq_none {c q : Nat}
    {is : List (Instruction (Gate P))} :
    lastRegisterFrom c q is = none ↔ ∀ i ∈ is, measures q i = false := by
  induction is generalizing c with
  | nil => simp [lastRegisterFrom]
  | cons i is ih =>
      rw [lastRegisterFrom_cons, Option.or_eq_none_iff, ih]
      simp only [List.mem_cons, forall_eq_or_imp]
      cases measures q i <;> simp [and_comm]

/-- As long as `q` is not measured, only a conditional makes its entry. -/
theorem firstEntryFrom_unmeasured {c q : Nat}
    {is : List (Instruction (Gate P))}
    (h : ∀ i ∈ is, measures q i = false) :
    firstEntryFrom c q is
      = if is.any (conditionsOn q) then some 0 else none := by
  induction is generalizing c with
  | nil => rfl
  | cons i is ih =>
      have hi := h i (by simp)
      rw [firstEntryFrom, ih (fun j hj => h j (by simp [hj])), List.any_cons]
      cases i with
      | leaf e g =>
          cases g with
          | measure q' c' =>
              have hne : q' ≠ q := by simpa [measures] using hi
              simp [entry, conditionsOn, hne]
          | _ => rfl
      | conditional e q' body =>
          by_cases hq : q' = q <;> simp [entry, conditionsOn, hq]
      | function e n body => rfl

/-! ## When the entry is the last register -/

/-- `q` is measured once in the history, and no conditional on `q` comes
before that measurement unless the measurement is the first of all. -/
def MeasuredOnceInTime (q : Nat) (is : List (Instruction (Gate P))) : Prop :=
  ∃ before i after, is = before ++ i :: after ∧ measures q i = true ∧
    (∀ j ∈ before ++ after, measures q j = false) ∧
    (before.any (conditionsOn q) = true → measurements before = 0)

theorem entry_of_measures {c q : Nat} {i : Instruction (Gate P)}
    (h : measures q i = true) : entry c q i = some c := by
  cases i with
  | leaf e g =>
      cases g with
      | measure q' c' =>
          have hq : q' = q := by simpa [measures] using h
          exact if_pos hq
      | _ => cases h
  | conditional e q' body => cases h
  | function e n body => cases h

theorem measurements_of_measures {q : Nat} {i : Instruction (Gate P)}
    (h : measures q i = true) : measurements [i] = 1 := by
  cases i with
  | leaf e g =>
      cases g with
      | measure q' c => rfl
      | _ => cases h
  | conditional e q' body => cases h
  | function e n body => cases h

/-- The entry a read finds, at the first measurement of `q`. -/
theorem firstEntryFrom_split {q : Nat} {before after : List (Instruction (Gate P))}
    {i : Instruction (Gate P)} (hi : measures q i = true)
    (hb : ∀ j ∈ before, measures q j = false) :
    (firstEntryFrom 0 q (before ++ i :: after)).getD 0
      = if before.any (conditionsOn q) then 0 else measurements before := by
  rw [firstEntryFrom_append, firstEntryFrom_unmeasured hb, firstEntryFrom,
    entry_of_measures hi]
  split <;> simp

/-- The last register, split at a measurement of `q`. -/
theorem lastRegister_split {q : Nat} {before after : List (Instruction (Gate P))}
    {i : Instruction (Gate P)} (hi : measures q i = true) :
    lastRegister q (before ++ i :: after)
      = (lastRegisterFrom (measurements before + 1) q after).or
          (some (measurements before)) := by
  rw [lastRegister, lastRegisterFrom_append, lastRegisterFrom_cons,
    measurements_of_measures hi, if_pos hi, Nat.zero_add, Option.or_assoc,
    Option.some_or]

theorem exists_first_measure {q : Nat} {is : List (Instruction (Gate P))}
    (h : ∃ i ∈ is, measures q i = true) :
    ∃ before i after, is = before ++ i :: after ∧ measures q i = true ∧
      ∀ j ∈ before, measures q j = false := by
  induction is with
  | nil =>
      obtain ⟨i, hi, _⟩ := h
      cases hi
  | cons j is ih =>
      cases hj : measures q j with
      | true => exact ⟨[], j, is, rfl, hj, by simp⟩
      | false =>
          obtain ⟨i, hi, hm⟩ := h
          have hmem : i ∈ is := by
            rcases List.mem_cons.mp hi with rfl | h'
            · rw [hj] at hm
              cases hm
            · exact h'
          obtain ⟨before, k, after, rfl, hk, hb⟩ := ih ⟨i, hmem, hm⟩
          refine ⟨j :: before, k, after, rfl, hk, ?_⟩
          intro l hl
          rcases List.mem_cons.mp hl with rfl | hl
          · exact hj
          · exact hb l hl

/-- **The map answers with the last register** exactly when the qubit was
measured once, in time. -/
theorem lastRegister_eq_entry_iff (q : Nat)
    (is : List (Instruction (Gate P))) :
    lastRegister q is = some ((firstEntryFrom 0 q is).getD 0)
      ↔ MeasuredOnceInTime q is := by
  constructor
  · intro h
    have hex : ∃ i ∈ is, measures q i = true := by
      by_contra hno
      have hnone : lastRegisterFrom 0 q is = none :=
        lastRegisterFrom_eq_none.mpr (fun i hi => by
          by_contra hm
          exact hno ⟨i, hi, by simpa using hm⟩)
      rw [lastRegister, hnone] at h
      cases h
    obtain ⟨before, i, after, rfl, hi, hb⟩ := exists_first_measure hex
    rw [lastRegister_split hi, firstEntryFrom_split hi hb] at h
    -- a later measurement has a larger register than the entry
    have hafter : lastRegisterFrom (measurements before + 1) q after = none := by
      cases hl : lastRegisterFrom (measurements before + 1) q after with
      | none => rfl
      | some k =>
          have hle := le_of_lastRegisterFrom hl
          rw [hl, Option.some_or, Option.some.injEq] at h
          split at h <;> omega
    refine ⟨before, i, after, rfl, hi, ?_, ?_⟩
    · intro j hj
      rcases List.mem_append.mp hj with hj | hj
      · exact hb j hj
      · exact lastRegisterFrom_eq_none.mp hafter j hj
    · intro hc
      rw [hafter, Option.none_or, if_pos hc, Option.some.injEq] at h
      exact h
  · rintro ⟨before, i, after, rfl, hi, hno, hc⟩
    have hb : ∀ j ∈ before, measures q j = false :=
      fun j hj => hno j (by simp [hj])
    have hafter : lastRegisterFrom (measurements before + 1) q after = none :=
      lastRegisterFrom_eq_none.mpr (fun j hj => hno j (by simp [hj]))
    rw [lastRegister_split hi, firstEntryFrom_split hi hb, hafter,
      Option.none_or, Option.some.injEq]
    split
    · rename_i hany
      exact hc hany
    · rfl

/-! ## The visitor over a history -/

variable [ToString P]

namespace OpenQasmVisitor

/-- The visitor after a history; a rejected instruction does not end it. -/
def visits (v : OpenQasmVisitor) :
    List (Instruction (Gate P)) → OpenQasmVisitor
  | [] => v
  | i :: is => visits (Exec.after (accept i v)) is

theorem registers_visits (v : OpenQasmVisitor)
    (is : List (Instruction (Gate P))) :
    (v.visits is).registers = v.registers.steps is := by
  induction is generalizing v with
  | nil => rfl
  | cons i is ih => rw [visits, ih, registers_after, Registers.steps_cons]

/-- The text of a guard on register `c` with what follows it. -/
def guardText (c : Nat) (rest : String) : String :=
  String.join ["if (c", toString c, " == 1) ", rest]

theorem guardText_inj {a b : Nat} {r s t : String}
    (h : t ++ guardText a r = t ++ guardText b s) : a = b := by
  have hl := congrArg String.toList h
  simp only [guardText, String.toList_append, String.toList_join,
    List.flatMap_cons, List.append_cancel_left_eq] at hl
  exact @Decimal.toString_inj_of_append _ _ ' ' ' ' _ _ rfl rfl hl

end OpenQasmVisitor

/-- **Every accepted conditional of a history names the last register** of
its qubit; in particular none is accepted before its qubit is measured. -/
def GuardsNameLast (n : Nat) (skipPreamble : Bool)
    (is : List (Instruction (Gate P))) : Prop :=
  ∀ before e q body after, is = before ++ .conditional e q body :: after →
    ∀ w, accept (.conditional e q body) ((new n skipPreamble).visits before)
        = .ok () w →
      ∃ c rest, lastRegister q before = some c ∧
        w.native = ((new n skipPreamble).visits before).native
          ++ guardText c rest

/-- What the text of an accepted conditional starts with. -/
theorem native_conditional {e : Bool} {q : Nat}
    {body : List (Instruction (Gate P))} {v w : OpenQasmVisitor}
    (h : accept (.conditional e q body) v = .ok () w) :
    w.native = v.native ++ guardText (v.registers.index.getD q 0)
      (Piece.render (piecesList {} body)) := by
  obtain ⟨_, rfl⟩ := accept_ok h
  rw [native_withRegisters, native_emit, pieces, Piece.render_cons, guardText]
  simp [Piece.chunks, String.append_assoc]

/-- **The registers of a history.** The accepted conditionals of a history
all name the last register of their qubit if and only if each of them was
preceded by exactly one measurement of its qubit, with no earlier
conditional on the qubit before that measurement (unless it is the first
measurement of the history). -/
theorem guardsNameLast_iff (n : Nat) (skipPreamble : Bool)
    (is : List (Instruction (Gate P))) :
    GuardsNameLast n skipPreamble is ↔
      ∀ before e q body after, is = before ++ .conditional e q body :: after →
        rejection (.conditional e q body) = none →
        MeasuredOnceInTime q before := by
  have hindex : ∀ (before : List (Instruction (Gate P))) (q : Nat),
      ((new n skipPreamble).visits before).registers.index.getD q 0
        = (firstEntryFrom 0 q before).getD 0 := by
    intro before q
    rw [registers_visits, StdMap.getD, steps_index]
    rfl
  constructor
  · intro h before e q body after his hr
    have hacc := (visited (.conditional e q body)
      ((new n skipPreamble).visits before)).accepted hr
    obtain ⟨c, rest, hlast, hw⟩ := h before e q body after his _ hacc
    rw [native_conditional hacc] at hw
    rw [← lastRegister_eq_entry_iff, ← hindex before q, hlast,
      guardText_inj hw]
  · intro h before e q body after his w hw
    obtain ⟨hr, _⟩ := accept_ok hw
    have hlast := (lastRegister_eq_entry_iff q before).mpr
      (h before e q body after his hr)
    rw [← hindex before q] at hlast
    exact ⟨_, _, hlast, native_conditional hw⟩

/-- A qubit measured again keeps its first register. -/
theorem remeasured_not_guardsNameLast :
    ¬ ∀ (n : Nat) (skipPreamble : Bool)
        (is : List (Instruction (Gate String))),
        GuardsNameLast n skipPreamble is := by
  intro h
  obtain ⟨c, rest, hlast, hw⟩ := h 2 false
    [.leaf true (.measure 0 0), .leaf true (.measure 0 1),
      .conditional true 0 [.leaf false (.x 1)]]
    [.leaf true (.measure 0 0), .leaf true (.measure 0 1)] true 0
    [.leaf false (.x 1)] [] rfl _ rfl
  have h1 : c = 1 := by
    have : lastRegister 0 [.leaf true (.measure 0 0),
      .leaf true (.measure 0 1 : Gate String)] = some 1 := by decide
    rw [this] at hlast
    exact (Option.some.inj hlast).symm
  rw [@native_conditional String _ true 0 [.leaf false (.x 1)] _ _ rfl] at hw
  have h0 : 0 = c := guardText_inj hw
  omega

end XaccIbm
