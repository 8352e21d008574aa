import XaccIbm.OpenQasmVisitor.Scopes

/-!
# OQASMCompiler — Translate

`OQASMCompiler::translate`: one traversal of the function finds the largest
bit, another one writes the program. Both pass over what is disabled, so a
disabled body of a conditional is written, by the conditional, but not
counted.
-/

namespace XaccIbm.OQASMCompiler

open OpenQasmVisitor

variable {P : Type}

/-- The loop over the bits of an instruction. -/
def maxOfBits (maxBit : Nat) (bits : List Nat) : Nat :=
  bits.foldl (fun m b => if b > m then b else m) maxBit

/-- The first traversal. -/
def maxBitFrom (maxBit : Nat) : List (Instruction (Gate P)) → Nat
  | [] => maxBit
  | inst :: rest =>
      maxBitFrom (if inst.isEnabled then maxOfBits maxBit inst.bits else maxBit) rest

def maxBit (function : Function (Gate P)) : Nat := maxBitFrom 0 function.walk

/-- `auto nQubits = maxBit + 1;`, in `int`: behind the largest number comes the
smallest. -/
def nQubits (function : Function (Gate P)) : Int :=
  if maxBit function + 1 < 2 ^ 31 then maxBit function + 1 else -2 ^ 31

/-- The instructions the traversals do not pass over. -/
def enabled (function : Function (Gate P)) : List (Instruction (Gate P)) :=
  function.walk.filter Instruction.isEnabled

/-- The pieces of the program. -/
def written (function : Function (Gate P)) : List (Piece P) :=
  piecesList {} (enabled function)

/-! ## The size of the quantum register -/

theorem le_maxOfBits {m b : Nat} {bits : List Nat} :
    b ≤ maxOfBits m bits ↔ b ≤ m ∨ ∃ b' ∈ bits, b ≤ b' := by
  induction bits generalizing m with
  | nil => simp [maxOfBits]
  | cons c bits ih =>
      rw [maxOfBits, List.foldl_cons, ← maxOfBits, ih]
      simp only [List.mem_cons, exists_eq_or_imp, ← or_assoc]
      apply or_congr_left
      split <;> omega

theorem le_maxBitFrom {m b : Nat} {is : List (Instruction (Gate P))} :
    b ≤ maxBitFrom m is ↔
      b ≤ m ∨ ∃ i ∈ is.filter Instruction.isEnabled, ∃ b' ∈ i.bits, b ≤ b' := by
  induction is generalizing m with
  | nil => simp [maxBitFrom]
  | cons i is ih =>
      rw [maxBitFrom, ih, List.filter_cons]
      by_cases hi : i.isEnabled = true
      · rw [if_pos hi, if_pos hi, le_maxOfBits, or_assoc]
        simp only [List.mem_cons, exists_eq_or_imp]
      · rw [if_neg hi, if_neg hi]

/-- **The largest bit**: a bit is up to it when it is the first one, or at most a
bit of an enabled instruction. -/
theorem le_maxBit {function : Function (Gate P)} {b : Nat} :
    b ≤ maxBit function ↔ b = 0 ∨ ∃ i ∈ enabled function, ∃ b' ∈ i.bits, b ≤ b' := by
  rw [maxBit, le_maxBitFrom, Nat.le_zero]
  rfl

/-- No bit of an enabled instruction is so large that the size is no `int`. -/
def SizeFits (function : Function (Gate P)) : Prop :=
  ∀ i ∈ enabled function, ∀ b ∈ i.bits, b + 1 < 2 ^ 31

theorem sizeFits_iff {function : Function (Gate P)} :
    SizeFits function ↔ maxBit function + 1 < 2 ^ 31 := by
  have hle := @le_maxBit P function (2 ^ 31 - 1)
  constructor
  · intro h
    by_contra hlarge
    rcases hle.mp (by omega) with h0 | ⟨i, hi, b, hb, hbig⟩
    · omega
    · have hb' := h i hi b hb
      omega
  · intro h i hi b hb
    have hbound : b ≤ maxBit function := le_maxBit.mpr (.inr ⟨i, hi, b, hb, Nat.le_refl b⟩)
    omega

/-- **The size** that is declared: a qubit is below it when it is up to the
largest bit and the size is an `int`. -/
theorem lt_nQubits {function : Function (Gate P)} {b : Nat} :
    (b : Int) < nQubits function ↔ SizeFits function ∧ b ≤ maxBit function := by
  rw [sizeFits_iff, nQubits]
  split <;> omega

/-- The register of the last qubit has a negative size. -/
example : nQubits (⟨"f", true, [.leaf true (.x 2147483647)]⟩ : Function (Gate String))
    = -2147483648 := by
  decide

/-! ## The text -/

variable [ToString P]

/-- The second traversal. -/
def visitEnabled : List (Instruction (Gate P)) → Exec OpenQasmVisitor Unit
  | [] => pure ()
  | inst :: rest => do
      if inst.isEnabled then accept inst else pure ()
      visitEnabled rest

/-- `translate`; the buffer variable is not read. -/
def translate (function : Function (Gate P)) : Except Failure String :=
  match visitEnabled function.walk (new (nQubits function) false) with
  | .ok _ visitor => .ok visitor.getOpenQasmString
  | .error e _ => .error e

theorem visitEnabled_eq (is : List (Instruction (Gate P))) :
    visitEnabled is = acceptAll (is.filter Instruction.isEnabled) := by
  induction is with
  | nil => rfl
  | cons i is ih =>
      rw [visitEnabled, List.filter_cons, ih]
      by_cases hi : i.isEnabled = true
      · rw [if_pos hi, if_pos hi, acceptAll]
      · rw [if_neg hi, if_neg hi]

/-- **What `translate` returns**: the include, the quantum register and the
pieces, unless an instruction is refused. -/
theorem translate_ok {function : Function (Gate P)} {text : String} :
    translate function = .ok text ↔
      rejections (enabled function) = none ∧
        text = (new (nQubits function) false).native ++ Piece.render (written function) := by
  rw [translate, visitEnabled_eq]
  constructor
  · intro h
    split at h
    · rename_i u v hv
      obtain ⟨hr, rfl⟩ := acceptAll_ok hv
      cases h
      exact ⟨hr, rfl⟩
    · cases h
  · rintro ⟨hr, rfl⟩
    rw [show function.walk.filter Instruction.isEnabled = enabled function from rfl,
      (visitedAll (enabled function) (new (nQubits function) false)).accepted hr]
    rfl

/-! ## Scopes -/

/-- A gate that can stand in the body of a conditional: it is no measurement,
and an enabled instruction has a bit at least as large as each of its own. -/
structure Guardable (function : Function (Gate P)) (g : Gate P) : Prop where
  unmeasured : g.measured = none
  counted : ∀ q ∈ g.written, q = 0 ∨ ∃ i ∈ enabled function, ∃ b ∈ i.bits, q ≤ b

/-- The enabled instructions are written without a qubit. -/
def Unwritten (function : Function (Gate P)) : Prop :=
  ∀ e g, .leaf e g ∈ enabled function → g.written = []

omit [ToString P] in
theorem guardable_iff {function : Function (Gate P)} {g : Gate P} (hfit : SizeFits function) :
    g.Fits (nQubits function) ↔ Guardable function g := by
  constructor
  · intro hg
    exact ⟨hg.unmeasured, fun q hq => le_maxBit.mp (lt_nQubits.mp (hg.below q hq)).2⟩
  · intro hg
    exact ⟨hg.unmeasured, fun q hq => lt_nQubits.mpr ⟨hfit, le_maxBit.mpr (hg.counted q hq)⟩⟩

omit [ToString P] in
/-- A program without a qubit has no measurement, and so no register that a
conditional could read. -/
theorem Unwritten.measurements_eq {function : Function (Gate P)} (h : Unwritten function)
    {before after : List (Instruction (Gate P))} (hsplit : enabled function = before ++ after) :
    measurements before = 0 := by
  by_contra hpos
  obtain ⟨e, q, k, hmem⟩ := exists_measure_of_pos (Nat.pos_of_ne_zero hpos)
  have hnil := h e (.measure q k) (by rw [hsplit]; exact List.mem_append_left _ hmem)
  cases hnil

/-- **Which programs are well scoped.** The text `translate` returns is the
include, the quantum register of `nQubits` qubits and the written pieces;
it is well scoped exactly when the size of the register is an `int`, unless no
qubit is written, and every enabled conditional comes after an enabled
measurement and has a body of gates that can stand in it. -/
theorem translate_scoped_iff {function : Function (Gate P)} {text : String}
    (h : translate function = .ok text) :
    text = (new (nQubits function) false).native ++ Piece.render (written function) ∧
      (Scoped (nQubits function) [] (written function) ↔
        (SizeFits function ∨ Unwritten function) ∧
        ∀ before e q body after, enabled function = before ++ .conditional e q body :: after →
          0 < measurements before ∧ ∀ g ∈ visitedGatesList body, Guardable function g) := by
  refine ⟨(translate_ok.mp h).2, ?_⟩
  rw [written, scoped_iff Registers.sane_new]
  have hcounter : ∀ before : List (Instruction (Gate P)),
      ({} : Registers).counter + measurements before = measurements before :=
    fun before => Nat.zero_add _
  constructor
  · intro hall
    have hleaf : SizeFits function ∨ Unwritten function := by
      refine or_iff_not_imp_left.mpr fun hlarge e g hmem => ?_
      obtain ⟨before, after, hsplit⟩ := List.append_of_mem hmem
      refine List.eq_nil_iff_forall_not_mem.mpr fun q hq => hlarge ?_
      exact (lt_nQubits.mp (hall before _ after hsplit q hq)).1
    refine ⟨hleaf, fun before e q body after hsplit => ?_⟩
    obtain ⟨hpos, hbody⟩ := hall before _ after hsplit
    rw [hcounter] at hpos
    refine ⟨hpos, fun g hg => ?_⟩
    rcases hleaf with hfit | hunwritten
    · exact (guardable_iff hfit).mp (hbody g hg)
    · rw [hunwritten.measurements_eq hsplit] at hpos
      cases hpos
  · rintro ⟨hleaf, hall⟩ before i after hsplit
    cases i with
    | function e m body => exact trivial
    | leaf e g =>
        intro q hq
        rcases hleaf with hfit | hunwritten
        · refine lt_nQubits.mpr ⟨hfit, le_maxBit.mpr (.inr ⟨.leaf e g, by simp [hsplit], q, ?_,
            Nat.le_refl q⟩)⟩
          cases g with
          | cz a b => cases hq
          | cphase t a b => cases hq
          | _ => exact hq
        · rw [hunwritten e g (by simp [hsplit])] at hq
          cases hq
    | conditional e q body =>
        obtain ⟨hpos, hbody⟩ := hall before e q body after hsplit
        refine ⟨by rwa [hcounter], fun g hg => ?_⟩
        rcases hleaf with hfit | hunwritten
        · exact (guardable_iff hfit).mpr (hbody g hg)
        · rw [hunwritten.measurements_eq hsplit] at hpos
          cases hpos

/-- Conditionals whose bodies the traversals pass over. -/
def BodiesDisabled (function : Function (Gate P)) : Prop :=
  ∀ e q body, .conditional e q body ∈ function.walk →
    ∀ i ∈ Instruction.preorderList body, i.isEnabled = false

/-- One measured qubit, and a conditional on it that acts on a qubit. -/
def corrected (q : Nat) (others : List (Instruction (Gate String))) :
    Function (Gate String) where
  name := "f"
  body := others ++ [.leaf true (.measure 0 0), .conditional true 0 [.leaf false (.x q)]]

theorem corrected_scoped :
    Scoped 3 [] (written (corrected 2 [.leaf true (.cnot 1 2)])) := by
  obtain ⟨text, h⟩ : ∃ text, translate (corrected 2 [.leaf true (.cnot 1 2)]) = .ok text :=
    ⟨_, rfl⟩
  have hall : enabled (corrected 2 [.leaf true (.cnot 1 2)]) =
      [(corrected 2 [.leaf true (.cnot 1 2)]).toInstruction, .leaf true (.cnot 1 2),
        .leaf true (.measure 0 0), .conditional true 0 [.leaf false (.x 2)]] := rfl
  refine (translate_scoped_iff h).2.mpr ⟨.inl ?_, ?_⟩
  · rw [SizeFits, hall]
    decide
  intro before e q body after hsplit
  rw [hall] at hsplit
  rcases before with _ | ⟨_, _ | ⟨_, _ | ⟨_, _ | ⟨_, _⟩⟩⟩⟩
  · cases hsplit
  · cases hsplit
  · cases hsplit
  · cases hsplit
    refine ⟨Nat.one_pos, ?_⟩
    intro g hg
    cases List.mem_singleton.mp hg
    refine ⟨rfl, ?_⟩
    intro q hq
    cases List.mem_singleton.mp hq
    refine .inr ⟨.leaf true (.cnot 1 2), by simp [hall], 2, ?_, by omega⟩
    exact List.mem_cons_of_mem 1 (List.mem_singleton_self 2)
  · simp at hsplit

/-- The quantum register has one qubit, and the body acts on the third. -/
theorem corrected_not_scoped :
    ¬ ∀ (function : Function (Gate String)) (text : String), BodiesDisabled function →
      translate function = .ok text → Scoped (nQubits function) [] (written function) := by
  intro h
  have hbodies : BodiesDisabled (corrected 2 []) := by
    intro e q body hmem
    have hwalk : (corrected 2 []).walk = [(corrected 2 []).toInstruction,
        .leaf true (.measure 0 0), .conditional true 0 [.leaf false (.x 2)],
        .leaf false (.x 2)] := rfl
    obtain ⟨-, -, rfl⟩ : e = true ∧ q = 0 ∧ body = [.leaf false (.x 2)] := by
      simpa [hwalk, Function.toInstruction] using hmem
    intro i hi
    cases List.mem_singleton.mp hi
    rfl
  have hs := h (corrected 2 []) _ hbodies rfl
  exact absurd (hs.2.2.2.2.1 2 (by simp [QOp.qubits])) (by decide)

end XaccIbm.OQASMCompiler
