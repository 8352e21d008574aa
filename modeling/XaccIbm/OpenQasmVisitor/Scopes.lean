import XaccIbm.OpenQasmVisitor.History

/-!
# OpenQasmVisitor — Scopes

Which emitted programs are well scoped: every qubit is below the size of the
quantum register, and every classical register is declared once and before
it is read. The visitor declares a register for each measurement it visits
and counts them itself, but the body of a conditional goes through a visitor
of its own, which counts from zero again and declares nothing of what was
declared before.
-/

namespace XaccIbm

open OpenQasmVisitor

variable {P : Type}

/-! ## Scopes of a program -/

/-- **A program is well scoped** after some declarations, `n` being the size
of the quantum register as it is declared. -/
def Scoped (n : Int) : List Nat → List (Piece P) → Prop
  | _, [] => True
  | declared, .guard c :: ps => c ∈ declared ∧ Scoped n declared ps
  | declared, .creg c :: ps => c ∉ declared ∧ Scoped n (c :: declared) ps
  | declared, .op o :: ps =>
      (∀ q ∈ o.qubits, (q : Int) < n) ∧ (∀ c ∈ o.clbits, c ∈ declared) ∧ Scoped n declared ps

/-- The qubits the text of a gate names. -/
def Gate.written : Gate P → List Nat
  | .cz _ _ => []
  | .cphase _ _ _ => []
  | g => g.bits

theorem scoped_measure {n : Int} {c q k : Nat} {declared : List Nat} {ps : List (Piece P)} :
    Scoped n declared ((Gate.measure q k : Gate P).pieces c ++ ps) ↔
      c ∉ declared ∧ (q : Int) < n ∧ Scoped n (c :: declared) ps := by
  simp [Gate.pieces, Gate.ops, QOp.pieces, Scoped, QOp.qubits, QOp.clbits]

theorem scoped_gate {n : Int} {c : Nat} {declared : List Nat} {ps : List (Piece P)}
    {g : Gate P} (hg : g.measured = none) :
    Scoped n declared (g.pieces c ++ ps) ↔
      (∀ q ∈ g.written, (q : Int) < n) ∧ Scoped n declared ps := by
  cases g with
  | measure q k => cases hg
  | swap a b =>
      simp [Gate.pieces, Gate.ops, QOp.pieces, Scoped, QOp.qubits, QOp.clbits, Gate.written,
        Gate.bits]
      tauto
  | _ =>
      simp [Gate.pieces, Gate.ops, QOp.pieces, Scoped, QOp.qubits, QOp.clbits, Gate.written,
        Gate.bits]

/-! ## Bodies of conditionals -/

mutual

/-- The gates a visitor comes to in an instruction. -/
def visitedGates (i : Instruction (Gate P)) : List (Gate P) :=
  match i with
  | .leaf _ g => [g]
  | .function _ _ _ => []
  | .conditional _ _ body => visitedGatesList body

def visitedGatesList (is : List (Instruction (Gate P))) : List (Gate P) :=
  match is with
  | [] => []
  | i :: is => visitedGates i ++ visitedGatesList is

end

/-- A gate that can stand under a guard: it declares nothing, and the
quantum register has its qubits. -/
structure Gate.Fits (n : Int) (g : Gate P) : Prop where
  unmeasured : g.measured = none
  below : ∀ q ∈ g.written, (q : Int) < n

/-- Registers no measurement has moved: every qubit is looked up as `c0`. -/
structure Registers.Blank (r : Registers) : Prop where
  counter_eq : r.counter = 0
  index_eq : ∀ q, r.index.getD q 0 = 0

theorem Registers.blank_new : Registers.Blank {} := ⟨rfl, fun _ => rfl⟩

theorem Registers.Blank.step {r : Registers} (h : r.Blank) {i : Instruction (Gate P)}
    (hi : ∀ g ∈ visitedGates i, g.measured = none) : (r.step i).Blank := by
  cases i with
  | leaf e g =>
      have hg := hi g (by simp [visitedGates])
      cases g with
      | measure q k => cases hg
      | _ => exact h
  | function e m body => exact h
  | conditional e q body =>
      refine ⟨h.counter_eq, fun q' => ?_⟩
      show (r.index.insert q 0).getD q' 0 = 0
      rw [StdMap.getD_insert, h.index_eq]

mutual

/-- **Under a guard** an instruction is well scoped when all its gates fit. -/
theorem scoped_pieces (i : Instruction (Gate P)) {n : Int} {r : Registers} (hr : r.Blank)
    {declared : List Nat} (h0 : 0 ∈ declared) (ps : List (Piece P)) :
    Scoped n declared (pieces r i ++ ps) ↔
      (∀ g ∈ visitedGates i, g.Fits n) ∧ Scoped n declared ps :=
  match i with
  | .leaf e g => by
      rw [pieces, visitedGates, List.forall_mem_singleton]
      cases hg : g.measured with
      | none =>
          rw [scoped_gate hg]
          exact and_congr_left fun _ => ⟨fun h => ⟨hg, h⟩, Gate.Fits.below⟩
      | some q =>
          cases g with
          | measure q k =>
              rw [scoped_measure, hr.counter_eq]
              constructor
              · intro h
                exact absurd h0 h.1
              · intro h
                cases h.1.unmeasured
          | _ => cases hg
  | .function e m body => by
      simp [pieces, visitedGates]
  | .conditional e q body => by
      rw [pieces, visitedGates, hr.index_eq, List.cons_append, Scoped,
        scoped_piecesList body Registers.blank_new h0 ps]
      exact and_iff_right h0

/-- The same for the instructions of a body. -/
theorem scoped_piecesList (is : List (Instruction (Gate P))) {n : Int} {r : Registers}
    (hr : r.Blank) {declared : List Nat} (h0 : 0 ∈ declared) (ps : List (Piece P)) :
    Scoped n declared (piecesList r is ++ ps) ↔
      (∀ g ∈ visitedGatesList is, g.Fits n) ∧ Scoped n declared ps :=
  match is with
  | [] => by simp [visitedGatesList]
  | i :: is => by
      rw [piecesList_cons, List.append_assoc, visitedGatesList, List.forall_mem_append,
        scoped_pieces i hr h0]
      by_cases hi : ∀ g ∈ visitedGates i, g.Fits n
      · have hstep := hr.step fun g hg => (hi g hg).unmeasured
        rw [scoped_piecesList is hstep h0, and_assoc]
      · simp [hi]

end

/-! ## Whole programs -/

/-- What an instruction needs to be written well scoped, `measured` being the
number of measurements before it. -/
def Instruction.Fits (n : Int) (measured : Nat) : Instruction (Gate P) → Prop
  | .leaf _ g => ∀ q ∈ g.written, (q : Int) < n
  | .function _ _ _ => True
  | .conditional _ _ body =>
      0 < measured ∧ ∀ g ∈ visitedGatesList body, g.Fits n

/-- Registers that look up declared registers only, once one is declared. -/
structure Registers.Sane (r : Registers) (declared : List Nat) : Prop where
  declared_iff : ∀ c, c ∈ declared ↔ c < r.counter
  index_lt : ∀ q c, r.index.find q = some c → c = 0 ∨ c < r.counter

theorem Registers.sane_new : Registers.Sane {} [] where
  declared_iff := by
    intro c
    simp
  index_lt := by
    intro q c h
    cases h

/-- A guard names a declared register once one is declared. -/
theorem Registers.Sane.guard_iff {r : Registers} {declared : List Nat}
    (h : r.Sane declared) (q : Nat) :
    r.index.getD q 0 ∈ declared ↔ 0 < r.counter := by
  rw [h.declared_iff, StdMap.getD]
  cases hq : r.index.find q with
  | none => rfl
  | some c =>
      rcases h.index_lt q c hq with rfl | hlt
      · rfl
      · rw [Option.getD_some]
        omega

theorem Registers.Sane.measure {r : Registers} {declared : List Nat}
    (h : r.Sane declared) (e : Bool) (q k : Nat) :
    (r.step (.leaf e (.measure q k : Gate P))).Sane (r.counter :: declared) where
  declared_iff := by
    intro c
    have hc := h.declared_iff c
    show c ∈ r.counter :: declared ↔ c < r.counter + 1
    rw [List.mem_cons, hc]
    omega
  index_lt := by
    intro q' c hc
    show c = 0 ∨ c < r.counter + 1
    rw [step_index, Option.or_eq_some_iff] at hc
    rcases hc with hc | ⟨_, hc⟩
    · rcases h.index_lt q' c hc with h0 | hlt
      · exact .inl h0
      · omega
    · rw [entry] at hc
      split at hc
      · cases hc
        omega
      · cases hc

theorem Registers.Sane.other {r : Registers} {declared : List Nat}
    (h : r.Sane declared) {i : Instruction (Gate P)} (hi : measurements [i] = 0) :
    (r.step i).Sane declared where
  declared_iff := by
    rw [step_counter, hi]
    exact h.declared_iff
  index_lt := by
    intro q c hc
    rw [step_counter, hi]
    rw [step_index, Option.or_eq_some_iff] at hc
    rcases hc with hc | ⟨_, hc⟩
    · exact h.index_lt q c hc
    · cases i with
      | leaf e g =>
          cases g with
          | measure q' k => cases hi
          | _ => cases hc
      | function e m body => cases hc
      | conditional e q' body =>
          rw [entry] at hc
          split at hc
          · cases hc
            exact .inl rfl
          · cases hc

/-- A property of every place of a list, from the first place on. -/
theorem forall_split_cons {α : Type} {Q : List α → α → Prop} {a : α} {as : List α} :
    (∀ before x after, a :: as = before ++ x :: after → Q before x) ↔
      Q [] a ∧ ∀ before x after, as = before ++ x :: after → Q (a :: before) x := by
  constructor
  · intro h
    exact ⟨h [] a as rfl, fun before x after heq => h (a :: before) x after (by rw [heq]; rfl)⟩
  · rintro ⟨h0, h⟩ before x after heq
    cases before with
    | nil =>
        cases heq
        exact h0
    | cons b before =>
        cases heq
        exact h before x after rfl

/-- **Which histories are written well scoped**: those in which every
instruction fits. -/
theorem scoped_iff {n : Int} {r : Registers} {declared : List Nat}
    (hr : r.Sane declared) (is : List (Instruction (Gate P))) :
    Scoped n declared (piecesList r is) ↔
      ∀ before i after, is = before ++ i :: after →
        i.Fits n (r.counter + measurements before) := by
  induction is generalizing r declared with
  | nil => simp [Scoped]
  | cons i is ih =>
      rw [piecesList_cons, forall_split_cons]
      have hshift : ∀ before : List (Instruction (Gate P)),
          r.counter + measurements (i :: before) = (r.step i).counter + measurements before := by
        intro before
        rw [measurements_cons, step_counter, Nat.add_assoc]
      simp only [hshift]
      cases i with
      | function e m body =>
          rw [← ih (hr.other rfl)]
          simp [pieces, Instruction.Fits]
      | leaf e g =>
          cases hg : g.measured with
          | none =>
              have hzero : measurements [(.leaf e g : Instruction (Gate P))] = 0 := by
                cases g with
                | measure q k => cases hg
                | _ => rfl
              rw [← ih (hr.other hzero), pieces, scoped_gate hg, Instruction.Fits]
          | some q =>
              cases g with
              | measure q k =>
                  have hnew : r.counter ∉ declared := by
                    rw [hr.declared_iff]
                    omega
                  rw [← ih (hr.measure e q k), pieces, scoped_measure, Instruction.Fits]
                  simp [hnew, Gate.written, Gate.bits]
              | _ => cases hg
      | conditional e q body =>
          rw [← ih (hr.other rfl), pieces, List.cons_append, Scoped, hr.guard_iff,
            Instruction.Fits]
          show _ ↔ (0 < r.counter ∧ _) ∧ _
          rw [and_assoc]
          refine and_congr_right fun hpos => ?_
          exact scoped_piecesList body Registers.blank_new ((hr.declared_iff 0).mpr hpos) _

end XaccIbm
