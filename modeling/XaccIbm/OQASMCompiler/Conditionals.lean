import Mathlib.Data.Nat.Bitwise
import XaccIbm.OQASMCompiler.Qubits

/-!
# OQASMCompiler — Conditionals

What OpenQASM does with `if (c == k) qop`: given the outcomes of the
measurements a kernel is a straight line, in which a conditional is its
operation or nothing. The listener has no callback for the condition, so the
compiled kernel always has the operation; `compile_conditionals_iff` says
when that is right.
-/

namespace XaccIbm.OQASMCompiler

open OpenQasm Traverse

variable {N : Type}

/-! ## Classical registers -/

/-- The registers of a run, zero at first, and the number of measurements
made. -/
structure ClassicalState where
  value : ID → Nat := fun _ => 0
  measured : Nat := 0

/-- Bit `i` of a register overwritten. -/
def writeBit (v i : Nat) (b : Bool) : Nat :=
  if b then v ||| 2 ^ i else v ^^^ (v &&& 2 ^ i)

/-- The classical bit a measurement writes. A measurement into a whole
register names none; it is not compiled. -/
def Measure.target (m : Measure) : Option (ID × Nat) :=
  match m.cbit with
  | .gatearg (.indexed c i) => some (c, i.value)
  | .register (.sized c i) => some (c, i.value)
  | _ => none

namespace ClassicalState

variable (outcomes : Nat → Bool)

/-- An operation executed; the measurements take the outcomes in turn. -/
def execute (s : ClassicalState) : Qop → ClassicalState
  | .measure m =>
      match Measure.target m with
      | some (c, i) =>
          { value := Function.update s.value c
              (writeBit (s.value c) i (outcomes s.measured))
            measured := s.measured + 1 }
      | none => { s with measured := s.measured + 1 }
  | _ => s

end ClassicalState

/-- **The straight line OpenQASM executes** under the outcomes: a conditional
is its action when its register has the value, and nothing otherwise. -/
def straightLine (outcomes : Nat → Bool) (s : ClassicalState) :
    List Statement → List Statement
  | [] => []
  | .conditional c :: ss =>
      if s.value c.reg = c.value.value then
        .qop c.action :: straightLine outcomes (s.execute outcomes c.action) ss
      else straightLine outcomes s ss
  | .qop q :: ss => .qop q :: straightLine outcomes (s.execute outcomes q) ss
  | st :: ss => st :: straightLine outcomes s ss

/-- The kernel as it is executed under the outcomes. -/
def executed (outcomes : Nat → Bool) (k : Xacckernel) : Xacckernel :=
  { k with mainprog := { k.mainprog with
    program := (straightLine outcomes {} k.statements).map .statement } }

/-! ## When every condition holds -/

/-- The operation a statement executes when its condition holds. -/
def Statement.qop? : Statement → Option Qop
  | .qop q => some q
  | .conditional c => some c.action
  | _ => none

/-- The state after a statement whose condition holds. -/
def advanceOne (outcomes : Nat → Bool) (s : ClassicalState) (st : Statement) :
    ClassicalState :=
  match Statement.qop? st with
  | some q => s.execute outcomes q
  | none => s

/-- The state after statements whose conditions all hold. -/
def advance (outcomes : Nat → Bool) (s : ClassicalState) (ss : List Statement) :
    ClassicalState :=
  ss.foldl (advanceOne outcomes) s

/-- The statement writes the register when it is executed. -/
def Writes (st : Statement) (c : ID) : Prop :=
  ∃ m i, Statement.qop? st = some (.measure m) ∧ Measure.target m = some (c, i)

/-- The operations the listener makes something of. -/
def Compiled (q : Qop) : Prop := qopCallbacks q ≠ []

/-- The conditions that matter hold, one after another. -/
def AllHold (outcomes : Nat → Bool) (s : ClassicalState) (ss : List Statement) :
    Prop :=
  ∀ pre c post, ss = pre ++ .conditional c :: post → Compiled c.action →
    (advance outcomes s pre).value c.reg = c.value.value

variable {outcomes : Nat → Bool} {s : ClassicalState}

theorem execute_of_not_compiled {q : Qop} (h : ¬ Compiled q) :
    s.execute outcomes q = s := by
  cases q with
  | measure m => exact absurd (List.cons_ne_nil _ _) h
  | uop u => rfl
  | reeset o => rfl
  | barrier as => rfl

theorem allHold_cons {st : Statement} {ss : List Statement} :
    AllHold outcomes s (st :: ss) ↔
      (∀ c, st = .conditional c → Compiled c.action →
        s.value c.reg = c.value.value) ∧
      AllHold outcomes (advanceOne outcomes s st) ss := by
  constructor
  · intro h
    refine ⟨?_, ?_⟩
    · rintro c rfl hc
      exact h [] c ss rfl hc
    · intro pre c post hss hc
      exact h (st :: pre) c post (by rw [hss]; rfl) hc
  · rintro ⟨h0, h⟩ pre c post hss hc
    cases pre with
    | nil =>
        cases hss
        exact h0 c rfl hc
    | cons st' pre =>
        cases hss
        exact h pre c post rfl hc

/-- Executing drops callbacks and adds none. -/
theorem straightLine_sublist (outcomes : Nat → Bool) (s : ClassicalState) (ss : List Statement) :
    ((straightLine outcomes s ss).flatMap callbacks).Sublist
      (ss.flatMap callbacks) := by
  induction ss generalizing s with
  | nil => exact List.Sublist.refl _
  | cons st ss ih =>
      rw [List.flatMap_cons]
      cases st with
      | conditional c =>
          rw [straightLine]
          split
          · exact (ih _).append_left _
          · exact (ih _).trans (List.sublist_append_right _ _)
      | qop q => exact (ih _).append_left _
      | regdecl d => exact (ih _).append_left _
      | gatedecl d => exact (ih _).append_left _
      | opaqueDecl o => exact (ih _).append_left _
      | kernelcall k => exact (ih _).append_left _

/-- **Nothing is dropped exactly when every condition that matters holds.** -/
theorem straightLine_eq_iff (s : ClassicalState) (ss : List Statement) :
    (straightLine outcomes s ss).flatMap callbacks = ss.flatMap callbacks ↔
      AllHold outcomes s ss := by
  induction ss generalizing s with
  | nil =>
      refine iff_of_true rfl ?_
      intro pre c post h
      simp at h
  | cons st ss ih =>
      rw [allHold_cons, List.flatMap_cons, ← ih]
      cases st with
      | conditional c =>
          rw [straightLine]
          by_cases hv : s.value c.reg = c.value.value
          · rw [if_pos hv, List.flatMap_cons]
            show qopCallbacks c.action ++ _ = qopCallbacks c.action ++ _ ↔ _
            rw [List.append_cancel_left_eq, and_iff_right]
            · rfl
            · rintro _ h _
              cases h
              exact hv
          · rw [if_neg hv]
            by_cases hc : Compiled c.action
            · refine iff_of_false ?_ fun h => hv (h.1 c rfl hc)
              intro h
              have hlen := (straightLine_sublist outcomes s ss).length_le
              have hpos := List.length_pos_iff.mpr hc
              have heq := congrArg List.length h
              rw [List.length_append] at heq
              have : (callbacks (.conditional c)).length = (qopCallbacks c.action).length := rfl
              omega
            · have hnil : callbacks (.conditional c) = [] := not_not.mp hc
              rw [hnil, List.nil_append, and_iff_right]
              · show _ ↔ (straightLine outcomes (s.execute outcomes c.action) ss).flatMap
                  callbacks = _
                rw [execute_of_not_compiled hc]
              · rintro _ h hcomp
                cases h
                exact absurd hcomp hc
      | qop q => simp [straightLine, advanceOne, Statement.qop?]
      | regdecl d => simp [straightLine, advanceOne, Statement.qop?]
      | gatedecl d => simp [straightLine, advanceOne, Statement.qop?]
      | opaqueDecl o => simp [straightLine, advanceOne, Statement.qop?]
      | kernelcall k => simp [straightLine, advanceOne, Statement.qop?]

/-! ## What the registers can hold -/

theorem writeBit_false (i : Nat) : writeBit 0 i false = 0 := by
  simp [writeBit]

theorem writeBit_true_ne_zero (v i : Nat) : writeBit v i true ≠ 0 := by
  have h : (writeBit v i true).testBit i = true := by
    simp [writeBit]
  intro h0
  rw [h0, Nat.zero_testBit] at h
  cases h

theorem advanceOne_of_not_writes {st : Statement} {c : ID} (h : ¬ Writes st c) :
    (advanceOne outcomes s st).value c = s.value c := by
  rw [advanceOne]
  split
  · rename_i q hq
    cases q with
    | measure m =>
        rw [ClassicalState.execute]
        split
        · rename_i c' i ht
          have hne : c ≠ c' := by
            rintro rfl
            exact h ⟨m, i, hq, ht⟩
          exact Function.update_of_ne hne _ _
        · rfl
    | uop u => rfl
    | reeset o => rfl
    | barrier as => rfl
  · rfl

theorem advanceOne_of_writes (outcomes : Nat → Bool) (s : ClassicalState)
    {st : Statement} {c : ID} (h : Writes st c) :
    ∃ i, (advanceOne outcomes s st).value c
      = writeBit (s.value c) i (outcomes s.measured) := by
  obtain ⟨m, i, hq, ht⟩ := h
  refine ⟨i, ?_⟩
  simp only [advanceOne, hq, ClassicalState.execute, ht]
  exact Function.update_self _ _ _

/-- A register nothing is written to keeps its value. -/
theorem advance_of_not_writes {ss : List Statement} {c : ID}
    (h : ∀ st ∈ ss, ¬ Writes st c) :
    (advance outcomes s ss).value c = s.value c := by
  induction ss generalizing s with
  | nil => rfl
  | cons st ss ih =>
      show (advance outcomes (advanceOne outcomes s st) ss).value c = _
      rw [ih fun st' hst' => h st' (by simp [hst']),
        advanceOne_of_not_writes (h st (by simp))]

/-- With every outcome zero the registers stay zero. -/
theorem advance_zeros {ss : List Statement} {c : ID} (hs : s.value c = 0) :
    (advance (fun _ => false) s ss).value c = 0 := by
  induction ss generalizing s with
  | nil => exact hs
  | cons st ss ih =>
      show (advance _ (advanceOne (fun _ => false) s st) ss).value c = 0
      refine ih ?_
      by_cases hw : Writes st c
      · obtain ⟨i, hi⟩ := advanceOne_of_writes (fun _ => false) s hw
        rw [hi, hs, writeBit_false]
      · rw [advanceOne_of_not_writes hw, hs]

/-- With every outcome one a register that is written to is not zero. -/
theorem advance_ones {ss : List Statement} {c : ID}
    (h : s.value c ≠ 0 ∨ ∃ st ∈ ss, Writes st c) :
    (advance (fun _ => true) s ss).value c ≠ 0 := by
  induction ss generalizing s with
  | nil =>
      rcases h with h | ⟨st, hst, _⟩
      · exact h
      · cases hst
  | cons st ss ih =>
      show (advance _ (advanceOne (fun _ => true) s st) ss).value c ≠ 0
      refine ih ?_
      by_cases hw : Writes st c
      · obtain ⟨i, hi⟩ := advanceOne_of_writes (fun _ => true) s hw
        rw [hi]
        exact .inl (writeBit_true_ne_zero _ i)
      · rw [advanceOne_of_not_writes hw]
        rcases h with h | ⟨st', hst', hw'⟩
        · exact .inl h
        · rcases List.mem_cons.mp hst' with rfl | hst'
          · exact absurd hw' hw
          · exact .inr ⟨st', hst', hw'⟩

/-! ## The compiled kernel -/

/-- **The compiled kernel does what OpenQASM executes**: under all outcomes,
the source with the kernel replaced by its straight line is compiled to the
same functions. -/
def ConditionalsKept (S : Services N) (before : Xaccsrc) (k : Xacckernel)
    (after : Xaccsrc) (ir : IR N) : Prop :=
  ∀ outcomes, compile S (before ++ executed outcomes k :: after) = .ok ir

/-- Each conditional whose action is compiled compares a register that
nothing was measured into with zero. -/
def TriviallyTrue (ss : List Statement) : Prop :=
  ∀ pre c post, ss = pre ++ .conditional c :: post → Compiled c.action →
    c.value.value = 0 ∧ ∀ st ∈ pre, ¬ Writes st c.reg

theorem allHold_iff {ss : List Statement} :
    (∀ outcomes, AllHold outcomes {} ss) ↔ TriviallyTrue ss := by
  constructor
  · intro h pre c post hss hc
    have hzero : c.value.value = 0 := by
      rw [← h (fun _ => false) pre c post hss hc]
      exact advance_zeros rfl
    refine ⟨hzero, fun st hst hw => ?_⟩
    refine advance_ones (s := {}) (.inr ⟨st, hst, hw⟩) ?_
    rw [h (fun _ => true) pre c post hss hc, hzero]
  · intro h outcomes pre c post hss hc
    obtain ⟨hzero, hw⟩ := h pre c post hss hc
    rw [advance_of_not_writes hw, hzero]

theorem statements_executed (outcomes : Nat → Bool) (k : Xacckernel) :
    (executed outcomes k).statements = straightLine outcomes {} k.statements :=
  statements_map _

/-- **Which conditionals are kept.** The compiled kernel does what OpenQASM
executes, under all outcomes of the measurements, if and only if every
conditional with a compiled action compares with zero a register that no
earlier measurement writes. -/
theorem compile_conditionals_iff {S : Services N} {before after : Xaccsrc}
    {k : Xacckernel} {ir : IR N}
    (h : compile S (before ++ k :: after) = .ok ir) :
    ConditionalsKept S before k after ir ↔ TriviallyTrue k.statements := by
  rw [ConditionalsKept, ← allHold_iff]
  refine forall_congr' fun outcomes => ?_
  have hname : (executed outcomes k).kernelname = k.kernelname := rfl
  rw [compile_replace h hname rfl, ← straightLine_eq_iff]
  obtain ⟨ns, hns, _⟩ := compiled_kernel h
  rw [hns, kernelNodes, kernelCallbacks, statements_executed]
  have hvisible : visible (before ++ [executed outcomes k]) = visible (before ++ [k]) :=
    visible_congr (by simp [executed])
  rw [hvisible]
  constructor
  · intro heq
    refine (straightLine_sublist outcomes {} k.statements).eq_of_length ?_
    rw [(mapM_ok.mp heq).length_eq, ← (mapM_ok.mp hns).length_eq]
    rfl
  · intro heq
    rw [heq]
    exact hns

/-- `measure q[0] -> c[0]; if (c == 1) x q[1];` -/
def flipIfOne : Xacckernel :=
  Sample.kernel Sample.f []
    [.qop (.measure ⟨.gatearg (.indexed Sample.q Sample.zero),
      .gatearg (.indexed Sample.c Sample.zero)⟩),
      .conditional ⟨Sample.c, Sample.one,
        .uop (Sample.apply Sample.x (.indexed Sample.q Sample.one))⟩]

/-- The `x` is compiled as an instruction of its own; after the outcome zero
OpenQASM executes the measurement alone. -/
theorem flipIfOne_not_kept :
    ¬ ∀ (N : Type) (S : Services N) (before : Xaccsrc) (k : Xacckernel)
        (after : Xaccsrc) (ir : IR N),
        compile S (before ++ k :: after) = .ok ir →
        ConditionalsKept S before k after ir := by
  intro h
  have hk := h String plainServices [] flipIfOne []
    ⟨[0], [⟨"f", [], [.inst ⟨"Measure", [0], [.int 0]⟩, .inst ⟨"X", [1], []⟩]⟩]⟩ rfl
    fun _ => false
  have hzero : compile plainServices [executed (fun _ => false) flipIfOne]
      = .ok ⟨[0], [⟨"f", [], [.inst ⟨"Measure", [0], [.int 0]⟩]⟩]⟩ := rfl
  exact absurd (Except.ok.inj (hzero.symm.trans hk)) (by decide)

/-- `if (c == 0) x q[0];` before any measurement. -/
def flipIfZero : Xacckernel :=
  Sample.kernel Sample.f [] [.conditional ⟨Sample.c, Sample.zero,
    .uop (Sample.apply Sample.x (.indexed Sample.q Sample.zero))⟩]

/-- The theorem at a condition that always holds. -/
theorem flipIfZero_kept :
    ConditionalsKept plainServices [] flipIfZero []
      ⟨[0], [⟨"f", [], [.inst ⟨"X", [0], []⟩]⟩]⟩ := by
  refine (compile_conditionals_iff (S := plainServices) rfl).mpr ?_
  intro pre c post hss _
  cases pre with
  | nil =>
      cases hss
      exact ⟨by decide, by simp⟩
  | cons st pre =>
      have hlen : 1 = _ := congrArg List.length hss
      simp only [List.cons_append, List.length_cons, List.length_append] at hlen
      omega

end XaccIbm.OQASMCompiler
