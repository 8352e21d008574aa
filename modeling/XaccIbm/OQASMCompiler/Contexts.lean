import XaccIbm.OQASMCompiler.Registry

/-!
# OQASMCompiler — Contexts

Which children the callbacks read without looking whether they are there:
the index of every operand, the expression list of a `U` and its first
three expressions, the labelled operands of a `measure`. A callback either
finds them all, and then it adds its node or the framework raises an error,
or the walk ends in it in a null pointer or in the exception of
`std::stoi`.
-/

namespace XaccIbm.OQASMCompiler

open OpenQasm Traverse

variable {N : Type}

/-! ## What a callback reads -/

/-- An operand with an index that fits an `int`. -/
def Indexed (a : GateArg) : Prop := ∃ i, index a = some i ∧ i.value < 2 ^ 31

/-- A `measure` operand read as a `gatearg` with such an index. -/
def Labelled (o : MeasureOperand) : Prop := ∃ a, gatearg o = some a ∧ Indexed a

/-- **Everything the callback reads is there.** -/
def WellFormed : Callback → Prop
  | .exitKernelcall _ => True
  | .exitUop (.U explist arg) =>
      Indexed arg ∧ ∃ es, explist = some es ∧ 3 ≤ es.toList.length
  | .exitUop (.CX a b) => Indexed a ∧ Indexed b
  | .exitUop (.UserDefGate _ _ args) => ∀ a ∈ args.toList, Indexed a
  | .exitMeasure m => Labelled m.qbit ∧ Labelled m.cbit

/-- The indices the callback reads, in this order, `none` for one that is
missing. -/
def indices : Callback → List (Option INT)
  | .exitKernelcall _ => []
  | .exitUop u => u.args.map index
  | .exitMeasure m => [(gatearg m.qbit).bind index, (gatearg m.cbit).bind index]

/-- An index that is there and fits an `int`. -/
def Readable (i : Option INT) : Prop := ∃ n, i = some n ∧ n.value < 2 ^ 31

/-- A `U` without its first three expressions, which are read behind the index. -/
def LacksExpression : Callback → Prop
  | .exitUop (.U explist _) => (expressions explist).length < 3
  | _ => False

/-- **The callback reads a missing child**: an index, behind readable ones only,
or an expression, when all indices are readable. -/
def ReadsNull (c : Callback) : Prop :=
  (∃ before after, indices c = before ++ none :: after ∧ ∀ i ∈ before, Readable i) ∨
    (∀ i ∈ indices c, Readable i) ∧ LacksExpression c

/-- **The callback reads an index that is no `int`**, behind readable ones only. -/
def ReadsTooLarge (c : Callback) : Prop :=
  ∃ before n after, indices c = before ++ some n :: after ∧
    (∀ i ∈ before, Readable i) ∧ 2 ^ 31 ≤ n.value

/-- A callback finds what it reads when its indices are readable and it lacks no
expression. -/
theorem wellFormed_iff {c : Callback} :
    WellFormed c ↔ (∀ i ∈ indices c, Readable i) ∧ ¬ LacksExpression c := by
  have hlabelled : ∀ o, Labelled o ↔ Readable ((gatearg o).bind index) := by
    intro o
    cases o <;> simp [Labelled, Indexed, Readable, gatearg]
  cases c with
  | exitKernelcall ctx => simp [WellFormed, indices, LacksExpression]
  | exitMeasure m => simp [WellFormed, indices, LacksExpression, hlabelled]
  | exitUop u =>
      cases u with
      | U explist arg =>
          have hthree : (∃ es, explist = some es ∧ 3 ≤ es.toList.length) ↔
              3 ≤ (expressions explist).length := by
            cases explist <;> simp [expressions]
          simp only [WellFormed, indices, LacksExpression, Uop.args, List.map_cons, List.map_nil,
            List.forall_mem_singleton, Nat.not_lt, hthree]
          exact Iff.rfl
      | CX a b => simp [WellFormed, indices, LacksExpression, Uop.args, Indexed, Readable]
      | UserDefGate g es as =>
          simp [WellFormed, indices, LacksExpression, Uop.args, Indexed, Readable]

/-! ## What the framework refuses -/

/-- The registry refuses one of the parameters, which go into the slots from the
`k`-th on. -/
def Services.RefusesParameter (S : Services N) :
    Nat → List (InstructionParameter N) → GateInstruction N → Prop
  | _, [], _ => False
  | k, p :: ps, i =>
      (∃ msg, S.setParameter i k p = .error msg) ∨
        ∃ i', S.setParameter i k p = .ok i' ∧ S.RefusesParameter (k + 1) ps i'

/-- The registry refuses to create the instruction, or one of the parameters it is
then given. -/
def Services.Refuses (S : Services N) (name : String) (bits : List Nat)
    (ps given : List (InstructionParameter N)) : Prop :=
  (∃ msg, S.createInstruction name bits ps = .error msg) ∨
    ∃ i, S.createInstruction name bits ps = .ok i ∧ S.RefusesParameter 0 given i

/-- What is asked for is refused: a kernel no name stands for, or an instruction on
the indices. -/
def RefusesAt (S : Services N) (functions : StdMap String Nat) : Callback → List Nat → Prop
  | .exitKernelcall ctx, _ => functions.find ctx.kernelname.text = none
  | .exitUop u, qs => S.Refuses (instructionName u) qs [] (slots S u)
  | .exitMeasure _, qs => S.Refuses "Measure" (qs.take 1) ((qs.drop 1).map .int) []

/-- **A callback that finds what it reads and is refused by the framework.** -/
def Refused (S : Services N) (x : StdMap String Nat × Callback) : Prop :=
  WellFormed x.2 ∧ ∃ ns : List INT,
    indices x.2 = ns.map some ∧ RefusesAt S x.1 x.2 (ns.map INT.value)

/-! ## Reading -/

/-- `…->INT()->getText()` through `std::stoi`. -/
def readIndex (i : Option INT) : Walk Nat := child i >>= stoi

theorem readIndex_ok {i : Option INT} {q : Nat} :
    readIndex i = .ok q ↔ ∃ n, i = some n ∧ n.value < 2 ^ 31 ∧ q = n.value := by
  rw [readIndex, bind_ok]
  simp only [child_ok, stoi_ok]

theorem readable_iff {i : Option INT} : Readable i ↔ ∃ q, readIndex i = .ok q := by
  simp only [readIndex_ok, Readable]
  constructor
  · rintro ⟨n, hn, hlt⟩
    exact ⟨n.value, n, hn, hlt, rfl⟩
  · rintro ⟨_, n, hn, hlt, _⟩
    exact ⟨n, hn, hlt⟩

theorem readIndex_error {i : Option INT} {e : WalkFailure} :
    readIndex i = .error e ↔
      (i = none ∧ e = .nullContext) ∨ ∃ n, i = some n ∧ 2 ^ 31 ≤ n.value ∧ e = .outOfRange := by
  cases i with
  | none =>
      have hnull : readIndex none = .error .nullContext := rfl
      rw [hnull, Except.error.injEq]
      simp [eq_comm]
  | some n =>
      have hstoi : readIndex (some n) = stoi n := rfl
      rw [hstoi, stoi_eq]
      split
      · simp
        omega
      · rename_i hlarge
        rw [Except.error.injEq]
        constructor
        · rintro rfl
          exact .inr ⟨n, rfl, Nat.not_lt.mp hlarge, rfl⟩
        · rintro (⟨hn, _⟩ | ⟨_, _, _, rfl⟩)
          · cases hn
          · rfl

theorem readIndices_ok {is : List (Option INT)} {qs : List Nat} :
    is.mapM readIndex = .ok qs ↔
      ∃ ns : List INT, is = ns.map some ∧ (∀ i ∈ is, Readable i) ∧ qs = ns.map INT.value := by
  rw [mapM_ok]
  constructor
  · intro h
    induction h with
    | nil => exact ⟨[], rfl, by simp, rfl⟩
    | cons hq _ ih =>
        obtain ⟨ns, rfl, hall, rfl⟩ := ih
        obtain ⟨n, rfl, hlt, rfl⟩ := readIndex_ok.mp hq
        exact ⟨n :: ns, rfl, List.forall_mem_cons.mpr ⟨⟨n, rfl, hlt⟩, hall⟩, rfl⟩
  · rintro ⟨ns, rfl, hall, rfl⟩
    rw [List.forall₂_map_left_iff, List.forall₂_map_right_iff, List.forall₂_same]
    intro n hn
    obtain ⟨m, hm, hlt⟩ := hall (some n) (List.mem_map_of_mem hn)
    cases hm
    exact readIndex_ok.mpr ⟨n, rfl, hlt, rfl⟩

theorem readIndices_readable {is : List (Option INT)} :
    (∃ qs, is.mapM readIndex = .ok qs) ↔ ∀ i ∈ is, Readable i := by
  constructor
  · rintro ⟨qs, hqs⟩
    exact (readIndices_ok.mp hqs).choose_spec.2.1
  · intro h
    rcases ok_or_error (is.mapM readIndex) with hqs | ⟨e, he⟩
    · exact hqs
    · obtain ⟨before, i, after, rfl, _, hi⟩ := mapM_error.mp he
      obtain ⟨q, hq⟩ := readable_iff.mp (h i (by simp))
      rw [hi] at hq
      cases hq

/-- Indices are not read because one is missing, or one is too large. -/
theorem readIndices_error {is : List (Option INT)} {e : WalkFailure} :
    is.mapM readIndex = .error e ↔
      (e = .nullContext ∧ ∃ before after, is = before ++ none :: after ∧
        ∀ i ∈ before, Readable i) ∨
      (e = .outOfRange ∧ ∃ before n after, is = before ++ some n :: after ∧
        (∀ i ∈ before, Readable i) ∧ 2 ^ 31 ≤ n.value) := by
  simp only [mapM_error, readIndex_error, ← readable_iff]
  constructor
  · rintro ⟨before, i, after, his, hbefore, ⟨rfl, rfl⟩ | ⟨n, rfl, hlarge, rfl⟩⟩
    · exact .inl ⟨rfl, before, after, his, hbefore⟩
    · exact .inr ⟨rfl, before, n, after, his, hbefore, hlarge⟩
  · rintro (⟨rfl, before, after, his, hbefore⟩ | ⟨rfl, before, n, after, his, hbefore, hlarge⟩)
    · exact ⟨before, none, after, his, hbefore, .inl ⟨rfl, rfl⟩⟩
    · exact ⟨before, some n, after, his, hbefore, .inr ⟨n, rfl, hlarge, rfl⟩⟩

/-! ## How a callback ends -/

variable (S : Services N)

/-- What a callback does when it has read its indices. -/
def nodeAt (functions : StdMap String Nat) : Callback → List Nat → Walk (Node N)
  | .exitKernelcall ctx, _ => nodeOf S functions (.exitKernelcall ctx)
  | .exitUop u, qs => do
      readExpressions u
      let inst ← service (S.createInstruction (instructionName u) qs [])
      Node.inst <$> setParameters S 0 (slots S u) inst
  | .exitMeasure _, qs =>
      Node.inst <$> service (S.createInstruction "Measure" (qs.take 1) ((qs.drop 1).map .int))

/-- **A callback reads its indices first.** -/
theorem nodeOf_eq (functions : StdMap String Nat) (c : Callback) :
    nodeOf S functions c = (indices c).mapM readIndex >>= nodeAt S functions c := by
  cases c with
  | exitKernelcall ctx => rfl
  | exitUop u =>
      rw [nodeOf, instructionUop_bind, indices, List.mapM_map]
      simp only [map_bind]
      rfl
  | exitMeasure m =>
      rw [nodeOf, instructionMeasure, indices]
      cases hq : gatearg m.qbit with
      | none => rfl
      | some a =>
          cases hc : gatearg m.cbit with
          | none =>
              simp only [child, List.mapM_cons, List.mapM_nil, bind_assoc, map_bind, pure_bind]
              rfl
          | some b =>
              simp only [child, List.mapM_cons, List.mapM_nil, bind_assoc, map_bind, pure_bind]
              rfl

variable {S}

theorem service_error {α : Type} {x : Except String α} {e : WalkFailure} :
    service x = .error e ↔ ∃ msg, e = .error msg ∧ x = .error msg := by
  cases x with
  | ok a => simp [service]
  | error msg => simp [service, eq_comm]

theorem readExpressions_ok {u : Uop} {x : Unit} :
    readExpressions u = .ok x ↔ ¬ LacksExpression (.exitUop u) := by
  cases u with
  | U explist arg =>
      rw [readExpressions, LacksExpression, not_lt]
      split
      · rename_i hlen
        exact iff_of_true rfl hlen
      · rename_i hlen
        exact iff_of_false (by simp) hlen
  | CX a b => exact iff_of_true rfl id
  | UserDefGate g es as => exact iff_of_true rfl id

theorem readExpressions_error {u : Uop} {e : WalkFailure} (h : readExpressions u = .error e) :
    LacksExpression (.exitUop u) ∧ e = .nullContext := by
  constructor
  · by_contra hno
    rw [(@readExpressions_ok u ()).mpr hno] at h
    cases h
  · cases u with
    | U explist arg =>
        rw [readExpressions] at h
        split at h
        · cases h
        · cases h
          rfl
    | CX a b => cases h
    | UserDefGate g es as => cases h

/-- Parameters end in an error of the registry. -/
theorem setParameters_error {ps : List (InstructionParameter N)} {k : Nat}
    {i : GateInstruction N} {e : WalkFailure} (h : setParameters S k ps i = .error e) :
    ∃ msg, e = .error msg := by
  induction ps generalizing k i with
  | nil => cases h
  | cons p ps ih =>
      rcases bind_error.mp h with h | ⟨i', _, h⟩
      · obtain ⟨msg, rfl, _⟩ := service_error.mp h
        exact ⟨msg, rfl⟩
      · exact ih h

theorem refusesParameter_iff {ps : List (InstructionParameter N)} {k : Nat}
    {i : GateInstruction N} :
    S.RefusesParameter k ps i ↔ ∃ msg, setParameters S k ps i = .error (.error msg) := by
  induction ps generalizing k i with
  | nil => simp [Services.RefusesParameter, setParameters]
  | cons p ps ih =>
      simp only [Services.RefusesParameter, setParameters, bind_error, service_error, service_ok,
        ih, exists_or, WalkFailure.error.injEq]
      refine or_congr (by simp) ?_
      constructor
      · rintro ⟨i', hi', msg, h⟩
        exact ⟨msg, i', hi', h⟩
      · rintro ⟨msg, i', hi', h⟩
        exact ⟨i', hi', msg, h⟩

/-- An instruction that is created and given its parameters ends in an error of the
registry exactly when the registry refuses it. -/
theorem refuses_iff {name : String} {bits : List Nat} {ps given : List (InstructionParameter N)} :
    S.Refuses name bits ps given ↔
      ∃ msg, (service (S.createInstruction name bits ps) >>= setParameters S 0 given)
        = .error (.error msg) := by
  simp only [Services.Refuses, bind_error, service_error, service_ok, refusesParameter_iff,
    exists_or, WalkFailure.error.injEq]
  refine or_congr (by simp) ?_
  constructor
  · rintro ⟨i', hi', msg, h⟩
    exact ⟨msg, i', hi', h⟩
  · rintro ⟨msg, i', hi', h⟩
    exact ⟨i', hi', msg, h⟩

/-- When its indices are read, a callback lacks an expression, or ends in an error of
the framework, which is a refusal, or adds its node. -/
theorem nodeAt_error {functions : StdMap String Nat} {c : Callback} {qs : List Nat}
    {e : WalkFailure} (h : nodeAt S functions c qs = .error e) :
    (LacksExpression c ∧ e = .nullContext) ∨
      (¬ LacksExpression c ∧ RefusesAt S functions c qs ∧ ∃ msg, e = .error msg) := by
  cases c with
  | exitKernelcall ctx =>
      refine .inr ⟨id, ?_⟩
      rw [nodeAt, nodeOf] at h
      split at h
      · cases h
      · rename_i hfind
        cases h
        exact ⟨hfind, _, rfl⟩
  | exitUop u =>
      rcases bind_error.mp h with h | ⟨_, hread, h⟩
      · exact .inl (readExpressions_error h)
      · refine .inr ⟨readExpressions_ok.mp hread, ?_⟩
        have hmsg : ∃ msg, e = .error msg := by
          rcases bind_error.mp h with h | ⟨inst, _, h⟩
          · obtain ⟨msg, rfl, _⟩ := service_error.mp h
            exact ⟨msg, rfl⟩
          · exact setParameters_error (map_error.mp h)
        obtain ⟨msg, rfl⟩ := hmsg
        refine ⟨refuses_iff.mpr ⟨msg, ?_⟩, msg, rfl⟩
        rw [← map_bind, map_error] at h
        exact h
  | exitMeasure m =>
      obtain ⟨msg, rfl, hcreate⟩ := service_error.mp (map_error.mp h)
      exact .inr ⟨id, .inl ⟨msg, hcreate⟩, msg, rfl⟩

/-- A callback that returns is not refused and lacks no expression. -/
theorem nodeAt_ok {functions : StdMap String Nat} {c : Callback} {qs : List Nat} {n : Node N}
    (h : nodeAt S functions c qs = .ok n) :
    ¬ LacksExpression c ∧ ¬ RefusesAt S functions c qs := by
  cases c with
  | exitKernelcall ctx =>
      refine ⟨id, fun hnone => ?_⟩
      have hnone : functions.find ctx.kernelname.text = none := hnone
      rw [nodeAt, nodeOf, hnone] at h
      cases h
  | exitUop u =>
      obtain ⟨_, hread, h⟩ := bind_ok.mp h
      refine ⟨readExpressions_ok.mp hread, fun hrefused => ?_⟩
      obtain ⟨msg, hmsg⟩ := refuses_iff.mp hrefused
      rw [← map_bind, hmsg] at h
      cases h
  | exitMeasure m =>
      refine ⟨id, ?_⟩
      rintro (⟨msg, hmsg⟩ | ⟨_, _, hnever⟩)
      · rw [nodeAt, hmsg] at h
        cases h
      · exact hnever

theorem nodeAt_null {functions : StdMap String Nat} {c : Callback} {qs : List Nat} :
    nodeAt S functions c qs = .error .nullContext ↔ LacksExpression c := by
  constructor
  · intro h
    rcases nodeAt_error h with ⟨hlacks, _⟩ | ⟨_, _, msg, hmsg⟩
    · exact hlacks
    · cases hmsg
  · intro hlacks
    rcases ok_or_error (nodeAt S functions c qs) with ⟨n, hn⟩ | ⟨e, he⟩
    · exact absurd hlacks (nodeAt_ok hn).1
    · rcases nodeAt_error he with ⟨_, rfl⟩ | ⟨hno, _⟩
      · exact he
      · exact absurd hlacks hno

theorem nodeAt_refused {functions : StdMap String Nat} {c : Callback} {qs : List Nat} :
    (∃ msg, nodeAt S functions c qs = .error (.error msg)) ↔
      ¬ LacksExpression c ∧ RefusesAt S functions c qs := by
  constructor
  · rintro ⟨msg, h⟩
    rcases nodeAt_error h with ⟨_, hnull⟩ | ⟨hno, hrefused, _⟩
    · cases hnull
    · exact ⟨hno, hrefused⟩
  · rintro ⟨hno, hrefused⟩
    rcases ok_or_error (nodeAt S functions c qs) with ⟨n, hn⟩ | ⟨e, he⟩
    · exact absurd hrefused (nodeAt_ok hn).2
    · rcases nodeAt_error he with ⟨hlacks, _⟩ | ⟨_, _, msg, rfl⟩
      · exact absurd hlacks hno
      · exact ⟨msg, he⟩

/-- **The null pointers**: the walk ends in one exactly where the tree lacks the child. -/
theorem nodeOf_null {functions : StdMap String Nat} {c : Callback} :
    nodeOf S functions c = .error .nullContext ↔ ReadsNull c := by
  rw [nodeOf_eq, bind_error, readIndices_error, ReadsNull, ← readIndices_readable]
  simp only [nodeAt_null, true_and, false_and, or_false, exists_and_right, reduceCtorEq]

/-- **The indices out of range**, likewise. -/
theorem nodeOf_outOfRange {functions : StdMap String Nat} {c : Callback} :
    nodeOf S functions c = .error .outOfRange ↔ ReadsTooLarge c := by
  have hnever : ∀ qs, nodeAt S functions c qs ≠ .error .outOfRange := by
    intro qs h
    rcases nodeAt_error h with ⟨_, h⟩ | ⟨_, _, _, h⟩ <;> cases h
  rw [nodeOf_eq, bind_error, readIndices_error, ReadsTooLarge]
  simp only [hnever, true_and, false_and, and_false, exists_false, or_false, false_or, reduceCtorEq]

/-- **The errors of the framework**: a callback ends in one exactly when it finds what it
reads and is refused. -/
theorem nodeOf_refused {functions : StdMap String Nat} {c : Callback} :
    (∃ msg, nodeOf S functions c = .error (.error msg)) ↔ Refused S (functions, c) := by
  have hread : (∃ msg, nodeOf S functions c = .error (.error msg)) ↔
      ∃ qs, (indices c).mapM readIndex = .ok qs ∧
        ∃ msg, nodeAt S functions c qs = .error (.error msg) := by
    simp only [nodeOf_eq, bind_error, readIndices_error, reduceCtorEq, false_and, false_or]
    constructor
    · rintro ⟨msg, qs, hqs, h⟩
      exact ⟨qs, hqs, msg, h⟩
    · rintro ⟨qs, hqs, msg, h⟩
      exact ⟨msg, qs, hqs, h⟩
  simp only [hread, nodeAt_refused, readIndices_ok, Refused, wellFormed_iff]
  constructor
  · rintro ⟨_, ⟨ns, hns, hall, rfl⟩, hno, hrefused⟩
    exact ⟨⟨hall, hno⟩, ns, hns, hrefused⟩
  · rintro ⟨⟨hall, hno⟩, ns, hns, hrefused⟩
    exact ⟨_, ⟨ns, hns, hall, rfl⟩, hno, hrefused⟩

/-- A walk that returns or ends in `xacc::error`. -/
def Defined {α : Type} (x : Walk α) : Prop :=
  (∃ a, x = .ok a) ∨ ∃ msg, x = .error (.error msg)

theorem not_defined {α : Type} {x : Walk α} (h : ¬ Defined x) :
    ∃ e, x = .error e ∧ ∀ msg, e ≠ .error msg := by
  cases x with
  | ok a => exact absurd (.inl ⟨a, rfl⟩) h
  | error e => exact ⟨e, rfl, fun msg he => h (.inr ⟨msg, by rw [he]⟩)⟩

/-- **A callback is defined exactly when everything it reads is there.** -/
theorem defined_nodeOf (functions : StdMap String Nat) (c : Callback) :
    Defined (nodeOf S functions c) ↔ WellFormed c := by
  constructor
  · rintro (⟨n, hn⟩ | hmsg)
    · rw [nodeOf_eq] at hn
      obtain ⟨qs, hqs, hn⟩ := bind_ok.mp hn
      exact wellFormed_iff.mpr ⟨readIndices_readable.mp ⟨qs, hqs⟩, (nodeAt_ok hn).1⟩
    · exact (nodeOf_refused.mp hmsg).1
  · intro h
    obtain ⟨hall, hno⟩ := wellFormed_iff.mp h
    obtain ⟨qs, hqs⟩ := readIndices_readable.mpr hall
    have hnode : nodeOf S functions c = nodeAt S functions c qs := by
      rw [nodeOf_eq, hqs]
      rfl
    rw [hnode]
    rcases ok_or_error (nodeAt S functions c qs) with hn | ⟨e, he⟩
    · exact .inl hn
    · rcases nodeAt_error he with ⟨hlacks, _⟩ | ⟨_, _, msg, rfl⟩
      · exact absurd hlacks hno
      · exact .inr ⟨msg, he⟩

/-- An exception, of the framework or of the standard library. -/
def Raises {α : Type} (x : Walk α) : Prop :=
  ∃ e, x = .error e ∧ e ≠ .nullContext

/-- A callback raises one when it reads an index too large, or is refused. -/
theorem raises_nodeOf {x : StdMap String Nat × Callback} :
    Raises (nodeOf S x.1 x.2) ↔ ReadsTooLarge x.2 ∨ Refused S x := by
  have hlarge : nodeOf S x.1 x.2 = .error .outOfRange ↔ ReadsTooLarge x.2 := nodeOf_outOfRange
  rw [← hlarge, ← nodeOf_refused]
  constructor
  · rintro ⟨e, he, hne⟩
    cases e with
    | error msg => exact .inr ⟨msg, he⟩
    | outOfRange => exact .inl he
    | nullContext => exact absurd rfl hne
  · rintro (h | ⟨msg, h⟩)
    · exact ⟨_, h, by simp⟩
    · exact ⟨_, h, by simp⟩

/-! ## The walk -/

variable (S)

/-- The walk of a source whose first failing callback is `c`. -/
theorem compile_first {src : Xaccsrc}
    {before after : List (StdMap String Nat × Callback)}
    {c : StdMap String Nat × Callback} {e : WalkFailure}
    (hsplit : sourceCallbacks src = before ++ c :: after)
    (hc : nodeOf S c.1 c.2 = .error e) :
    compile S src = .error e ∨ ∃ x ∈ before, ∃ e',
      nodeOf S x.1 x.2 = .error e' ∧ compile S src = .error e' := by
  rcases ok_or_error (before.mapM fun x => nodeOf S x.1 x.2) with ⟨ns, hns⟩ | ⟨e', he'⟩
  · refine .inl (compile_error.mpr ⟨before, c, after, hsplit, fun x hx => ?_, hc⟩)
    obtain ⟨n, _, hn⟩ := mapM_ok_mem hns hx
    exact ⟨n, hn⟩
  · obtain ⟨b, x, b', rfl, hb, hx⟩ := mapM_error.mp he'
    refine .inr ⟨x, by simp, e', hx, compile_error.mpr ⟨b, x, b' ++ c :: after, ?_, hb, hx⟩⟩
    rw [hsplit, List.append_assoc, List.cons_append]

/-- A source raises an error exactly when a callback does before any callback
reads a missing child. -/
theorem raises_iff {src : Xaccsrc} :
    Raises (compile S src) ↔
      ∃ before c after, sourceCallbacks src = before ++ c :: after ∧
        (∀ x ∈ before, ¬ ReadsNull x.2) ∧ (ReadsTooLarge c.2 ∨ Refused S c) := by
  simp only [← raises_nodeOf]
  constructor
  · rintro ⟨e, he, hne⟩
    obtain ⟨before, c, after, hsplit, hbefore, hc⟩ := compile_error.mp he
    refine ⟨before, c, after, hsplit, fun x hx hnull => ?_, e, hc, hne⟩
    obtain ⟨n, hn⟩ := hbefore x hx
    rw [nodeOf_null.mpr hnull] at hn
    cases hn
  · rintro ⟨before, c, after, hsplit, hbefore, e, hc, hne⟩
    rcases compile_first S hsplit hc with h | ⟨x, hx, e', hx', h⟩
    · exact ⟨e, h, hne⟩
    · refine ⟨e', h, ?_⟩
      rintro rfl
      exact hbefore x hx (nodeOf_null.mp hx')

/-- Without an error and without a missing child the walk returns. -/
theorem compile_of_not_raises {src : Xaccsrc} (hr : ¬ Raises (compile S src))
    (hnull : ∀ x ∈ sourceCallbacks src, ¬ ReadsNull x.2) :
    ∃ ir, compile S src = .ok ir := by
  rcases ok_or_error (compile S src) with hir | ⟨e, he⟩
  · exact hir
  · refine absurd ⟨e, he, ?_⟩ hr
    rintro rfl
    obtain ⟨before, c, after, hsplit, _, hc⟩ := compile_error.mp he
    exact hnull c (by simp [hsplit]) (nodeOf_null.mp hc)

/-- A walk that returns reads no missing child. -/
theorem compile_ok_not_null {src : Xaccsrc} {ir : IR N} (h : compile S src = .ok ir) :
    ∀ x ∈ sourceCallbacks src, ¬ ReadsNull x.2 := by
  intro x hx hnull
  obtain ⟨before, after, hsplit⟩ := List.append_of_mem hx
  rcases compile_first S hsplit (nodeOf_null.mpr hnull) with he | ⟨_, _, e, _, he⟩
  · rw [h] at he
    cases he
  · rw [h] at he
    cases he

/-- **Which trees are walked safely.** The walk returns or ends in
`xacc::error` if and only if every callback that reads something its
context does not have comes after one the framework refuses. -/
theorem compile_defined_iff (src : Xaccsrc) :
    Defined (compile S src) ↔
      ∀ before c after, sourceCallbacks src = before ++ c :: after →
        ¬ WellFormed c.2 → ∃ x ∈ before, Refused S x := by
  constructor
  · intro h before c after hsplit hill
    rw [← defined_nodeOf (S := S) c.1] at hill
    obtain ⟨e, he, hne⟩ := not_defined hill
    have hfails : ∀ {e'}, compile S src = .error e' → ∃ msg, e' = .error msg := by
      intro e' he'
      rcases h with ⟨ir, hir⟩ | ⟨msg, hmsg⟩
      · rw [he'] at hir
        cases hir
      · rw [he'] at hmsg
        exact ⟨msg, Except.error.inj hmsg⟩
    rcases compile_first S hsplit he with hsrc | ⟨x, hx, e', he', hsrc⟩
    · obtain ⟨msg, hmsg⟩ := hfails hsrc
      exact absurd hmsg (hne msg)
    · obtain ⟨msg, rfl⟩ := hfails hsrc
      exact ⟨x, hx, nodeOf_refused.mp ⟨msg, he'⟩⟩
  · intro h
    by_contra hno
    obtain ⟨e, he, hne⟩ := not_defined hno
    obtain ⟨before, c, after, hsplit, hbefore, hc⟩ := compile_error.mp he
    have hill : ¬ WellFormed c.2 := by
      rw [← defined_nodeOf (S := S) c.1, hc]
      rintro (⟨_, h⟩ | ⟨msg, h⟩)
      · cases h
      · exact hne msg (Except.error.inj h)
    obtain ⟨x, hx, hrefused⟩ := h before c after hsplit hill
    obtain ⟨msg, hmsg⟩ := nodeOf_refused.mpr hrefused
    obtain ⟨n, hn⟩ := hbefore x hx
    rw [hmsg] at hn
    cases hn

/-- `qreg q[2]; h q;` applies a gate to a whole register. -/
def wholeRegister : Xaccsrc :=
  [Sample.kernel Sample.f [] [.regdecl (.qreg (.sized Sample.q Sample.two)),
    .qop (.uop (Sample.apply Sample.h (.bare Sample.q)))]]

/-- It is walked into a null pointer. -/
theorem wholeRegister_not_defined :
    ¬ ∀ (N : Type) (S : Services N) (src : Xaccsrc), Defined (compile S src) := by
  intro h
  have he : compile plainServices wholeRegister = .error .nullContext := rfl
  rcases h String plainServices wholeRegister with ⟨ir, hir⟩ | ⟨msg, hmsg⟩
  · rw [he] at hir
    cases hir
  · rw [he] at hmsg
    cases hmsg

end XaccIbm.OQASMCompiler
