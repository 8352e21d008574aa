import XaccIbm.OpenQasm.Program
import XaccIbm.OpenQasmVisitor.Visit

/-!
# OpenQasmVisitor — Emission

The visitor without its texts. An instruction either is rejected, for a
reason that depends on the instruction alone, or adds pieces to the program
and operations to the JSON array; what it adds depends only on the
registers so far, and the registers move on in the same way whether or not
the instruction is accepted. `accept_eq` says that the visitor of the
source is exactly this.
-/

namespace XaccIbm

open OpenQasmVisitor

variable {P : Type}

/-! ## Registers -/

/-- The visitor's bookkeeping of classical registers. -/
structure Registers where
  index : StdMap Nat Nat := ∅
  counter : Nat := 0

namespace Registers

/-- How an instruction moves the registers. A conditional only reads, but
reading creates an entry. -/
def step (r : Registers) : Instruction (Gate P) → Registers
  | .leaf _ (.measure q _) => ⟨r.index.insert q r.counter, r.counter + 1⟩
  | .conditional _ q _ => ⟨r.index.insert q 0, r.counter⟩
  | _ => r

/-- The registers after a list of instructions. -/
def steps (r : Registers) : List (Instruction (Gate P)) → Registers
  | [] => r
  | i :: is => (r.step i).steps is

@[simp] theorem steps_nil (r : Registers) :
    r.steps ([] : List (Instruction (Gate P))) = r := rfl

@[simp] theorem steps_cons (r : Registers) (i : Instruction (Gate P))
    (is : List (Instruction (Gate P))) :
    r.steps (i :: is) = (r.step i).steps is := rfl

end Registers

/-! ## What an instruction adds -/

/-- The operations a gate becomes, with `c` the next free register. -/
def Gate.ops (c : Nat) : Gate P → List (QOp P)
  | .identity q => [.id q]
  | .hadamard q => [.u2 .zero .pi q]
  | .x q => [.u3 .pi .zero .pi q]
  | .y q => [.u3 .pi .halfPi .pi q]
  | .z q => [.u1 .pi q]
  | .cnot a b => [.cx a b]
  | .swap a b => [.cx a b, .cx b a, .cx a b]
  | .cz _ _ => []
  | .cphase _ _ _ => []
  | .rx theta q => [.u3 (.param theta) .negHalfPi .halfPi q]
  | .ry theta q => [.u3 (.param theta) .zero .zero q]
  | .rz theta q => [.u1 (.param theta) q]
  | .u theta phi lambda q => [.U (.param theta) (.param phi) (.param lambda) q]
  | .measure q _ => [.measure q c]

/-- An operation as pieces of text: a measurement declares its register. -/
def QOp.pieces : QOp P → List (Piece P)
  | .measure q c => [.creg c, .op (.measure q c)]
  | o => [.op o]

def Gate.pieces (c : Nat) (g : Gate P) : List (Piece P) :=
  (g.ops c).flatMap QOp.pieces

/-- The operations of a gate's pieces, in front of other pieces. -/
theorem operationsFrom_pieces (os : List (QOp P)) (ps : List (Piece P)) :
    operationsFrom [] (os.flatMap QOp.pieces ++ ps)
      = os.map (⟨[], ·⟩) ++ operationsFrom [] ps := by
  induction os with
  | nil => rfl
  | cons o os ih =>
      rw [List.flatMap_cons, List.append_assoc]
      cases o with
      | measure q c => simp [QOp.pieces, operationsFrom, ih]
      | _ => simp [QOp.pieces, operationsFrom, ih]

/-- The error a gate is refused with. -/
def Gate.refusal : Gate P → Option String
  | .cz _ _ => some "cz not supported"
  | _ => none

mutual

/-- The error an instruction is rejected with. -/
def rejection (i : Instruction (Gate P)) : Option String :=
  match i with
  | .leaf _ g => g.refusal
  | .function _ _ _ => none
  | .conditional _ _ body =>
      if body.length > 1 then
        some "IBM only supports single conditional operations."
      else rejections body

/-- The first rejection of a list. -/
def rejections (is : List (Instruction (Gate P))) : Option String :=
  match is with
  | [] => none
  | i :: is => (rejection i).or (rejections is)

end

mutual

/-- The pieces an accepted instruction adds to the program text. -/
def pieces (r : Registers) (i : Instruction (Gate P)) : List (Piece P) :=
  match i with
  | .leaf _ g => g.pieces r.counter
  | .function _ _ _ => []
  | .conditional _ q body =>
      .guard (r.index.getD q 0) :: piecesList {} body

def piecesList (r : Registers) (is : List (Instruction (Gate P))) :
    List (Piece P) :=
  match is with
  | [] => []
  | i :: is => pieces r i ++ piecesList (r.step i) is

end

/-- The operations an instruction adds to the JSON array: a conditional,
whose body goes through another visitor, adds none. -/
def recorded (r : Registers) : Instruction (Gate P) → List (QOp P)
  | .leaf _ g => g.ops r.counter
  | .function _ _ _ => []
  | .conditional _ _ _ => []

def recordedList (r : Registers) :
    List (Instruction (Gate P)) → List (QOp P)
  | [] => []
  | i :: is => recorded r i ++ recordedList (r.step i) is

@[simp] theorem rejections_nil :
    rejections ([] : List (Instruction (Gate P))) = none := by
  rw [rejections]

@[simp] theorem rejections_cons (i : Instruction (Gate P))
    (is : List (Instruction (Gate P))) :
    rejections (i :: is) = (rejection i).or (rejections is) := by
  rw [rejections]

/-- A list is accepted when every instruction in it is. -/
theorem rejections_eq_none {is : List (Instruction (Gate P))} :
    rejections is = none ↔ ∀ i ∈ is, rejection i = none := by
  induction is with
  | nil => simp
  | cons i is ih => simp [Option.or_eq_none_iff, ih]

@[simp] theorem piecesList_nil (r : Registers) :
    piecesList r ([] : List (Instruction (Gate P))) = [] := by
  rw [piecesList]

@[simp] theorem piecesList_cons (r : Registers) (i : Instruction (Gate P))
    (is : List (Instruction (Gate P))) :
    piecesList r (i :: is) = pieces r i ++ piecesList (r.step i) is := by
  rw [piecesList]

theorem piecesList_append (r : Registers)
    (is js : List (Instruction (Gate P))) :
    piecesList r (is ++ js) = piecesList r is ++ piecesList (r.steps is) js := by
  induction is generalizing r with
  | nil => simp
  | cons i is ih => simp [ih]

@[simp] theorem recordedList_nil (r : Registers) :
    recordedList r ([] : List (Instruction (Gate P))) = [] := rfl

@[simp] theorem recordedList_cons (r : Registers) (i : Instruction (Gate P))
    (is : List (Instruction (Gate P))) :
    recordedList r (i :: is) = recorded r i ++ recordedList (r.step i) is := rfl

theorem recordedList_append (r : Registers)
    (is js : List (Instruction (Gate P))) :
    recordedList r (is ++ js)
      = recordedList r is ++ recordedList (r.steps is) js := by
  induction is generalizing r with
  | nil => rfl
  | cons i is ih => simp [ih]

/-! ## Where pieces and operations come from -/

/-- An operation that is recorded is one of a gate of the list. -/
theorem gate_of_mem_recordedList {o : QOp P} {is : List (Instruction (Gate P))} {r : Registers}
    (h : o ∈ recordedList r is) : ∃ e g c, .leaf e g ∈ is ∧ o ∈ g.ops c := by
  induction is generalizing r with
  | nil => cases h
  | cons i is ih =>
      rcases List.mem_append.mp h with ho | ho
      · cases i with
        | leaf e g => exact ⟨e, g, r.counter, by simp, ho⟩
        | conditional e q body => cases ho
        | function e n body => cases ho
      · obtain ⟨e, g, c, hg, hc⟩ := ih ho
        exact ⟨e, g, c, List.mem_cons_of_mem _ hg, hc⟩

mutual

/-- A piece of an instruction is a guard or a piece of a gate in its tree. -/
theorem gate_of_mem_pieces {p : Piece P} {i : Instruction (Gate P)} {r : Registers}
    (h : p ∈ pieces r i) :
    (∃ c, p = .guard c) ∨ ∃ e g c, .leaf e g ∈ i.preorder ∧ p ∈ g.pieces c := by
  match i with
  | .leaf e g =>
      rw [pieces] at h
      exact .inr ⟨e, g, r.counter, by simp [Instruction.preorder], h⟩
  | .function e n body =>
      rw [pieces] at h
      cases h
  | .conditional e q body =>
      rw [pieces] at h
      rcases List.mem_cons.mp h with rfl | h
      · exact .inl ⟨_, rfl⟩
      · rcases gate_of_mem_piecesList h with hguard | ⟨e, g, c, hg, hp⟩
        · exact .inl hguard
        · refine .inr ⟨e, g, c, ?_, hp⟩
          rw [Instruction.preorder]
          exact List.mem_cons_of_mem _ hg

/-- The same for a list. -/
theorem gate_of_mem_piecesList {p : Piece P} {is : List (Instruction (Gate P))} {r : Registers}
    (h : p ∈ piecesList r is) :
    (∃ c, p = .guard c) ∨
      ∃ e g c, .leaf e g ∈ Instruction.preorderList is ∧ p ∈ g.pieces c := by
  match is with
  | [] =>
      rw [piecesList_nil] at h
      cases h
  | i :: is =>
      rw [piecesList_cons] at h
      rcases List.mem_append.mp h with h | h
      · rcases gate_of_mem_pieces h with hguard | ⟨e, g, c, hg, hp⟩
        · exact .inl hguard
        · exact .inr ⟨e, g, c, List.mem_append_left _ hg, hp⟩
      · rcases gate_of_mem_piecesList h with hguard | ⟨e, g, c, hg, hp⟩
        · exact .inl hguard
        · exact .inr ⟨e, g, c, List.mem_append_right _ hg, hp⟩

end

/-! ## The JSON text of an operation -/

variable [ToString P]

/-- The element of an operation in the JSON array, with the comma that
follows it. -/
def QOp.jsonChunks : QOp P → List String
  | .id q => ["\x7b\"name\":\"id\",\"params\": [],\"qubits\":[", toString q, "]\x7d,"]
  | .u1 a q =>
      ["\x7b\"name\":\"u1\",\"params\": [", a.text, "],\"qubits\":[",
        toString q, "]\x7d,"]
  | .u2 .zero b q =>
      ["\x7b\"name\":\"u2\",\"params\": [0.0,", b.text, "],\"qubits\":[",
        toString q, "]\x7d,"]
  | .u2 a b q =>
      ["\x7b\"name\":\"u2\",\"params\": [", a.text, ",", b.text,
        "],\"qubits\":[", toString q, "]\x7d,"]
  | .u3 a b c q =>
      ["\x7b\"name\":\"u3\",\"params\": [", a.text, ", ", b.text, ", ", c.text,
        "],\"qubits\":[", toString q, "]\x7d,"]
  | .U a b c q =>
      ["\x7b\"name\":\"U\",\"params\": [", a.text, ", ", b.text, ", ", c.text,
        "],\"qubits\":[", toString q, "]\x7d,"]
  | .cx a b =>
      ["\x7b\"name\":\"cx\",\"params\": [],\"qubits\":[", toString a, ", ",
        toString b, "]\x7d,"]
  | .measure q c =>
      ["\x7b\"clbits\":[", toString c, "],\"name\":\"measure\",\"qubits\":[",
        toString q, "]\x7d,"]

/-- The text of a list of elements. -/
def jsonText (os : List (QOp P)) : String :=
  String.join (os.flatMap QOp.jsonChunks)

@[simp] theorem jsonText_nil : jsonText ([] : List (QOp P)) = "" := by
  simp [jsonText]

/-! ## The visitor is its emission -/

namespace OpenQasmVisitor

/-- The registers of a visitor. -/
def registers (v : OpenQasmVisitor) : Registers :=
  ⟨v.qubitToClassicalBitIndex, v.classicalBitCounter⟩

/-- A visitor with other registers. -/
def withRegisters (v : OpenQasmVisitor) (r : Registers) : OpenQasmVisitor :=
  { v with
    qubitToClassicalBitIndex := r.index
    classicalBitCounter := r.counter }

/-- A visitor that has written more pieces and recorded more operations. -/
def emit (v : OpenQasmVisitor) (ps : List (Piece P)) (os : List (QOp P)) :
    OpenQasmVisitor :=
  v.write (ps.flatMap Piece.chunks) (os.flatMap QOp.jsonChunks)

@[simp] theorem registers_withRegisters (v : OpenQasmVisitor) (r : Registers) :
    (v.withRegisters r).registers = r := rfl

@[simp] theorem registers_emit (v : OpenQasmVisitor) (ps : List (Piece P))
    (os : List (QOp P)) : (v.emit ps os).registers = v.registers := rfl

@[simp] theorem registers_new (n : Nat) (b : Bool) :
    (new n b).registers = {} := rfl

@[simp] theorem withRegisters_withRegisters (v : OpenQasmVisitor)
    (r r' : Registers) :
    (v.withRegisters r).withRegisters r' = v.withRegisters r' := rfl

@[simp] theorem emit_withRegisters (v : OpenQasmVisitor) (r : Registers)
    (ps : List (Piece P)) (os : List (QOp P)) :
    (v.withRegisters r).emit ps os = (v.emit ps os).withRegisters r := rfl

@[simp] theorem native_emit (v : OpenQasmVisitor) (ps : List (Piece P))
    (os : List (QOp P)) :
    (v.emit ps os).native = v.native ++ Piece.render ps := rfl

@[simp] theorem native_withRegisters (v : OpenQasmVisitor) (r : Registers) :
    (v.withRegisters r).native = v.native := rfl

@[simp] theorem operationsJsonStr_emit (v : OpenQasmVisitor)
    (ps : List (Piece P)) (os : List (QOp P)) :
    (v.emit ps os).operationsJsonStr = v.operationsJsonStr ++ jsonText os := rfl

@[simp] theorem operationsJsonStr_withRegisters (v : OpenQasmVisitor)
    (r : Registers) :
    (v.withRegisters r).operationsJsonStr = v.operationsJsonStr := rfl

@[simp] theorem emit_nil (v : OpenQasmVisitor) :
    v.emit ([] : List (Piece P)) [] = v := by
  simp [emit, write]

theorem emit_emit (v : OpenQasmVisitor) (ps ps' : List (Piece P))
    (os os' : List (QOp P)) :
    (v.emit ps os).emit ps' os' = v.emit (ps ++ ps') (os ++ os') := by
  simp [emit, write, String.append_assoc]

/-- One `cx` written is one operation emitted. -/
private theorem visitCNOT_eq (a b : Nat) (v : OpenQasmVisitor) :
    visitCNOT a b v = v.emit [.op (.cx a b : QOp P)] [.cx a b] := rfl

/-- A gate that is not refused writes its operations. -/
theorem visitGate_eq (e : Bool) {g : Gate P} (hg : g.refusal = none)
    (v : OpenQasmVisitor) :
    visitGate g v = .ok () ((v.emit (g.pieces v.classicalBitCounter)
      (g.ops v.classicalBitCounter)).withRegisters
        (v.registers.step (.leaf e g))) := by
  cases g with
  | cz a b => cases hg
  | cphase theta a b =>
      show _ = EStateM.Result.ok () (v.emit ([] : List (Piece P)) [])
      rw [emit_nil]
      rfl
  | swap a b =>
      show EStateM.Result.ok () (visitSwap a b v) = _
      rw [visitSwap, visitCNOT_eq (P := P), visitCNOT_eq (P := P),
        visitCNOT_eq (P := P), emit_emit, emit_emit]
      rfl
  | _ => rfl

/-- A refused gate leaves the visitor as it was. -/
theorem visitGate_refused {g : Gate P} {msg : String}
    (hg : g.refusal = some msg) (v : OpenQasmVisitor) :
    visitGate g v = .error (.error msg) v := by
  cases g with
  | cz a b =>
      cases hg
      rfl
  | _ => cases hg

/-- What the visitor owes an instruction: an accepted one is emitted, a
rejected one raises its own error and moves the registers only. -/
structure Visited (i : Instruction (Gate P)) (v : OpenQasmVisitor) : Prop where
  accepted : rejection i = none →
    accept i v = .ok () ((v.emit (pieces v.registers i)
      (recorded v.registers i)).withRegisters (v.registers.step i))
  rejected : ∀ msg, rejection i = some msg →
    accept i v = .error (.error msg) (v.withRegisters (v.registers.step i))

/-- The same for a list, which ends at its first rejection. -/
structure VisitedAll (is : List (Instruction (Gate P))) (v : OpenQasmVisitor) :
    Prop where
  accepted : rejections is = none →
    acceptAll is v = .ok () ((v.emit (piecesList v.registers is)
      (recordedList v.registers is)).withRegisters (v.registers.steps is))
  rejected : ∀ msg, rejections is = some msg →
    ∃ w, acceptAll is v = .error (.error msg) w

theorem visited_leaf (e : Bool) (g : Gate P) (v : OpenQasmVisitor) :
    Visited (.leaf e g) v where
  accepted := by
    intro h
    rw [rejection] at h
    rw [accept, visitGate_eq e h, pieces, recorded]
    rfl
  rejected := by
    intro msg h
    rw [rejection] at h
    rw [accept, visitGate_refused h]
    cases g with
    | cz a b => rfl
    | _ => cases h

theorem visited_function (e : Bool) (n : String)
    (body : List (Instruction (Gate P))) (v : OpenQasmVisitor) :
    Visited (.function e n body) v where
  accepted := by
    intro _
    rw [accept, pieces, recorded, emit_nil]
    rfl
  rejected := by
    intro msg h
    rw [rejection] at h
    cases h

theorem visited_conditional {body : List (Instruction (Gate P))}
    (hbody : ∀ w, VisitedAll body w) (e : Bool) (q : Nat)
    (v : OpenQasmVisitor) : Visited (.conditional e q body) v where
  accepted := by
    intro h
    rw [rejection] at h
    split at h
    · cases h
    · rename_i hlen
      have hn := (hbody (new v.nQubits true)).accepted h
      simp only [accept, hlen, if_false, hn, getOpenQasmString]
      rw [pieces, recorded, emit, write]
      simp [registers, withRegisters, Registers.step, Piece.chunks, new, emit,
        write]
  rejected := by
    intro msg h
    rw [rejection] at h
    split at h
    · rename_i hlen
      cases h
      simp only [accept, hlen, if_true]
      rfl
    · rename_i hlen
      obtain ⟨w, hw⟩ := (hbody (new v.nQubits true)).rejected msg h
      simp only [accept, hlen, if_false, hw]
      rfl

theorem visitedAll_cons {i : Instruction (Gate P)}
    {is : List (Instruction (Gate P))} (hi : ∀ v, Visited i v)
    (his : ∀ v, VisitedAll is v) (v : OpenQasmVisitor) :
    VisitedAll (i :: is) v where
  accepted := by
    intro h
    rw [rejections_cons, Option.or_eq_none_iff] at h
    rw [acceptAll, Exec.bind_apply, (hi v).accepted h.1]
    show acceptAll is _ = _
    rw [(his _).accepted h.2, registers_withRegisters, emit_withRegisters,
      emit_emit, withRegisters_withRegisters]
    simp
  rejected := by
    intro msg h
    rw [rejections_cons] at h
    rw [acceptAll, Exec.bind_apply]
    cases hr : rejection i with
    | some m =>
        rw [hr, Option.some_or] at h
        rw [(hi v).rejected m hr]
        exact ⟨_, by rw [Option.some.inj h]⟩
    | none =>
        rw [hr, Option.none_or] at h
        rw [(hi v).accepted hr]
        exact (his _).rejected msg h

mutual

/-- **The visitor is its emission**, for every instruction tree. -/
theorem visited (i : Instruction (Gate P)) (v : OpenQasmVisitor) :
    Visited i v :=
  match i with
  | .leaf e g => visited_leaf e g v
  | .function e n body => visited_function e n body v
  | .conditional e q body =>
      visited_conditional (fun w => visitedAll body w) e q v

/-- The same for every list of instruction trees. -/
theorem visitedAll (is : List (Instruction (Gate P))) (v : OpenQasmVisitor) :
    VisitedAll is v :=
  match is with
  | [] =>
      { accepted := fun _ => by
          rw [acceptAll, piecesList_nil, recordedList_nil, emit_nil]
          rfl
        rejected := fun msg h => by
          rw [rejections_nil] at h
          cases h }
  | i :: is =>
      visitedAll_cons (fun w => visited i w) (fun w => visitedAll is w) v

end

theorem acceptAll_ok {is : List (Instruction (Gate P))} {v w : OpenQasmVisitor}
    {u : Unit} (h : acceptAll is v = .ok u w) :
    rejections is = none ∧
      w = (v.emit (piecesList v.registers is)
        (recordedList v.registers is)).withRegisters (v.registers.steps is) := by
  cases hr : rejections is with
  | some msg =>
      obtain ⟨x, hx⟩ := (visitedAll is v).rejected msg hr
      rw [hx] at h
      cases h
  | none =>
      rw [(visitedAll is v).accepted hr] at h
      cases h
      exact ⟨rfl, rfl⟩

theorem accept_ok {i : Instruction (Gate P)} {v w : OpenQasmVisitor} {u : Unit}
    (h : accept i v = .ok u w) :
    rejection i = none ∧
      w = (v.emit (pieces v.registers i)
        (recorded v.registers i)).withRegisters (v.registers.step i) := by
  cases hr : rejection i with
  | some msg =>
      rw [(visited i v).rejected msg hr] at h
      cases h
  | none =>
      rw [(visited i v).accepted hr] at h
      cases h
      exact ⟨rfl, rfl⟩

/-- Accepted or not, an instruction moves the registers by its step. -/
theorem registers_after (i : Instruction (Gate P)) (v : OpenQasmVisitor) :
    (Exec.after (accept i v)).registers = v.registers.step i := by
  cases hr : rejection i with
  | some msg =>
      rw [(visited i v).rejected msg hr]
      rfl
  | none =>
      rw [(visited i v).accepted hr]
      rfl

end OpenQasmVisitor

end XaccIbm
