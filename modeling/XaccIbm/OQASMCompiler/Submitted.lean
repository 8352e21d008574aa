import XaccIbm.IBMIRTransformation.Mapped
import XaccIbm.OQASMCompiler.Qelib

/-!
# OQASMCompiler — Submitted

A source on its whole way through the plugin: compiled by the listener, mapped
for one device after another, written by the visitor for a job. Under any
outcomes of its measurements the text does what the commands of the source say,
up to a phase; and whether the text can run on the last device is decided by
the source alone.
-/

namespace XaccIbm.OQASMCompiler

open Feedback OpenQasm OpenQasmVisitor Rotations Traverse Wires
open IBMIRTransformation (Available Coupled CoupledGate GateFunction Heap Usable WrittenGate passes)

/-! ## Commands -/

/-- A gate on one qubit that `qelib1.inc` declares without parameters. -/
inductive Fixed where
  | h
  | x
  | z

namespace Fixed

def gatename : Fixed → ID
  | h => ⟨"h", Eq.refl true⟩
  | x => ⟨"x", Eq.refl true⟩
  | z => ⟨"z", Eq.refl true⟩

noncomputable def matrix : Fixed → M2
  | h => hadamard
  | x => pauliX
  | z => pauliZ

def gate {P : Type} (q : Nat) : Fixed → Gate P
  | h => .hadamard q
  | x => .x q
  | z => .z q

end Fixed

/-- A rotation about one axis. -/
inductive Axis where
  | x
  | y
  | z

namespace Axis

def gatename : Axis → ID
  | x => ⟨"rx", Eq.refl true⟩
  | y => ⟨"ry", Eq.refl true⟩
  | z => ⟨"rz", Eq.refl true⟩

noncomputable def matrix (angle : ℝ) : Axis → M2
  | x => rx angle
  | y => ry angle
  | z => rz angle

def gate {P : Type} (angle : P) (q : Nat) : Axis → Gate P
  | x => .rx angle q
  | y => .ry angle q
  | z => .rz angle q

end Axis

/-- `swap`. -/
def swapId : ID := ⟨"swap", Eq.refl true⟩

/-- What a program on one register says to do. -/
inductive Command where
  | apply (a : Application)
  | fixed (g : Fixed) (q : INT)
  | rotation (axis : Axis) (angle : Exp) (q : INT)
  | swap (a b : INT)
  | measure (q c : INT)

namespace Command

def exps : Command → List Exp
  | apply a => a.exps
  | rotation _ angle _ => [angle]
  | _ => []

/-- The indices that are read; the second one of a measurement is a bit. -/
def indices : Command → List INT
  | apply a => a.indices
  | fixed _ q | rotation _ _ q => [q]
  | swap a b => [a, b]
  | measure q c => [q, c]

def qubits : Command → List Nat
  | apply a => a.indices.map INT.value
  | fixed _ q | rotation _ _ q | measure q _ => [q.value]
  | swap a b => [a.value, b.value]

def measured : Command → Option Nat
  | measure q _ => some q.value
  | _ => none

/-- The callback of a command on the register `reg`, with bits in `bits`. -/
def callback (reg bits : ID) : Command → Callback
  | apply a => .exitUop (a.uop reg)
  | fixed g q => .exitUop (.UserDefGate (.plain g.gatename) none ⟨.indexed reg q, []⟩)
  | rotation axis angle q =>
      .exitUop (.UserDefGate (.plain axis.gatename) (some ⟨angle, []⟩) ⟨.indexed reg q, []⟩)
  | swap a b => .exitUop (.UserDefGate (.plain swapId) none ⟨.indexed reg a, [.indexed reg b]⟩)
  | measure q c => .exitMeasure ⟨.gatearg (.indexed reg q), .gatearg (.indexed bits c)⟩

/-- The statement of a command. -/
def statement (reg bits : ID) (c : Command) : Statement :=
  match c.callback reg bits with
  | .exitUop u => .qop (.uop u)
  | .exitMeasure m => .qop (.measure m)
  | .exitKernelcall k => .kernelcall k

/-- **What a command does**, its expressions read as numbers. -/
noncomputable def step (denotes : Exp → ℝ) (n : Nat) : Command → Step Nat Nat (Op (Fin n))
  | apply a => .always (.apply ((a.op denotes).unitary id n))
  | fixed g q => .always (.apply (onQubit n q.value g.matrix))
  | rotation axis angle q => .always (.apply (onQubit n q.value (axis.matrix (denotes angle))))
  | swap a b => .always (.apply (onPair n swapMap a.value b.value))
  | measure q c => .always (.measure q.value c.value)

/-- A command that can be executed on a device, in one direction or the other;
a `swap` is written as `cx` both ways. -/
def CoupledOn (couplers : List (Int × Int)) : Command → Prop
  | apply (.CX a b) | apply (.cx a b) => Coupled couplers (a.value, b.value)
  | swap a b => Available couplers (a.value, b.value) ∧ Available couplers (b.value, a.value)
  | _ => True

variable {N : Type} (S : Services N)

/-- The gate a command is compiled to. -/
def gate : Command → Gate (InstructionParameter N)
  | apply a => a.gate S
  | fixed g q => g.gate q.value
  | rotation axis angle q => axis.gate (strToParam S angle.text) q.value
  | swap a b => .swap a.value b.value
  | measure q c => .measure q.value c.value

/-- Every index is one `std::stoi` accepts. -/
def Small (c : Command) : Prop := ∀ i ∈ c.indices, i.value < 2 ^ 31

instance (c : Command) : Decidable c.Small :=
  inferInstanceAs (Decidable (∀ i ∈ c.indices, i.value < 2 ^ 31))

end Command

/-- **A kernel of commands** on one register, behind any declarations of registers. -/
structure Program where
  kernel : Xacckernel
  declarations : List RegDecl
  reg : ID
  bits : ID
  commands : List Command
  statements : kernel.statements
    = declarations.map .regdecl ++ commands.map (Command.statement reg bits)

/-! ## Compiled -/

variable {N : Type} {S : Services N}

/-- An application with as many slots as its instruction has. -/
theorem gateOf_slots (hS : S.KnowsExactly) (functions : StdMap String Nat) {u : Uop}
    {qs : List Nat} {g : Gate (InstructionParameter N)} (hqs : u.args.mapM qubit = .ok qs)
    (harity : arity (instructionName u) = some (slots S u).length)
    (hgate : GateInstruction.gate? ⟨instructionName u, qs, slots S u⟩ = some g) :
    gateOf S functions (.exitUop u) = some g := by
  rw [gateOf_uop (instructionUop_eq hS hqs harity)]
  exact hgate

theorem gateOf_command (hS : S.KnowsExactly) (functions : StdMap String Nat) (reg bits : ID)
    {c : Command} (hc : c.Small) :
    gateOf S functions (c.callback reg bits) = some (c.gate S) := by
  have hqubit : ∀ i ∈ c.indices, ∀ r, qubit (.indexed r i) = .ok i.value :=
    fun i hi r => qubit_ok.mpr ⟨i, rfl, hc i hi, rfl⟩
  have hone : ∀ {q : INT}, c.indices = [q] →
      [GateArg.indexed reg q].mapM qubit = .ok [q.value] := by
    intro q hq
    exact mapM_cons_ok.mpr ⟨_, [], hqubit q (by simp [hq]) reg, rfl, rfl⟩
  cases c with
  | apply a => exact gateOf_application hS functions reg hc
  | fixed g q => cases g <;> exact gateOf_slots hS functions (hone rfl) rfl rfl
  | rotation axis angle q => cases axis <;> exact gateOf_slots hS functions (hone rfl) rfl rfl
  | swap a b =>
      have htwo : [GateArg.indexed reg a, .indexed reg b].mapM qubit = .ok [a.value, b.value] :=
        mapM_cons_ok.mpr ⟨_, [b.value], hqubit a (by simp [Command.indices]) reg,
          mapM_cons_ok.mpr ⟨_, [], hqubit b (by simp [Command.indices]) reg, rfl, rfl⟩, rfl⟩
      exact gateOf_slots hS functions htwo rfl rfl
  | measure q b =>
      exact gateOf_measure hS functions (hqubit q (by simp [Command.indices]) reg)
        (hqubit b (by simp [Command.indices]) bits)

/-- The callbacks of a program are those of its commands: a declaration has none. -/
theorem callbacks_of_program (p : Program) :
    kernelCallbacks p.kernel = p.commands.map (Command.callback p.reg p.bits) := by
  have hnone : (p.declarations.map Statement.regdecl).flatMap callbacks = [] := by
    simp [callbacks]
  have hone : ∀ c : Command, callbacks (c.statement p.reg p.bits) = [c.callback p.reg p.bits] := by
    intro c
    cases c <;> rfl
  rw [kernelCallbacks, p.statements, List.flatMap_append, hnone, List.nil_append,
    List.flatMap_map]
  simp only [hone]
  exact List.map_eq_flatMap.symm

variable (S) in
/-- The function a program is compiled to. -/
def Program.function (p : Program) : Function (Gate (InstructionParameter N)) where
  name := p.kernel.kernelname.text
  body := leaves (p.commands.map (Command.gate S))

theorem kernelFunction_program (hS : S.KnowsExactly) {p : Program}
    (h : ∀ c ∈ p.commands, c.Small) (before : Xaccsrc) :
    ∃ f, kernelFunction S before p.kernel = .ok f ∧ f.function? = some (p.function S) := by
  have hgates : (kernelCallbacks p.kernel).mapM (gateOf S (visible (before ++ [p.kernel])))
      = some (p.commands.map (Command.gate S)) := by
    rw [callbacks_of_program, mapM_eq_some, List.forall₂_map_left_iff,
      List.forall₂_map_right_iff, List.forall₂_same]
    exact fun c hc => gateOf_command hS _ p.reg p.bits (h c hc)
  have hnodes : ∃ ns, kernelNodes S before p.kernel = .ok ns ∧
      ns.mapM Node.gate? = some (p.commands.map (Command.gate S)) := by
    simp only [kernelNodes, mapM_ok, mapM_eq_some, gateOf_eq_some] at hgates ⊢
    exact forall₂_comp.mp hgates
  obtain ⟨ns, hns, hgs⟩ := hnodes
  refine ⟨_, map_ok.mpr ⟨ns, hns, rfl⟩, ?_⟩
  exact Option.map_eq_some_iff.mpr ⟨_, hgs, rfl⟩

/-- **A source of programs is compiled**, kernel by kernel. -/
theorem compile_programs (hS : S.KnowsExactly) {ps : List Program}
    (h : ∀ p ∈ ps, ∀ c ∈ p.commands, c.Small) :
    ∃ ir, compile S (ps.map Program.kernel) = .ok ir ∧ ir.kernels.length = ps.length ∧
      ∀ i p, ps[i]? = some p → (ir.kernel i).bind KernelFunction.function? = some (p.function S) := by
  have hfunctions : ∀ before, ∃ fs, kernelFunctions S before (ps.map Program.kernel) = .ok fs ∧
      List.Forall₂ (fun p f => KernelFunction.function? f = some (p.function S)) ps fs := by
    induction ps with
    | nil => exact fun before => ⟨[], rfl, .nil⟩
    | cons p ps ih =>
        intro before
        obtain ⟨hp, hps⟩ := List.forall_mem_cons.mp h
        obtain ⟨f, hf, hfunction⟩ := kernelFunction_program hS hp before
        obtain ⟨fs, hfs, hall⟩ := ih hps (before ++ [p.kernel])
        exact ⟨f :: fs, mapM_cons_ok.mpr ⟨f, fs, hf, hfs, rfl⟩, .cons hfunction hall⟩
  obtain ⟨fs, hfs, hall⟩ := hfunctions []
  refine ⟨⟨List.range (ps.map Program.kernel).length, fs⟩, ?_, ?_, ?_⟩
  · rw [compile_eq, map_ok]
    exact ⟨fs, hfs, rfl⟩
  · rw [List.length_range, List.length_map]
  · intro i p hp
    obtain ⟨hi, rfl⟩ := List.getElem?_eq_some_iff.mp hp
    have hlen := hall.length_eq
    have hfun := (List.forall₂_iff_get.mp hall).2 i hi (by omega)
    rw [IR.kernel, List.getElem?_range (by simpa using hi), Option.bind_some,
      List.getElem?_eq_getElem (show i < fs.length by omega), Option.bind_some]
    exact hfun

/-! ## Objects -/

/-- **The kernels of an IR as objects**: each instruction is one object, which
is enabled and stands nowhere else. -/
structure LaidOut (ir : IR N) (objects : List (GateFunction (InstructionParameter N)))
    (heap : Heap) : Prop where
  built : IBMIRTransformation.Built objects heap
  length : objects.length = ir.kernels.length
  function : ∀ i f, objects[i]? = some f → (ir.kernel i).bind KernelFunction.function?
    = some { name := f.name, body := leaves f.gates }

/-- The objects of compiled programs have the gates of their commands. -/
theorem LaidOut.programs {ir : IR N} {objects : List (GateFunction (InstructionParameter N))}
    {heap : Heap} (h : LaidOut ir objects heap) {ps : List Program}
    (hlen : ir.kernels.length = ps.length)
    (hps : ∀ i p, ps[i]? = some p →
      (ir.kernel i).bind KernelFunction.function? = some (p.function S)) :
    List.Forall₂ (fun p f => f.name = p.kernel.kernelname.text ∧
      f.gates = p.commands.map (Command.gate S)) ps objects := by
  have hlength : ps.length = objects.length := by rw [h.length, hlen]
  refine List.forall₂_iff_get.mpr ⟨hlength, fun i hi hi' => ?_⟩
  have hfunction := h.function i _ (List.getElem?_eq_getElem hi')
  rw [hps i _ (List.getElem?_eq_getElem hi)] at hfunction
  have heq := Option.some.inj hfunction
  have hprogram : (Program.function S (ps.get ⟨i, hi⟩)).gates
      = (ps.get ⟨i, hi⟩).commands.map (Command.gate S) := gates_leaves rfl
  rw [← hprogram]
  exact ⟨(congrArg Function.name heq).symm,
    (gates_leaves rfl).symm.trans (congrArg Function.gates heq).symm⟩

variable {value : InstructionParameter N → ℝ} {denotes : Exp → ℝ} {n : Nat}

theorem bits_gate (c : Command) : (c.gate S).bits = c.qubits := by
  cases c with
  | apply a => cases a <;> rfl
  | fixed g q => cases g <;> rfl
  | rotation axis angle q => cases axis <;> rfl
  | swap a b => rfl
  | measure q b => rfl

theorem written_gate {c : Command} (hlt : ∀ q ∈ c.qubits, q < n) (hne : c.qubits.Nodup) :
    WrittenGate value n (c.gate S) := by
  refine ⟨by rwa [bits_gate], by rwa [bits_gate], ?_, ?_⟩
  · cases c with
    | apply a => exact refusal_gate a
    | fixed g q => cases g <;> rfl
    | rotation axis angle q => cases axis <;> rfl
    | swap a b => rfl
    | measure q b => rfl
  · cases c with
    | apply a => cases a <;> exact trivial
    | fixed g q => cases g <;> exact trivial
    | rotation axis angle q => cases axis <;> exact trivial
    | swap a b => exact trivial
    | measure q b => exact trivial

theorem measured_gate (c : Command) : (c.gate S).measured = c.measured := by
  cases c with
  | apply a => cases a <;> rfl
  | fixed g q => cases g <;> rfl
  | rotation axis angle q => cases axis <;> rfl
  | swap a b => rfl
  | measure q b => rfl

theorem coupled_gate (couplers : List (Int × Int)) (c : Command) :
    CoupledGate couplers (c.gate S) ↔ c.CoupledOn couplers := by
  cases c with
  | apply a => cases a <;> rfl
  | fixed g q => cases g <;> rfl
  | rotation axis angle q => cases axis <;> rfl
  | swap a b => rfl
  | measure q b => rfl

/-- The gate of an application is the application, up to a phase. -/
theorem unitary_application (hzero : value (.num S.zero) = 0)
    (hquarter : value (.num S.halfPi) = quarterTurn) {a : Application}
    (ha : ∀ e ∈ a.exps, value (strToParam S e.text) = denotes e) :
    UpToPhase ((a.gate S).unitary value n) ((a.op denotes).unitary id n) := by
  have hrotation : ∀ (q : Nat) (θ φ lam : ℝ),
      UpToPhase (onQubit n q (u3 θ φ lam)) (onQubit n q (zyz θ φ lam)) :=
    fun q θ φ lam => onQubit_upToPhase n (zyz_upToPhase θ φ lam).symm q
  cases a with
  | CX a b => exact UpToPhase.refl _
  | cx a b => exact UpToPhase.refl _
  | u1 lambda q =>
      simp only [Application.gate, Application.op, Gate.unitary, QOp.unitary, Angle.real, hzero,
        ha lambda (by simp [Application.exps]), id]
      exact hrotation q.value _ _ _
  | u2 phi lambda q =>
      simp only [Application.gate, Application.op, Gate.unitary, QOp.unitary, Angle.real, hquarter,
        ha phi (by simp [Application.exps]), ha lambda (by simp [Application.exps]), id]
      exact hrotation q.value _ _ _
  | u3 theta phi lambda q | U theta phi lambda q =>
      simp only [Application.gate, Application.op, Gate.unitary, QOp.unitary, Angle.real,
        ha theta (by simp [Application.exps]), ha phi (by simp [Application.exps]),
        ha lambda (by simp [Application.exps]), id]
      exact hrotation q.value _ _ _

/-- The gate of a command does what the command does. -/
theorem alike_gate (hzero : value (.num S.zero) = 0)
    (hquarter : value (.num S.halfPi) = quarterTurn) {c : Command}
    (hc : ∀ e ∈ c.exps, value (strToParam S e.text) = denotes e) :
    Alike (phaseCon n) (c.step denotes n) ((c.gate S).feedback value n) := by
  cases c with
  | apply a =>
      have hunitary := unitary_application (n := n) hzero hquarter hc
      cases a <;> exact .apply hunitary
  | fixed g q => cases g <;> exact .apply (UpToPhase.refl _)
  | rotation axis angle q =>
      have hangle : value (strToParam S angle.text) = denotes angle := hc angle List.mem_cons_self
      cases axis <;> exact .apply (by rw [← hangle]; exact UpToPhase.refl _)
  | swap a b => exact .apply (UpToPhase.refl _)
  | measure q b => exact .measure q.value b.value q.value

/-! ## Mapped and written -/

variable [ToString (InstructionParameter N)]

/-- **A program as it is submitted**: the text is one the visitor writes, does
under any outcomes what the commands say, measures the same qubits in the same
order, and runs on the device exactly when its commands can. -/
structure SubmittedAs (value : InstructionParameter N → ℝ) (denotes : Exp → ℝ) (n : Nat)
    (couplers : List (Int × Int)) (p : Program)
    (kernel : Function (Gate (InstructionParameter N))) : Prop where
  name : kernel.name = p.kernel.kernelname.text
  accepted : ∃ v, Submission.passAll OpenQasmVisitor.accept kernel.walk (new n false) = .ok () v ∧
    v.getOpenQasmString = (new n false).native
      ++ Piece.render (piecesList {} (kernel.walk.filter Instruction.isEnabled))
  operator : ∀ outcome : Nat → Bool,
    UpToPhase
      (operator outcome (projector n) {}
        (textFeedback value n (piecesList {} (kernel.walk.filter Instruction.isEnabled))))
      (operator outcome (projector n) {} (p.commands.map (Command.step denotes n)))
  measured : Submission.measuredQubits kernel = p.commands.filterMap Command.measured
  couplers : (∀ a b, .op (.cx a b) ∈ piecesList {} (kernel.walk.filter Instruction.isEnabled) →
      Available couplers (a, b)) ↔ ∀ c ∈ p.commands, c.CoupledOn couplers

/-- A program whose objects are mapped is submitted. -/
theorem submittedAs_of_mapped (hzero : value (.num S.zero) = 0)
    (hquarter : value (.num S.halfPi) = quarterTurn) {couplers : List (Int × Int)} {p : Program}
    {f : GateFunction (InstructionParameter N)} {heap : Heap}
    {kernel : Function (Gate (InstructionParameter N))} (hf : Usable f.instructions heap)
    (hname : f.name = p.kernel.kernelname.text)
    (hgates : f.gates = p.commands.map (Command.gate S))
    (hdenotes : ∀ c ∈ p.commands, ∀ e ∈ c.exps, value (strToParam S e.text) = denotes e)
    (h : IBMIRTransformation.MappedAs value n couplers (f.toFunction heap) kernel) :
    SubmittedAs value denotes n couplers p kernel := by
  have hbody : (f.toFunction heap).body = leaves (p.commands.map (Command.gate S)) := by
    rw [← hgates]
    exact IBMIRTransformation.toInstructions_enabled hf.flat hf.enabled
  refine ⟨h.name.trans hname, h.accepted, fun outcome => ?_, ?_, ?_⟩
  · have halike : List.Forall₂ (Alike (phaseCon n)) (p.commands.map (Command.step denotes n))
        ((p.commands.map (Command.gate S)).map (Gate.feedback value n)) := by
      rw [List.forall₂_map_left_iff, List.forall₂_map_right_iff, List.forall₂_map_right_iff,
        List.forall₂_same]
      exact fun c hc => alike_gate hzero hquarter (hdenotes c hc)
    have hoperator := h.operator outcome
    rw [IBMIRTransformation.feedback_leaves value n hbody] at hoperator
    exact hoperator.trans (operator_alike outcome (projector n) halike rfl)
  · rw [h.measured, IBMIRTransformation.measuredQubits_leaves hbody, List.filterMap_map]
    exact List.filterMap_congr fun c _ => measured_gate c
  · rw [h.couplers, hbody]
    constructor
    · intro hall c hc
      rw [← coupled_gate couplers c]
      exact hall _ (List.mem_map_of_mem (List.mem_map_of_mem hc))
    · intro hall g hg
      obtain ⟨g', hg', heq⟩ := List.mem_map.mp hg
      obtain ⟨c, hc, rfl⟩ := List.mem_map.mp hg'
      cases heq
      exact (coupled_gate couplers c).mpr (hall c hc)

/-- **From the source to the job.** A source of programs is compiled. Its
kernels, as objects in any heap, come through passes for any devices, and each
is submitted as what its commands say, for the last device. -/
theorem compiled_submitted (hS : S.KnowsExactly) (hzero : value (.num S.zero) = 0)
    (hquarter : value (.num S.halfPi) = quarterTurn) {ps : List Program}
    (hsmall : ∀ p ∈ ps, ∀ c ∈ p.commands, c.Small)
    (hqubits : ∀ p ∈ ps, ∀ c ∈ p.commands, (∀ q ∈ c.qubits, q < n) ∧ c.qubits.Nodup)
    (hdenotes : ∀ p ∈ ps, ∀ c ∈ p.commands, ∀ e ∈ c.exps,
      value (strToParam S e.text) = denotes e)
    (hnames : ∀ p ∈ ps, p.kernel.kernelname.text ≠ "Measure") :
    ∃ ir, compile S (ps.map Program.kernel) = .ok ir ∧
      ∀ objects heap, LaidOut ir objects heap →
        ∀ (earlier : List (List (Int × Int))) (couplers : List (Int × Int)),
          ∃ objects' heap', passes (earlier ++ [couplers]) objects heap = .ok objects' heap' ∧
            List.Forall₂ (fun p f => SubmittedAs value denotes n couplers p (f.toFunction heap'))
              ps objects' := by
  obtain ⟨ir, hir, hlen, hfunctions⟩ := compile_programs hS hsmall
  refine ⟨ir, hir, fun objects heap hlaid earlier couplers => ?_⟩
  have hprograms := hlaid.programs hlen hfunctions
  have husable := hlaid.built.usable
  obtain ⟨objects', heap', hpasses, husable', hall⟩ :=
    IBMIRTransformation.passes_usable (earlier ++ [couplers]) husable
  refine ⟨objects', heap', hpasses, ?_⟩
  clear hir hlen hfunctions hlaid hpasses hsmall
  induction hprograms generalizing objects' with
  | nil =>
      cases hall
      exact .nil
  | @cons p f ps objects hf hrest ih =>
      cases hall with
      | @cons _ f' _ objects' hf' hall =>
          obtain ⟨hqubit, hqubits⟩ := List.forall_mem_cons.mp hqubits
          obtain ⟨hdenote, hdenotes⟩ := List.forall_mem_cons.mp hdenotes
          obtain ⟨hname, hnames⟩ := List.forall_mem_cons.mp hnames
          rw [List.flatMap_cons] at husable husable'
          have hhere := husable.sublist (List.sublist_append_left _ _)
          have hwritten : ∀ g ∈ f.gates, WrittenGate value n g := by
            intro g hg
            rw [hf.2] at hg
            obtain ⟨c, hc, rfl⟩ := List.mem_map.mp hg
            exact written_gate (hqubit c hc).1 (hqubit c hc).2
          have hmapped := IBMIRTransformation.mapped_of_gates earlier hhere
            (husable'.sublist (List.sublist_append_left _ _)) hf'.1 hf'.2
            (by rw [hf.1]; exact hname) hwritten
          exact .cons (submittedAs_of_mapped hzero hquarter hhere hf.1 hf.2 hdenote hmapped)
            (ih hqubits hdenotes hnames (husable.sublist (List.sublist_append_right _ _)) objects'
              (husable'.sublist (List.sublist_append_right _ _)) hall)

/-- A program on the registers of the small sources. -/
def Sample.program (commands : List Command) : Program where
  kernel := Sample.kernel Sample.f [] (.regdecl (.qreg (.sized Sample.q Sample.two))
    :: .regdecl (.creg (.sized Sample.c Sample.one))
    :: commands.map (Command.statement Sample.q Sample.c))
  declarations := [.qreg (.sized Sample.q Sample.two), .creg (.sized Sample.c Sample.one)]
  reg := Sample.q
  bits := Sample.c
  commands := commands
  statements := statements_map _

/-- `h q[0]; CX q[1], q[0]; ry(1.5708) q[1]; measure q[1] -> c[0];` -/
def flippedPair : Program :=
  Sample.program [.fixed .h Sample.zero, .apply (.CX Sample.one Sample.zero),
    .rotation .y (.real Written.halfPi) Sample.one, .measure Sample.one Sample.zero]

/-- Its instructions, one object each. -/
def flippedObjects : List (GateFunction (InstructionParameter Decimal)) :=
  [⟨"f", [.object 0 (.hadamard 0), .object 1 (.cnot 1 0),
    .object 2 (.ry (strToParam decimalServices "1.5708") 1), .object 3 (.measure 1 0)]⟩]

/-- The theorem at a pair that is coupled the other way round. -/
theorem compiled_submitted_flipped :
    ∃ ir, compile decimalServices [flippedPair.kernel] = .ok ir ∧
      LaidOut ir flippedObjects ⟨fun _ => true, 4⟩ ∧
      ∃ objects' heap', passes [[(1, 0)], [(0, 1)]] flippedObjects ⟨fun _ => true, 4⟩
          = .ok objects' heap' ∧
        List.Forall₂ (fun p f => SubmittedAs turns denoted 2 [(0, 1)] p (f.toFunction heap'))
          [flippedPair] objects' := by
  have hS : decimalServices.KnowsExactly := registry_knowsExactly ..
  have hsmall : ∀ p ∈ [flippedPair], ∀ c ∈ p.commands, c.Small := by decide
  have hqubits : ∀ p ∈ [flippedPair], ∀ c ∈ p.commands,
      (∀ q ∈ c.qubits, q < 2) ∧ c.qubits.Nodup := by decide
  have hdenotes : ∀ p ∈ [flippedPair], ∀ c ∈ p.commands, ∀ e ∈ c.exps,
      turns (strToParam decimalServices e.text) = denoted e := by
    intro p hp c hc e he
    cases List.mem_singleton.mp hp
    simp only [flippedPair, Sample.program, List.mem_cons, List.not_mem_nil, or_false] at hc
    rcases hc with rfl | rfl | rfl | rfl
    · cases he
    · cases he
    · cases List.mem_singleton.mp he
      exact turns_readsConstants.text_halfPi
    · cases he
  obtain ⟨ir, hir, hall⟩ := compiled_submitted hS turns_readsConstants.zero
    turns_readsConstants.quarter hsmall hqubits hdenotes (by decide)
  obtain ⟨ir', hir', hlen, hfunctions⟩ := compile_programs hS hsmall
  cases hir.symm.trans hir'
  have hlaid : LaidOut ir flippedObjects ⟨fun _ => true, 4⟩ := by
    refine ⟨⟨?_, by decide, fun _ _ => rfl, by decide⟩, hlen.symm, ?_⟩
    · intro f hf m hm
      cases List.mem_singleton.mp hf
      simp only [List.mem_cons, List.not_mem_nil, or_false] at hm
      rcases hm with rfl | rfl | rfl | rfl <;> exact ⟨_, _, rfl⟩
    · intro i f hf
      cases i with
      | zero =>
          cases hf
          exact hfunctions 0 flippedPair rfl
      | succ i => cases hf
  exact ⟨ir, hir, hlaid, hall _ _ hlaid [[(1, 0)]] [(0, 1)]⟩

end XaccIbm.OQASMCompiler
