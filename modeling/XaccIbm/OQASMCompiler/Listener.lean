import XaccIbm.Lib.StdMap
import XaccIbm.Lib.Traverse
import XaccIbm.OpenQasm.Grammar

/-!
# OQASMCompiler — Listener

`OQASMToXACCListener` and the walk `OQASMCompiler::compile` makes with it.
Rules without a callback (register declarations, barriers, resets, the
declaration around a gate body, the condition around an action) are walked
through and leave no trace.

The framework and the expression library are parameters: the gate registry
with its instructions, and the value of an expression's text, `none` where
it is not a number. A function object is a place in `heap`, so that a call
of a kernel is a reference to the object, as in the source.
-/

namespace XaccIbm.OQASMCompiler

open OpenQasm

/-- How a walk ends when it does not return. -/
inductive WalkFailure where
  /-- `xacc::error`. -/
  | error (msg : String)
  /-- The `std::out_of_range` of `std::stoi`. -/
  | outOfRange
  /-- A child read that the tree does not have: a null pointer. -/
  | nullContext
  deriving DecidableEq

abbrev Walk := Except WalkFailure

/-- A parameter over the numbers `N`. -/
inductive InstructionParameter (N : Type) where
  | int (i : Nat)
  | num (x : N)
  | str (s : String)
  deriving DecidableEq

/-- An instruction as the registry makes it. -/
structure GateInstruction (N : Type) where
  name : String
  bits : List Nat
  params : List (InstructionParameter N)
  deriving DecidableEq

/-- What the listener calls outside this repository, and its constants:
`zero` is `0.0` and `halfPi` is `pi / 2.0`. -/
structure Services (N : Type) where
  createInstruction :
    String → List Nat → List (InstructionParameter N) → Except String (GateInstruction N)
  setParameter :
    GateInstruction N → Nat → InstructionParameter N → Except String (GateInstruction N)
  evalMathExpression : String → Option N
  zero : N
  halfPi : N

variable {N : Type}

/-! ## Reading the tree -/

/-- `ctx->child()->…`. -/
def child {α : Type} : Option α → Walk α
  | some a => .ok a
  | none => .error .nullContext

def service {α : Type} : Except String α → Walk α
  | .ok a => .ok a
  | .error msg => .error (.error msg)

/-- `gatearg()->INT()`. -/
def index : GateArg → Option INT
  | .indexed _ i => some i
  | .bare _ => none

/-- `std::stoi(INT()->getText())`. -/
def stoi (n : INT) : Walk Nat :=
  match StdString.stoi n.text with
  | some z => .ok z.toNat
  | none => .error .outOfRange

/-- The qubit of an operand: the text of its index, whatever the register. -/
def qubit (a : GateArg) : Walk Nat := do
  stoi (← child (index a))

/-- The labelled child of a `measure` operand. -/
def gatearg : MeasureOperand → Option GateArg
  | .gatearg a => some a
  | .register _ => none

/-- `gateName[0] = toupper(gateName[0])`. -/
def capitalize (s : String) : String :=
  match s.toList with
  | c :: cs => String.ofList (c.toUpper :: cs)
  | [] => s

variable (S : Services N)

def strToParam (str : String) : InstructionParameter N :=
  match S.evalMathExpression str with
  | some num => .num num
  | none => .str str

/-! ## The instructions the callbacks make -/

/-- `setParameter(count, p); count++;` for each parameter. -/
def setParameters (count : Nat) :
    List (InstructionParameter N) → GateInstruction N → Walk (GateInstruction N)
  | [], inst => .ok inst
  | p :: ps, inst => do
      let inst ← service (S.setParameter inst count p)
      setParameters (count + 1) ps inst

def instructionU (explist : Option Explist) (arg : GateArg) :
    Walk (GateInstruction N) := do
  let q ← qubit arg
  let exps ← child explist
  let theta ← child exps.toList[0]?
  let phi ← child exps.toList[1]?
  let lambda ← child exps.toList[2]?
  let inst ← service (S.createInstruction "U" [q] [])
  setParameters S 0
    [strToParam S theta.text, strToParam S phi.text, strToParam S lambda.text] inst

def instructionCX (a b : GateArg) : Walk (GateInstruction N) := do
  let q ← qubit a
  let r ← qubit b
  service (S.createInstruction "CNOT" [q, r] [])

/-- The instruction of a gate name before its expressions are set, and the
slot they start at. -/
def start (gateName : String) (qubits : List Nat) :
    Walk (GateInstruction N × Nat) := do
  if gateName = "U2" then
    let inst ← service (S.createInstruction "U" qubits [])
    let inst ← service (S.setParameter inst 0 (.num S.halfPi))
    return (inst, 1)
  else if gateName = "U1" then
    let inst ← service (S.createInstruction "U" qubits [])
    let inst ← service (S.setParameter inst 0 (.num S.zero))
    let inst ← service (S.setParameter inst 1 (.num S.zero))
    return (inst, 2)
  else if gateName = "U3" then
    let inst ← service (S.createInstruction "U" qubits [])
    return (inst, 0)
  else
    let inst ← service (S.createInstruction gateName qubits [])
    return (inst, 0)

/-- The expressions of a gate application, none without an `explist`. -/
def expressions (explist : Option Explist) : List Exp :=
  match explist with
  | some es => es.toList
  | none => []

def instructionUserDefGate (gatename : GateName) (explist : Option Explist)
    (args : GateArgList) : Walk (GateInstruction N) := do
  let gateName := capitalize gatename.id.text
  let qubits ← args.toList.mapM qubit
  if gateName = "Cx" then
    service (S.createInstruction "CNOT" qubits [])
  else
    let (inst, count) ← start S gateName qubits
    setParameters S count
      ((expressions explist).map fun e => strToParam S e.text) inst

def instructionUop : Uop → Walk (GateInstruction N)
  | .U explist arg => instructionU S explist arg
  | .CX a b => instructionCX S a b
  | .UserDefGate gatename explist args =>
      instructionUserDefGate S gatename explist args

def instructionMeasure (m : Measure) : Walk (GateInstruction N) := do
  let q ← qubit (← child (gatearg m.qbit))
  let classicalBit ← qubit (← child (gatearg m.cbit))
  service (S.createInstruction "Measure" [q] [.int classicalBit])

/-! ## The listener -/

/-- What a function lists: an instruction, or another function object. -/
inductive Node (N : Type) where
  | inst (i : GateInstruction N)
  | call (function : Nat)
  deriving DecidableEq

structure KernelFunction (N : Type) where
  name : String
  params : List (InstructionParameter N)
  instructions : List (Node N)
  deriving DecidableEq

/-- The members of the listener, and the function objects made so far. -/
structure OQASMToXACCListener (N : Type) where
  ir : List Nat
  functions : StdMap String Nat
  curFunc : Option Nat
  heap : List (KernelFunction N)

/-- The callbacks inside a kernel that do something. -/
inductive Callback where
  | exitKernelcall (ctx : Kernelcall)
  | exitUop (ctx : Uop)
  | exitMeasure (ctx : Measure)

namespace OQASMToXACCListener

def new : OQASMToXACCListener N := ⟨[], ∅, none, []⟩

/-- `curFunc->addInstruction(…)`. -/
def addInstruction (s : OQASMToXACCListener N) (n : Node N) :
    Walk (OQASMToXACCListener N) := do
  let f ← child s.curFunc
  return { s with heap := s.heap.modify f fun k =>
    { k with instructions := k.instructions ++ [n] } }

/-- A kernel's name is known from here on; `insert` keeps an earlier kernel
of the same name. -/
def enterXacckernel (ctx : Xacckernel) (s : OQASMToXACCListener N) :
    OQASMToXACCListener N :=
  let params := ctx.typedparams.map fun p => InstructionParameter.str p.2.text
  let f := s.heap.length
  { s with
    heap := s.heap ++ [⟨ctx.kernelname.text, params, []⟩]
    curFunc := some f
    functions := s.functions.insert ctx.kernelname.text f }

def exitXacckernel (s : OQASMToXACCListener N) : Walk (OQASMToXACCListener N) := do
  let f ← child s.curFunc
  return { s with ir := s.ir ++ [f] }

def exitKernelcall (ctx : Kernelcall) (s : OQASMToXACCListener N) :
    Walk (OQASMToXACCListener N) :=
  match s.functions.find ctx.kernelname.text with
  | some f => s.addInstruction (.call f)
  | none => .error (.error "Tried calling undefined kernel.")

/-- `exitU`, `exitCX` and `exitUserDefGate`. -/
def exitUop (ctx : Uop) (s : OQASMToXACCListener N) :
    Walk (OQASMToXACCListener N) := do
  let inst ← instructionUop S ctx
  s.addInstruction (.inst inst)

def exitMeasure (ctx : Measure) (s : OQASMToXACCListener N) :
    Walk (OQASMToXACCListener N) := do
  let inst ← instructionMeasure S ctx
  s.addInstruction (.inst inst)

def step (s : OQASMToXACCListener N) : Callback → Walk (OQASMToXACCListener N)
  | .exitKernelcall ctx => exitKernelcall ctx s
  | .exitUop ctx => exitUop S ctx s
  | .exitMeasure ctx => exitMeasure S ctx s

end OQASMToXACCListener

/-! ## The walk -/

/-- The callbacks of an operation; a reset and a barrier have none. -/
def qopCallbacks : Qop → List Callback
  | .uop u => [.exitUop u]
  | .measure m => [.exitMeasure m]
  | .reeset _ => []
  | .barrier _ => []

/-- The callbacks of a statement, in the order of the walk. The body of a
gate declaration and the action of a conditional have the callbacks they
have anywhere. -/
def callbacks : Statement → List Callback
  | .regdecl _ => []
  | .gatedecl d => d.body.map .exitUop
  | .opaqueDecl _ => []
  | .qop q => qopCallbacks q
  | .conditional c => qopCallbacks c.action
  | .kernelcall k => [.exitKernelcall k]

def kernelCallbacks (k : Xacckernel) : List Callback :=
  k.statements.flatMap callbacks

open OQASMToXACCListener in
def walkKernel (s : OQASMToXACCListener N) (k : Xacckernel) :
    Walk (OQASMToXACCListener N) := do
  let s ← (kernelCallbacks k).foldlM (step S) (enterXacckernel k s)
  exitXacckernel s

/-- `ParseTreeWalker::DEFAULT.walk(&listener, tree)`. -/
def walk (tree : Xaccsrc) : Walk (OQASMToXACCListener N) :=
  tree.foldlM (walkKernel S) .new

/-- The kernels of an IR, and the function objects they refer to. -/
structure IR (N : Type) where
  kernels : List Nat
  heap : List (KernelFunction N)
  deriving DecidableEq

/-- `getKernels()[i]`. -/
def IR.kernel (ir : IR N) (i : Nat) : Option (KernelFunction N) :=
  ir.kernels[i]?.bind fun f => ir.heap[f]?

/-- `OQASMCompiler::compile`, on the tree of its source. -/
def compile (tree : Xaccsrc) : Walk (IR N) := do
  let s ← walk S tree
  return ⟨s.ir, s.heap⟩

end XaccIbm.OQASMCompiler
