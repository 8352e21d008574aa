import XaccIbm.IR
import XaccIbm.Lib.Exec
import XaccIbm.Lib.StdMap
import XaccIbm.Lib.StdString

/-!
# OpenQasmVisitor — Visit

The visitor as the source has it (`utils/OpenQasmVisitor.hpp`): two texts,
the OpenQASM program and the simulator's JSON array, grown side by side by
every `visit`, and the two pieces of bookkeeping behind the classical
registers. The constant `pi` of the source is 3.1415926; a stream prints it
with six significant digits, which is what `pi` and its halves are here.

Braces of the JSON text are written `\x7b` and `\x7d`.
-/

namespace XaccIbm

/-- The members of the visitor that some method reads. -/
structure OpenQasmVisitor where
  native : String
  operationsJsonStr : String
  qubitToClassicalBitIndex : StdMap Nat Nat
  classicalBitCounter : Nat
  nQubits : Int

namespace OpenQasmVisitor

/-- `OpenQasmVisitor(nQubits, skipPreamble)`. The quotes of the include are
already escaped, for the JSON document the text ends up in. -/
def new (nQubits : Int) (skipPreamble : Bool) : OpenQasmVisitor where
  native :=
    if skipPreamble then ""
    else "\ninclude \\\"qelib1.inc\\\";\nqreg q[" ++ toString nQubits ++ "];\n"
  operationsJsonStr := "["
  qubitToClassicalBitIndex := ∅
  classicalBitCounter := 0
  nQubits := nQubits

/-- A number of qubits is printed as it is. -/
theorem new_native (n : Nat) : (new n false).native
    = "\ninclude \\\"qelib1.inc\\\";\nqreg q[" ++ toString n ++ "];\n" := rfl

/-- `ss << pi`. -/
def pi : String := "3.14159"

/-- `ss << pi/2.0`. -/
def halfPi : String := "1.5708"

/-- `ss << (-pi/2.0)`. -/
def negHalfPi : String := "-1.5708"

/-- The two appends every `visit` of a gate ends with; each list is what is
streamed into `ss` and into `js`. -/
def write (ss js : List String) (v : OpenQasmVisitor) : OpenQasmVisitor :=
  { v with
    native := v.native ++ String.join ss
    operationsJsonStr := v.operationsJsonStr ++ String.join js }

variable {P : Type} [ToString P]

def visitHadamard (q : Nat) : OpenQasmVisitor → OpenQasmVisitor :=
  write ["u2(", "0", ", ", pi, ") q[", toString q, "];\n"]
    ["\x7b\"name\":\"u2\",\"params\": [0.0,", pi, "],\"qubits\":[",
      toString q, "]\x7d,"]

def visitIdentity (q : Nat) : OpenQasmVisitor → OpenQasmVisitor :=
  write ["id q[", toString q, "];\n"]
    ["\x7b\"name\":\"id\",\"params\": [],\"qubits\":[", toString q, "]\x7d,"]

def visitCNOT (source target : Nat) : OpenQasmVisitor → OpenQasmVisitor :=
  write ["cx q[", toString source, "], q[", toString target, "];\n"]
    ["\x7b\"name\":\"cx\",\"params\": [],\"qubits\":[", toString source, ", ",
      toString target, "]\x7d,"]

/-- The `u3` application that five visits write; the angles are already
text. -/
def writeU3 (theta phi lambda : String) (q : Nat) :
    OpenQasmVisitor → OpenQasmVisitor :=
  write ["u3(", theta, ", ", phi, ", ", lambda, ") q[", toString q, "];\n"]
    ["\x7b\"name\":\"u3\",\"params\": [", theta, ", ", phi, ", ", lambda,
      "],\"qubits\":[", toString q, "]\x7d,"]

def visitX (q : Nat) : OpenQasmVisitor → OpenQasmVisitor :=
  writeU3 pi "0" pi q

def visitY (q : Nat) : OpenQasmVisitor → OpenQasmVisitor :=
  writeU3 pi halfPi pi q

def visitRx (theta : P) (q : Nat) : OpenQasmVisitor → OpenQasmVisitor :=
  writeU3 (toString theta) negHalfPi halfPi q

def visitRy (theta : P) (q : Nat) : OpenQasmVisitor → OpenQasmVisitor :=
  writeU3 (toString theta) "0" "0" q

/-- The `u1` application of `visit(Z&)` and `visit(Rz&)`. -/
def writeU1 (lambda : String) (q : Nat) : OpenQasmVisitor → OpenQasmVisitor :=
  write ["u1(", lambda, ") q[", toString q, "];\n"]
    ["\x7b\"name\":\"u1\",\"params\": [", lambda, "],\"qubits\":[",
      toString q, "]\x7d,"]

def visitZ (q : Nat) : OpenQasmVisitor → OpenQasmVisitor :=
  writeU1 pi q

def visitRz (theta : P) (q : Nat) : OpenQasmVisitor → OpenQasmVisitor :=
  writeU1 (toString theta) q

def visitU (theta phi lambda : P) (q : Nat) : OpenQasmVisitor → OpenQasmVisitor :=
  write
    ["U(", toString theta, ", ", toString phi, ", ", toString lambda, ") q[",
      toString q, "];\n"]
    ["\x7b\"name\":\"U\",\"params\": [", toString theta, ", ", toString phi, ", ",
      toString lambda, "],\"qubits\":[", toString q, "]\x7d,"]

/-- `insert` leaves the register of an earlier measurement of the same
qubit in place. -/
def visitMeasure (q : Nat) (v : OpenQasmVisitor) : OpenQasmVisitor :=
  let c := v.classicalBitCounter
  let w := v.write
    ["creg c", toString c, "[1];\n",
      "measure q[", toString q, "] -> c", toString c, "[0];\n"]
    ["\x7b\"clbits\":[", toString c, "],\"name\":\"measure\",\"qubits\":[",
      toString q, "]\x7d,"]
  { w with
    qubitToClassicalBitIndex := v.qubitToClassicalBitIndex.insert q c
    classicalBitCounter := c + 1 }

def visitSwap (a b : Nat) (v : OpenQasmVisitor) : OpenQasmVisitor :=
  visitCNOT a b (visitCNOT b a (visitCNOT a b v))

/-- The overload set of `visit` on primitive gates; `CPhase` has an empty
body and `CZ` is refused. -/
def visitGate : Gate P → Exec OpenQasmVisitor Unit
  | .hadamard q => modify (visitHadamard q)
  | .identity q => modify (visitIdentity q)
  | .cz _ _ => throw (.error "cz not supported")
  | .cnot a b => modify (visitCNOT a b)
  | .x q => modify (visitX q)
  | .y q => modify (visitY q)
  | .z q => modify (visitZ q)
  | .u theta phi lambda q => modify (visitU theta phi lambda q)
  | .measure q _ => modify (visitMeasure q)
  | .rx theta q => modify (visitRx theta q)
  | .ry theta q => modify (visitRy theta q)
  | .rz theta q => modify (visitRz theta q)
  | .cphase _ _ _ => pure ()
  | .swap a b => modify (visitSwap a b)

def getOpenQasmString (v : OpenQasmVisitor) : String := v.native

mutual

/-- `inst->accept(visitor)`. A conditional reads its register through
`operator[]` before anything is checked, and visits its body with a fresh
visitor that knows nothing of the registers so far. -/
def accept (inst : Instruction (Gate P)) : Exec OpenQasmVisitor Unit :=
  match inst with
  | .leaf _ gate => visitGate gate
  | .function _ _ _ => pure ()
  | .conditional _ q body => fun v =>
      let (classicalBitIdx, index) := v.qubitToClassicalBitIndex.subscript q 0
      let w := { v with qubitToClassicalBitIndex := index }
      if body.length > 1 then
        .error (.error "IBM only supports single conditional operations.") w
      else
        match acceptAll body (new v.nQubits true) with
        | .error e _ => .error e w
        | .ok _ nested =>
            .ok () { w with
              native := w.native ++ String.join
                ["if (c", toString classicalBitIdx, " == 1) ",
                  nested.getOpenQasmString] }

/-- Visit instructions in order; an exception ends the loop. -/
def acceptAll (insts : List (Instruction (Gate P))) :
    Exec OpenQasmVisitor Unit :=
  match insts with
  | [] => pure ()
  | inst :: rest => do
      accept inst
      acceptAll rest

end

/-- The array is closed by cutting its last character, which is the comma
of the last element when there is one. -/
def getOperationsJsonString (v : OpenQasmVisitor) : String :=
  StdString.cutLast v.operationsJsonStr ++ "]"

end OpenQasmVisitor

end XaccIbm
