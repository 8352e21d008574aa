import XaccIbm.Accelerator.Submission
import XaccIbm.Lib.StdString

/-!
# OpenPulseVisitor

The visitor for analog kernels (`utils/OpenPulseVisitor.hpp`): one JSON
text, to which the pulses of the kernel append themselves. Gates are
refused, identities, conditionals and functions are passed over.
-/

namespace XaccIbm

/-- An instruction that visits itself: `appended` is what its
`customVisitAction` appends to the visitor's text, or the error it raises. -/
structure Pulse where
  name : String
  bits : List Nat
  appended : Except String String

/-- The instructions of an analog kernel. -/
inductive Primitive (P : Type) where
  | gate (g : Gate P)
  | pulse (p : Pulse)

instance {P : Type} : Leaf (Primitive P) where
  name
    | .gate g => g.name
    | .pulse p => p.name
  bits
    | .gate g => g.bits
    | .pulse p => p.bits

/-- The one member some method reads. -/
structure OpenPulseVisitor where
  native : String

namespace OpenPulseVisitor

open StdString

/-- `OpenPulseVisitor(name)`. -/
def new (name : String) : OpenPulseVisitor where
  native := "\x7b \"name\": \"" ++ name ++ "\", \"instructions\": ["

/-- The error of a gate that has no pulses. -/
def unsupported (gate : String) : String :=
  "digital 2 analog not supported for " ++ gate ++ " yet."

variable {P : Type}

/-- The error of `visit`, for the gates that are refused. A `Swap` is
visited as three `CNOT`s, of which the first is refused. -/
def refused : Gate P → Option String
  | .identity _ => none
  | .hadamard _ => some (unsupported "hadamard")
  | .cz _ _ => some "cz not supported"
  | .cnot _ _ => some (unsupported "CNOT")
  | .x _ => some (unsupported "x")
  | .y _ => some (unsupported "y")
  | .z _ => some (unsupported "z")
  | .u _ _ _ _ => some (unsupported "u")
  | .measure _ _ => some (unsupported "measure")
  | .rx _ _ => some (unsupported "rx")
  | .ry _ _ => some (unsupported "ry")
  | .rz _ _ => some (unsupported "rz")
  | .cphase _ _ _ => some (unsupported "cphase")
  | .swap _ _ => some (unsupported "CNOT")

/-- `inst->accept(visitor)`. -/
def accept : Instruction (Primitive P) → Exec OpenPulseVisitor Unit
  | .leaf _ (.gate g) =>
      match refused g with
      | some msg => throw (.error msg)
      | none => pure ()
  | .leaf _ (.pulse p) => do
      let text ← Exec.reply p.appended
      modify fun v => { v with native := v.native ++ text }
  | .conditional _ _ _ => pure ()
  | .function _ _ _ => pure ()

def getOpenPulseInstructionsJson (v : OpenPulseVisitor) : String :=
  cutLast v.native ++ "]\x7d"

end OpenPulseVisitor

/-- A kernel, as `isAnalog` sorts it. -/
inductive Kernel (P : Type) where
  | gates (f : Function (Gate P))
  | analog (f : Function (Primitive P))

namespace Kernel

variable {P : Type}

def name : Kernel P → String
  | gates f => f.name
  | analog f => f.name

def isAnalog : Kernel P → Bool
  | gates _ => false
  | analog _ => true

/-- The measured qubits, in the order of the walk. -/
def measuredQubits : Kernel P → List Nat
  | gates f => Submission.measuredQubits f
  | analog f => Submission.measuredQubits f

end Kernel

end XaccIbm
