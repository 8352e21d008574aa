import Mathlib.Data.List.Basic

/-!
# OpenQasm — Program

What the emitted text is a text of: the statements of an OpenQASM program
as a list of pieces, their spelling, and how a reader of the text groups
them. A guard `if (c == 1)` is a piece of its own, because in the text it is
a prefix: it applies to the quantum operation that follows it, whatever
wrote that operation.
-/

namespace XaccIbm

/-- An angle as the visitor writes it: one of its constants, or the
parameter of the instruction. -/
inductive Angle (P : Type) where
  | zero
  | pi
  | halfPi
  | negHalfPi
  | param (p : P)

/-- The quantum operations of the emitted programs. -/
inductive QOp (P : Type) where
  | id (q : Nat)
  | u1 (lambda : Angle P) (q : Nat)
  | u2 (phi lambda : Angle P) (q : Nat)
  | u3 (theta phi lambda : Angle P) (q : Nat)
  | U (theta phi lambda : Angle P) (q : Nat)
  | cx (control target : Nat)
  | measure (q c : Nat)

/-- A piece of program text. -/
inductive Piece (P : Type) where
  | guard (c : Nat)
  | creg (c : Nat)
  | op (o : QOp P)

namespace Angle

variable {P : Type} [ToString P]

/-- The spelling of an angle; the constants carry six digits. -/
def text : Angle P → String
  | zero => "0"
  | pi => "3.14159"
  | halfPi => "1.5708"
  | negHalfPi => "-1.5708"
  | param p => toString p

end Angle

namespace QOp

variable {P : Type}

def name : QOp P → String
  | id _ => "id"
  | u1 _ _ => "u1"
  | u2 _ _ _ => "u2"
  | u3 _ _ _ _ => "u3"
  | U _ _ _ _ => "U"
  | cx _ _ => "cx"
  | measure _ _ => "measure"

def params : QOp P → List (Angle P)
  | u1 a _ => [a]
  | u2 a b _ => [a, b]
  | u3 a b c _ => [a, b, c]
  | U a b c _ => [a, b, c]
  | _ => []

def qubits : QOp P → List Nat
  | id q | u1 _ q | u2 _ _ q | u3 _ _ _ q | U _ _ _ q | measure q _ => [q]
  | cx a b => [a, b]

/-- The classical register an operation writes. -/
def clbits : QOp P → List Nat
  | measure _ c => [c]
  | _ => []

variable [ToString P]

/-- The spelling of an operation, as the strings the text is put together
from. -/
def chunks : QOp P → List String
  | id q => ["id q[", toString q, "];\n"]
  | u1 a q => ["u1(", a.text, ") q[", toString q, "];\n"]
  | u2 a b q => ["u2(", a.text, ", ", b.text, ") q[", toString q, "];\n"]
  | u3 a b c q =>
      ["u3(", a.text, ", ", b.text, ", ", c.text, ") q[", toString q, "];\n"]
  | U a b c q =>
      ["U(", a.text, ", ", b.text, ", ", c.text, ") q[", toString q, "];\n"]
  | cx a b => ["cx q[", toString a, "], q[", toString b, "];\n"]
  | measure q c => ["measure q[", toString q, "] -> c", toString c, "[0];\n"]

end QOp

namespace Piece

variable {P : Type}

def isOp : Piece P → Bool
  | op _ => true
  | _ => false

/-- A statement is any piece but a guard, which only prefixes one. -/
def isStatement : Piece P → Bool
  | guard _ => false
  | _ => true

variable [ToString P]

def chunks : Piece P → List String
  | guard c => ["if (c", toString c, " == 1) "]
  | creg c => ["creg c", toString c, "[1];\n"]
  | op o => o.chunks

/-- The text of a list of pieces. -/
def render (ps : List (Piece P)) : String :=
  String.join (ps.flatMap chunks)

theorem render_cons (p : Piece P) (ps : List (Piece P)) :
    render (p :: ps) = String.join p.chunks ++ render ps := by
  simp [render]

end Piece

/-! ## How the text is read -/

variable {P : Type}

/-- A quantum operation with the registers that guard it. -/
structure GuardedOp (P : Type) where
  guards : List Nat
  op : QOp P

/-- The quantum operations of a text, each with the guards written since
the operation before it; `pending` are those already read. -/
def operationsFrom (pending : List Nat) : List (Piece P) → List (GuardedOp P)
  | [] => []
  | .guard c :: ps => operationsFrom (pending ++ [c]) ps
  | .creg _ :: ps => operationsFrom pending ps
  | .op o :: ps => ⟨pending, o⟩ :: operationsFrom [] ps

/-- The quantum operations of a program text. -/
def operations (ps : List (Piece P)) : List (GuardedOp P) :=
  operationsFrom [] ps

/-- The operation a piece is, if it is one. -/
def Piece.op? : Piece P → Option (QOp P)
  | .op o => some o
  | _ => none

@[simp] theorem map_op_operationsFrom (pending : List Nat)
    (ps : List (Piece P)) :
    (operationsFrom pending ps).map GuardedOp.op = ps.filterMap Piece.op? := by
  induction ps generalizing pending with
  | nil => rfl
  | cons p ps ih =>
      cases p with
      | guard c => exact ih _
      | creg c => exact ih _
      | op o => simp [operationsFrom, Piece.op?, ih]

/-- Without an operation there is nothing to guard. -/
theorem operationsFrom_eq_nil {ps : List (Piece P)}
    (h : ps.filterMap Piece.op? = []) (pending : List Nat) :
    operationsFrom pending ps = [] := by
  rw [← map_op_operationsFrom pending, List.map_eq_nil_iff] at h
  exact h

/-- The position of the one operation that a guard written right before
`ps` applies to. -/
def guardTarget (ps : List (Piece P)) : Option Nat :=
  ps.findIdx? Piece.isOp

end XaccIbm
