import Mathlib.Data.List.Basic

/-!
# IR — the instructions the plugin is handed

XACC's intermediate representation as far as the code of this plugin reads
it: primitive instructions with their bits and parameters, the two
composite ones, and the order `InstructionIterator` lists a function in.

A parameter of a gate is an `InstructionParameter`, whose only use here is
`toString()`; it stays a type variable `P` with that one operation.
-/

namespace XaccIbm

/-- What every primitive instruction tells about itself. -/
class Leaf (G : Type) where
  name : G → String
  bits : G → List Nat

/-- The gate instructions `OpenQasmVisitor` has a `visit` for. -/
inductive Gate (P : Type) where
  | identity (q : Nat)
  | hadamard (q : Nat)
  | x (q : Nat)
  | y (q : Nat)
  | z (q : Nat)
  | cnot (source target : Nat)
  | swap (a b : Nat)
  | cz (a b : Nat)
  | cphase (theta : P) (a b : Nat)
  | rx (theta : P) (q : Nat)
  | ry (theta : P) (q : Nat)
  | rz (theta : P) (q : Nat)
  | u (theta phi lambda : P) (q : Nat)
  | measure (q classicalBit : Nat)

namespace Gate

variable {P : Type}

/-- The name the XACC gate registry gives the instruction. -/
def name : Gate P → String
  | identity _ => "I"
  | hadamard _ => "H"
  | x _ => "X"
  | y _ => "Y"
  | z _ => "Z"
  | cnot _ _ => "CNOT"
  | swap _ _ => "Swap"
  | cz _ _ => "CZ"
  | cphase _ _ _ => "CPhase"
  | rx _ _ => "Rx"
  | ry _ _ => "Ry"
  | rz _ _ => "Rz"
  | u _ _ _ _ => "U"
  | measure _ _ => "Measure"

def bits : Gate P → List Nat
  | identity q | hadamard q | x q | y q | z q => [q]
  | cnot a b | swap a b | cz a b | cphase _ a b => [a, b]
  | rx _ q | ry _ q | rz _ q | u _ _ _ q | measure q _ => [q]

instance : Leaf (Gate P) := ⟨name, bits⟩

/-- The qubit a `Measure` reads. -/
def measured : Gate P → Option Nat
  | measure q _ => some q
  | _ => none

end Gate

/-- An instruction tree over primitive instructions `G`. A
`ConditionalFunction` guards its body by a measured qubit. -/
inductive Instruction (G : Type) where
  | leaf (enabled : Bool) (gate : G)
  | conditional (enabled : Bool) (qubit : Nat) (body : List (Instruction G))
  | function (enabled : Bool) (name : String) (body : List (Instruction G))

namespace Instruction

variable {G : Type}

def isEnabled : Instruction G → Bool
  | leaf e _ => e
  | conditional e _ _ => e
  | function e _ _ => e

def name [Leaf G] : Instruction G → String
  | leaf _ g => Leaf.name g
  | conditional _ _ _ => "ConditionalFunction"
  | function _ n _ => n

/-- `bits()`; a function reports none of its own. -/
def bits [Leaf G] : Instruction G → List Nat
  | leaf _ g => Leaf.bits g
  | conditional _ _ _ => []
  | function _ _ _ => []

mutual

/-- The order of `InstructionIterator`: a node, then its children, whether
or not the node is enabled. -/
def preorder : Instruction G → List (Instruction G)
  | leaf e g => [leaf e g]
  | conditional e q body => conditional e q body :: preorderList body
  | function e n body => function e n body :: preorderList body

def preorderList : List (Instruction G) → List (Instruction G)
  | [] => []
  | i :: is => preorder i ++ preorderList is

end

theorem mem_preorderList {j : Instruction G} {is : List (Instruction G)} :
    j ∈ preorderList is ↔ ∃ i ∈ is, j ∈ i.preorder := by
  induction is with
  | nil => simp [preorderList]
  | cons i is ih => simp [preorderList, ih]

/-- A tree contains the trees of its nodes. -/
theorem preorder_subset {i j : Instruction G} (h : j ∈ i.preorder) :
    j.preorder ⊆ i.preorder := by
  match i with
  | leaf e g =>
      rw [preorder, List.mem_singleton] at h
      rw [h]
      exact List.Subset.refl _
  | conditional e q body | function e q body =>
      rw [preorder] at h
      rcases List.mem_cons.mp h with rfl | h
      · exact List.Subset.refl _
      · obtain ⟨k, hk, hj⟩ := mem_preorderList.mp h
        intro l hl
        rw [preorder]
        exact List.mem_cons_of_mem _ (mem_preorderList.mpr ⟨k, hk, preorder_subset hj hl⟩)

end Instruction

/-- A kernel: a named function. -/
structure Function (G : Type) where
  name : String
  enabled : Bool := true
  body : List (Instruction G)

namespace Function

variable {G : Type}

def toInstruction (f : Function G) : Instruction G :=
  .function f.enabled f.name f.body

/-- Everything `InstructionIterator it(kernel)` yields: the kernel itself
comes first. -/
def walk (f : Function G) : List (Instruction G) :=
  f.toInstruction.preorder

/-- A kernel whose body is primitive instructions only. -/
def Flat (f : Function G) : Prop :=
  ∀ i ∈ f.body, ∃ e g, i = .leaf e g

theorem walk_eq (f : Function G) :
    f.walk = f.toInstruction :: Instruction.preorderList f.body := rfl

/-- A flat kernel is walked as itself followed by its body. -/
theorem Flat.walk {f : Function G} (h : f.Flat) :
    f.walk = f.toInstruction :: f.body := by
  have hbody : ∀ is : List (Instruction G),
      (∀ i ∈ is, ∃ e g, i = .leaf e g) →
      Instruction.preorderList is = is := by
    intro is
    induction is with
    | nil => intro _; rfl
    | cons i is ih =>
        intro hall
        obtain ⟨e, g, rfl⟩ := hall i (by simp)
        rw [Instruction.preorderList, Instruction.preorder,
          ih (fun j hj => hall j (by simp [hj]))]
        rfl
  rw [walk_eq, hbody f.body h]

end Function

end XaccIbm
