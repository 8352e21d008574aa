import XaccIbm.IBMIRTransformation.Repeated
import XaccIbm.OpenQasmVisitor.Feedback

/-!
# IBMIRTransformation — Mapped

Passes and the visitor, one after the other. The text of a kernel that went
through any number of passes does what the kernel did before them,
measurements included, and its results are decoded for the same qubits. Its
`cx` are all on the couplers of the last pass when the pairs of the kernel's
`CNOT`s are coupled one way or the other, and those of its `Swap`s both ways: a
`Swap` becomes three `cx` in the text, after the passes have looked for them.
-/

namespace XaccIbm.IBMIRTransformation

open Feedback OpenQasmVisitor Wires

variable {P : Type}

/-! ## Kernels of objects -/

mutual

/-- A node as the visitors see it; the heap has the flags. -/
def Node.toInstruction (heap : Heap) (n : Node P) : Instruction (Gate P) :=
  match n with
  | .object address gate => .leaf (heap.enabled address) gate
  | .composite name body => .function true name (toInstructions heap body)

def toInstructions (heap : Heap) (ns : List (Node P)) : List (Instruction (Gate P)) :=
  match ns with
  | [] => []
  | n :: ns => n.toInstruction heap :: toInstructions heap ns

end

/-- A kernel as the visitors see it. -/
def GateFunction.toFunction (heap : Heap) (f : GateFunction P) : Function (Gate P) where
  name := f.name
  body := toInstructions heap f.instructions

/-- A list of enabled objects is its gates. -/
theorem toInstructions_enabled {heap : Heap} {ns : List (Node P)}
    (hflat : ∀ n ∈ ns, ∃ address gate, n = .object address gate)
    (henabled : ∀ a gate, .object a gate ∈ ns → heap.enabled a = true) :
    toInstructions heap ns = leaves (gatesOf ns) := by
  induction ns with
  | nil => rfl
  | cons n ns ih =>
      obtain ⟨address, gate, rfl⟩ := hflat n List.mem_cons_self
      have htail := ih (fun m hm => hflat m (List.mem_cons_of_mem _ hm))
        fun a g ha => henabled a g (List.mem_cons_of_mem _ ha)
      rw [toInstructions, Node.toInstruction, htail, henabled address gate List.mem_cons_self]
      rfl

/-! ## Kernels of enabled gates -/

section

variable {kernel : Function (Gate P)} {gs : List (Gate P)}

theorem walk_leaves (h : kernel.body = leaves gs) :
    kernel.walk = kernel.toInstruction :: leaves gs := by
  have hflat : kernel.Flat := by
    intro i hi
    rw [h] at hi
    obtain ⟨g, _, rfl⟩ := List.mem_map.mp hi
    exact ⟨true, g, rfl⟩
  rw [hflat.walk, h]

theorem enabled_leaves (h : kernel.body = leaves gs) (he : kernel.enabled = true) :
    kernel.walk.filter Instruction.isEnabled = kernel.toInstruction :: leaves gs := by
  have hon : kernel.toInstruction.isEnabled = true := he
  rw [walk_leaves h, List.filter_cons_of_pos hon]
  congr 1
  rw [List.filter_eq_self]
  intro i hi
  obtain ⟨g, _, rfl⟩ := List.mem_map.mp hi
  rfl

theorem visitedGatesList_leaves (gs : List (Gate P)) : visitedGatesList (leaves gs) = gs := by
  induction gs with
  | nil => rfl
  | cons g gs ih =>
      rw [leaves, List.map_cons, visitedGatesList, ← leaves, ih]
      rfl

/-- What the loop of a kernel writes. -/
theorem written_leaves (h : kernel.body = leaves gs) (he : kernel.enabled = true) :
    piecesList {} (kernel.walk.filter Instruction.isEnabled) = piecesList {} (leaves gs) := by
  rw [enabled_leaves h he, piecesList_cons]
  rfl

theorem feedback_leaves (value : P → ℝ) (n : Nat) (h : kernel.body = leaves gs) :
    kernel.feedback value n = gs.map (Gate.feedback value n) := by
  rw [Function.feedback, Function.toInstruction, feedback_function, h]
  clear h
  induction gs with
  | nil => rfl
  | cons g gs ih =>
      rw [leaves, List.map_cons, feedbackList, ← leaves, ih]
      rfl

theorem measuredQubits_leaves (h : kernel.body = leaves gs) :
    Submission.measuredQubits kernel = gs.filterMap Gate.measured := by
  have hnode : kernel.toInstruction.measuredQubit = none := by
    rw [Instruction.measuredQubit]
    split <;> rfl
  rw [Submission.measuredQubits, walk_leaves h, List.filterMap_cons_none hnode, leaves,
    List.filterMap_map]
  apply List.filterMap_congr
  intro g _
  cases g <;> rfl

end

/-! ## What the pass does to a kernel's operator -/

section

variable (value : P → ℝ) (n : Nat) (couplers : List (Int × Int))

/-- A gate that the visitor writes as what it is. -/
def WrittenGate (g : Gate P) : Prop :=
  (∀ q ∈ g.bits, q < n) ∧ g.bits.Nodup ∧ g.refusal = none ∧ g.Translated value

theorem WrittenGate.turnAround {g : Gate P} (h : WrittenGate value n g) :
    ∀ g' ∈ turnAround couplers g, WrittenGate value n g' := by
  intro g' hg'
  cases g with
  | cnot a b =>
      obtain ⟨hlt, hne, -, -⟩ := h
      have ha : a < n := hlt a (by simp [Gate.bits])
      have hb : b < n := hlt b (by simp [Gate.bits])
      have hab : a ≠ b := by simpa [Gate.bits] using hne
      rw [IBMIRTransformation.turnAround] at hg'
      split at hg'
      · rw [List.mem_singleton.mp hg']
        exact ⟨hlt, hne, rfl, trivial⟩
      · simp only [List.mem_cons, List.not_mem_nil, or_false] at hg'
        rcases hg' with rfl | rfl | rfl | rfl | rfl <;>
          exact ⟨by simp [Gate.bits, ha, hb], by simp [Gate.bits, Ne.symm hab], rfl, trivial⟩
  | _ =>
      rw [List.mem_singleton.mp hg']
      exact h

/-- **Turned gates** in front of a circuit do what the gate does. -/
theorem operator_turnAround {g : Gate P} (hg : ∀ a b, g = .cnot a b → a ≠ b)
    (outcome : Nat → Bool) (m : Memory Nat) (ss : List (Step Nat Nat (Op (Fin n)))) :
    operator outcome (projector n) m ((turnAround couplers g).map (Gate.feedback value n) ++ ss)
      = operator outcome (projector n) m (g.feedback value n :: ss) := by
  cases g with
  | cnot a b =>
      rw [turnAround]
      split
      · rfl
      · have hturned := operator_always outcome (projector n) m
          [onQubit n a Rotations.hadamard, onQubit n b Rotations.hadamard, onPair n cnotMap b a,
            onQubit n a Rotations.hadamard, onQubit n b Rotations.hadamard] ss
        have hkept := operator_always outcome (projector n) m [onPair n cnotMap a b] ss
        rw [reverse_prod, circuit_reversal n (hg a b rfl)] at hturned
        rw [reverse_prod, circuit_cons, circuit_nil, Matrix.one_mul] at hkept
        exact hturned.trans hkept.symm
  | _ => rfl

theorem operator_flatMap_turnAround {gs : List (Gate P)} (hgs : ∀ a b, .cnot a b ∈ gs → a ≠ b)
    (outcome : Nat → Bool) (m : Memory Nat) :
    operator outcome (projector n) m
        ((gs.flatMap (turnAround couplers)).map (Gate.feedback value n))
      = operator outcome (projector n) m (gs.map (Gate.feedback value n)) := by
  induction gs generalizing m with
  | nil => rfl
  | cons g gs ih =>
      have hg : ∀ a b, g = .cnot a b → a ≠ b := by
        rintro a b rfl
        exact hgs a b List.mem_cons_self
      rw [List.flatMap_cons, List.map_append, operator_turnAround value n couplers hg,
        List.map_cons, operator, operator, ih fun a b hab => hgs a b (List.mem_cons_of_mem _ hab)]

theorem WrittenGate.gatesAfter {gs : List (Gate P)} (h : ∀ g ∈ gs, WrittenGate value n g)
    (devices : List (List (Int × Int))) : ∀ g ∈ gatesAfter devices gs, WrittenGate value n g := by
  induction devices generalizing gs with
  | nil => exact h
  | cons couplers devices ih =>
      rw [gatesAfter_cons]
      apply ih
      rw [List.forall_mem_flatMap]
      exact fun g hg => (h g hg).turnAround value n couplers

theorem operator_gatesAfter (devices : List (List (Int × Int))) {gs : List (Gate P)}
    (hgs : ∀ a b, .cnot a b ∈ gs → a ≠ b) (outcome : Nat → Bool) :
    operator outcome (projector n) {} ((gatesAfter devices gs).map (Gate.feedback value n))
      = operator outcome (projector n) {} (gs.map (Gate.feedback value n)) := by
  induction devices generalizing gs with
  | nil => rfl
  | cons couplers devices ih =>
      rw [gatesAfter_cons, ih (distinct_flatMap_turnAround hgs),
        operator_flatMap_turnAround value n couplers hgs]

theorem measured_flatMap_turnAround (gs : List (Gate P)) :
    (gs.flatMap (turnAround couplers)).filterMap Gate.measured = gs.filterMap Gate.measured := by
  induction gs with
  | nil => rfl
  | cons g gs ih =>
      rw [List.flatMap_cons, List.filterMap_append, ih]
      cases g with
      | cnot a b =>
          rw [turnAround]
          split <;> rfl
      | _ => rfl

end

/-! ## The `cx` of the text -/

/-- A gate whose `cx` come to be on couplers. -/
def CoupledGate (couplers : List (Int × Int)) : Gate P → Prop
  | .cnot a b => Available couplers (a, b) ∨ Available couplers (b, a)
  | .swap a b => Available couplers (a, b) ∧ Available couplers (b, a)
  | _ => True

theorem op_mem_pieces {o : QOp P} {c : Nat} {g : Gate P} :
    .op o ∈ g.pieces c ↔ o ∈ g.ops c := by
  rw [Gate.pieces, List.mem_flatMap]
  constructor
  · rintro ⟨o', ho', hmem⟩
    cases o' <;> simp_all [QOp.pieces]
  · intro ho
    refine ⟨o, ho, ?_⟩
    cases o <;> simp [QOp.pieces]

theorem cx_mem_ops {a b c : Nat} {g : Gate P} :
    .cx a b ∈ g.ops c ↔ g = .cnot a b ∨ g = .swap a b ∨ g = .swap b a := by
  cases g <;> simp [Gate.ops] <;> grind

/-- The `cx` of a text are those of `CNOT`s and `Swap`s. -/
theorem cx_mem_piecesList {a b : Nat} {gs : List (Gate P)} {r : Registers} :
    .op (.cx a b) ∈ piecesList r (leaves gs)
      ↔ .cnot a b ∈ gs ∨ .swap a b ∈ gs ∨ .swap b a ∈ gs := by
  induction gs generalizing r with
  | nil => simp [leaves]
  | cons g gs ih =>
      rw [leaves, List.map_cons, piecesList_cons, ← leaves, List.mem_append, ih, pieces,
        op_mem_pieces, cx_mem_ops]
      simp only [List.mem_cons, eq_comm (a := g)]
      tauto

/-- A gate whose `cx` are on couplers as it stands. -/
def DirectGate (couplers : List (Int × Int)) : Gate P → Prop
  | .cnot a b => Available couplers (a, b)
  | .swap a b => Available couplers (a, b) ∧ Available couplers (b, a)
  | _ => True

theorem cx_direct_iff (couplers : List (Int × Int)) (gs : List (Gate P)) (r : Registers) :
    (∀ a b, .op (.cx a b) ∈ piecesList r (leaves gs) → Available couplers (a, b))
      ↔ ∀ g ∈ gs, DirectGate couplers g := by
  simp only [cx_mem_piecesList]
  constructor
  · intro h g hg
    cases g with
    | cnot a b => exact h a b (.inl hg)
    | swap a b => exact ⟨h a b (.inr (.inl hg)), h b a (.inr (.inr hg))⟩
    | _ => exact trivial
  · rintro h a b (hmem | hmem | hmem)
    · exact h _ hmem
    · exact (h _ hmem).1
    · exact (h _ hmem).2

theorem direct_turnAround_iff (couplers : List (Int × Int)) (g : Gate P) :
    (∀ g' ∈ turnAround couplers g, DirectGate couplers g') ↔ CoupledGate couplers g := by
  cases g with
  | cnot a b =>
      rw [turnAround]
      by_cases h : Available couplers (a, b)
      · rw [if_pos (isCouplingAvailable_iff.mpr h), List.forall_mem_singleton]
        exact ⟨.inl, fun _ => h⟩
      · rw [if_neg (mt isCouplingAvailable_iff.mp h)]
        simp [DirectGate, CoupledGate, h]
  | _ => exact List.forall_mem_singleton

/-- **Which texts are on couplers** after a pass. -/
theorem cx_turned_iff (couplers : List (Int × Int)) (gs : List (Gate P)) (r : Registers) :
    (∀ a b, .op (.cx a b) ∈ piecesList r (leaves (gs.flatMap (turnAround couplers))) →
        Available couplers (a, b)) ↔ ∀ g ∈ gs, CoupledGate couplers g := by
  rw [cx_direct_iff, List.forall_mem_flatMap]
  exact forall₂_congr fun g _ => direct_turnAround_iff couplers g

/-- A pass for one device leaves alone what is coupled on another. -/
theorem coupled_turnAround_iff (couplers other : List (Int × Int)) (g : Gate P) :
    (∀ g' ∈ turnAround other g, CoupledGate couplers g') ↔ CoupledGate couplers g := by
  cases g with
  | cnot a b =>
      rw [turnAround]
      split
      · exact List.forall_mem_singleton
      · simp [CoupledGate, or_comm]
  | _ => exact List.forall_mem_singleton

theorem coupled_gatesAfter_iff (couplers : List (Int × Int)) (devices : List (List (Int × Int)))
    (gs : List (Gate P)) :
    (∀ g ∈ gatesAfter devices gs, CoupledGate couplers g) ↔ ∀ g ∈ gs, CoupledGate couplers g := by
  induction devices generalizing gs with
  | nil => rfl
  | cons other devices ih =>
      rw [gatesAfter_cons, ih]
      rw [List.forall_mem_flatMap]
      exact forall₂_congr fun g _ => coupled_turnAround_iff couplers other g

/-! ## The passes, then the visitor -/

/-- **A kernel that is mapped and written**: the kernel of the passes measures
what the kernel measured, is accepted, and its text does under any outcomes
what the kernel did. -/
structure MappedAs [ToString P] (value : P → ℝ) (n : Nat) (couplers : List (Int × Int))
    (kernel kernel' : Function (Gate P)) : Prop where
  name : kernel'.name = kernel.name
  measured : Submission.measuredQubits kernel' = Submission.measuredQubits kernel
  accepted : ∃ v, Submission.passAll OpenQasmVisitor.accept kernel'.walk (new n false) = .ok () v ∧
    v.getOpenQasmString = (new n false).native
      ++ Piece.render (piecesList {} (kernel'.walk.filter Instruction.isEnabled))
  operator : ∀ outcome : Nat → Bool,
    UpToPhase
      (operator outcome (projector n) {}
        (textFeedback value n (piecesList {} (kernel'.walk.filter Instruction.isEnabled))))
      (operator outcome (projector n) {} (kernel.feedback value n))
  /-- All `cx` of the text are on couplers exactly when the kernel's pairs
  can be. -/
  couplers : (∀ a b, .op (.cx a b) ∈ piecesList {} (kernel'.walk.filter Instruction.isEnabled) →
      Available couplers (a, b)) ↔
    ∀ g, .leaf true g ∈ kernel.body → CoupledGate couplers g

section

variable {value : P → ℝ} {n : Nat} {couplers : List (Int × Int)}

/-- A kernel of written gates, whatever they are. -/
theorem written_of_leaves {kernel : Function (Gate P)} {gs : List (Gate P)}
    (hbody : kernel.body = leaves gs) (he : kernel.enabled = true)
    (hname : kernel.name ≠ "Measure") (hgs : ∀ g ∈ gs, WrittenGate value n g) :
    kernel.Written value n where
  names e m body hm := by
    rw [walk_leaves hbody, List.mem_cons] at hm
    rcases hm with hm | hm
    · cases hm
      exact hname
    · obtain ⟨g, _, hg⟩ := List.mem_map.mp hm
      cases hg
  gates g hg := by
    rw [enabled_leaves hbody he, visitedGatesList, visitedGatesList_leaves] at hg
    exact hgs g (by simpa [Function.toInstruction, visitedGates] using hg)
  bodies e q body hb := by
    rw [walk_leaves hbody, List.mem_cons] at hb
    rcases hb with hb | hb
    · cases hb
    · obtain ⟨g, _, hg⟩ := List.mem_map.mp hb
      cases hg
  measured before e q body after hsplit := by
    have hmem : .conditional e q body ∈ kernel.toInstruction :: leaves gs := by
      rw [← enabled_leaves hbody he, hsplit]
      simp
    rcases List.mem_cons.mp hmem with hb | hb
    · cases hb
    · obtain ⟨g, _, hg⟩ := List.mem_map.mp hb
      cases hg

/-- A kernel of enabled objects with the gates of the passes. -/
theorem mapped_of_gates [ToString P] {heap heap' : Heap} {f f' : GateFunction P}
    (earlier : List (List (Int × Int))) (h : Usable f.instructions heap)
    (h' : Usable f'.instructions heap') (hname' : f'.name = f.name)
    (hgates' : f'.gates = gatesAfter (earlier ++ [couplers]) f.gates)
    (hname : f.name ≠ "Measure") (hgates : ∀ g ∈ f.gates, WrittenGate value n g) :
    MappedAs value n couplers (f.toFunction heap) (f'.toFunction heap') := by
  have hbody : (f.toFunction heap).body = leaves f.gates :=
    toInstructions_enabled h.flat h.enabled
  have hbody' : (f'.toFunction heap').body = leaves (gatesAfter (earlier ++ [couplers]) f.gates) := by
    rw [← hgates']
    exact toInstructions_enabled h'.flat h'.enabled
  have hwritten : (f'.toFunction heap').Written value n := by
    refine written_of_leaves hbody' rfl ?_ (WrittenGate.gatesAfter value n hgates _)
    show f'.name ≠ "Measure"
    rw [hname']
    exact hname
  refine ⟨hname', ?_, hwritten.writes value n, fun outcome => ?_, ?_⟩
  · rw [measuredQubits_leaves hbody', measuredQubits_leaves hbody]
    exact gatesAfter_keeps _ (fun couplers gs => measured_flatMap_turnAround couplers gs) _ _
  · have hpairs : ∀ a b, .cnot a b ∈ f.gates → a ≠ b := by
      intro a b hab
      simpa [Gate.bits] using (hgates _ hab).2.1
    have hoperator := hwritten.operator value n outcome
    rw [feedback_leaves value n hbody', operator_gatesAfter value n _ hpairs] at hoperator
    rw [feedback_leaves value n hbody]
    exact hoperator
  · rw [written_leaves hbody' rfl, gatesAfter_concat, cx_turned_iff, coupled_gatesAfter_iff, hbody]
    constructor
    · intro hall g hg
      obtain ⟨g', hg', heq⟩ := List.mem_map.mp hg
      cases heq
      exact hall g hg'
    · intro hall g hg
      exact hall g (List.mem_map.mpr ⟨g, hg, rfl⟩)

/-- **Passes and the visitor**: an IR that is mapped for one device after
another is written, kernel by kernel, for the last of them. -/
theorem passes_mapped [ToString P] {ir : List (GateFunction P)} {heap : Heap}
    (h : Usable (ir.flatMap GateFunction.instructions) heap)
    (hnames : ∀ f ∈ ir, f.name ≠ "Measure")
    (hgates : ∀ f ∈ ir, ∀ g ∈ f.gates, WrittenGate value n g)
    (earlier : List (List (Int × Int))) :
    ∃ ir' heap', passes (earlier ++ [couplers]) ir heap = .ok ir' heap' ∧
      List.Forall₂ (fun f f' => MappedAs value n couplers (f.toFunction heap) (f'.toFunction heap'))
        ir ir' := by
  obtain ⟨ir', heap', hpasses, husable, hall⟩ := passes_usable (earlier ++ [couplers]) h
  refine ⟨ir', heap', hpasses, ?_⟩
  clear hpasses
  induction hall with
  | nil => exact .nil
  | @cons f f' ir ir' hf _ ih =>
      obtain ⟨hname, hnames⟩ := List.forall_mem_cons.mp hnames
      obtain ⟨hgate, hgates⟩ := List.forall_mem_cons.mp hgates
      rw [List.flatMap_cons] at h husable
      have hrest := ih (h.sublist (List.sublist_append_right _ _)) hnames hgates
        (husable.sublist (List.sublist_append_right _ _))
      exact .cons (mapped_of_gates earlier (h.sublist (List.sublist_append_left _ _))
        (husable.sublist (List.sublist_append_left _ _)) hf.1 hf.2 hname hgate) hrest

end

/-- The theorem at the kernel of the pass's test: mapped for the device turned
around, then for the device. -/
theorem passes_mapped_foo :
    ∃ ir' heap', passes [testCouplers.map Prod.swap, testCouplers] [testKernel]
        ⟨fun _ => true, 9⟩ = .ok ir' heap' ∧
      List.Forall₂ (fun f f' => MappedAs (fun _ : String => 0) 4 testCouplers
        (f.toFunction ⟨fun _ => true, 9⟩) (f'.toFunction heap')) [testKernel] ir' := by
  refine passes_mapped built_testKernel.usable ?_ ?_ [testCouplers.map Prod.swap]
  · intro f hf
    rw [List.mem_singleton.mp hf]
    decide
  · intro f hf g hg
    rw [List.mem_singleton.mp hf] at hg
    simp only [testKernel, GateFunction.gates, gatesOf, Node.gate?, List.filterMap_cons,
      List.filterMap_nil, List.mem_cons, List.not_mem_nil, or_false] at hg
    rcases hg with rfl | rfl | rfl | rfl | rfl | rfl | rfl | rfl | rfl <;>
      exact ⟨by decide, by decide, rfl, trivial⟩

end XaccIbm.IBMIRTransformation
