import Mathlib.Data.Sym.Sym2
import XaccIbm.IBMIRTransformation.Rewriting
import XaccIbm.Unitary

/-!
# IBMIRTransformation — Equivalence

The pass on flat kernels of enabled, distinct objects, which are the kernels
the compiler builds. There the number of an instruction is its position, so
every `CNOT` on no coupler is turned around where it stands: the kernel's
unitary stays, and a kernel becomes executable when each of its pairs is
coupled in one direction at least.
-/

namespace XaccIbm.IBMIRTransformation

open Wires

variable {P : Type} {couplers : List (Int × Int)}

/-! ## Flat kernels -/

/-- The gate of an object. -/
def Node.gate? : Node P → Option (Gate P)
  | .object _ gate => some gate
  | .composite _ _ => none

def gatesOf (ns : List (Node P)) : List (Gate P) := ns.filterMap Node.gate?

/-- The gates of a flat kernel. -/
def GateFunction.gates (f : GateFunction P) : List (Gate P) := gatesOf f.instructions

/-- A kernel that lists objects only. -/
def GateFunction.Flat (f : GateFunction P) : Prop :=
  ∀ n ∈ f.instructions, ∃ address gate, n = .object address gate

/-- Kernels as the compiler builds them: flat, of enabled objects, no object
listed twice. -/
structure Built (ir : List (GateFunction P)) (heap : Heap) : Prop where
  flat : ∀ f ∈ ir, f.Flat
  distinct : (ir.flatMap fun f => addresses f.instructions).Nodup
  enabled : ∀ a ∈ ir.flatMap fun f => addresses f.instructions, heap.enabled a = true
  allocated : ∀ a ∈ ir.flatMap fun f => addresses f.instructions, a < heap.next

theorem preorderList_of_flat {ns : List (Node P)}
    (h : ∀ n ∈ ns, ∃ address gate, n = .object address gate) :
    Node.preorderList ns = ns := by
  induction ns with
  | nil => rfl
  | cons n ns ih =>
      obtain ⟨address, gate, rfl⟩ := h n List.mem_cons_self
      rw [Node.preorderList, Node.preorder, ih fun m hm => h m (List.mem_cons_of_mem _ hm)]
      rfl

/-- A flat kernel is walked as itself and its instructions. -/
theorem GateFunction.Flat.walk {f : GateFunction P} (h : f.Flat) :
    f.walk = .composite f.name f.instructions :: f.instructions := by
  rw [GateFunction.walk, Node.preorder, preorderList_of_flat h]

/-- All of a list of enabled, distinct objects is visited. -/
theorem visited_of_distinct {ns : List (Node P)} {enabled : Nat → Bool}
    (hflat : ∀ n ∈ ns, ∃ address gate, n = .object address gate)
    (hdistinct : (addresses ns).Nodup) (henabled : ∀ a ∈ addresses ns, enabled a = true) :
    visited couplers enabled ns = ns := by
  induction ns generalizing enabled with
  | nil => rfl
  | cons n ns ih =>
      obtain ⟨address, gate, rfl⟩ := hflat n List.mem_cons_self
      rw [addresses_cons_object] at hdistinct henabled
      obtain ⟨hnot, hdistinct⟩ := List.nodup_cons.mp hdistinct
      obtain ⟨haddress, henabled⟩ := List.forall_mem_cons.mp henabled
      rw [visited_cons_object, if_pos haddress,
        ih (fun m hm => hflat m (List.mem_cons_of_mem _ hm)) hdistinct]
      intro a ha
      have hne : a ≠ address := by
        rintro rfl
        exact hnot ha
      rw [if_neg fun h => hne h.2]
      exact henabled a ha

theorem aligned_self (ns : List (Node P)) : Aligned couplers ns ns :=
  fun _ _ h _ => h

theorem Rewritten.mono {lo hi lo' hi' : Nat} (hlo : lo' ≤ lo) (hhi : hi ≤ hi')
    {vs rest out : List (Node P)} (h : Rewritten couplers lo hi vs rest out) :
    Rewritten couplers lo' hi' vs rest out := by
  induction h with
  | done rest => exact .done rest
  | past vs => exact .past vs
  | kept hn _ ih => exact .kept hn ih
  | reversed hn hnext hle _ ih =>
      exact .reversed hn (Nat.le_trans hlo hnext) (Nat.le_trans hle hhi) ih

/-- Induction over the edit of a list all of which is visited. -/
theorem Rewritten.inductionSelf {lo hi : Nat} {motive : List (Node P) → List (Node P) → Prop}
    (nil : motive [] [])
    (kept : ∀ n ns out, ¬ Uncoupled couplers n → motive ns out → motive (n :: ns) (n :: out))
    (reversed : ∀ address source target next ns out,
      Uncoupled couplers (.object address (.cnot source target) : Node P) →
      lo ≤ next → next + 3 ≤ hi → motive ns out →
      motive (.object address (.cnot source target) :: ns)
        (reversal next source target ++ out))
    {vs ns out : List (Node P)} (h : Rewritten couplers lo hi vs ns out) (hself : vs = ns) :
    motive ns out := by
  induction h with
  | done rest =>
      subst hself
      exact nil
  | past vs => exact nil
  | kept hn _ ih =>
      obtain ⟨rfl, htail⟩ := List.cons.inj hself
      exact kept _ _ _ hn (ih htail)
  | reversed hn hlo hhi _ ih =>
      exact reversed _ _ _ _ _ _ hn hlo hhi (ih (List.cons.inj hself).2)

/-- The objects of an edited list are old ones that were not replaced, or new. -/
theorem Rewritten.addresses_out {lo hi : Nat} {ns out : List (Node P)}
    (h : Rewritten couplers lo hi ns ns out) :
    ∀ a gate, .object a gate ∈ out →
      (.object a gate ∈ ns ∧ ¬ Uncoupled couplers (.object a gate : Node P)) ∨
        (lo ≤ a ∧ a < hi) := by
  refine Rewritten.inductionSelf (motive := fun ns out => ∀ a gate, .object a gate ∈ out →
    (.object a gate ∈ ns ∧ ¬ Uncoupled couplers (.object a gate : Node P)) ∨
      (lo ≤ a ∧ a < hi)) ?_ ?_ ?_ h rfl
  · intro a gate ha
    cases ha
  · intro n ns out hn ih a gate ha
    rcases List.mem_cons.mp ha with rfl | ha
    · exact .inl ⟨List.mem_cons_self, hn⟩
    · exact (ih a gate ha).imp_left fun h => ⟨List.mem_cons_of_mem n h.1, h.2⟩
  · intro address source target next ns out hn hlo hhi ih a gate ha
    rcases List.mem_append.mp ha with ha | ha
    · refine .inr ?_
      simp only [reversal, List.mem_cons, Node.object.injEq, List.not_mem_nil, or_false] at ha
      omega
    · exact (ih a gate ha).imp_left fun h => ⟨List.mem_cons_of_mem _ h.1, h.2⟩

/-- The gates a gate becomes. -/
def turnAround (couplers : List (Int × Int)) : Gate P → List (Gate P)
  | .cnot source target =>
      if isCouplingAvailable couplers source target then [.cnot source target]
      else [.hadamard source, .hadamard target, .cnot target source, .hadamard source,
        .hadamard target]
  | gate => [gate]

theorem turnAround_of_kept {address : Nat} {gate : Gate P}
    (h : ¬ Uncoupled couplers (.object address gate : Node P)) :
    turnAround couplers gate = [gate] := by
  cases gate with
  | cnot source target =>
      have havailable : isCouplingAvailable couplers source target = true := by
        simpa [Uncoupled, isCouplingAvailable_iff] using h
      rw [turnAround, if_pos havailable]
  | _ => rfl

/-- **The gates of an edited list.** -/
theorem Rewritten.gates_eq {lo hi : Nat} {ns out : List (Node P)}
    (h : Rewritten couplers lo hi ns ns out) :
    gatesOf out = (gatesOf ns).flatMap (turnAround couplers) := by
  refine Rewritten.inductionSelf (motive := fun ns out =>
    gatesOf out
      = (gatesOf ns).flatMap (turnAround couplers)) ?_ ?_ ?_ h rfl
  · rfl
  · intro n ns out hn ih
    cases n with
    | composite name body => exact ih
    | object address gate =>
        show gate :: gatesOf out
          = turnAround couplers gate ++ (gatesOf ns).flatMap (turnAround couplers)
        rw [turnAround_of_kept hn, ih]
        rfl
  · intro address source target next ns out hn _ _ ih
    have havailable : ¬ isCouplingAvailable couplers source target = true := by
      simpa [Uncoupled, isCouplingAvailable_iff] using hn
    show _ = turnAround couplers (.cnot source target)
      ++ (gatesOf ns).flatMap (turnAround couplers)
    rw [turnAround, if_neg havailable, ← ih]
    rfl

/-! ## One kernel, and a list of them -/

/-- What the pass does to a flat kernel and the heap. -/
theorem transformKernel_built {f : GateFunction P} {heap : Heap} (hflat : f.Flat)
    (hdistinct : (addresses f.instructions).Nodup)
    (henabled : ∀ a ∈ addresses f.instructions, heap.enabled a = true)
    (hallocated : ∀ a ∈ addresses f.instructions, a < heap.next) :
    ∃ f' heap', transformKernel couplers f heap = .ok f' heap' ∧ f'.name = f.name ∧
      Rewritten couplers heap.next heap'.next f.instructions f.instructions f'.instructions ∧
      Grown couplers heap.next f.instructions heap heap' := by
  -- distinct enabled objects are visited as they are listed, so every number is right
  have hvisited : visited couplers heap.enabled f.walk = f.instructions := by
    rw [hflat.walk]
    exact visited_of_distinct hflat hdistinct henabled
  have hwalk : ∀ a ∈ addresses f.walk, a < heap.next := by
    rw [hflat.walk]
    exact hallocated
  have haligned : Aligned couplers (visited couplers heap.enabled f.walk) f.instructions := by
    rw [hvisited]
    exact aligned_self _
  obtain ⟨out, s', hedited⟩ := steps_aligned f.walk (running_start f heap) hwalk haligned
  rw [hvisited] at hedited
  refine ⟨{ f with instructions := s'.kernel }, s'.heap, ?_, rfl, ?_, hedited.grown⟩
  · rw [transformKernel, hedited.steps]
  · rw [hedited.kernel]
    exact hedited.rewritten

/-- A kernel after the pass: the edit of the kernel, of enabled objects. -/
structure Turned (couplers : List (Int × Int)) (lo : Nat) (heap' : Heap)
    (f f' : GateFunction P) : Prop where
  name : f'.name = f.name
  rewritten : Rewritten couplers lo heap'.next f.instructions f.instructions f'.instructions
  enabled : ∀ a gate, .object a gate ∈ f'.instructions → heap'.enabled a = true

theorem mem_addresses {a : Nat} {gate : Gate P} {ns : List (Node P)}
    (h : .object a gate ∈ ns) : a ∈ addresses ns :=
  List.mem_filterMap.mpr ⟨_, h, rfl⟩

/-- The objects of an edited kernel are enabled. -/
theorem Grown.enabled_out {lo : Nat} {ns out : List (Node P)} {h h' : Heap}
    (hgrown : Grown couplers lo ns h h') (hlo : h.next = lo)
    (hrewritten : Rewritten couplers lo h'.next ns ns out)
    (hdistinct : ∀ a g g', .object a g ∈ ns → .object a g' ∈ ns → g = g')
    (henabled : ∀ a ∈ addresses ns, h.enabled a = true)
    (hallocated : ∀ a ∈ addresses ns, a < lo) :
    ∀ a gate, .object a gate ∈ out → h'.enabled a = true := by
  intro a gate ha
  rcases hrewritten.addresses_out a gate ha with ⟨hmem, hn⟩ | ⟨hle, hlt⟩
  · have hkept := hgrown.kept a (hallocated a (mem_addresses hmem)) fun gate' hmem' => by
      rw [← hdistinct a gate gate' hmem hmem']
      exact hn
    rw [hkept]
    exact henabled a (mem_addresses hmem)
  · exact hgrown.fresh (fun b hb hlt => by omega) a hle hlt

/-- Distinct objects have distinct addresses. -/
theorem gate_eq_of_nodup {ns : List (Node P)} (h : (addresses ns).Nodup) :
    ∀ a g g', .object a g ∈ ns → .object a g' ∈ ns → g = g' := by
  induction ns with
  | nil =>
      intro a g g' hg
      cases hg
  | cons n ns ih =>
      intro a g g' hg hg'
      cases n with
      | composite name body =>
          rcases List.mem_cons.mp hg with hg | hg
          · cases hg
          · rcases List.mem_cons.mp hg' with hg' | hg'
            · cases hg'
            · exact ih h a g g' hg hg'
      | object address gate =>
          rw [addresses_cons_object] at h
          obtain ⟨hnot, h⟩ := List.nodup_cons.mp h
          rcases List.mem_cons.mp hg with heq | hmem
          · cases heq
            rcases List.mem_cons.mp hg' with heq | hmem'
            · cases heq
              rfl
            · exact absurd (mem_addresses hmem') hnot
          · rcases List.mem_cons.mp hg' with heq | hmem'
            · cases heq
              exact absurd (mem_addresses hmem) hnot
            · exact ih h a g g' hmem hmem'

/-- **The pass on an IR**: the kernels in their order, each one edited. -/
theorem transform_built {ir : List (GateFunction P)} {heap : Heap} (h : Built ir heap) :
    ∃ ir' heap', transform couplers ir heap = .ok ir' heap' ∧ heap.next ≤ heap'.next ∧
      (∀ a, a < heap.next → a ∉ (ir.flatMap fun f => addresses f.instructions) →
        heap'.enabled a = heap.enabled a) ∧
      List.Forall₂ (Turned couplers heap.next heap') ir ir' := by
  induction ir generalizing heap with
  | nil => exact ⟨[], heap, rfl, Nat.le_refl _, fun _ _ _ => rfl, .nil⟩
  | cons f ir ih =>
      obtain ⟨hflat, hdistinct, henabled, hallocated⟩ := h
      rw [List.flatMap_cons] at hdistinct henabled hallocated
      obtain ⟨hf, hir, hdisjoint⟩ := List.nodup_append.mp hdistinct
      obtain ⟨henabledF, henabled⟩ := List.forall_mem_append.mp henabled
      obtain ⟨hallocatedF, hallocated⟩ := List.forall_mem_append.mp hallocated
      obtain ⟨f', heap1, hkernel, hname, hrewritten, hgrown⟩ :=
        @transformKernel_built P couplers f heap (hflat f List.mem_cons_self) hf
          henabledF hallocatedF
      -- the objects of the other kernels are as they were
      have hothers : ∀ a, a < heap.next → a ∉ addresses f.instructions →
          heap1.enabled a = heap.enabled a := fun a ha hnot =>
        hgrown.kept a ha fun gate hmem => absurd (mem_addresses hmem) hnot
      have hbuilt : Built ir heap1 :=
        { flat := fun g hg => hflat g (List.mem_cons_of_mem _ hg)
          distinct := hir
          enabled := fun a ha => by
            rw [hothers a (hallocated a ha) fun hf => hdisjoint a hf a ha rfl]
            exact henabled a ha
          allocated := fun a ha => Nat.lt_of_lt_of_le (hallocated a ha) hgrown.next_le }
      obtain ⟨ir', heap', htransform, hle, hkept, hturned⟩ := ih hbuilt
      refine ⟨f' :: ir', heap', ?_, Nat.le_trans hgrown.next_le hle, ?_, .cons ⟨hname, ?_, ?_⟩ ?_⟩
      · rw [transform, Exec.bind_of_ok hkernel, Exec.bind_of_ok htransform]
        rfl
      · intro a ha hnot
        rw [List.flatMap_cons, List.mem_append, not_or] at hnot
        rw [hkept a (Nat.lt_of_lt_of_le ha hgrown.next_le) hnot.2, hothers a ha hnot.1]
      · exact hrewritten.mono (Nat.le_refl _) hle
      · intro a gate ha
        have henabled1 := hgrown.enabled_out rfl hrewritten (gate_eq_of_nodup hf) henabledF
          hallocatedF a gate ha
        have hold : a < heap1.next ∧ a ∉ ir.flatMap fun f => addresses f.instructions := by
          rcases hrewritten.addresses_out a gate ha with ⟨hmem, _⟩ | ⟨hlo, hhi⟩
          · have ha := mem_addresses hmem
            exact ⟨Nat.lt_of_lt_of_le (hallocatedF a ha) hgrown.next_le,
              fun hir => hdisjoint a ha a hir rfl⟩
          · exact ⟨hhi, fun hir => absurd (hallocated a hir) (Nat.not_lt.mpr hlo)⟩
        rw [hkept a hold.1 hold.2]
        exact henabled1
      · refine hturned.imp fun g g' hg => ⟨hg.name, ?_, hg.enabled⟩
        exact hg.rewritten.mono hgrown.next_le (Nat.le_refl _)

/-! ## The unitary of a kernel -/

/-- Operators for the gates, in which `H` and `CNOT` are the usual ones. -/
structure UsualMatrices (n : Nat) (operator : Gate P → Op (Fin n)) : Prop where
  hadamard : ∀ q, operator (.hadamard q) = onQubit n q Rotations.hadamard
  cnot : ∀ a b, operator (.cnot a b) = onPair n cnotMap a b

/-- The unitary of a kernel on `n` qubits. -/
noncomputable def GateFunction.unitary {n : Nat} (f : GateFunction P)
    (operator : Gate P → Op (Fin n)) : Op (Fin n) :=
  circuit (f.gates.map operator)

/-- A reversed `CNOT` between Hadamards, wherever its qubits are. -/
theorem circuit_reversal (n : Nat) {a b : Nat} (hab : a ≠ b) :
    circuit [onQubit n a Rotations.hadamard, onQubit n b Rotations.hadamard,
        onPair n cnotMap b a, onQubit n a Rotations.hadamard, onQubit n b Rotations.hadamard]
      = onPair n cnotMap a b := by
  have hself : ∀ q, onQubit n q Rotations.hadamard * onQubit n q Rotations.hadamard = 1 := by
    intro q
    rw [onQubit]
    split
    · rw [← on_mul, Rotations.hadamard_mul_self, on_one]
    · rw [one_mul]
  by_cases h : a < n ∧ b < n
  · have hne : (⟨a, h.1⟩ : Fin n) ≠ ⟨b, h.2⟩ := by simpa using hab
    rw [onQubit, onQubit, onPair, onPair, dif_pos h.1, dif_pos h.2, dif_pos h.symm, dif_pos h]
    exact Rotations.hadamards_cnot hne
  · have h' : ¬ (b < n ∧ a < n) := fun hba => h hba.symm
    rw [onPair, onPair, dif_neg h, dif_neg h']
    simp only [circuit_cons, circuit_nil, Matrix.one_mul, Matrix.mul_one]
    -- one of the qubits is not there, and its Hadamards are nothing
    have hone : ∀ q, ¬ q < n → onQubit n q Rotations.hadamard = 1 := fun q hq => dif_neg hq
    rcases not_and_or.mp h with ha | hb
    · rw [hone a ha, Matrix.mul_one, Matrix.mul_one, hself]
    · rw [hone b hb, Matrix.mul_one, Matrix.one_mul, hself]

theorem circuit_turnAround {n : Nat} {operator : Gate P → Op (Fin n)}
    (h : UsualMatrices n operator) {gate : Gate P}
    (hdistinct : ∀ a b, gate = .cnot a b → a ≠ b) :
    circuit ((turnAround couplers gate).map operator) = operator gate := by
  cases gate with
  | cnot a b =>
      rw [turnAround]
      split
      · exact Matrix.one_mul _
      · simp only [List.map_cons, List.map_nil, h.hadamard, h.cnot]
        exact circuit_reversal n (hdistinct a b rfl)
  | _ => exact Matrix.one_mul _

theorem circuit_flatMap_turnAround {n : Nat} {operator : Gate P → Op (Fin n)}
    (h : UsualMatrices n operator) {gates : List (Gate P)}
    (hdistinct : ∀ a b, .cnot a b ∈ gates → a ≠ b) :
    circuit ((gates.flatMap (turnAround couplers)).map operator)
      = circuit (gates.map operator) := by
  induction gates with
  | nil => rfl
  | cons gate gates ih =>
      have hhead : ∀ a b, gate = .cnot a b → a ≠ b := by
        rintro a b rfl
        exact hdistinct a b List.mem_cons_self
      rw [List.flatMap_cons, List.map_append, circuit_append, circuit_turnAround h hhead,
        ih fun a b hab => hdistinct a b (List.mem_cons_of_mem _ hab)]
      rfl

/-- **A kernel that does what it did**: every `CNOT` on no coupler is turned
around in place, everything else is as it was, and whatever the other gates
do, the kernel has its unitary on `n` qubits. -/
structure Preserved (couplers : List (Int × Int)) (lo : Nat) (heap' : Heap)
    (f f' : GateFunction P) : Prop where
  turned : Turned couplers lo heap' f f'
  gates : f'.gates = f.gates.flatMap (turnAround couplers)
  unitary : ∀ (n : Nat) (operator : Gate P → Op (Fin n)), UsualMatrices n operator →
    f'.unitary operator = f.unitary operator

/-- **The pass keeps the unitary of every kernel**, on kernels as the
compiler builds them, and keeps the kernels in their order. -/
theorem transform_unitary {ir : List (GateFunction P)} {heap : Heap} (h : Built ir heap)
    (hdistinct : ∀ f ∈ ir, ∀ a b, .cnot a b ∈ f.gates → a ≠ b) :
    ∃ ir' heap', transform couplers ir heap = .ok ir' heap' ∧
      List.Forall₂ (Preserved couplers heap.next heap') ir ir' := by
  obtain ⟨ir', heap', htransform, -, -, hturned⟩ := @transform_built P couplers ir heap h
  refine ⟨ir', heap', htransform, ?_⟩
  clear h htransform
  induction hturned with
  | nil => exact .nil
  | @cons f f' ir ir' hf _ ih =>
      refine .cons ⟨hf, hf.rewritten.gates_eq, fun n operator hop => ?_⟩
        (ih fun g hg => hdistinct g (List.mem_cons_of_mem _ hg))
      rw [GateFunction.unitary, GateFunction.gates, hf.rewritten.gates_eq]
      exact circuit_flatMap_turnAround hop (hdistinct f List.mem_cons_self)

/-- The couplers of the pass's test. -/
def testCouplers : List (Int × Int) := [(0, 1), (0, 2), (1, 2), (2, 3), (2, 4), (3, 4)]

/-- The kernel of the pass's test; its last `CNOT` is on no coupler. -/
def testKernel : GateFunction String where
  name := "foo"
  instructions := [.object 0 (.x 0), .object 1 (.hadamard 1), .object 2 (.cnot 1 2),
    .object 3 (.cnot 2 3), .object 4 (.hadamard 0), .object 5 (.cnot 2 0),
    .object 6 (.measure 0 0), .object 7 (.measure 1 1), .object 8 (.measure 2 2)]

theorem built_testKernel : Built [testKernel] ⟨fun _ => true, 9⟩ where
  flat f hf n hn := by
    cases List.mem_singleton.mp hf
    simp only [testKernel, List.mem_cons, List.not_mem_nil, or_false] at hn
    rcases hn with rfl | rfl | rfl | rfl | rfl | rfl | rfl | rfl | rfl <;> exact ⟨_, _, rfl⟩
  distinct := by decide
  enabled _ _ := rfl
  allocated := by decide

/-- The theorem at the kernel of the pass's test. -/
theorem transform_unitary_foo :
    ∃ ir' heap', transform testCouplers [testKernel] ⟨fun _ => true, 9⟩ = .ok ir' heap' ∧
      List.Forall₂ (Preserved testCouplers 9 heap') [testKernel] ir' := by
  refine transform_unitary built_testKernel fun f hf a b hab => ?_
  cases List.mem_singleton.mp hf
  simp only [testKernel, GateFunction.gates, gatesOf, Node.gate?, List.filterMap_cons,
    List.filterMap_nil, List.mem_cons, Gate.cnot.injEq, reduceCtorEq, List.not_mem_nil,
    or_false, false_or] at hab
  omega

/-! ## Which kernels become executable -/

/-- The qubits of a `CNOT`. -/
def Gate.cnot? : Gate P → Option (Nat × Nat)
  | .cnot source target => some (source, target)
  | _ => none

/-- The pairs of the `CNOT`s of a kernel, in its order. -/
def GateFunction.cnots (f : GateFunction P) : List (Nat × Nat) := f.gates.filterMap Gate.cnot?

/-- How a pair is after the pass. -/
def orient (couplers : List (Int × Int)) (p : Nat × Nat) : Nat × Nat :=
  if Available couplers p then p else p.swap

theorem filterMap_cnot_turnAround (gates : List (Gate P)) :
    (gates.flatMap (turnAround couplers)).filterMap Gate.cnot?
      = (gates.filterMap Gate.cnot?).map (orient couplers) := by
  induction gates with
  | nil => rfl
  | cons gate gates ih =>
      rw [List.flatMap_cons, List.filterMap_append, ih]
      cases gate with
      | cnot a b =>
          rw [turnAround]
          by_cases h : Available couplers (a, b)
          · have horient : orient couplers (a, b) = (a, b) := if_pos h
            rw [if_pos (isCouplingAvailable_iff.mpr h)]
            show (a, b) :: _ = orient couplers (a, b) :: _
            rw [horient]
            rfl
          · have horient : orient couplers (a, b) = (b, a) := if_neg h
            rw [if_neg (mt isCouplingAvailable_iff.mp h)]
            show (b, a) :: _ = orient couplers (a, b) :: _
            rw [horient]
            rfl
      | _ => rfl

theorem available_orient_iff (p : Nat × Nat) :
    Available couplers (orient couplers p) ↔ Available couplers p ∨ Available couplers p.swap := by
  rw [orient]
  by_cases h : Available couplers p
  · rw [if_pos h]
    exact iff_of_true h (.inl h)
  · rw [if_neg h]
    exact (or_iff_right h).symm

/-- The pair in no order. -/
def unordered (p : Nat × Nat) : Sym2 Nat := s(p.1, p.2)

theorem unordered_orient (p : Nat × Nat) : unordered (orient couplers p) = unordered p := by
  rw [orient]
  split
  · rfl
  · exact Sym2.eq_swap

/-- A list of enabled objects, none of them on no coupler, is left alone. -/
theorem steps_available {ns : List (Node P)} {s : Pass P} (hs : s.newInstructions = [])
    (h : ∀ n ∈ ns, ∃ address gate, n = .object address gate ∧
      s.heap.enabled address = true ∧ ¬ Uncoupled couplers n) :
    steps couplers ns s = .ok () { s with
      currentKernelInstructionIdx := s.currentKernelInstructionIdx + ns.length } := by
  induction ns generalizing s with
  | nil => rfl
  | cons n ns ih =>
      obtain ⟨address, gate, rfl, henabled, hn⟩ := h n List.mem_cons_self
      have htail := ih (s := s.next) rfl fun m hm => h m (List.mem_cons_of_mem _ hm)
      rw [steps, Exec.bind_of_ok (step_kept henabled hn)]
      refine htail.trans ?_
      rw [hs, List.length_cons, Nat.add_comm ns.length, ← Nat.add_assoc]
      rfl

theorem Rewritten.flat {lo hi : Nat} {ns out : List (Node P)}
    (h : Rewritten couplers lo hi ns ns out)
    (hflat : ∀ n ∈ ns, ∃ address gate, n = .object address gate) :
    ∀ n ∈ out, ∃ address gate, n = .object address gate := by
  revert hflat
  refine Rewritten.inductionSelf (motive := fun ns out =>
    (∀ n ∈ ns, ∃ address gate, n = .object address gate) →
      ∀ n ∈ out, ∃ address gate, n = .object address gate) ?_ ?_ ?_ h rfl
  · exact fun h => h
  · intro n ns out _ ih hflat
    obtain ⟨hn, hns⟩ := List.forall_mem_cons.mp hflat
    exact List.forall_mem_cons.mpr ⟨hn, ih hns⟩
  · intro address source target next ns out _ _ _ ih hflat
    refine List.forall_mem_append.mpr ⟨fun n hn => ?_, ih (List.forall_mem_cons.mp hflat).2⟩
    simp only [reversal, List.mem_cons, List.not_mem_nil, or_false] at hn
    rcases hn with rfl | rfl | rfl | rfl | rfl <;> exact ⟨_, _, rfl⟩

/-- A flat kernel whose `CNOT`s are on couplers is left alone. -/
theorem transformKernel_available {f : GateFunction P} {heap : Heap} (hflat : f.Flat)
    (henabled : ∀ a gate, .object a gate ∈ f.instructions → heap.enabled a = true)
    (hcnots : ∀ p ∈ f.cnots, Available couplers p) :
    transformKernel couplers f heap = .ok f heap := by
  have hall : ∀ n ∈ f.instructions, ∃ address gate, n = .object address gate ∧
      (f.start heap).heap.enabled address = true ∧ ¬ Uncoupled couplers n := by
    intro n hn
    obtain ⟨address, gate, rfl⟩ := hflat n hn
    refine ⟨address, gate, rfl, henabled address gate hn, fun huncoupled => ?_⟩
    obtain ⟨_, source, target, heq⟩ := huncoupled.eq
    cases heq
    have hmem : (source, target) ∈ f.cnots :=
      List.mem_filterMap.mpr ⟨.cnot source target, List.mem_filterMap.mpr ⟨_, hn, rfl⟩, rfl⟩
    exact huncoupled (hcnots _ hmem)
  have hsteps : steps couplers f.walk (f.start heap) = .ok () { f.start heap with
      currentKernelInstructionIdx := 0 + f.instructions.length } := by
    rw [hflat.walk]
    exact steps_available rfl hall
  rw [transformKernel, hsteps]
  rfl

/-- **Which kernels become executable.** After the pass every `CNOT` of the
kernel is on a coupler if and only if every pair was coupled in one direction
at least; then the pass changes nothing more. The `CNOT`s are as many as they
were, on the same unordered pairs, whatever the couplers. -/
theorem transform_available_iff {f : GateFunction P} {heap : Heap} (h : Built [f] heap) :
    ∃ f' heap', transform couplers [f] heap = .ok [f'] heap' ∧
      ((∀ p ∈ f'.cnots, Available couplers p) ↔
        ∀ p ∈ f.cnots, Available couplers p ∨ Available couplers p.swap) ∧
      ((∀ p ∈ f.cnots, Available couplers p ∨ Available couplers p.swap) →
        transform couplers [f'] heap' = .ok [f'] heap') ∧
      f'.cnots.map unordered = f.cnots.map unordered ∧ f'.cnots.length = f.cnots.length := by
  obtain ⟨ir', heap', htransform, -, -, hturned⟩ := @transform_built P couplers [f] heap h
  obtain ⟨f', hf', rfl⟩ : ∃ f', Turned couplers heap.next heap' f f' ∧ ir' = [f'] := by
    cases hturned with
    | cons hf hnil =>
        cases hnil
        exact ⟨_, hf, rfl⟩
  have hcnots : f'.cnots = f.cnots.map (orient couplers) := by
    rw [GateFunction.cnots, GateFunction.gates, hf'.rewritten.gates_eq,
      filterMap_cnot_turnAround]
    rfl
  have hiff : (∀ p ∈ f'.cnots, Available couplers p) ↔
      ∀ p ∈ f.cnots, Available couplers p ∨ Available couplers p.swap := by
    rw [hcnots, List.forall_mem_map]
    simp only [available_orient_iff]
  -- a second pass finds every pair on a coupler and edits nothing
  refine ⟨f', heap', htransform, hiff, fun hall => ?_, ?_, ?_⟩
  · have hkernel : transformKernel couplers f' heap' = .ok f' heap' :=
      transformKernel_available (hf'.rewritten.flat (h.flat f List.mem_cons_self)) hf'.enabled
        (hiff.mpr hall)
    rw [transform, Exec.bind_of_ok hkernel]
    rfl
  · rw [hcnots, List.map_map]
    exact List.map_congr_left fun p _ => unordered_orient p
  · rw [hcnots, List.length_map]

/-- The theorem at the kernel of the pass's test: its pair `2`, `0` is coupled
the other way round. -/
theorem transform_available_foo :
    ∃ f' heap', transform testCouplers [testKernel] ⟨fun _ => true, 9⟩ = .ok [f'] heap' ∧
      (∀ p ∈ f'.cnots, Available testCouplers p) ∧
      transform testCouplers [f'] heap' = .ok [f'] heap' := by
  obtain ⟨f', heap', htransform, hiff, hagain, _⟩ :=
    @transform_available_iff _ testCouplers _ _ built_testKernel
  have hpairs : ∀ p ∈ testKernel.cnots,
      Available testCouplers p ∨ Available testCouplers p.swap := by
    decide
  exact ⟨f', heap', htransform, hiff.mpr hpairs, hagain hpairs⟩

end XaccIbm.IBMIRTransformation
