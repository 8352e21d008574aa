import XaccIbm.IBMIRTransformation.Equivalence

/-!
# IBMIRTransformation — Repeated

Any number of passes, each on the IR that the one before it returned, and each
with couplers of its own. A pass leaves kernels in which two objects stand
twice, so what carries from one pass to the next is weaker than what the
compiler builds: an object that stands twice is no `CNOT`.
-/

namespace XaccIbm.IBMIRTransformation

open Wires

variable {P : Type}

/-! ## The instructions of an IR -/

/-- What stands at two places: one object only if it is no `CNOT`. -/
def Node.Apart (n m : Node P) : Prop :=
  ∀ a g g', n = .object a g → m = .object a g' → Gate.cnot? g = none ∧ Gate.cnot? g' = none

theorem apart_object {a b : Nat} {g g' : Gate P} :
    (Node.object a g).Apart (.object b g') ↔
      (a = b → Gate.cnot? g = none ∧ Gate.cnot? g' = none) := by
  constructor
  · rintro h rfl
    exact h a g g' rfl rfl
  · rintro h c x x' heq heq'
    cases heq
    cases heq'
    exact h rfl

/-- **What a pass needs**, and leaves: enabled objects, each `CNOT` of them in
one place. -/
structure Usable (ns : List (Node P)) (heap : Heap) : Prop where
  flat : ∀ n ∈ ns, ∃ address gate, n = .object address gate
  apart : ns.Pairwise Node.Apart
  enabled : ∀ a gate, .object a gate ∈ ns → heap.enabled a = true
  allocated : ∀ a gate, .object a gate ∈ ns → a < heap.next

theorem Usable.sublist {ms ns : List (Node P)} {heap : Heap} (h : Usable ns heap)
    (hsub : ms.Sublist ns) : Usable ms heap where
  flat n hn := h.flat n (hsub.subset hn)
  apart := h.apart.sublist hsub
  enabled a gate ha := h.enabled a gate (hsub.subset ha)
  allocated a gate ha := h.allocated a gate (hsub.subset ha)

/-- The compiler's kernels are usable. -/
theorem Built.usable {ir : List (GateFunction P)} {heap : Heap} (h : Built ir heap) :
    Usable (ir.flatMap GateFunction.instructions) heap := by
  have haddresses : (ir.flatMap fun f => addresses f.instructions)
      = addresses (ir.flatMap GateFunction.instructions) := List.filterMap_flatMap.symm
  obtain ⟨hflat, hdistinct, henabled, hallocated⟩ := h
  rw [haddresses] at hdistinct henabled hallocated
  refine ⟨?_, ?_, ?_, ?_⟩
  · intro n hn
    obtain ⟨f, hf, hn⟩ := List.mem_flatMap.mp hn
    exact hflat f hf n hn
  · refine (List.pairwise_filterMap.mp hdistinct).imp ?_
    rintro _ _ hne a g g' rfl rfl
    exact absurd rfl (hne a rfl a rfl)
  · intro a gate ha
    exact henabled a (mem_addresses ha)
  · intro a gate ha
    exact hallocated a (mem_addresses ha)

/-! ## A pass as a function of the instructions -/

variable (couplers : List (Int × Int))

/-- What one instruction becomes, and the heap. -/
def turn (heap : Heap) : Node P → List (Node P) × Heap
  | .object address (.cnot source target) =>
      if isCouplingAvailable couplers source target then
        ([.object address (.cnot source target)], heap)
      else (reversal heap.next source target, heap.reversed address)
  | n => ([n], heap)

/-- What a list of instructions becomes, and the heap. -/
def turned (heap : Heap) : List (Node P) → List (Node P) × Heap
  | [] => ([], heap)
  | n :: ns =>
      let here := turn couplers heap n
      let rest := turned here.2 ns
      (here.1 ++ rest.1, rest.2)

variable {couplers}

theorem turn_kept {n : Node P} (hn : ¬ Uncoupled couplers n) (heap : Heap) :
    turn couplers heap n = ([n], heap) := by
  cases n with
  | composite name body => rfl
  | object address gate =>
      cases gate with
      | cnot source target =>
          have havailable : isCouplingAvailable couplers source target = true := by
            simpa [Uncoupled, isCouplingAvailable_iff] using hn
          rw [turn, if_pos havailable]
      | _ => rfl

theorem turn_reversed {address source target : Nat}
    (hn : Uncoupled couplers (.object address (.cnot source target) : Node P)) (heap : Heap) :
    turn couplers heap (.object address (.cnot source target) : Node P)
      = (reversal heap.next source target, heap.reversed address) := by
  have havailable : ¬ isCouplingAvailable couplers source target = true := by
    simpa [Uncoupled, isCouplingAvailable_iff] using hn
  rw [turn, if_neg havailable]

theorem turned_cons (n : Node P) (ns : List (Node P)) (heap : Heap) :
    turned couplers heap (n :: ns)
      = ((turn couplers heap n).1 ++ (turned couplers (turn couplers heap n).2 ns).1,
        (turned couplers (turn couplers heap n).2 ns).2) := rfl

/-- The objects of a reversal are new ones. -/
theorem mem_reversal {a next source target : Nat} {gate : Gate P}
    (h : .object a gate ∈ reversal next source target) : next ≤ a ∧ a < next + 3 := by
  simp only [reversal, List.mem_cons, Node.object.injEq, List.not_mem_nil, or_false] at h
  omega

/-- The reversed `CNOT` stands in one place. -/
theorem pairwise_reversal (next source target : Nat) :
    (reversal (P := P) next source target).Pairwise Node.Apart := by
  simp [reversal, apart_object, Gate.cnot?]

/-- An object that is a `CNOT` is not among the others. -/
theorem not_mem_of_usable {before after : List (Node P)} {address source target : Nat}
    {heap : Heap} (h : Usable (before ++ .object address (.cnot source target) :: after) heap)
    (gate : Gate P) : .object address gate ∉ before ++ after := by
  obtain ⟨-, htail, hacross⟩ := List.pairwise_append.mp h.apart
  intro hmem
  rcases List.mem_append.mp hmem with hbefore | hafter
  · cases (apart_object.mp (hacross _ hbefore _ List.mem_cons_self) rfl).2
  · cases (apart_object.mp ((List.pairwise_cons.mp htail).1 _ hafter) rfl).1

/-- New objects are apart from those there are. -/
theorem apart_reversal {n m : Node P} {heap : Heap} {source target : Nat}
    (hn : ∀ a gate, n = .object a gate → a < heap.next)
    (hm : m ∈ reversal heap.next source target) : n.Apart m ∧ m.Apart n := by
  constructor
  · rintro a g g' rfl rfl
    have hlt := hn a g rfl
    have hle := (mem_reversal hm).1
    omega
  · rintro a g g' rfl rfl
    have hlt := hn a g' rfl
    have hle := (mem_reversal hm).1
    omega

/-- **A reversal** between usable instructions, for an object that is not among
them. -/
theorem usable_reversal {before after : List (Node P)} {address source target : Nat} {heap : Heap}
    (h : Usable (before ++ after) heap) (hnot : ∀ gate, .object address gate ∉ before ++ after) :
    Usable (before ++ (reversal heap.next source target ++ after)) (heap.reversed address) := by
  have hsplit : ∀ n, n ∈ before ++ (reversal heap.next source target ++ after) →
      n ∈ before ++ after ∨ n ∈ reversal heap.next source target := by
    intro n hn
    simp only [List.mem_append] at hn ⊢
    tauto
  have hnew : ∀ x ∈ before ++ after, ∀ y ∈ reversal heap.next source target,
      x.Apart y ∧ y.Apart x := by
    intro x hx y hy
    apply apart_reversal _ hy
    rintro a gate rfl
    exact h.allocated a gate hx
  refine ⟨?_, ?_, ?_, ?_⟩
  · intro m hm
    rcases hsplit m hm with hm | hm
    · exact h.flat m hm
    · simp only [reversal, List.mem_cons, List.not_mem_nil, or_false] at hm
      rcases hm with rfl | rfl | rfl | rfl | rfl <;> exact ⟨_, _, rfl⟩
  · obtain ⟨hbefore, hafter, hacross⟩ := List.pairwise_append.mp h.apart
    rw [List.pairwise_append, List.pairwise_append]
    refine ⟨hbefore, ⟨pairwise_reversal _ _ _, hafter, ?_⟩, ?_⟩
    · intro x hx y hy
      exact (hnew y (List.mem_append_right _ hy) x hx).2
    · intro x hx y hy
      rcases List.mem_append.mp hy with hy | hy
      · exact (hnew x (List.mem_append_left _ hx) y hy).1
      · exact hacross x hx y hy
  · intro a gate ha
    rcases hsplit _ ha with ha | ha
    · have hne : a ≠ address := by
        rintro rfl
        exact hnot gate ha
      rw [Heap.enabled_reversed (h.allocated a gate ha), if_neg hne]
      exact h.enabled a gate ha
    · obtain ⟨hle, hlt⟩ := mem_reversal ha
      exact Heap.enabled_reversed_new hle hlt
  · intro a gate ha
    rw [Heap.next_reversed]
    rcases hsplit _ ha with ha | ha
    · have hlt := h.allocated a gate ha
      omega
    · exact (mem_reversal ha).2

/-- **One instruction**: wherever it stands, the whole stays usable. -/
theorem usable_turn {before after : List (Node P)} {n : Node P} {heap : Heap}
    (h : Usable (before ++ n :: after) heap) :
    Usable (before ++ ((turn couplers heap n).1 ++ after)) (turn couplers heap n).2 := by
  by_cases hn : Uncoupled couplers n
  · obtain ⟨address, source, target, rfl⟩ := hn.eq
    rw [turn_reversed hn]
    have hothers := h.sublist
      (List.Sublist.append_left (List.sublist_cons_self _ after) before)
    exact usable_reversal hothers (not_mem_of_usable h)
  · rw [turn_kept hn]
    exact h

/-- **A list of instructions**, wherever it stands. -/
theorem usable_turned {before ns after : List (Node P)} {heap : Heap}
    (h : Usable (before ++ (ns ++ after)) heap) :
    Usable (before ++ ((turned couplers heap ns).1 ++ after)) (turned couplers heap ns).2 := by
  induction ns generalizing before heap with
  | nil => exact h
  | cons n ns ih =>
      have hhere : Usable (before ++ ((turn couplers heap n).1 ++ (ns ++ after)))
          (turn couplers heap n).2 := usable_turn h
      rw [← List.append_assoc] at hhere
      have hrest := ih hhere
      rw [turned_cons, List.append_assoc]
      rw [List.append_assoc] at hrest
      exact hrest

/-- The gates of what a list becomes. -/
theorem gatesOf_turned (ns : List (Node P)) (heap : Heap) :
    gatesOf (turned couplers heap ns).1 = (gatesOf ns).flatMap (turnAround couplers) := by
  induction ns generalizing heap with
  | nil => rfl
  | cons n ns ih =>
      have hhere : gatesOf (turn couplers heap n).1
          = n.gate?.toList.flatMap (turnAround couplers) := by
        by_cases hn : Uncoupled couplers n
        · obtain ⟨address, source, target, rfl⟩ := hn.eq
          have havailable : ¬ isCouplingAvailable couplers source target = true := by
            simpa [Uncoupled, isCouplingAvailable_iff] using hn
          rw [turn_reversed hn, Node.gate?, Option.toList_some, List.flatMap_singleton,
            turnAround, if_neg havailable]
          rfl
        · rw [turn_kept hn]
          cases n with
          | composite name body => rfl
          | object address gate =>
              rw [Node.gate?, Option.toList_some, List.flatMap_singleton, turnAround_of_kept hn]
              rfl
      have hcons : gatesOf (n :: ns) = n.gate?.toList ++ gatesOf ns := by
        cases n <;> rfl
      rw [turned_cons, gatesOf, List.filterMap_append, ← gatesOf, ← gatesOf, hhere, ih, hcons,
        List.flatMap_append]

/-! ## The pass -/

/-- **The loop** over usable instructions turns them, in place. -/
theorem steps_turned {ns before : List (Node P)} {s : Pass P} (hs : s.newInstructions = [])
    (hkernel : s.kernel = before ++ ns) (hidx : s.currentKernelInstructionIdx = before.length)
    (h : Usable ns s.heap) :
    steps couplers ns s = .ok () {
      kernel := before ++ (turned couplers s.heap ns).1
      currentKernelInstructionIdx := (before ++ (turned couplers s.heap ns).1).length
      newInstructions := []
      heap := (turned couplers s.heap ns).2 } := by
  induction ns generalizing before s with
  | nil =>
      show EStateM.Result.ok () s = _
      rw [turned, List.append_nil, ← hidx, ← hs, ← List.append_nil before, ← hkernel]
  | cons n ns ih =>
      obtain ⟨address, gate, rfl⟩ := h.flat n List.mem_cons_self
      have henabled := h.enabled address gate List.mem_cons_self
      have hhere : Usable ([] ++ ((turn couplers s.heap (.object address gate)).1 ++ ns))
          (turn couplers s.heap (.object address gate)).2 := usable_turn h
      have hrest := hhere.sublist (List.sublist_append_right _ ns)
      rw [turned_cons, ← List.append_assoc]
      by_cases hn : Uncoupled couplers (.object address gate)
      · obtain ⟨_, source, target, heq⟩ := hn.eq
        cases heq
        have haddress := h.allocated address _ List.mem_cons_self
        rw [turn_reversed hn] at hrest ⊢
        rw [steps_cons (step_reversed henabled haddress hn hs hkernel hidx)]
        apply ih rfl rfl _ hrest
        rw [List.length_append]
        rfl
      · have hkernel' : s.next.kernel = (before ++ [.object address gate]) ++ ns := by
          rw [List.append_assoc]
          exact hkernel
        have hidx' : s.next.currentKernelInstructionIdx
            = (before ++ [Node.object address gate]).length := by
          rw [List.length_append, ← hidx]
          rfl
        rw [turn_kept hn] at hrest ⊢
        rw [steps_cons (step_kept henabled hn)]
        exact ih rfl hkernel' hidx' hrest

/-- A kernel of usable instructions. -/
theorem transformKernel_turned {f : GateFunction P} {heap : Heap}
    (h : Usable f.instructions heap) :
    transformKernel couplers f heap
      = .ok { f with instructions := (turned couplers heap f.instructions).1 }
        (turned couplers heap f.instructions).2 := by
  have hwalk : f.walk = .composite f.name f.instructions :: f.instructions :=
    GateFunction.Flat.walk h.flat
  have hsteps := @steps_turned P couplers f.instructions [] (f.start heap) rfl rfl rfl h
  have hfunction : step couplers (.composite f.name f.instructions) (f.start heap)
      = .ok () (f.start heap) := rfl
  rw [transformKernel, hwalk, steps_cons hfunction, hsteps]
  rfl

/-- **One pass** over an IR whose instructions are usable together with others
leaves them so. -/
theorem transform_usable {ir : List (GateFunction P)} {before : List (Node P)} {heap : Heap}
    (h : Usable (before ++ ir.flatMap GateFunction.instructions) heap) :
    ∃ ir' heap', transform couplers ir heap = .ok ir' heap' ∧
      Usable (before ++ ir'.flatMap GateFunction.instructions) heap' ∧
      List.Forall₂ (fun f f' => f'.name = f.name ∧
        f'.gates = f.gates.flatMap (turnAround couplers)) ir ir' := by
  induction ir generalizing before heap with
  | nil => exact ⟨[], heap, rfl, h, .nil⟩
  | cons f ir ih =>
      rw [List.flatMap_cons] at h
      have hf : Usable f.instructions heap := h.sublist
        ((List.sublist_append_left _ _).trans (List.sublist_append_right _ _))
      have hafter : Usable (before ++ ((turned couplers heap f.instructions).1
          ++ ir.flatMap GateFunction.instructions)) (turned couplers heap f.instructions).2 :=
        usable_turned h
      rw [← List.append_assoc] at hafter
      obtain ⟨ir', heap', hrest, husable, hall⟩ := ih hafter
      have hturned := @gatesOf_turned P couplers f.instructions heap
      refine ⟨{ f with instructions := (turned couplers heap f.instructions).1 } :: ir', heap',
        ?_, ?_, .cons ⟨rfl, hturned⟩ hall⟩
      · rw [transform, Exec.bind_of_ok (transformKernel_turned hf), Exec.bind_of_ok hrest]
        rfl
      · rw [List.flatMap_cons, ← List.append_assoc]
        exact husable

/-! ## Passes one after the other -/

/-- Calls of `transform`, each with couplers of its own and on the IR that the
last one returned. -/
def passes : List (List (Int × Int)) → List (GateFunction P) → Exec Heap (List (GateFunction P))
  | [], ir => pure ir
  | couplers :: rest, ir => do
      let ir ← transform couplers ir
      passes rest ir

/-- The gates after passes with these couplers. -/
def gatesAfter (devices : List (List (Int × Int))) (gates : List (Gate P)) : List (Gate P) :=
  devices.foldl (fun gates couplers => gates.flatMap (turnAround couplers)) gates

theorem gatesAfter_cons (devices : List (List (Int × Int))) (gates : List (Gate P)) :
    gatesAfter (couplers :: devices) gates
      = gatesAfter devices (gates.flatMap (turnAround couplers)) := rfl

theorem gatesAfter_concat (devices : List (List (Int × Int))) (gates : List (Gate P)) :
    gatesAfter (devices ++ [couplers]) gates
      = (gatesAfter devices gates).flatMap (turnAround couplers) := by
  rw [gatesAfter, List.foldl_append]
  rfl

/-- What every pass keeps, they keep. -/
theorem gatesAfter_keeps {α : Type} (f : List (Gate P) → α)
    (h : ∀ couplers gates, f (gates.flatMap (turnAround couplers)) = f gates)
    (devices : List (List (Int × Int))) (gates : List (Gate P)) :
    f (gatesAfter devices gates) = f gates := by
  induction devices generalizing gates with
  | nil => rfl
  | cons couplers devices ih => rw [gatesAfter_cons, ih, h]

/-- **Any number of passes** on usable instructions return, and leave them
usable. -/
theorem passes_usable (devices : List (List (Int × Int))) {ir : List (GateFunction P)}
    {heap : Heap} (h : Usable (ir.flatMap GateFunction.instructions) heap) :
    ∃ ir' heap', passes devices ir heap = .ok ir' heap' ∧
      Usable (ir'.flatMap GateFunction.instructions) heap' ∧
      List.Forall₂ (fun f f' => f'.name = f.name ∧ f'.gates = gatesAfter devices f.gates)
        ir ir' := by
  induction devices generalizing ir heap with
  | nil => exact ⟨ir, heap, rfl, h, List.forall₂_same.mpr fun f _ => ⟨rfl, rfl⟩⟩
  | cons couplers devices ih =>
      obtain ⟨ir₁, heap₁, hfirst, husable, hone⟩ :=
        @transform_usable P couplers ir [] heap h
      obtain ⟨ir', heap', hrest, husable', hall⟩ := ih husable
      refine ⟨ir', heap', (Exec.bind_of_ok hfirst).trans hrest, husable', ?_⟩
      clear h hfirst husable hrest husable' ih
      induction hone generalizing ir' with
      | nil =>
          cases hall
          exact .nil
      | @cons f f₁ ir ir₁ hf _ ih =>
          cases hall with
          | @cons _ f' _ ir' hf' hall =>
              refine .cons ⟨hf'.1.trans hf.1, ?_⟩ (ih ir' hall)
              rw [hf'.2, hf.2, gatesAfter_cons]

/-! ## What the passes keep -/

/-- No pass adds or removes such a gate. -/
def Gate.isOther : Gate P → Bool
  | .cnot _ _ => false
  | .hadamard _ => false
  | _ => true

theorem filter_other_turnAround (gates : List (Gate P)) :
    (gates.flatMap (turnAround couplers)).filter Gate.isOther = gates.filter Gate.isOther := by
  induction gates with
  | nil => rfl
  | cons gate gates ih =>
      rw [List.flatMap_cons, List.filter_append, ih]
      cases gate with
      | cnot source target =>
          rw [turnAround]
          split <;> rfl
      | _ => rfl

/-- The `CNOT`s have two qubits after a pass if they had before it. -/
theorem distinct_flatMap_turnAround {gates : List (Gate P)}
    (h : ∀ a b, .cnot a b ∈ gates → a ≠ b) :
    ∀ a b, .cnot a b ∈ gates.flatMap (turnAround couplers) → a ≠ b := by
  intro a b hab
  obtain ⟨gate, hgate, hmem⟩ := List.mem_flatMap.mp hab
  cases gate with
  | cnot source target =>
      have hne := h source target hgate
      rw [turnAround] at hmem
      split at hmem
      · cases List.mem_singleton.mp hmem
        exact hne
      · simp only [List.mem_cons, Gate.cnot.injEq, reduceCtorEq, List.not_mem_nil, or_false,
          false_or] at hmem
        rw [hmem.1, hmem.2]
        exact hne.symm
  | _ => cases List.mem_singleton.mp hmem

theorem circuit_gatesAfter {n : Nat} {operator : Gate P → Op (Fin n)}
    (hop : UsualMatrices n operator) (devices : List (List (Int × Int))) {gates : List (Gate P)}
    (h : ∀ a b, .cnot a b ∈ gates → a ≠ b) :
    circuit ((gatesAfter devices gates).map operator) = circuit (gates.map operator) := by
  induction devices generalizing gates with
  | nil => rfl
  | cons couplers devices ih =>
      rw [gatesAfter_cons, ih (distinct_flatMap_turnAround h), circuit_flatMap_turnAround hop h]

/-- The pairs of the `CNOT`s, in no order each. -/
theorem pairs_gatesAfter (devices : List (List (Int × Int))) (gates : List (Gate P)) :
    ((gatesAfter devices gates).filterMap Gate.cnot?).map unordered
      = (gates.filterMap Gate.cnot?).map unordered := by
  refine gatesAfter_keeps (fun gates => (gates.filterMap Gate.cnot?).map unordered) ?_ devices gates
  intro couplers gates
  simp only [filterMap_cnot_turnAround, List.map_map]
  exact List.map_congr_left fun p _ => unordered_orient p

/-- On a coupler one way or the other. -/
def Coupled (couplers : List (Int × Int)) (p : Nat × Nat) : Prop :=
  Available couplers p ∨ Available couplers p.swap

/-- Whether a pair is coupled is a matter of the pair in no order. -/
theorem coupled_of_unordered {p q : Nat × Nat} (h : unordered p = unordered q) :
    Coupled couplers p ↔ Coupled couplers q := by
  obtain ⟨a, b⟩ := p
  obtain ⟨c, d⟩ := q
  rcases Sym2.eq_iff.mp h with ⟨rfl, rfl⟩ | ⟨rfl, rfl⟩
  · rfl
  · exact or_comm

theorem forall_coupled_of_map {ps qs : List (Nat × Nat)} (h : ps.map unordered = qs.map unordered) :
    (∀ p ∈ ps, Coupled couplers p) ↔ ∀ q ∈ qs, Coupled couplers q := by
  have hhalf : ∀ {ps qs : List (Nat × Nat)}, ps.map unordered = qs.map unordered →
      (∀ p ∈ ps, Coupled couplers p) → ∀ q ∈ qs, Coupled couplers q := by
    intro ps qs h hps q hq
    have hmem : unordered q ∈ ps.map unordered := h ▸ List.mem_map_of_mem hq
    obtain ⟨p, hp, heq⟩ := List.mem_map.mp hmem
    exact (coupled_of_unordered heq).mp (hps p hp)
  exact ⟨hhalf h, hhalf h.symm⟩

/-- **The last pass decides** which `CNOT`s are on couplers. -/
theorem available_gatesAfter_iff (earlier : List (List (Int × Int))) (gates : List (Gate P)) :
    (∀ p ∈ (gatesAfter (earlier ++ [couplers]) gates).filterMap Gate.cnot?,
        Available couplers p) ↔
      ∀ p ∈ gates.filterMap Gate.cnot?, Coupled couplers p := by
  rw [gatesAfter_concat, filterMap_cnot_turnAround, List.forall_mem_map]
  simp only [available_orient_iff]
  exact forall_coupled_of_map (pairs_gatesAfter earlier gates)

/-- An IR of usable instructions whose `CNOT`s are on couplers is left alone. -/
theorem transform_available {ir : List (GateFunction P)} {heap : Heap}
    (h : Usable (ir.flatMap GateFunction.instructions) heap)
    (hcnots : ∀ f ∈ ir, ∀ p ∈ f.cnots, Available couplers p) :
    transform couplers ir heap = .ok ir heap := by
  induction ir with
  | nil => rfl
  | cons f ir ih =>
      rw [List.flatMap_cons] at h
      have hf := h.sublist (List.sublist_append_left _ _)
      have hir := h.sublist (List.sublist_append_right _ _)
      have hkernel : transformKernel couplers f heap = .ok f heap :=
        transformKernel_available hf.flat hf.enabled (hcnots f List.mem_cons_self)
      rw [transform, Exec.bind_of_ok hkernel,
        Exec.bind_of_ok (ih hir fun g hg => hcnots g (List.mem_cons_of_mem _ hg))]
      rfl

/-- **A kernel after any passes**, the last one with these couplers. -/
structure Remapped (couplers : List (Int × Int)) (f f' : GateFunction P) : Prop where
  name : f'.name = f.name
  unitary : ∀ (n : Nat) (operator : Gate P → Op (Fin n)), UsualMatrices n operator →
    f'.unitary operator = f.unitary operator
  pairs : f'.cnots.map unordered = f.cnots.map unordered
  others : f'.gates.filter Gate.isOther = f.gates.filter Gate.isOther
  executable : (∀ p ∈ f'.cnots, Available couplers p) ↔ ∀ p ∈ f.cnots, Coupled couplers p

theorem remapped_of_gates {f f' : GateFunction P} (earlier : List (List (Int × Int)))
    (hname : f'.name = f.name) (hgates : f'.gates = gatesAfter (earlier ++ [couplers]) f.gates)
    (hdistinct : ∀ a b, .cnot a b ∈ f.gates → a ≠ b) : Remapped couplers f f' where
  name := hname
  unitary n operator hop := by
    rw [GateFunction.unitary, hgates]
    exact circuit_gatesAfter hop _ hdistinct
  pairs := by
    rw [GateFunction.cnots, hgates]
    exact pairs_gatesAfter _ _
  others := by
    rw [hgates]
    exact gatesAfter_keeps _ (fun _ gates => filter_other_turnAround gates) _ _
  executable := by
    rw [GateFunction.cnots, hgates]
    exact available_gatesAfter_iff earlier f.gates

/-- **An IR mapped for one device after another.** However many passes there
are, none edits out of place: each kernel keeps its unitary, its pairs and its
other gates, and is executable on the last device exactly when its own pairs
are coupled there. If all kernels are, the last pass over again changes
nothing. -/
theorem passes_preserved {ir : List (GateFunction P)} {heap : Heap}
    (h : Usable (ir.flatMap GateFunction.instructions) heap)
    (hdistinct : ∀ f ∈ ir, ∀ a b, .cnot a b ∈ f.gates → a ≠ b)
    (earlier : List (List (Int × Int))) (couplers : List (Int × Int)) :
    ∃ ir' heap', passes (earlier ++ [couplers]) ir heap = .ok ir' heap' ∧
      Usable (ir'.flatMap GateFunction.instructions) heap' ∧
      List.Forall₂ (Remapped couplers) ir ir' ∧
      ((∀ f ∈ ir, ∀ p ∈ f.cnots, Coupled couplers p) →
        transform couplers ir' heap' = .ok ir' heap') := by
  obtain ⟨ir', heap', hpasses, husable, hall⟩ := passes_usable (earlier ++ [couplers]) h
  have hremapped : List.Forall₂ (Remapped couplers) ir ir' := by
    clear h hpasses husable
    induction hall with
    | nil => exact .nil
    | @cons f f' ir ir' hf _ ih =>
        exact .cons (remapped_of_gates earlier hf.1 hf.2 (hdistinct f List.mem_cons_self))
          (ih fun g hg => hdistinct g (List.mem_cons_of_mem _ hg))
  refine ⟨ir', heap', hpasses, husable, hremapped, fun hcoupled => ?_⟩
  apply transform_available husable
  clear h hpasses husable hall hdistinct
  induction hremapped with
  | nil =>
      intro f hf
      cases hf
  | @cons f f' ir ir' hf _ ih =>
      obtain ⟨hhead, htail⟩ := List.forall_mem_cons.mp hcoupled
      exact List.forall_mem_cons.mpr ⟨hf.executable.mpr hhead, ih htail⟩

/-- The theorem at the kernel of the pass's test: mapped for the device turned
around, then for the device. -/
theorem passes_preserved_foo :
    ∃ ir' heap', passes [testCouplers.map Prod.swap, testCouplers] [testKernel]
        ⟨fun _ => true, 9⟩ = .ok ir' heap' ∧
      List.Forall₂ (Remapped testCouplers) [testKernel] ir' ∧
      transform testCouplers ir' heap' = .ok ir' heap' := by
  have hdistinct : ∀ f ∈ [testKernel], ∀ a b, .cnot a b ∈ f.gates → a ≠ b := by
    intro f hf a b hab
    cases List.mem_singleton.mp hf
    simp only [testKernel, GateFunction.gates, gatesOf, Node.gate?, List.filterMap_cons,
      List.filterMap_nil, List.mem_cons, Gate.cnot.injEq, reduceCtorEq, List.not_mem_nil,
      or_false, false_or] at hab
    omega
  obtain ⟨ir', heap', hpasses, _, hall, hagain⟩ := passes_preserved built_testKernel.usable
    hdistinct [testCouplers.map Prod.swap] testCouplers
  refine ⟨ir', heap', hpasses, hall, hagain ?_⟩
  unfold Coupled Available
  decide

end XaccIbm.IBMIRTransformation
