import XaccIbm.IBMIRTransformation.Transform

/-!
# IBMIRTransformation — Rewriting

The pass against what it means to do: replace each `CNOT` on no coupler where
it stands. The running index counts the enabled instructions that were
visited, and is used as a position in the kernel's own list. So the pass
edits the right place exactly as long as the `CNOT`s it replaces have, in
that list, the number they have among the visited instructions.
-/

namespace XaccIbm.IBMIRTransformation

variable {P : Type} (couplers : List (Int × Int))

/-- The addresses of the objects in a list. -/
def addresses (ns : List (Node P)) : List Nat :=
  ns.filterMap fun
    | .object address _ => some address
    | .composite _ _ => none

/-- The instructions a walk visits: those that are enabled when it comes to
them. A replaced object is disabled from then on. -/
def visited : (Nat → Bool) → List (Node P) → List (Node P)
  | _, [] => []
  | enabled, .composite _ _ :: ns => visited enabled ns
  | enabled, .object address gate :: ns =>
      if enabled address then
        .object address gate ::
          visited (fun a => if Uncoupled couplers (.object address gate) ∧ a = address
            then false else enabled a) ns
      else visited enabled ns

/-- **The right edit** of a list, for what is visited: every visited `CNOT`
on no coupler stands in the list under its number and is replaced there by
new objects with addresses from `lo` to `hi`; the rest stays. -/
inductive Rewritten (lo hi : Nat) :
    List (Node P) → List (Node P) → List (Node P) → Prop where
  | done (rest : List (Node P)) : Rewritten lo hi [] rest rest
  | past (vs : List (Node P)) : Rewritten lo hi vs [] []
  | kept {n m : Node P} {vs rest out : List (Node P)} (hn : ¬ Uncoupled couplers n)
      (h : Rewritten lo hi vs rest out) :
      Rewritten lo hi (n :: vs) (m :: rest) (m :: out)
  | reversed {address source target next : Nat} {vs rest out : List (Node P)}
      (hn : Uncoupled couplers (.object address (.cnot source target) : Node P))
      (hlo : lo ≤ next) (hhi : next + 3 ≤ hi) (h : Rewritten lo hi vs rest out) :
      Rewritten lo hi (.object address (.cnot source target) :: vs)
        (.object address (.cnot source target) :: rest)
        (reversal next source target ++ out)

/-- The visited `CNOT`s on no coupler have their number in the list. -/
def Aligned (vs rest : List (Node P)) : Prop :=
  ∀ (k : Nat) (n : Node P), vs[k]? = some n → Uncoupled couplers n → rest[k]? = some n

/-- The instruction will be replaced. -/
def Replaces (s : Pass P) : Node P → Prop
  | .object address gate =>
      s.heap.enabled address = true ∧ Uncoupled couplers (.object address gate)
  | .composite _ _ => False

/-- **A pass that edits in place**: no index is out of range, and what is
removed is the `CNOT` that is visited. -/
def InPlace : List (Node P) → Pass P → Prop
  | [], _ => True
  | n :: ns, s =>
      (Replaces couplers s n → s.kernel[s.currentKernelInstructionIdx]? = some n) ∧
        ∃ s', step couplers n s = .ok () s' ∧ InPlace ns s'

variable {couplers}

theorem aligned_cons {n m : Node P} {vs rest : List (Node P)} :
    Aligned couplers (n :: vs) (m :: rest) ↔
      (Uncoupled couplers n → m = n) ∧ Aligned couplers vs rest := by
  constructor
  · intro h
    exact ⟨fun hn => Option.some.inj (h 0 n rfl hn), fun k x hx hc => h (k + 1) x hx hc⟩
  · rintro ⟨hhead, htail⟩ k x hx hc
    cases k with
    | zero =>
        cases hx
        exact congrArg some (hhead hc)
    | succ k => exact htail k x hx hc

/-- Beyond the list nothing may be replaced. -/
theorem aligned_cons_nil {n : Node P} {vs : List (Node P)} :
    Aligned couplers (n :: vs) [] ↔ ¬ Uncoupled couplers n ∧ Aligned couplers vs [] := by
  constructor
  · intro h
    refine ⟨fun hn => ?_, fun k x hx hc => ?_⟩
    · cases h 0 n rfl hn
    · cases h (k + 1) x hx hc
  · rintro ⟨hhead, htail⟩ k x hx hc
    cases k with
    | zero =>
        cases hx
        exact absurd hc hhead
    | succ k => exact htail k x hx hc

theorem addresses_cons_object (address : Nat) (gate : Gate P) (ns : List (Node P)) :
    addresses (.object address gate :: ns) = address :: addresses ns := rfl

/-- A `CNOT` on no coupler is a `CNOT`. -/
theorem Uncoupled.eq {n : Node P} (h : Uncoupled couplers n) :
    ∃ address source target, n = .object address (.cnot source target) := by
  unfold Uncoupled at h
  split at h
  · exact ⟨_, _, _, rfl⟩
  · exact h.elim

/-- Nothing is left of an empty list. -/
theorem Rewritten.eq_nil {lo hi : Nat} {vs out : List (Node P)}
    (h : Rewritten couplers lo hi vs [] out) : out = [] := by
  cases h <;> rfl

/-! ## The heap along a pass -/

/-- What a pass does to the heap: there are more objects, the new ones are
enabled, and of those before `lo` only the replaced ones are disabled. -/
structure Grown (couplers : List (Int × Int)) (lo : Nat) (vs : List (Node P))
    (h h' : Heap) : Prop where
  next_le : h.next ≤ h'.next
  fresh : (∀ a, lo ≤ a → a < h.next → h.enabled a = true) →
    ∀ a, lo ≤ a → a < h'.next → h'.enabled a = true
  kept : ∀ a, a < lo →
    (∀ gate, .object a gate ∈ vs → ¬ Uncoupled couplers (.object a gate : Node P)) →
    h'.enabled a = h.enabled a

theorem Grown.refl (lo : Nat) (h : Heap) : Grown (P := P) couplers lo [] h h :=
  ⟨Nat.le_refl _, id, fun _ _ _ => rfl⟩

/-- An instruction that is kept leaves the heap. -/
theorem Grown.cons_kept {lo : Nat} {n : Node P} {vs : List (Node P)} {h h' : Heap}
    (hgrown : Grown couplers lo vs h h') : Grown couplers lo (n :: vs) h h' where
  next_le := hgrown.next_le
  fresh := hgrown.fresh
  kept a ha hvs := hgrown.kept a ha fun gate hmem => hvs gate (List.mem_cons_of_mem n hmem)

theorem Grown.cons_reversed {lo address source target : Nat} {vs : List (Node P)}
    {h h' : Heap} (hlo : lo ≤ h.next) (haddress : address < lo)
    (hn : Uncoupled couplers (.object address (.cnot source target) : Node P))
    (hgrown : Grown couplers lo vs (h.reversed address) h') :
    Grown couplers lo (.object address (.cnot source target) :: vs) h h' where
  next_le := by
    have hle := hgrown.next_le
    rw [Heap.next_reversed] at hle
    omega
  fresh hfresh a hle hlt := by
    refine hgrown.fresh (fun b hb hbnext => ?_) a hle hlt
    rw [Heap.next_reversed] at hbnext
    by_cases hold : b < h.next
    · rw [Heap.enabled_reversed hold, if_neg (by omega)]
      exact hfresh b hb hold
    · exact Heap.enabled_reversed_new (by omega) hbnext
  kept a ha hvs := by
    have hne : a ≠ address := by
      rintro rfl
      exact hvs _ List.mem_cons_self hn
    rw [hgrown.kept a ha fun gate hmem => hvs gate (List.mem_cons_of_mem _ hmem),
      Heap.enabled_reversed (by omega), if_neg hne]

/-! ## The run -/

/-- **The invariant of the loop**: `before` is edited and `rest` is as it
was, and the index is behind `before`, or further where nothing is left. -/
structure Running (lo : Nat) (enabled : Nat → Bool) (before rest : List (Node P))
    (s : Pass P) : Prop where
  next_le : lo ≤ s.heap.next
  cleared : s.newInstructions = []
  kernel : s.kernel = before ++ rest
  idx : s.currentKernelInstructionIdx = before.length ∨
    (rest = [] ∧ before.length ≤ s.currentKernelInstructionIdx)
  flags : ∀ a, a < lo → s.heap.enabled a = enabled a

section

variable {lo : Nat} {enabled : Nat → Bool} {before rest : List (Node P)} {s : Pass P}

/-- At the index stands the first instruction that is left. -/
theorem Running.getElem? (hs : Running lo enabled before rest s) :
    s.kernel[s.currentKernelInstructionIdx]? = rest.head? := by
  rw [hs.kernel]
  rcases hs.idx with h | ⟨rfl, h⟩
  · rw [h, List.getElem?_append_right (Nat.le_refl _), Nat.sub_self, List.head?_eq_getElem?]
  · rw [List.append_nil, List.getElem?_eq_none h]
    rfl

theorem Running.idx_cons {m : Node P} (hs : Running lo enabled before (m :: rest) s) :
    s.currentKernelInstructionIdx = before.length := by
  rcases hs.idx with h | ⟨h, _⟩
  · exact h
  · cases h

/-- The pass after an instruction that is kept. -/
def Pass.next (s : Pass P) : Pass P :=
  { s with
    newInstructions := []
    currentKernelInstructionIdx := s.currentKernelInstructionIdx + 1 }

theorem Running.next_cons {m : Node P} (hs : Running lo enabled before (m :: rest) s) :
    Running lo enabled (before ++ [m]) rest s.next where
  next_le := hs.next_le
  cleared := rfl
  kernel := hs.kernel.trans (List.append_cons before m rest)
  idx := by
    rcases hs.idx with h | ⟨h, _⟩
    · refine .inl ?_
      show s.currentKernelInstructionIdx + 1 = _
      rw [h, List.length_append, List.length_singleton]
    · cases h
  flags := hs.flags

theorem Running.next_nil (hs : Running lo enabled before [] s) :
    Running lo enabled before [] s.next where
  next_le := hs.next_le
  cleared := rfl
  kernel := hs.kernel
  idx := by
    refine .inr ⟨rfl, ?_⟩
    show before.length ≤ s.currentKernelInstructionIdx + 1
    rcases hs.idx with h | ⟨_, h⟩ <;> omega
  flags := hs.flags

/-- The pass after a replacement. -/
theorem Running.reversed {address source target : Nat} {n : Node P}
    (hs : Running lo enabled before (n :: rest) s) :
    Running lo (fun a => if a = address then false else enabled a)
      (before ++ reversal s.heap.next source target) rest
      { kernel := before ++ reversal s.heap.next source target ++ rest
        currentKernelInstructionIdx := before.length + 5
        newInstructions := []
        heap := s.heap.reversed address } where
  next_le := by
    have h := hs.next_le
    show lo ≤ s.heap.next + 3
    omega
  cleared := rfl
  kernel := rfl
  idx := .inl (by simp [reversal])
  flags a ha := by
    have h := hs.next_le
    show (s.heap.reversed address).enabled a = _
    rw [Heap.enabled_reversed (by omega), hs.flags a ha]

/-- What is visited decides what the pass does from here on. -/
theorem visited_cons_object {address : Nat} {gate : Gate P} {ns : List (Node P)} :
    visited couplers enabled (.object address gate :: ns) =
      if enabled address then
        .object address gate ::
          visited couplers (fun a => if Uncoupled couplers (.object address gate : Node P) ∧
            a = address then false else enabled a) ns
      else visited couplers enabled ns := rfl

/-! ## An aligned run -/

/-- **What an aligned run gives**: it ends, edits in place, and makes the right
edit of `rest`. -/
structure Edited (couplers : List (Int × Int)) (lo : Nat) (ns vs before rest out : List (Node P))
    (s s' : Pass P) : Prop where
  steps : steps couplers ns s = .ok () s'
  inPlace : InPlace couplers ns s
  kernel : s'.kernel = before ++ out
  rewritten : Rewritten couplers lo s'.heap.next vs rest out
  grown : Grown couplers lo vs s.heap s'.heap

theorem steps_cons {n : Node P} {ns : List (Node P)} {s1 : Pass P}
    (hstep : step couplers n s = .ok () s1) :
    steps couplers (n :: ns) s = steps couplers ns s1 := by
  rw [steps, Exec.bind_of_ok hstep]

section

variable {n : Node P} {ns vs out : List (Node P)} {s' : Pass P}

/-- An instruction that is not visited. -/
theorem Edited.passed (hstep : step couplers n s = .ok () s) (hrep : ¬ Replaces couplers s n)
    (h : Edited couplers lo ns vs before rest out s s') :
    Edited couplers lo (n :: ns) vs before rest out s s' where
  steps := (steps_cons hstep).trans h.steps
  inPlace := ⟨fun hn => absurd hn hrep, s, hstep, h.inPlace⟩
  kernel := h.kernel
  rewritten := h.rewritten
  grown := h.grown

/-- An instruction that is kept, where nothing is left. -/
theorem Edited.kept_nil (hstep : step couplers n s = .ok () s.next)
    (hrep : ¬ Replaces couplers s n)
    (h : Edited couplers lo ns vs before [] out s.next s') :
    Edited couplers lo (n :: ns) (n :: vs) before [] [] s s' where
  steps := (steps_cons hstep).trans h.steps
  inPlace := ⟨fun hn => absurd hn hrep, s.next, hstep, h.inPlace⟩
  kernel := h.rewritten.eq_nil ▸ h.kernel
  rewritten := .past _
  grown := h.grown.cons_kept

/-- An instruction that is kept in its place. -/
theorem Edited.kept_cons {m : Node P} (hstep : step couplers n s = .ok () s.next)
    (hn : ¬ Uncoupled couplers n) (hrep : ¬ Replaces couplers s n)
    (h : Edited couplers lo ns vs (before ++ [m]) rest out s.next s') :
    Edited couplers lo (n :: ns) (n :: vs) before (m :: rest) (m :: out) s s' where
  steps := (steps_cons hstep).trans h.steps
  inPlace := ⟨fun hn => absurd hn hrep, s.next, hstep, h.inPlace⟩
  kernel := by
    rw [h.kernel, List.append_assoc]
    rfl
  rewritten := .kept hn h.rewritten
  grown := h.grown.cons_kept

/-- A `CNOT` that is replaced in its place. -/
theorem Edited.replaced {address source target : Nat}
    (hs : Running lo enabled before (.object address (.cnot source target) :: rest) s)
    (haddress : address < lo) (hflag : s.heap.enabled address = true)
    (hn : Uncoupled couplers (.object address (.cnot source target) : Node P))
    (h : Edited couplers lo ns vs (before ++ reversal s.heap.next source target) rest out
      { kernel := before ++ reversal s.heap.next source target ++ rest
        currentKernelInstructionIdx := before.length + 5
        newInstructions := []
        heap := s.heap.reversed address } s') :
    Edited couplers lo (.object address (.cnot source target) :: ns)
      (.object address (.cnot source target) :: vs) before
      (.object address (.cnot source target) :: rest)
      (reversal s.heap.next source target ++ out) s s' := by
  have hstep := step_reversed hflag (Nat.lt_of_lt_of_le haddress hs.next_le) hn
    hs.cleared hs.kernel hs.idx_cons
  exact
    { steps := (steps_cons hstep).trans h.steps
      inPlace := ⟨fun _ => hs.getElem?, _, hstep, h.inPlace⟩
      kernel := h.kernel.trans (List.append_assoc ..)
      rewritten := .reversed hn hs.next_le h.grown.next_le h.rewritten
      grown := h.grown.cons_reversed hs.next_le haddress hn }

end

/-- **An aligned run** edits in place and makes the right edit. -/
theorem steps_aligned (ns : List (Node P)) (hs : Running lo enabled before rest s)
    (hns : ∀ a ∈ addresses ns, a < lo) (hvs : Aligned couplers (visited couplers enabled ns) rest) :
    ∃ out s', Edited couplers lo ns (visited couplers enabled ns) before rest out s s' := by
  induction ns generalizing s enabled before rest with
  | nil => exact ⟨rest, s, rfl, trivial, hs.kernel, .done rest, .refl lo s.heap⟩
  | cons n ns ih =>
      cases n with
      | composite name body =>
          obtain ⟨out, s', hedited⟩ := ih hs hns hvs
          exact ⟨out, s', hedited.passed rfl id⟩
      | object address gate =>
          rw [addresses_cons_object, List.forall_mem_cons] at hns
          obtain ⟨haddress, hns⟩ := hns
          have hflag := hs.flags address haddress
          rw [visited_cons_object] at hvs ⊢
          by_cases he : enabled address = true
          · rw [if_pos he] at hvs ⊢
            rw [he] at hflag
            by_cases hn : Uncoupled couplers (.object address gate : Node P)
            · -- the replaced `CNOT` is the first instruction that is left
              obtain ⟨_, source, target, heq⟩ := hn.eq
              cases heq
              have hhead := hvs 0 _ rfl hn
              cases rest with
              | nil => cases hhead
              | cons m after =>
                  cases hhead
                  simp only [hn, true_and] at hvs ⊢
                  obtain ⟨out, s', hedited⟩ := ih hs.reversed hns (aligned_cons.mp hvs).2
                  exact ⟨_, s', .replaced hs haddress hflag hn hedited⟩
            · have hrep : ¬ Replaces couplers s (.object address gate) := fun h => hn h.2
              have hstep : step couplers (.object address gate) s = .ok () s.next :=
                step_kept hflag hn
              simp only [hn, false_and, if_false] at hvs ⊢
              cases rest with
              | nil =>
                  obtain ⟨out, s', hedited⟩ := ih hs.next_nil hns (aligned_cons_nil.mp hvs).2
                  exact ⟨[], s', hedited.kept_nil hstep hrep⟩
              | cons m rest =>
                  obtain ⟨out, s', hedited⟩ := ih hs.next_cons hns (aligned_cons.mp hvs).2
                  exact ⟨m :: out, s', hedited.kept_cons hstep hn hrep⟩
          · -- a disabled object is not visited
            rw [if_neg he] at hvs ⊢
            obtain ⟨out, s', hedited⟩ := ih hs hns hvs
            refine ⟨out, s', hedited.passed ?_ fun h => he (hflag ▸ h.1)⟩
            exact step_disabled (hflag.trans (Bool.eq_false_iff.mpr he))

/-- A run that edits in place is aligned. -/
theorem aligned_of_inPlace (ns : List (Node P)) (hs : Running lo enabled before rest s)
    (hns : ∀ a ∈ addresses ns, a < lo) (hplace : InPlace couplers ns s) :
    Aligned couplers (visited couplers enabled ns) rest := by
  induction ns generalizing s enabled before rest with
  | nil =>
      intro k n hn
      cases hn
  | cons n ns ih =>
      obtain ⟨hremoved, s', hstep, hplace⟩ := hplace
      cases n with
      | composite name body =>
          cases hstep
          exact ih hs hns hplace
      | object address gate =>
          rw [addresses_cons_object, List.forall_mem_cons] at hns
          obtain ⟨haddress, hns⟩ := hns
          have hflag := hs.flags address haddress
          rw [visited_cons_object]
          by_cases he : enabled address = true
          · rw [if_pos he]
            rw [he] at hflag
            by_cases hn : Uncoupled couplers (.object address gate : Node P)
            · obtain ⟨_, source, target, heq⟩ := hn.eq
              cases heq
              have hhead := hs.getElem?.symm.trans (hremoved ⟨hflag, hn⟩)
              cases rest with
              | nil => cases hhead
              | cons m rest =>
                  cases hhead
                  rw [step_reversed hflag (Nat.lt_of_lt_of_le haddress hs.next_le) hn
                    hs.cleared hs.kernel hs.idx_cons] at hstep
                  cases hstep
                  simp only [hn, true_and]
                  exact aligned_cons.mpr ⟨fun _ => rfl, ih hs.reversed hns hplace⟩
            · rw [step_kept hflag hn] at hstep
              cases hstep
              simp only [hn, false_and, if_false]
              cases rest with
              | nil => exact aligned_cons_nil.mpr ⟨hn, ih hs.next_nil hns hplace⟩
              | cons m rest =>
                  exact aligned_cons.mpr ⟨fun h => absurd h hn, ih hs.next_cons hns hplace⟩
          · rw [if_neg he]
            rw [step_disabled (hflag.trans (Bool.eq_false_iff.mpr he))] at hstep
            cases hstep
            exact ih hs hns hplace

end

/-! ## A kernel -/

theorem running_start (kernel : GateFunction P) (heap : Heap) :
    Running heap.next heap.enabled [] kernel.instructions (kernel.start heap) where
  next_le := Nat.le_refl _
  cleared := rfl
  kernel := rfl
  idx := .inl rfl
  flags _ _ := rfl

variable (couplers) in
/-- **The pass keeps its word on a kernel**: it edits in place, and leaves
the kernel with the right edit. -/
def EditsInPlace (kernel : GateFunction P) (heap : Heap) : Prop :=
  InPlace couplers kernel.walk (kernel.start heap) ∧
    ∃ kernel' heap', transformKernel couplers kernel heap = .ok kernel' heap' ∧
      kernel'.name = kernel.name ∧
      Rewritten couplers heap.next heap'.next (visited couplers heap.enabled kernel.walk)
        kernel.instructions kernel'.instructions

/-- **Which kernels are edited in place**: those in which every visited
`CNOT` on no coupler has, in the kernel's own list, the number it has among
the visited instructions. -/
theorem editsInPlace_iff (kernel : GateFunction P) (heap : Heap)
    (hallocated : ∀ a ∈ addresses kernel.walk, a < heap.next) :
    EditsInPlace couplers kernel heap ↔
      Aligned couplers (visited couplers heap.enabled kernel.walk) kernel.instructions := by
  constructor
  · intro h
    exact aligned_of_inPlace kernel.walk (running_start kernel heap) hallocated h.1
  · intro h
    obtain ⟨out, s', hedited⟩ :=
      steps_aligned kernel.walk (running_start kernel heap) hallocated h
    refine ⟨hedited.inPlace, { kernel with instructions := s'.kernel }, s'.heap, ?_, rfl, ?_⟩
    · rw [transformKernel, hedited.steps]
    · rw [hedited.kernel]
      exact hedited.rewritten

/-- A disabled instruction in front of a `CNOT` is removed in its place. -/
theorem disabled_not_editsInPlace :
    ¬ ∀ (couplers : List (Int × Int)) (kernel : GateFunction String) (heap : Heap),
        (∀ a ∈ addresses kernel.walk, a < heap.next) →
        EditsInPlace couplers kernel heap := by
  intro h
  have hallocated : ∀ a ∈ addresses (GateFunction.mk "foo"
      [.object 0 (.x 0), .object 1 (.cnot 1 0 : Gate String)]).walk, a < 2 := by decide
  have hplace := h [(0, 1)] _ ⟨fun a => a != 0, 2⟩ hallocated
  have haligned := aligned_of_inPlace _ (running_start _ _) hallocated hplace.1
  have hfirst := haligned 0 (.object 1 (.cnot 1 0)) rfl (by decide)
  cases hfirst

/-- The theorem at the kernel of the pass's test. -/
theorem editsInPlace_foo :
    EditsInPlace [(0, 1), (0, 2), (1, 2), (2, 3), (2, 4), (3, 4)]
      (GateFunction.mk "foo" [.object 0 (.x 0), .object 1 (.hadamard 1),
        .object 2 (.cnot 1 2), .object 3 (.cnot 2 3), .object 4 (.hadamard 0),
        .object 5 (.cnot 2 0 : Gate String), .object 6 (.measure 0 0)])
      ⟨fun _ => true, 7⟩ := by
  refine (editsInPlace_iff _ _ (by decide)).mpr ?_
  intro k n hn _
  exact hn

end XaccIbm.IBMIRTransformation
