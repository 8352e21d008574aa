import XaccIbm.OpenQasmVisitor.Emission
import XaccIbm.Unitary

/-!
# OpenQasmVisitor — Translation

The angle triples of the visitor as matrices. Gate by gate the text has the
unitary of the gate up to a phase, except for `Y`, whose middle angle is
`pi/2` in the wrong place, and `CPhase`, which is written as nothing; the
circuit of a sequence follows by induction. Read backwards, a sequence all
of whose prefixes are translated right contains neither before its first
`CZ`, which is refused.
-/

namespace XaccIbm

open OpenQasmVisitor Rotations Wires

variable {P : Type} (value : P → ℝ) (n : Nat)

/-! ## One gate -/

/-- The gates that are written as what they are. -/
def Gate.Translated : Gate P → Prop
  | .y _ => False
  | .cphase theta _ _ => WholeTurns (value theta)
  | _ => True

/-- The unitary of the operations a gate is written as. -/
noncomputable def Gate.emitted (c : Nat) (g : Gate P) : Op (Fin n) :=
  circuit ((g.ops c).map fun o => o.unitary value n)

/-- A gate written as one rotation. -/
private theorem rotation_upToPhase {A : M2} (q : Nat) {θ φ lam : ℝ}
    (h : UpToPhase (u3 θ φ lam) A) :
    UpToPhase (onQubit n q (zyz θ φ lam)) (onQubit n q A) :=
  onQubit_upToPhase n ((zyz_upToPhase θ φ lam).trans h) q

private theorem rotation_eq {A : M2} (q : Nat) {θ φ lam : ℝ}
    (h : u3 θ φ lam = A) :
    UpToPhase (onQubit n q (zyz θ φ lam)) (onQubit n q A) :=
  rotation_upToPhase n q (by rw [h]; exact UpToPhase.refl A)

/-- **Every gate but `Y`, `CPhase` and `CZ` is written as what it is.** -/
theorem Gate.emitted_upToPhase {g : Gate P} (hn : g.bits.Nodup)
    (hz : g.refusal = none) (ht : g.Translated value) (c : Nat)
    (hq : ∀ q ∈ g.bits, q < n) :
    UpToPhase (g.emitted value n c) (g.unitary value n) := by
  cases g with
  | identity q =>
      have h := rotation_eq n q u3_one
      rw [onQubit_one] at h
      simpa [emitted, ops, QOp.unitary, unitary] using h
  | hadamard q =>
      simpa [emitted, ops, QOp.unitary, unitary, Angle.real] using
        rotation_eq n q u3_hadamard
  | x q =>
      simpa [emitted, ops, QOp.unitary, unitary, Angle.real] using
        rotation_eq n q u3_pauliX
  | y q => exact ht.elim
  | z q =>
      simpa [emitted, ops, QOp.unitary, unitary, Angle.real] using
        rotation_eq n q u3_pauliZ
  | cnot a b =>
      simpa [emitted, ops, QOp.unitary, unitary] using UpToPhase.refl _
  | swap a b =>
      have hab : a ≠ b := by
        rintro rfl
        simp [bits] at hn
      have h := UpToPhase.refl (onPair n swapMap a b)
      nth_rewrite 1 [← onPair_cnot_three n hab] at h
      simpa [emitted, ops, QOp.unitary, unitary, Matrix.mul_assoc] using h
  | cz a b => cases hz
  | cphase theta a b =>
      have h := (one_upToPhase_controlledPhase n (hq a (by simp [bits]))
        (hq b (by simp [bits])) (value theta)).mpr ht
      simpa [emitted, ops, unitary] using h
  | rx theta q =>
      simpa [emitted, ops, QOp.unitary, unitary, Angle.real] using
        rotation_eq n q (u3_rx (value theta))
  | ry theta q =>
      simpa [emitted, ops, QOp.unitary, unitary, Angle.real] using
        rotation_eq n q (u3_ry (value theta))
  | rz theta q =>
      simpa [emitted, ops, QOp.unitary, unitary, Angle.real] using
        rotation_upToPhase n q (u3_upToPhase_rz (value theta))
  | u theta phi lambda q =>
      simpa [emitted, ops, QOp.unitary, unitary, Angle.real] using
        rotation_eq n q rfl
  | measure q k =>
      simpa [emitted, ops, QOp.unitary, unitary] using UpToPhase.refl _

/-- `Y` is not, and `CPhase` only by whole turns. -/
theorem Gate.translated_of_upToPhase {g : Gate P}
    (hq : ∀ q ∈ g.bits, q < n) (c : Nat)
    (h : UpToPhase (g.emitted value n c) (g.unitary value n)) :
    g.Translated value := by
  cases g with
  | y q =>
      have hlt : q < n := hq q (by simp [bits])
      have h' : UpToPhase (onQubit n q (zyz Real.pi quarterTurn Real.pi))
          (onQubit n q pauliY) := by
        simpa [emitted, ops, QOp.unitary, unitary, Angle.real] using h
      rw [onQubit, onQubit, dif_pos hlt, dif_pos hlt, on_upToPhase] at h'
      exact not_u3_upToPhase_pauliY ((zyz_upToPhase _ _ _).symm.trans h')
  | cphase theta a b =>
      have h' : UpToPhase 1 (controlledPhase n (value theta) a b) := by
        simpa [emitted, ops, unitary] using h
      exact (one_upToPhase_controlledPhase n (hq a (by simp [bits]))
        (hq b (by simp [bits])) (value theta)).mp h'
  | _ => exact trivial

theorem Gate.isUnit_unitary {g : Gate P} (hn : g.bits.Nodup) :
    IsUnit (g.unitary value n) := by
  have hu3 : ∀ {A : M2} {θ φ lam : ℝ}, u3 θ φ lam = A → IsUnit A := by
    rintro _ θ φ lam rfl
    exact isUnit_u3 θ φ lam
  have hne : ∀ {a b : Nat}, [a, b].Nodup → a ≠ b := by
    rintro a b h rfl
    simp at h
  cases g with
  | identity q => exact isUnit_one
  | hadamard q => exact isUnit_onQubit n (hu3 u3_hadamard) q
  | x q => exact isUnit_onQubit n (hu3 u3_pauliX) q
  | y q => exact isUnit_onQubit n isUnit_pauliY q
  | z q => exact isUnit_onQubit n (hu3 u3_pauliZ) q
  | cnot a b =>
      exact isUnit_onPair n (fun _ _ h => cnotMap_involutive h) (hne hn)
  | swap a b =>
      exact isUnit_onPair n (fun a b _ => swapMap_involutive a b) (hne hn)
  | cz a b => exact isUnit_controlledPhase n Real.pi a b
  | cphase theta a b => exact isUnit_controlledPhase n (value theta) a b
  | rx theta q => exact isUnit_onQubit n (hu3 (u3_rx _)) q
  | ry theta q => exact isUnit_onQubit n (hu3 (u3_ry _)) q
  | rz theta q =>
      exact isUnit_onQubit n
        ((u3_upToPhase_rz _).symm.isUnit (isUnit_u3 _ _ _)) q
  | u theta phi lambda q => exact isUnit_onQubit n (isUnit_u3 _ _ _) q
  | measure q k => exact isUnit_one

/-! ## A sequence of gates -/

/-- Enabled gates as instructions. -/
def leaves (gs : List (Gate P)) : List (Instruction (Gate P)) :=
  gs.map (.leaf true)

theorem leaves_append (gs hs : List (Gate P)) :
    leaves (gs ++ hs) = leaves gs ++ leaves hs := List.map_append

theorem rejections_leaves {gs : List (Gate P)} :
    rejections (leaves gs) = none ↔ ∀ g ∈ gs, g.refusal = none := by
  rw [rejections_eq_none, leaves, List.forall_mem_map]
  simp only [rejection]

/-- A gate's pieces in front of a text. -/
theorem textUnitary_gate (c : Nat) (g : Gate P) (ps : List (Piece P)) :
    textUnitary value n (g.pieces c ++ ps)
      = textUnitary value n ps * g.emitted value n c := by
  rw [textUnitary, operations, Gate.pieces, operationsFrom_pieces,
    List.map_append, circuit_append, List.map_map]
  rfl

theorem textUnitary_single (r : Registers) (g : Gate P) :
    textUnitary value n (piecesList r (leaves [g])) = g.emitted value n r.counter := by
  have h := textUnitary_gate value n r.counter g []
  rw [leaves, List.map_singleton, piecesList_cons, piecesList_nil, pieces, h,
    textUnitary]
  exact Matrix.one_mul _

theorem textUnitary_append (gs : List (Gate P)) (r : Registers)
    (ps : List (Piece P)) :
    textUnitary value n (piecesList r (leaves gs) ++ ps)
      = textUnitary value n ps * textUnitary value n (piecesList r (leaves gs)) := by
  induction gs generalizing r with
  | nil => simp [leaves, textUnitary, operations, operationsFrom]
  | cons g gs ih =>
      rw [leaves, List.map_cons, piecesList_cons, ← leaves, pieces,
        List.append_assoc, textUnitary_gate, textUnitary_gate, ih,
        Matrix.mul_assoc]

/-- Gates that are written as what they are make a text that does what they
do. -/
theorem sequence_upToPhase {gs : List (Gate P)}
    (hq : ∀ g ∈ gs, (∀ q ∈ g.bits, q < n) ∧ g.bits.Nodup) (hz : ∀ g ∈ gs, g.refusal = none)
    (ht : ∀ g ∈ gs, g.Translated value) (r : Registers) :
    UpToPhase (textUnitary value n (piecesList r (leaves gs)))
      (gatesUnitary value n gs) := by
  induction gs generalizing r with
  | nil => exact UpToPhase.refl 1
  | cons g gs ih =>
      obtain ⟨hlt, hn⟩ := hq g (by simp)
      have hg := Gate.emitted_upToPhase value n hn (hz g (by simp))
        (ht g (by simp)) r.counter hlt
      have hgs := ih (fun h hh => hq h (by simp [hh]))
        (fun h hh => hz h (by simp [hh])) (fun h hh => ht h (by simp [hh]))
        (r.step (.leaf true g))
      rw [leaves, List.map_cons, piecesList_cons, ← leaves, pieces,
        textUnitary_gate]
      exact hgs.mul hg

theorem isUnit_gatesUnitary {gs : List (Gate P)}
    (hq : ∀ g ∈ gs, g.OnQubits n) : IsUnit (gatesUnitary value n gs) := by
  refine isUnit_circuit fun A hA => ?_
  obtain ⟨g, hg, rfl⟩ := List.mem_map.mp hA
  exact Gate.isUnit_unitary value n (hq g hg).2.2

variable [ToString P]

/-- **A sequence of gates is preserved**: when the visitor accepts it, the
text gains statements whose unitary is that of the gates, up to a phase. -/
def SequencePreserved (gs : List (Gate P)) : Prop :=
  ∀ v, acceptAll (leaves gs) (new n false) = .ok () v →
    v.getOpenQasmString = (new n false).native
        ++ Piece.render (piecesList {} (leaves gs)) ∧
      UpToPhase (textUnitary value n (piecesList {} (leaves gs)))
        (gatesUnitary value n gs)

theorem acceptAll_leaves {gs : List (Gate P)} (h : ∀ g ∈ gs, g.refusal = none) :
    ∃ v, acceptAll (leaves gs) (new n false) = .ok () v :=
  ⟨_, (visitedAll (leaves gs) (new n false)).accepted (rejections_leaves.mpr h)⟩

/-- **Which sequences are preserved.** A sequence and all its prefixes are
preserved exactly when no gate before the first refused one is a `Y` or a
`CPhase` by anything but whole turns. -/
theorem sequencePreserved_iff {gs : List (Gate P)}
    (hq : ∀ g ∈ gs, g.OnQubits n) :
    (∀ k, SequencePreserved value n (gs.take k)) ↔
      ∀ before g after, gs = before ++ g :: after →
        (∀ h ∈ before, h.refusal = none) → g.Translated value := by
  constructor
  · rintro hall before g after rfl hbefore
    cases hg : g.refusal with
    | some msg =>
        cases g with
        | cz a b => exact trivial
        | _ => cases hg
    | none =>
        have hqb : ∀ h ∈ before, h.OnQubits n := fun h hh => hq h (by simp [hh])
        obtain ⟨_, hlt, _⟩ := hq g (by simp)
        obtain ⟨v, hv⟩ := acceptAll_leaves n hbefore
        have hall' : ∀ h ∈ before ++ [g], h.refusal = none := by
          intro h hh
          rcases List.mem_append.mp hh with hh | hh
          · exact hbefore h hh
          · rw [List.mem_singleton.mp hh, hg]
        obtain ⟨w, hw⟩ := acceptAll_leaves n hall'
        have htake : (before ++ g :: after).take (before.length + 1)
            = before ++ [g] := by
          simp [List.take_append, List.take_of_length_le]
        have h1 := hall before.length
        have h2 := hall (before.length + 1)
        rw [List.take_left] at h1
        rw [htake] at h2
        have hpre := (h1 v hv).2
        have hseq := (h2 w hw).2
        -- The prefix can be undone, so what the last gate adds must be right.
        rw [leaves_append, piecesList_append, textUnitary_append, gatesUnitary,
          List.map_append, circuit_append] at hseq
        have hlast := UpToPhase.of_mul_right
          (isUnit_gatesUnitary value n hqb) hseq hpre
        refine Gate.translated_of_upToPhase value n hlt
          (Registers.steps {} (leaves before)).counter ?_
        rw [textUnitary_single] at hlast
        simpa using hlast
  · intro h k v hv
    obtain ⟨hr, rfl⟩ := acceptAll_ok hv
    rw [rejections_leaves] at hr
    refine ⟨rfl, sequence_upToPhase value n
      (fun g hg => (hq g (List.mem_of_mem_take hg)).2) hr (fun g hg => ?_) {}⟩
    obtain ⟨before, after, hsplit⟩ := List.append_of_mem hg
    refine h before g (after ++ gs.drop k) ?_ fun x hx => hr x (by simp [hsplit, hx])
    rw [← List.cons_append, ← List.append_assoc, ← hsplit, List.take_append_drop]

/-- A single `Y` is not preserved. -/
theorem y_not_sequencePreserved :
    ¬ ∀ (value : String → ℝ) (n : Nat) (gs : List (Gate String)),
        (∀ g ∈ gs, g.OnQubits n) → SequencePreserved value n gs := by
  intro h
  have hq : ∀ g ∈ [Gate.y 0], (g : Gate String).OnQubits 1 := by
    intro g hg
    rw [List.mem_singleton.mp hg]
    exact ⟨rfl, by simp [Gate.bits], by simp [Gate.bits]⟩
  obtain ⟨v, hv⟩ := acceptAll_leaves (P := String) 1
    (fun g hg => by rw [List.mem_singleton.mp hg]; rfl : ∀ g ∈ [Gate.y 0], _)
  have hy := (h (fun _ => 0) 1 [.y 0] hq v hv).2
  rw [textUnitary_single, gatesUnitary] at hy
  exact Gate.translated_of_upToPhase (fun _ => 0) 1 (hq (.y 0) (by simp)).2.1 0
    (by simpa using hy)

/-- The theorem at a Bell pair with a phase in front of it. -/
theorem sequencePreserved_bell :
    SequencePreserved (fun _ : String => 1) 2
      [.rz "1.0" 0, .hadamard 0, .cnot 0 1] := by
  have hall := (@sequencePreserved_iff String (fun _ => 1) 2 _
    [.rz "1.0" 0, .hadamard 0, .cnot 0 1] ?_).mpr ?_
  · exact hall 3
  · intro g hg
    simp only [List.mem_cons, List.not_mem_nil, or_false] at hg
    rcases hg with rfl | rfl | rfl <;>
      exact ⟨rfl, by simp [Gate.bits], by simp [Gate.bits]⟩
  · intro before g after h _
    have hg : g ∈ [Gate.rz "1.0" 0, .hadamard 0, .cnot 0 1] := by
      rw [h]
      simp
    simp only [List.mem_cons, List.not_mem_nil, or_false] at hg
    rcases hg with rfl | rfl | rfl <;> exact trivial

end XaccIbm
