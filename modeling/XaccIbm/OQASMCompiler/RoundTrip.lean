import XaccIbm.OQASMCompiler.Functions

/-!
# OQASMCompiler — RoundTrip

A function translated, and its statements read back by the listener. The
operations the visitor writes come back as rotations with the same unitary,
except for `id`, which comes back as no instruction at all. A measurement
comes back with the classical bit zero: every classical register of the text
has one bit, and the listener reads the bit, not the register.
-/

namespace XaccIbm

/-! ## Gates of a function -/

variable {P : Type}

namespace Gate

/-- The qubit and the classical bit of a measurement. -/
def intoBit : Gate P → Option (Nat × Nat)
  | measure q c => some (q, c)
  | _ => none

/-- The gates whose translation is their own: neither `Y`, whose angles are
wrong, nor `CZ` and `CPhase`, which are not written. -/
def Supported : Gate P → Prop
  | y _ => False
  | cz _ _ => False
  | cphase _ _ _ => False
  | _ => True

/-- The gates that come back as what they are. -/
def Kept : Gate P → Prop
  | identity _ => False
  | measure _ c => c = 0
  | _ => True

end Gate

end XaccIbm

namespace XaccIbm.OQASMCompiler

open OpenQasm OpenQasmVisitor Rotations Traverse Wires

variable {P : Type}

/-! ## What is read back -/

variable {N : Type} (S : Services N)

/-- How the constants of the visitor and of the listener are read: as the
multiples of pi they are written for. -/
structure ReadsConstants (value : InstructionParameter N → ℝ) : Prop where
  zero : value (.num S.zero) = 0
  quarter : value (.num S.halfPi) = quarterTurn
  text_zero : value (strToParam S "0") = 0
  text_pi : value (strToParam S "3.14159") = Real.pi
  text_halfPi : value (strToParam S "1.5708") = quarterTurn
  text_negHalfPi : value (strToParam S "-1.5708") = -quarterTurn

variable {S} {value : InstructionParameter N → ℝ} {param : Angle (InstructionParameter N) →
  InstructionParameter N} {n : Nat}

/-- A written operation comes back as what it does. -/
theorem reread_upToPhase (hvalue : ReadsConstants S value) {o : QOp (InstructionParameter N)}
    (hparam : ∀ a ∈ o.params, value (param a) = a.real value)
    {g : Gate (InstructionParameter N)} (h : reread S param o = some g) :
    UpToPhase (g.unitary value n) (o.unitary value n) := by
  have hrotation : ∀ (q : Nat) (θ φ lam : ℝ),
      UpToPhase (onQubit n q (u3 θ φ lam)) (onQubit n q (zyz θ φ lam)) :=
    fun q θ φ lam => onQubit_upToPhase n (zyz_upToPhase θ φ lam).symm q
  cases o with
  | id q => cases h
  | u1 a q =>
      cases h
      simp only [Gate.unitary, QOp.unitary, hvalue.zero, hparam a (by simp [QOp.params])]
      exact hrotation q _ _ _
  | u2 a b q =>
      cases h
      simp only [Gate.unitary, QOp.unitary, hvalue.quarter, hparam a (by simp [QOp.params]),
        hparam b (by simp [QOp.params])]
      exact hrotation q _ _ _
  | u3 a b c q =>
      cases h
      simp only [Gate.unitary, QOp.unitary, hparam a (by simp [QOp.params]),
        hparam b (by simp [QOp.params]), hparam c (by simp [QOp.params])]
      exact hrotation q _ _ _
  | U a b c q =>
      cases h
      simp only [Gate.unitary, QOp.unitary, hparam a (by simp [QOp.params]),
        hparam b (by simp [QOp.params]), hparam c (by simp [QOp.params])]
      exact hrotation q _ _ _
  | cx a b =>
      cases h
      exact UpToPhase.refl _
  | measure q c =>
      cases h
      exact UpToPhase.refl _

/-- The same for a list of them. -/
theorem rereads_upToPhase (hvalue : ReadsConstants S value)
    {os : List (QOp (InstructionParameter N))}
    (hparam : ∀ o ∈ os, ∀ a ∈ o.params, value (param a) = a.real value)
    {gs : List (Gate (InstructionParameter N))} (h : os.mapM (reread S param) = some gs) :
    UpToPhase (gatesUnitary value n gs) (circuit (os.map fun o => o.unitary value n)) := by
  rw [mapM_eq_some] at h
  induction h with
  | nil => exact UpToPhase.refl 1
  | cons hg _ ih =>
      have hhead := reread_upToPhase (n := n) hvalue (hparam _ List.mem_cons_self) hg
      have htail := ih fun o ho => hparam o (List.mem_cons_of_mem _ ho)
      exact htail.mul hhead

/-! ## The operations of gates -/

/-- The qubit a measurement reads. -/
def measuredQubit : QOp P → Option Nat
  | .measure q _ => some q
  | _ => none

theorem mem_recordedList {r : Registers} {gs : List (Gate P)} {o : QOp P}
    (h : o ∈ recordedList r (leaves gs)) : ∃ g ∈ gs, ∃ c, o ∈ g.ops c := by
  obtain ⟨e, g, c, hg, ho⟩ := gate_of_mem_recordedList h
  obtain ⟨g', hg', heq⟩ := List.mem_map.mp hg
  cases heq
  exact ⟨g, hg', c, ho⟩

theorem id_mem_recordedList {r : Registers} {gs : List (Gate P)} {q : Nat}
    (h : .identity q ∈ gs) : .id q ∈ recordedList r (leaves gs) := by
  induction gs generalizing r with
  | nil => cases h
  | cons g gs ih =>
      rw [leaves, List.map_cons, recordedList_cons, ← leaves, List.mem_append]
      rcases List.mem_cons.mp h with rfl | h
      · exact .inl List.mem_cons_self
      · exact .inr (ih h)

theorem measuredQubit_recordedList (r : Registers) (gs : List (Gate P)) :
    (recordedList r (leaves gs)).filterMap measuredQubit = gs.filterMap Gate.measured := by
  induction gs generalizing r with
  | nil => rfl
  | cons g gs ih =>
      rw [leaves, List.map_cons, recordedList_cons, ← leaves, List.filterMap_append, ih,
        recorded]
      cases g <;> rfl

theorem mem_angles_of_ops {g : Gate P} {c : Nat} {o : QOp P} (ho : o ∈ g.ops c) {p : P}
    (hp : .param p ∈ o.params) : p ∈ g.angles := by
  cases g with
  | swap a b =>
      simp only [Gate.ops, List.mem_cons, List.not_mem_nil, or_false] at ho
      rcases ho with rfl | rfl | rfl <;> cases hp
  | cz a b => cases ho
  | cphase theta a b => cases ho
  | rx theta q =>
      cases List.mem_singleton.mp ho
      simpa [QOp.params, Gate.angles] using hp
  | ry theta q =>
      cases List.mem_singleton.mp ho
      simpa [QOp.params, Gate.angles] using hp
  | rz theta q =>
      cases List.mem_singleton.mp ho
      simpa [QOp.params, Gate.angles] using hp
  | u theta phi lambda q =>
      cases List.mem_singleton.mp ho
      simpa [QOp.params, Gate.angles] using hp
  | _ =>
      cases List.mem_singleton.mp ho
      simp [QOp.params] at hp

theorem mem_bits_of_ops {g : Gate P} {c : Nat} {o : QOp P} (ho : o ∈ g.ops c) {q : Nat}
    (hq : q ∈ o.qubits) : q ∈ g.bits := by
  cases g with
  | swap a b =>
      simp only [Gate.ops, List.mem_cons, List.not_mem_nil, or_false] at ho
      rcases ho with rfl | rfl | rfl
      · exact hq
      · exact (List.Perm.swap a b []).mem_iff.mp hq
      · exact hq
  | cz a b => cases ho
  | cphase theta a b => cases ho
  | _ =>
      cases List.mem_singleton.mp ho
      exact hq

/-- The measurements come back with the bit zero. -/
theorem intoBit_rereads {os : List (QOp (InstructionParameter N))}
    {gs : List (Gate (InstructionParameter N))} (h : os.mapM (reread S param) = some gs) :
    gs.filterMap Gate.intoBit = (os.filterMap measuredQubit).map fun q => (q, 0) := by
  rw [mapM_eq_some] at h
  induction h with
  | nil => rfl
  | @cons o g os gs hg _ ih =>
      cases o with
      | id q => cases hg
      | measure q c =>
          cases hg
          exact congrArg ((q, 0) :: ·) ih
      | _ =>
          cases hg
          exact ih

theorem mem_intoBit {gs : List (Gate P)} {q c : Nat} :
    (q, c) ∈ gs.filterMap Gate.intoBit ↔ .measure q c ∈ gs := by
  rw [List.mem_filterMap]
  constructor
  · rintro ⟨g, hg, h⟩
    cases g with
    | measure q' c' =>
        cases h
        exact hg
    | _ => cases h
  · intro h
    exact ⟨.measure q c, h, rfl⟩

/-- The measurements of some gates have the bit zero exactly when each has. -/
theorem intoBit_eq_iff {gs : List (Gate P)} :
    (gs.filterMap Gate.measured).map (fun q => (q, 0)) = gs.filterMap Gate.intoBit ↔
      ∀ q c, .measure q c ∈ gs → c = 0 := by
  have hmeasured : gs.filterMap Gate.measured
      = (gs.filterMap Gate.intoBit).map Prod.fst := by
    rw [List.map_filterMap]
    refine List.filterMap_congr fun g _ => ?_
    cases g <;> rfl
  have hid : gs.filterMap Gate.intoBit = (gs.filterMap Gate.intoBit).map id :=
    (List.map_id _).symm
  rw [hmeasured, List.map_map, hid, List.map_map, List.map_inj_left]
  constructor
  · intro h q c hmem
    have heq := h (q, c) (mem_intoBit.mpr hmem)
    exact (congrArg Prod.snd heq).symm
  · rintro h ⟨q, c⟩ hmem
    have hc := h q c (mem_intoBit.mp hmem)
    rw [hc]
    rfl

/-! ## Functions as they are compiled -/

variable (S)

/-- A gate such as the compiler builds. -/
structure BuiltGate (g : Gate (InstructionParameter N)) : Prop where
  supported : g.Supported
  small : ∀ q ∈ g.bits, q < 2 ^ 31
  distinct : g.bits.Nodup
  built : ∀ p ∈ g.angles, Built S p

/-- **A flat function of enabled gates such as the compiler builds.** -/
def BuiltFunction (f : Function (Gate (InstructionParameter N))) : Prop :=
  ∀ i ∈ f.body, ∃ g, i = .leaf true g ∧ BuiltGate S g

variable {S}

/-- What a kernel is compiled to is such a function, when its gates are among
those and act on different qubits. -/
theorem builtFunction_of_compiles (hS : S.Lawful) {k : Xacckernel}
    {f : Function (Gate (InstructionParameter N))} (h : Compiles S k f)
    (hgates : ∀ g ∈ f.gates, g.Supported ∧ g.bits.Nodup) : BuiltFunction S f := by
  obtain ⟨gs, _, hf⟩ := compiles_iff.mp h
  have hbody : f.body = leaves gs := by rw [hf, leaves]
  intro i hi
  rw [hbody] at hi
  obtain ⟨g, hg, rfl⟩ := List.mem_map.mp hi
  have hmem : g ∈ f.gates := by rwa [gates_leaves hbody]
  obtain ⟨hsupported, hdistinct⟩ := hgates g hmem
  obtain ⟨hsmall, hbuilt⟩ := built_of_compiles hS h hmem
  exact ⟨g, rfl, hsupported, hsmall, hdistinct, hbuilt⟩

theorem leaves_of_built {is : List (Instruction (Gate (InstructionParameter N)))}
    (h : ∀ i ∈ is, ∃ g, i = .leaf true g ∧ BuiltGate S g) :
    ∃ gs, is = leaves gs ∧ ∀ g ∈ gs, BuiltGate S g := by
  induction is with
  | nil => exact ⟨[], rfl, by simp⟩
  | cons i is ih =>
      obtain ⟨g, rfl, hg⟩ := h i List.mem_cons_self
      obtain ⟨gs, rfl, hgs⟩ := ih fun j hj => h j (List.mem_cons_of_mem _ hj)
      exact ⟨g :: gs, rfl, List.forall_mem_cons.mpr ⟨hg, hgs⟩⟩

theorem BuiltGate.refusal {g : Gate (InstructionParameter N)} (h : BuiltGate S g) :
    g.refusal = none := by
  cases g with
  | cz a b => exact h.supported.elim
  | _ => rfl

theorem BuiltGate.translated {g : Gate (InstructionParameter N)} (h : BuiltGate S g) :
    g.Translated value := by
  cases g with
  | y q => exact h.supported.elim
  | cphase theta a b => exact h.supported.elim
  | _ => exact trivial

variable [ToString (InstructionParameter N)]

variable (S value)

/-- **A function comes back**: its text is read back as a function with the
same unitary up to a phase and the same measurements. -/
def RoundTrips (f : Function (Gate (InstructionParameter N))) : Prop :=
  ∃ text rest k f', translate f = .ok text ∧
    text = (new (nQubits f) false).native ++ rest ∧ Reads rest k ∧ Compiles S k f' ∧
    UpToPhase (gatesUnitary value (maxBit f + 1) f'.gates)
      (gatesUnitary value (maxBit f + 1) f.gates) ∧
    f'.gates.filterMap Gate.intoBit = f.gates.filterMap Gate.intoBit

variable {S value}

theorem spelled_recordedList {spell : InstructionParameter N → Exp}
    (hspell : ∀ p, Built S p → (spell p).text = toString p ∧ strToParam S (spell p).text = p)
    {gs : List (Gate (InstructionParameter N))} (hgs : ∀ g ∈ gs, BuiltGate S g) (r : Registers) :
    Spelled S spell (recordedList r (leaves gs)) where
  text := by
    intro o ho a ha
    obtain ⟨g, hg, c, ho⟩ := mem_recordedList ho
    refine exp_text fun p hp => (hspell p ?_).1
    rw [hp] at ha
    exact (hgs g hg).built p (mem_angles_of_ops ho ha)
  param := by
    intro o ho p hp
    obtain ⟨g, hg, c, ho⟩ := mem_recordedList ho
    exact (hspell p ((hgs g hg).built p (mem_angles_of_ops ho hp))).2
  small := by
    intro o ho q hq
    obtain ⟨g, hg, c, ho⟩ := mem_recordedList ho
    exact (hgs g hg).small q (mem_bits_of_ops ho hq)

/-- The function that is read back, gate by gate. -/
theorem roundTrips_iff_rereads (hS : S.KnowsExactly) {spell : InstructionParameter N → Exp}
    {f : Function (Gate (InstructionParameter N))} {gs : List (Gate (InstructionParameter N))}
    (hf : f.body = leaves gs) (hgs : ∀ g ∈ gs, BuiltGate S g)
    (hspelled : Spelled S spell (recordedList {} (leaves gs))) :
    RoundTrips S value f ↔
      ∃ gs', (recordedList {} (leaves gs)).mapM
          (reread S fun a => strToParam S (a.exp spell).text) = some gs' ∧
        UpToPhase (gatesUnitary value (maxBit f + 1) gs') (gatesUnitary value (maxBit f + 1) gs) ∧
        gs'.filterMap Gate.intoBit = gs.filterMap Gate.intoBit := by
  have htranslate := translate_leaves hf fun g hg => (hgs g hg).refusal
  have hread : ∀ {k}, Reads (Piece.render ((recordedList {} (leaves gs)).flatMap QOp.pieces)) k →
      (kernelCallbacks k).mapM (gateOf S (visible [k]))
        = (recordedList {} (leaves gs)).mapM
          (reread S fun a => strToParam S (a.exp spell).text) :=
    fun hk => hk.gates hS hspelled.text hspelled.small _
  rw [RoundTrips, gates_leaves hf]
  constructor
  · rintro ⟨text, rest, k, f', htext, hrest, hk, hf', hphase, hbits⟩
    rw [htranslate] at htext
    cases htext
    rw [String.append_right_inj] at hrest
    subst hrest
    obtain ⟨gs', hgs', rfl⟩ := compiles_iff.mp hf'
    rw [gates_leaves rfl] at hphase hbits
    exact ⟨gs', (hread hk).symm.trans hgs', hphase, hbits⟩
  · rintro ⟨gs', hgs', hphase, hbits⟩
    obtain ⟨k, hk⟩ := exists_reads hspelled.text
    have hf' := compiles_iff.mpr ⟨gs', (hread hk).trans hgs', rfl⟩
    refine ⟨_, _, k, _, htranslate, rfl, hk, hf', ?_, ?_⟩
    · rwa [gates_leaves rfl]
    · rwa [gates_leaves rfl]

/-- The readings of the angles of written operations. -/
theorem Spelled.real (hvalue : ReadsConstants S value) {spell : InstructionParameter N → Exp}
    {os : List (QOp (InstructionParameter N))} (h : Spelled S spell os)
    {o : QOp (InstructionParameter N)} (ho : o ∈ os) {a : Angle (InstructionParameter N)}
    (ha : a ∈ o.params) : value (strToParam S (a.exp spell).text) = a.real value := by
  cases a with
  | param p => exact congrArg value (h.param o ho p ha)
  | zero =>
      rw [h.text o ho _ ha]
      exact hvalue.text_zero
  | pi =>
      rw [h.text o ho _ ha]
      exact hvalue.text_pi
  | halfPi =>
      rw [h.text o ho _ ha]
      exact hvalue.text_halfPi
  | negHalfPi =>
      rw [h.text o ho _ ha]
      exact hvalue.text_negHalfPi

theorem kept_of_roundTrips (hS : S.KnowsExactly) (hprint : S.PrintsExactly)
    {f : Function (Gate (InstructionParameter N))} (hf : BuiltFunction S f)
    (h : RoundTrips S value f) : ∀ g ∈ f.gates, g.Kept := by
  obtain ⟨gs, hbody, hgs⟩ := leaves_of_built hf
  obtain ⟨spell, hspell⟩ := exists_spell hprint
  rw [roundTrips_iff_rereads hS hbody hgs (spelled_recordedList hspell hgs _)] at h
  obtain ⟨gs', hgs', _, hbits⟩ := h
  rw [intoBit_rereads hgs', measuredQubit_recordedList, intoBit_eq_iff] at hbits
  rw [gates_leaves hbody]
  intro g hg
  cases g with
  | identity q =>
      have hid := id_mem_recordedList (r := {}) hg
      obtain ⟨g', _, hg'⟩ := forall₂_mem (mapM_eq_some.mp hgs') hid
      cases hg'
  | measure q c => exact hbits q c hg
  | _ => exact trivial

theorem roundTrips_of_kept (hS : S.KnowsExactly) (hprint : S.PrintsExactly)
    (hvalue : ReadsConstants S value) {f : Function (Gate (InstructionParameter N))}
    (hf : BuiltFunction S f) (h : ∀ g ∈ f.gates, g.Kept) : RoundTrips S value f := by
  obtain ⟨gs, hbody, hgs⟩ := leaves_of_built hf
  obtain ⟨spell, hspell⟩ := exists_spell hprint
  rw [gates_leaves hbody] at h
  have hspelled := spelled_recordedList hspell hgs {}
  rw [roundTrips_iff_rereads hS hbody hgs hspelled]
  obtain ⟨gs', hgs'⟩ : ∃ gs', (recordedList {} (leaves gs)).mapM
      (reread S fun a => strToParam S (a.exp spell).text) = some gs' := by
    refine exists_mapM_eq_some fun o ho => ?_
    obtain ⟨g, hg, c, ho⟩ := mem_recordedList ho
    cases o with
    | id q =>
        have hid : g = .identity q := by
          cases g <;> simp_all [Gate.ops]
        rw [hid] at hg
        exact (h _ hg).elim
    | _ => exact ⟨_, rfl⟩
  have hlt : ∀ g ∈ gs, (∀ q ∈ g.bits, q < maxBit f + 1) ∧ g.bits.Nodup :=
    fun g hg =>
      ⟨fun q hq => Nat.lt_succ_of_le (le_maxBit_leaves hbody hg hq), (hgs g hg).distinct⟩
  have hwritten := sequence_upToPhase value (maxBit f + 1) hlt (fun g hg => (hgs g hg).refusal)
    (fun g hg => (hgs g hg).translated) {}
  have hback := rereads_upToPhase (n := maxBit f + 1) hvalue
    (fun o ho a ha => hspelled.real hvalue ho ha) hgs'
  refine ⟨gs', hgs', ?_, ?_⟩
  · rw [piecesList_leaves, textUnitary_pieces] at hwritten
    exact hback.trans hwritten
  · rw [intoBit_rereads hgs', measuredQubit_recordedList, intoBit_eq_iff]
    exact fun q c hmem => h _ hmem

/-- **Which functions come back.** A function such as the compiler builds comes
back exactly when it has no `Identity` and every measurement has the classical
bit zero. -/
theorem roundTrips_iff (hS : S.KnowsExactly) (hprint : S.PrintsExactly)
    (hvalue : ReadsConstants S value) {f : Function (Gate (InstructionParameter N))}
    (hf : BuiltFunction S f) : RoundTrips S value f ↔ ∀ g ∈ f.gates, g.Kept :=
  ⟨kept_of_roundTrips hS hprint hf, roundTrips_of_kept hS hprint hvalue hf⟩

/-- The multiples of pi among the decimals. -/
noncomputable def turns : InstructionParameter Decimal → ℝ
  | .num x =>
      if x.1 = "3.14159" then Real.pi
      else if x.1 = "1.5707963" ∨ x.1 = "1.5708" then quarterTurn
      else if x.1 = "-1.5708" then -quarterTurn
      else 0
  | _ => 0

theorem turns_readsConstants : ReadsConstants decimalServices turns where
  zero := by simp [decimalServices, registry, turns]
  quarter := by simp [decimalServices, registry, turns]
  text_zero := by
    rw [strToParam_decimal (by decide)]
    simp [turns]
  text_pi := by
    rw [strToParam_decimal (by decide)]
    simp [turns]
  text_halfPi := by
    rw [strToParam_decimal (by decide)]
    simp [turns]
  text_negHalfPi := by
    rw [strToParam_decimal (by decide)]
    simp [turns]

/-- A Bell pair with a phase, and a measurement into the bit zero. -/
def bell : Function (Gate (InstructionParameter Decimal)) where
  name := "f"
  body := leaves [.hadamard 0, .cnot 0 1, .rz (.num ⟨"0.5", by decide⟩) 1, .measure 1 0]

theorem bell_built : BuiltFunction decimalServices bell := by
  intro i hi
  obtain ⟨g, hg, rfl⟩ := List.mem_map.mp hi
  refine ⟨g, rfl, ?_⟩
  simp only [List.mem_cons, List.not_mem_nil, or_false] at hg
  rcases hg with rfl | rfl | rfl | rfl <;>
    exact ⟨trivial, by simp [Gate.bits], by simp [Gate.bits], by simp [Gate.angles, Built]⟩

theorem bell_roundTrips : RoundTrips decimalServices turns bell := by
  refine (roundTrips_iff (registry_knowsExactly ..) decimalServices_printsExactly
    turns_readsConstants bell_built).mpr ?_
  have hgates : bell.gates = _ := gates_leaves rfl
  intro g hg
  rw [hgates] at hg
  simp only [List.mem_cons, List.not_mem_nil, or_false] at hg
  rcases hg with rfl | rfl | rfl | rfl
  · exact trivial
  · exact trivial
  · exact trivial
  · exact rfl

/-- Two measurements, into two classical bits. -/
def twoBits : Function (Gate (InstructionParameter Decimal)) where
  name := "f"
  body := leaves [.measure 0 0, .measure 1 1]

/-- Both measurements come back with the bit zero. -/
theorem twoBits_not_roundTrips :
    ¬ ∀ (N : Type) (_ : ToString (InstructionParameter N)) (S : Services N)
        (value : InstructionParameter N → ℝ) (f : Function (Gate (InstructionParameter N))),
        S.KnowsExactly → S.PrintsExactly → ReadsConstants S value → BuiltFunction S f →
        RoundTrips S value f := by
  intro h
  have hbuilt : BuiltFunction decimalServices twoBits := by
    intro i hi
    obtain ⟨g, hg, rfl⟩ := List.mem_map.mp hi
    refine ⟨g, rfl, ?_⟩
    rcases List.mem_pair.mp hg with rfl | rfl <;>
      exact ⟨trivial, by simp [Gate.bits], by simp [Gate.bits], by simp [Gate.angles]⟩
  have hS : decimalServices.KnowsExactly := registry_knowsExactly ..
  have hback := h Decimal _ decimalServices turns twoBits hS decimalServices_printsExactly
    turns_readsConstants hbuilt
  have hgates : twoBits.gates = _ := gates_leaves rfl
  have hkept := kept_of_roundTrips hS decimalServices_printsExactly hbuilt hback
    (.measure 1 1) (by simp [hgates])
  exact Nat.one_ne_zero hkept

end XaccIbm.OQASMCompiler
