import XaccIbm.Accelerator.Outcomes
import XaccIbm.Lib.Feedback
import XaccIbm.OpenQasmVisitor.History
import XaccIbm.OpenQasmVisitor.Scopes
import XaccIbm.OpenQasmVisitor.Translation

/-!
# OpenQasmVisitor — Feedback

Kernels that measure and look at what they measured. In the IR an outcome is
remembered by its qubit: a conditional on a qubit looks at its most recent
measurement. In the text it is in the classical register of the measurement.
Once the outcomes of a run are known, both are products of operators with a
projector for each measurement, and the two agree up to a phase for every
kernel, nested functions and disabled instructions included, whose guards name
the registers they should.
-/

namespace XaccIbm

open Feedback OpenQasmVisitor Rotations Wires

noncomputable section

/-! ## Projectors -/

/-- Equality up to a phase, as a congruence. -/
def phaseCon (n : Nat) : Con (Op (Fin n)) where
  r := UpToPhase
  iseqv := ⟨UpToPhase.refl, UpToPhase.symm, UpToPhase.trans⟩
  mul' := UpToPhase.mul

/-- The projector of an outcome of one qubit. -/
def outcomeMatrix (b : Bool) : M2 := if b then !![0, 0; 0, 1] else !![1, 0; 0, 0]

variable {P : Type} (value : P → ℝ) (n : Nat)

def projector (q : Nat) (b : Bool) : Op (Fin n) := onQubit n q (outcomeMatrix b)

theorem reverse_prod (As : List (Op (Fin n))) : As.reverse.prod = circuit As := by
  induction As with
  | nil => rfl
  | cons A As ih => rw [List.reverse_cons, List.prod_append, ih, List.prod_singleton, circuit_cons]

/-! ## What a kernel does -/

/-- A gate of the IR; a measurement is remembered by its qubit. -/
def Gate.feedback : Gate P → Step Nat Nat (Op (Fin n))
  | .measure q _ => .always (.measure q q)
  | g => .always (.apply (g.unitary value n))

/-- A step that also looks at the outcome of a qubit. -/
def guardedBy (q : Nat) (s : Step Nat Nat (Op (Fin n))) : Step Nat Nat (Op (Fin n)) :=
  { s with guards := q :: s.guards }

mutual

/-- What an instruction does: its enabled gates in order, and the whole body of
a conditional when its qubit was measured to be one. The body of a conditional
is kept disabled, so that only the conditional executes it: in a `forced` body
the flags do not count. -/
def Instruction.feedback (forced : Bool) (i : Instruction (Gate P)) :
    List (Step Nat Nat (Op (Fin n))) :=
  match i with
  | .leaf e g => if e || forced then [g.feedback value n] else []
  | .function _ _ body => feedbackList forced body
  | .conditional e q body =>
      if e || forced then (feedbackList true body).map (guardedBy n q) else []

def feedbackList (forced : Bool) (is : List (Instruction (Gate P))) :
    List (Step Nat Nat (Op (Fin n))) :=
  match is with
  | [] => []
  | i :: is => i.feedback forced ++ feedbackList forced is

end

/-- What a kernel does. -/
def Function.feedback (kernel : Function (Gate P)) : List (Step Nat Nat (Op (Fin n))) :=
  kernel.toInstruction.feedback value n false

/-! ## What a text does -/

/-- An operation of a text; a measurement is remembered by its register. -/
def GuardedOp.feedback (g : GuardedOp P) : Step Nat Nat (Op (Fin n)) :=
  match g.op with
  | .measure q c => ⟨g.guards, .measure q c⟩
  | o => ⟨g.guards, .apply (o.unitary value n)⟩

/-- What a text does. -/
def textFeedback (ps : List (Piece P)) : List (Step Nat Nat (Op (Fin n))) :=
  (operations ps).map (GuardedOp.feedback value n)

end

/-! ## Kernels that are written as what they are -/

variable {P : Type} (value : P → ℝ) (n : Nat)

/-- A gate that is written as one operation and measures nothing. -/
def Gate.Single : Gate P → Prop
  | .swap _ _ | .cz _ _ | .cphase _ _ _ | .measure _ _ => False
  | _ => True

/-- **A kernel the visitor writes as what it is.** -/
structure Function.Written (kernel : Function (Gate P)) : Prop where
  /-- The loop would take the function for a measurement. -/
  names : ∀ e m body, .function e m body ∈ kernel.walk → m ≠ "Measure"
  gates : ∀ g ∈ visitedGatesList (kernel.walk.filter Instruction.isEnabled),
    (∀ q ∈ g.bits, q < n) ∧ g.bits.Nodup ∧ g.refusal = none ∧ g.Translated value
  /-- A conditional has one gate, which only the conditional executes. -/
  bodies : ∀ e q body, .conditional e q body ∈ kernel.walk →
    ∃ g, body = [.leaf false g] ∧ g.Single
  /-- The register that is looked up is that of the most recent measurement. -/
  measured : ∀ before e q body after,
    kernel.walk.filter Instruction.isEnabled = before ++ .conditional e q body :: after →
      MeasuredOnceInTime q before

theorem Gate.Single.ops {g : Gate P} (h : g.Single) (c : Nat) :
    ∃ o, g.ops c = [o] ∧ QOp.pieces o = [.op o] ∧ ∀ q k, o ≠ .measure q k := by
  cases g <;> first | exact h.elim | exact ⟨_, rfl, rfl, by simp⟩

theorem Gate.Single.feedback {g : Gate P} (h : g.Single) :
    g.feedback value n = .always (.apply (g.unitary value n)) := by
  cases g <;> first | exact h.elim | rfl

/-! ## The registers on the way -/

theorem steps_counter (r : Registers) (is : List (Instruction (Gate P))) :
    (r.steps is).counter = r.counter + measurements is := by
  induction is generalizing r with
  | nil => rfl
  | cons i is ih => rw [Registers.steps_cons, ih, step_counter, measurements_cons i is, Nat.add_assoc]

theorem steps_append (r : Registers) (is js : List (Instruction (Gate P))) :
    r.steps (is ++ js) = (r.steps is).steps js := by
  induction is generalizing r with
  | nil => rfl
  | cons i is ih => exact ih _

/-- A register that has been measured into is below the next one. -/
theorem lt_of_lastRegisterFrom {c q k : Nat} {is : List (Instruction (Gate P))}
    (h : lastRegisterFrom c q is = some k) : k < c + measurements is := by
  induction is generalizing c with
  | nil => cases h
  | cons i is ih =>
      rw [lastRegisterFrom_cons, Option.or_eq_some_iff] at h
      rw [measurements_cons]
      rcases h with h | ⟨_, h⟩
      · have := ih h
        omega
      · split at h
        · rename_i hi
          have hone := measurements_of_measures hi
          cases h
          omega
        · cases h

/-- Where the outcomes of the qubits are after some instructions. -/
def places (is : List (Instruction (Gate P))) (q : Nat) : Option Nat := lastRegister q is

/-- An instruction that measures nothing moves no outcome. -/
theorem places_unmeasured {is : List (Instruction (Gate P))} {i : Instruction (Gate P)}
    (h : ∀ q, measures q i = false) : places (is ++ [i]) = places is := by
  funext q
  have hnone : lastRegisterFrom (0 + measurements is) q [i] = none := by
    rw [lastRegisterFrom_eq_none]
    intro j hj
    rw [List.mem_singleton.mp hj, h q]
  rw [places, lastRegister, lastRegisterFrom_append, hnone]
  rfl

/-- A measurement takes the next register. -/
theorem places_measure (is : List (Instruction (Gate P))) (e : Bool) (q k : Nat) :
    places (is ++ [.leaf e (.measure q k)])
      = Function.update (places is) q (some (measurements is)) := by
  funext p
  rw [places, lastRegister, lastRegisterFrom_append]
  by_cases hp : p = q
  · subst hp
    rw [Function.update_self]
    simp [lastRegisterFrom]
  · rw [Function.update_of_ne hp]
    have hq : q ≠ p := Ne.symm hp
    simp [lastRegisterFrom, hq, places, lastRegister]

/-- The register that a conditional looks up. -/
theorem getD_index (is : List (Instruction (Gate P))) (q : Nat) :
    (Registers.steps {} is).index.getD q 0 = (firstEntryFrom 0 q is).getD 0 := by
  rw [StdMap.getD, steps_index]
  rfl

/-! ## One instruction -/

theorem feedback_function (e : Bool) (m : String) (body : List (Instruction (Gate P)))
    (forced : Bool) : (Instruction.function e m body).feedback value n forced
      = feedbackList value n forced body := by
  rw [Instruction.feedback]

/-- What an instruction of the loop does, without what stands below it. -/
noncomputable def Instruction.own : Instruction (Gate P) → List (Step Nat Nat (Op (Fin n)))
  | .leaf _ g => [g.feedback value n]
  | .function _ _ _ => []
  | .conditional _ q body => (feedbackList value n true body).map (guardedBy n q)

/-- Bodies of conditionals that are passed over. -/
def PassedOver (is : List (Instruction (Gate P))) : Prop :=
  ∀ e q body, .conditional e q body ∈ is → ∃ g, body = [.leaf false g]

mutual

/-- **A tree is its loop**: what it does is what the enabled instructions of
the loop do one after the other. -/
theorem feedback_eq (i : Instruction (Gate P)) (h : PassedOver i.preorder) :
    i.feedback value n false
      = (i.preorder.filter Instruction.isEnabled).flatMap (Instruction.own value n) := by
  match i with
  | .leaf e g =>
      rw [Instruction.feedback, Instruction.preorder, List.filter_singleton]
      cases e <;> rfl
  | .function e m body =>
      rw [Instruction.feedback, Instruction.preorder, List.filter_cons]
      have hbody := feedbackList_eq body fun e q b hb =>
        h e q b (List.mem_cons_of_mem _ hb)
      cases e with
      | false => exact hbody
      | true => exact hbody
  | .conditional e q body =>
      obtain ⟨g, rfl⟩ := h e q body List.mem_cons_self
      rw [Instruction.feedback, Instruction.preorder, List.filter_cons]
      cases e with
      | false => rfl
      | true => exact (List.append_nil _).symm

theorem feedbackList_eq (is : List (Instruction (Gate P)))
    (h : PassedOver (Instruction.preorderList is)) :
    feedbackList value n false is
      = ((Instruction.preorderList is).filter Instruction.isEnabled).flatMap
          (Instruction.own value n) := by
  match is with
  | [] => rfl
  | i :: is =>
      rw [feedbackList, Instruction.preorderList, List.filter_append, List.flatMap_append]
      congr 1
      · exact feedback_eq i fun e q b hb => h e q b (List.mem_append_left _ hb)
      · exact feedbackList_eq is fun e q b hb => h e q b (List.mem_append_right _ hb)

end

/-! ## The text of the loop -/

/-- An operation that is no measurement is its unitary, under its guards. -/
theorem feedback_op {o : QOp P} (h : ∀ q c, o ≠ .measure q c) (guards : List Nat) :
    GuardedOp.feedback value n ⟨guards, o⟩ = ⟨guards, .apply (o.unitary value n)⟩ := by
  cases o with
  | measure q c => exact absurd rfl (h q c)
  | _ => rfl

theorem not_measure_of_mem_ops {g : Gate P} (hg : g.measured = none) {c : Nat} {o : QOp P}
    (ho : o ∈ g.ops c) : ∀ q k, o ≠ .measure q k := by
  rintro q k rfl
  cases g with
  | measure q k => cases hg
  | _ => simp [Gate.ops] at ho

/-- The operations of a gate, one after the other. -/
theorem textFeedback_gate {g : Gate P} (hg : g.measured = none) (c : Nat) (ps : List (Piece P)) :
    textFeedback value n (g.pieces c ++ ps)
      = ((g.ops c).map fun o => o.unitary value n).map (fun A => .always (.apply A))
        ++ textFeedback value n ps := by
  rw [textFeedback, operations, Gate.pieces, operationsFrom_pieces, List.map_append, List.map_map,
    List.map_map]
  congr 1
  apply List.map_congr_left
  intro o ho
  exact feedback_op value n (not_measure_of_mem_ops hg ho) []

theorem textFeedback_measure (q k c : Nat) (ps : List (Piece P)) :
    textFeedback value n ((Gate.measure q k : Gate P).pieces c ++ ps)
      = .always (.measure q c) :: textFeedback value n ps := rfl

/-- A guard and the one operation that it reaches. -/
theorem textFeedback_guard {g : Gate P} (hg : g.Single) (c : Nat) (ps : List (Piece P)) :
    ∃ o, g.ops 0 = [o] ∧
      textFeedback value n ((.guard c :: g.pieces 0) ++ ps)
        = ⟨[c], .apply (o.unitary value n)⟩ :: textFeedback value n ps := by
  obtain ⟨o, hops, hpieces, hmeasure⟩ := hg.ops 0
  refine ⟨o, hops, ?_⟩
  rw [Gate.pieces, hops, List.flatMap_singleton, hpieces, ← feedback_op value n hmeasure]
  rfl

/-- A gate of the kernel is written as what it is. -/
theorem Gate.emitted_con {g : Gate P}
    (hg : (∀ q ∈ g.bits, q < n) ∧ g.bits.Nodup ∧ g.refusal = none ∧ g.Translated value) (c : Nat) :
    phaseCon n (circuit ((g.ops c).map fun o => o.unitary value n)) (g.unitary value n) :=
  Gate.emitted_upToPhase value n hg.2.1 hg.2.2.1 hg.2.2.2 c hg.1

/-- **The rest of a loop**: the text has the outcomes in the registers of their
measurements. -/
theorem placed_rest {before rest : List (Instruction (Gate P))}
    (hgates : ∀ g ∈ visitedGatesList rest,
      (∀ q ∈ g.bits, q < n) ∧ g.bits.Nodup ∧ g.refusal = none ∧ g.Translated value)
    (hbodies : ∀ e q body, .conditional e q body ∈ rest → ∃ g, body = [.leaf false g] ∧ g.Single)
    (hmeasured : ∀ mid e q body after, rest = mid ++ .conditional e q body :: after →
      MeasuredOnceInTime q (before ++ mid)) :
    Placed (phaseCon n) (places before) (rest.flatMap (Instruction.own value n))
      (textFeedback value n (piecesList (Registers.steps {} before) rest))
      (places (before ++ rest)) := by
  induction rest generalizing before with
  | nil =>
      rw [piecesList_nil, List.append_nil]
      exact .nil
  | cons i rest ih =>
      have hsplit : before ++ i :: rest = (before ++ [i]) ++ rest := by simp
      have hsteps : Registers.steps {} (before ++ [i]) = (Registers.steps {} before).step i := by
        rw [steps_append]
        rfl
      have hrest := @ih (before ++ [i])
        (fun g hg => hgates g (by rw [visitedGatesList]; exact List.mem_append_right _ hg))
        (fun e q body hb => hbodies e q body (List.mem_cons_of_mem _ hb))
        (fun mid e q body after hmid => by
          rw [List.append_assoc]
          exact hmeasured (i :: mid) e q body after (by rw [hmid]; rfl))
      rw [hsteps] at hrest
      rw [piecesList_cons, List.flatMap_cons, hsplit]
      cases i with
      | function e m body =>
          rw [places_unmeasured fun q => rfl] at hrest
          exact hrest
      | leaf e g =>
          have hg := hgates g (by rw [visitedGatesList, visitedGates]; simp)
          cases hmeasure : g.measured with
          | none =>
              have hno : ∀ q, measures q (.leaf e g) = false := by
                intro q
                cases g with
                | measure q k => cases hmeasure
                | _ => rfl
              have hown : (Instruction.leaf e g).own value n
                  = [.always (.apply (g.unitary value n))] := by
                cases g with
                | measure q k => cases hmeasure
                | _ => rfl
              rw [places_unmeasured hno] at hrest
              rw [hown, pieces, textFeedback_gate value n hmeasure]
              apply Placed.always _ hrest
              rw [reverse_prod]
              exact Gate.emitted_con value n hg _
          | some q =>
              cases g with
              | measure q k =>
                  rw [places_measure] at hrest
                  rw [pieces, textFeedback_measure, steps_counter, Nat.zero_add]
                  apply Placed.measure _ hrest
                  intro d _ hd
                  have hlt := lt_of_lastRegisterFrom hd
                  omega
              | _ => cases hmeasure
      | conditional e q body =>
          obtain ⟨g, rfl, hsingle⟩ := hbodies e q body List.mem_cons_self
          have hg := hgates g (by simp [visitedGatesList, visitedGates])
          have hlast := (lastRegister_eq_entry_iff q before).mpr
            (by simpa using hmeasured [] e q _ rest rfl)
          rw [places_unmeasured fun q => rfl] at hrest
          obtain ⟨o, hops, htext⟩ := textFeedback_guard value n hsingle
            ((Registers.steps {} before).index.getD q 0)
            (piecesList ((Registers.steps {} before).step (.conditional e q [.leaf false g])) rest)
          have hpieces : pieces (Registers.steps {} before) (.conditional e q [.leaf false g])
              = .guard ((Registers.steps {} before).index.getD q 0) :: g.pieces 0 := by
            simp [pieces]
          have hown : (Instruction.conditional e q [.leaf false g]).own value n
              = [⟨[q], .apply (g.unitary value n)⟩] := by
            simp [Instruction.own, feedbackList, Instruction.feedback, hsingle.feedback, guardedBy,
              Step.always]
          rw [hown, hpieces, htext, List.singleton_append]
          apply Placed.guarded _ _ hrest
          · rw [getD_index]
            exact hlast
          · have hemitted := Gate.emitted_con value n hg 0
            rw [hops] at hemitted
            simpa using hemitted

/-! ## The loop accepts -/

/-- Nothing but a measurement bears its name. -/
theorem passAll_of_acceptAll [ToString P] {is : List (Instruction (Gate P))}
    (hnames : ∀ e m body, .function e m body ∈ is → m ≠ "Measure") {v w : OpenQasmVisitor}
    (h : acceptAll (is.filter Instruction.isEnabled) v = .ok () w) :
    Submission.passAll accept is v = .ok () w := by
  induction is generalizing v with
  | nil => exact h
  | cons i is ih =>
      have hrest : ∀ e m body, .function e m body ∈ is → m ≠ "Measure" :=
        fun e m body hm => hnames e m body (List.mem_cons_of_mem _ hm)
      rw [Submission.passAll, Submission.pass]
      by_cases he : i.isEnabled = true
      · rw [List.filter_cons_of_pos he, acceptAll, Exec.bind_ok] at h
        obtain ⟨_, x, hacc, h⟩ := h
        rw [if_pos he, bind_assoc, Exec.bind_of_ok hacc]
        have hbits : i.name = "Measure" → ∃ q, i.bits.head? = some q := by
          intro hname
          cases i with
          | function e m body => exact absurd hname (hnames e m body List.mem_cons_self)
          | conditional e q body => simp [Instruction.name] at hname
          | leaf e g =>
              cases g with
              | measure q k => exact ⟨q, rfl⟩
              | _ => simp [Instruction.name, Leaf.name, Gate.name] at hname
        by_cases hname : i.name = "Measure"
        · obtain ⟨q, hq⟩ := hbits hname
          rw [if_pos hname, hq]
          exact ih hrest h
        · rw [if_neg hname]
          exact ih hrest h
      · rw [List.filter_cons_of_neg he] at h
        rw [if_neg he]
        exact ih hrest h

theorem mem_visitedGatesList {g : Gate P} {is : List (Instruction (Gate P))} :
    g ∈ visitedGatesList is ↔ ∃ i ∈ is, g ∈ visitedGates i := by
  induction is with
  | nil => simp [visitedGatesList]
  | cons i is ih => simp [visitedGatesList, ih]

theorem Function.Written.accepted {kernel : Function (Gate P)} (h : kernel.Written value n) :
    rejections (kernel.walk.filter Instruction.isEnabled) = none := by
  rw [rejections_eq_none]
  intro i hi
  have hvisited : ∀ g ∈ visitedGates i, g.refusal = none := fun g hg =>
    (h.gates g (mem_visitedGatesList.mpr ⟨i, hi, hg⟩)).2.2.1
  cases i with
  | function e m body => rw [rejection]
  | leaf e g =>
      rw [rejection]
      exact hvisited g (by simp [visitedGates])
  | conditional e q body =>
      obtain ⟨g, rfl, _⟩ := h.bodies e q body (List.mem_filter.mp hi).1
      have hg := hvisited g (by simp [visitedGates, visitedGatesList])
      rw [rejection, if_neg (by simp), rejections_cons, rejections_nil, rejection, hg]
      rfl

/-- The loop over such a kernel accepts it and writes its pieces. -/
theorem Function.Written.writes [ToString P] {kernel : Function (Gate P)}
    (h : kernel.Written value n) :
    ∃ v, Submission.passAll accept kernel.walk (new n false) = .ok () v ∧
      v.getOpenQasmString = (new n false).native
        ++ Piece.render (piecesList {} (kernel.walk.filter Instruction.isEnabled)) := by
  have hacc := (visitedAll (kernel.walk.filter Instruction.isEnabled) (new n false)).accepted
    (h.accepted value n)
  exact ⟨_, passAll_of_acceptAll h.names hacc, rfl⟩

/-- The pieces do step by step what the kernel does, and measure into places
of their own. -/
theorem Function.Written.placed {kernel : Function (Gate P)} (h : kernel.Written value n) :
    Placed (phaseCon n) (places ([] : List (Instruction (Gate P)))) (kernel.feedback value n)
      (textFeedback value n (piecesList {} (kernel.walk.filter Instruction.isEnabled)))
      (places (kernel.walk.filter Instruction.isEnabled)) := by
  have htree : kernel.feedback value n
      = (kernel.walk.filter Instruction.isEnabled).flatMap (Instruction.own value n) := by
    apply feedback_eq
    intro e q body hb
    obtain ⟨g, hbody, _⟩ := h.bodies e q body hb
    exact ⟨g, hbody⟩
  rw [htree]
  exact placed_rest value n h.gates
    (fun e q body hb => h.bodies e q body (List.mem_filter.mp hb).1) h.measured

/-- Before the first measurement nothing has a place. -/
theorem agrees_places_nil : Agrees (places ([] : List (Instruction (Gate P)))) {}
    ({} : Memory Nat) := by
  refine ⟨fun q c hc => ?_, rfl⟩
  cases hc

theorem Function.Written.operator {kernel : Function (Gate P)} (h : kernel.Written value n)
    (outcome : Nat → Bool) :
    UpToPhase
      (operator outcome (projector n) {}
        (textFeedback value n (piecesList {} (kernel.walk.filter Instruction.isEnabled))))
      (operator outcome (projector n) {} (kernel.feedback value n)) :=
  (h.placed value n).operator outcome (projector n) agrees_places_nil

/-- **Kernels with feedback are written as what they are.** The visitor accepts
such a kernel, whatever functions it is made of. Under any outcomes the text is
the operator of the kernel up to a phase, and in the end the register of the
last measurement of a qubit has the outcome that the kernel remembers for it. -/
theorem feedback_preserved [ToString P] {kernel : Function (Gate P)}
    (h : kernel.Written value n) :
    ∃ v, Submission.passAll accept kernel.walk (new n false) = .ok () v ∧
      v.getOpenQasmString = (new n false).native
        ++ Piece.render (piecesList {} (kernel.walk.filter Instruction.isEnabled)) ∧
      ∀ outcome : Nat → Bool,
        UpToPhase
            (operator outcome (projector n) {}
              (textFeedback value n (piecesList {} (kernel.walk.filter Instruction.isEnabled))))
            (operator outcome (projector n) {} (kernel.feedback value n)) ∧
          ∀ q c, lastRegister q (kernel.walk.filter Instruction.isEnabled) = some c →
            (memory outcome {} (textFeedback value n
                (piecesList {} (kernel.walk.filter Instruction.isEnabled)))).cell c
              = (memory outcome {} (kernel.feedback value n)).cell q := by
  obtain ⟨v, hv, htext⟩ := h.writes value n
  refine ⟨v, hv, htext, fun outcome => ⟨h.operator value n outcome, fun q c hc => ?_⟩⟩
  exact ((h.placed value n).memory outcome agrees_places_nil).cell q c hc

/-! ## Teleportation -/

/-- Qubit 0 is teleported to qubit 2 and measured there. -/
def teleport : Function (Gate String) where
  name := "teleport"
  body := [.leaf true (.x 0), .leaf true (.hadamard 1), .leaf true (.cnot 1 2),
    .leaf true (.cnot 0 1), .leaf true (.hadamard 0), .leaf true (.measure 0 0),
    .leaf true (.measure 1 1), .conditional true 0 [.leaf false (.z 2)],
    .conditional true 1 [.leaf false (.x 2)], .leaf true (.measure 2 2)]

/-- If a conditional stands there, its guard names the register of the last
measurement. -/
def namesLastAt (is : List (Instruction (Gate P))) (k : Nat) : Bool :=
  match is[k]? with
  | some (.conditional _ q _) =>
      decide (lastRegister q (is.take k) = some ((firstEntryFrom 0 q (is.take k)).getD 0))
  | _ => true

theorem written_teleport : teleport.Written (fun _ => 0) 3 where
  names := by
    intro e m body hm
    simp [teleport, Function.walk, Function.toInstruction, Instruction.preorder,
      Instruction.preorderList] at hm
    rw [hm.2.1]
    decide
  gates := by
    intro g hg
    have hgates : visitedGatesList (teleport.walk.filter Instruction.isEnabled)
        = [.x 0, .hadamard 1, .cnot 1 2, .cnot 0 1, .hadamard 0, .measure 0 0, .measure 1 1,
          .z 2, .x 2, .measure 2 2] := rfl
    rw [hgates] at hg
    simp only [List.mem_cons, List.not_mem_nil, or_false] at hg
    rcases hg with rfl | rfl | rfl | rfl | rfl | rfl | rfl | rfl | rfl | rfl <;>
      exact ⟨by decide, by decide, rfl, trivial⟩
  bodies := by
    intro e q body hb
    simp [teleport, Function.walk, Function.toInstruction, Instruction.preorder,
      Instruction.preorderList] at hb
    rcases hb with ⟨_, _, rfl⟩ | ⟨_, _, rfl⟩
    · exact ⟨_, rfl, trivial⟩
    · exact ⟨_, rfl, trivial⟩
  measured := by
    intro before e q body after hsplit
    have hbefore : before = (teleport.walk.filter Instruction.isEnabled).take before.length := by
      rw [hsplit, List.take_left]
    have hat : (teleport.walk.filter Instruction.isEnabled)[before.length]?
        = some (.conditional e q body) := by
      rw [hsplit]
      simp
    have hall : ∀ k < 11, namesLastAt (teleport.walk.filter Instruction.isEnabled) k = true := by
      decide
    have hlt : before.length < (teleport.walk.filter Instruction.isEnabled).length :=
      (List.getElem?_eq_some_iff.mp hat).1
    have hone := hall before.length hlt
    rw [namesLastAt, hat] at hone
    rw [hbefore, ← lastRegister_eq_entry_iff]
    exact of_decide_eq_true hone

/-- The theorem at teleportation. -/
theorem feedback_preserved_teleport :
    ∃ v, Submission.passAll accept teleport.walk (new 3 false) = .ok () v ∧
      ∀ outcome, UpToPhase
        (operator outcome (projector 3) {} (textFeedback (fun _ => 0) 3
          (piecesList {} (teleport.walk.filter Instruction.isEnabled))))
        (operator outcome (projector 3) {} (teleport.feedback (fun _ => 0) 3)) := by
  obtain ⟨v, hv, _, hall⟩ := feedback_preserved _ _ written_teleport
  exact ⟨v, hv, fun outcome => (hall outcome).1⟩

end XaccIbm
