import XaccIbm.Accelerator.Decode
import XaccIbm.Accelerator.Submission
import XaccIbm.OpenQasmVisitor.Emission

/-!
# Accelerator — Outcomes

From a run's outcome to the string in the buffer, when a simulator answers.
The simulator's key has one character for each `Measure`, register `c0`
rightmost, and registers are numbered in the order of the program; the
remapping loop hands the characters out in the order of the qubits, and
leaves a key that is as long as the buffer alone. The two orders are the
same for kernels that measure in ascending order and, when the key is left
alone, for the kernel that measures every qubit once, in order. What calls
that failed have left under a kernel's number is sorted with its own qubits.
-/

namespace XaccIbm

open Decode OpenQasmVisitor StdString

/-- The character of a classical register. -/
def registerChar (b : Bool) : Char := if b then '1' else '0'

/-- The key of an outcome: the value of every register, `c0` rightmost. -/
def simulatorKey (outcome : List Bool) : String :=
  String.ofList (outcome.map registerChar).reverse

/-- **The stored string says what was measured**: it has a character for
each qubit, qubit 0 rightmost, which is the value of the qubit's last
measurement, or `0` when the qubit is not measured. -/
def StoresOutcome (n : Nat) (qs : List Nat) (outcome : List Bool)
    (stored : Option String) : Prop :=
  ∃ s, stored = some s ∧ s.toList.length = n ∧
    ∀ q, q < n → s.toList[n - 1 - q]?
      = some ((lastValue q qs (outcome.map registerChar)).getD '0')

/-- The qubits that the characters of a key go to: one for each measurement,
the first of the sorted qubits that the kernel's number has. `left` was there
before the kernel's own were added. -/
def spreadOver (left own : List Nat) : List Nat :=
  (sortSupports (left ++ own)).take own.length

/-- When the remapping loop stores what was measured. -/
def InRegisterOrder (n : Nat) (left own : List Nat) : Prop :=
  (own.length < n ∧ SameLasts own (spreadOver left own)) ∨ own = List.range n

@[simp] theorem spreadOver_length (left own : List Nat) :
    (spreadOver left own).length = own.length := by
  rw [spreadOver, List.length_take, (sortSupports_perm _).length_eq, List.length_append]
  omega

/-- A kernel's own qubits are enough, so no qubit is further out than they are. -/
theorem spreadOver_lt {n : Nat} {own : List Nat} (hq : ∀ q ∈ own, q < n) (left : List Nat) :
    ∀ q ∈ spreadOver left own, q < n := by
  have hcount : own.length ≤ (sortSupports (left ++ own)).countP (· < n) := by
    have hown : own.countP (· < n) = own.length :=
      List.countP_eq_length.mpr fun q h => by simpa using hq q h
    rw [(sortSupports_perm _).countP_eq, List.countP_append, hown]
    exact Nat.le_add_left _ _
  intro q hmem
  obtain ⟨i, hi, rfl⟩ := List.mem_take_iff_getElem.mp hmem
  obtain ⟨p, hp, hpn⟩ :=
    (forall_lt_of_sorted_iff (sortSupports_sorted _) n _).mpr hcount i (by omega)
  obtain ⟨_, rfl⟩ := List.getElem?_eq_some_iff.mp hp
  exact hpn

/-- **With nothing left over** the qubits have to be measured in ascending
order. -/
theorem inRegisterOrder_nil_iff {n : Nat} {own : List Nat} :
    InRegisterOrder n [] own ↔
      (own.Pairwise (· ≤ ·) ∧ own.length < n) ∨ own = List.range n := by
  have hperm : (sortSupports own).Perm own := sortSupports_perm own
  have hspread : spreadOver [] own = sortSupports own := by
    rw [spreadOver, List.nil_append, ← hperm.length_eq, List.take_length]
  rw [InRegisterOrder, hspread, sameLasts_iff_pairwise hperm (sortSupports_sorted own), and_comm]

/-- With qubit 0 left over, the key of a measurement of qubit 1 is spread over qubit 0. -/
example : spreadOver [0] [1] = [0] := by decide

theorem eraseSpaces_simulatorKey (outcome : List Bool) :
    eraseSpaces (simulatorKey outcome) = simulatorKey outcome := by
  rw [eraseSpaces, simulatorKey, String.toList_ofList, List.filter_eq_self.mpr]
  intro c hc
  rw [List.mem_reverse, List.mem_map] at hc
  obtain ⟨b, _, rfl⟩ := hc
  cases b <;> decide

/-- The outcome that is one in a single register. -/
private def oneAt (m k : Nat) : List Bool := (List.range m).map (· == k)

private theorem oneAt_getElem? {m k j : Nat} (hj : j < m) :
    ((oneAt m k).map registerChar)[j]? = some (if j = k then '1' else '0') := by
  rw [oneAt, List.getElem?_map, List.getElem?_map, List.getElem?_range hj]
  by_cases h : j = k
  · simp [h, registerChar]
  · simp [h, registerChar]

/-- The last measurement of a qubit is one when it is in that register. -/
private theorem lastValue_oneAt {m k j q : Nat} {qs : List Nat} (hm : qs.length = m)
    (h : LastAt q j qs) :
    lastValue q qs ((oneAt m k).map registerChar) = some (if j = k then '1' else '0') := by
  have hj : j < m := hm ▸ (List.getElem?_eq_some_iff.mp h.1).1
  rw [lastValue_of_lastAt h _ (by simp [oneAt, hm]), oneAt_getElem? hj]

/-- A qubit reads one when its last place is that register. -/
private theorem lastAt_of_oneAt {m k q : Nat} {qs : List Nat} (hm : qs.length = m)
    (h : (lastValue q qs ((oneAt m k).map registerChar)).getD '0' = '1') : LastAt q k qs := by
  by_cases hq : q ∈ qs
  · obtain ⟨j, hj⟩ := exists_lastAt hq
    rw [lastValue_oneAt hm hj] at h
    by_cases hjk : j = k
    · exact hjk ▸ hj
    · simp [hjk] at h
  · rw [lastValue_eq_none hq] at h
    cases h

/-- A key as it stands has the register of a qubit's number at its place. -/
theorem getElem?_simulatorKey {n q : Nat} {outcome : List Bool} (hlen : outcome.length = n)
    (hqn : q < n) :
    (simulatorKey outcome).toList[n - 1 - q]? = (outcome.map registerChar)[q]? := by
  rw [simulatorKey, String.toList_ofList, List.getElem?_reverse (by simp; omega)]
  congr 1
  simp only [List.length_map]
  omega

/-! ## Short keys are spread -/

/-- A short key is stored as the sorted qubits say. -/
theorem remap_short {n : Nat} {left own : List Nat} (hq : ∀ q ∈ own, q < n)
    (hlt : own.length < n) {outcome : List Bool}
    (hlen : outcome.length = own.length) :
    ∃ t, remap n (left ++ own) (simulatorKey outcome) = some (String.ofList t) ∧
      t.length = n ∧ ∀ q, q < n → t[n - 1 - q]?
        = some ((lastValue q (spreadOver left own)
            (outcome.map registerChar)).getD '0') := by
  have hchars : (outcome.map registerChar).length = own.length := by
    rw [List.length_map, hlen]
  have hspread : (sortSupports (left ++ own)).take (outcome.map registerChar).length
      = spreadOver left own := by
    rw [hchars, spreadOver]
  have henough : (outcome.map registerChar).length ≤ (sortSupports (left ++ own)).length := by
    rw [hchars, (sortSupports_perm _).length_eq, List.length_append]
    exact Nat.le_add_left _ _
  obtain ⟨t, ht, htlen, hget⟩ := placeBits_ok (s := List.replicate n '0') henough
    (by rw [hspread]; exact spreadOver_lt hq left) List.length_replicate
  refine ⟨t, ?_, htlen, fun q hqn => ?_⟩
  · rw [remap, simulatorKey, String.toList_ofList, List.reverse_reverse, ht,
      if_pos (by simp [hlen, hlt])]
    rfl
  · rw [hget q hqn, List.getElem?_replicate, if_pos (by omega), ← lastValue_take, hspread]
    cases lastValue q (spreadOver left own) (outcome.map registerChar) <;> rfl

theorem storesOutcome_short {n : Nat} {left own : List Nat} (hq : ∀ q ∈ own, q < n)
    (hlt : own.length < n) :
    (∀ outcome : List Bool, outcome.length = own.length →
        StoresOutcome n own outcome (remap n (left ++ own) (simulatorKey outcome))) ↔
      SameLasts own (spreadOver left own) := by
  constructor
  · intro h
    have hread : ∀ k q, q < n →
        (lastValue q own ((oneAt own.length k).map registerChar)).getD '0'
          = (lastValue q (spreadOver left own)
              ((oneAt own.length k).map registerChar)).getD '0' := by
      intro k q hqn
      have hlen : (oneAt own.length k).length = own.length := by simp [oneAt]
      obtain ⟨s, hs, _, hget⟩ := h (oneAt own.length k) hlen
      obtain ⟨t, ht, _, hget'⟩ := @remap_short n left own hq hlt _ hlen
      obtain rfl : String.ofList t = s := Option.some.inj (ht.symm.trans hs)
      have hat := hget q hqn
      rw [String.toList_ofList, hget' q hqn] at hat
      exact (Option.some.inj hat).symm
    -- One in the register of the last place of `q`, zero elsewhere.
    intro q k
    constructor
    · intro hk
      have hone := hread k q (hq q (List.mem_of_getElem? hk.1))
      rw [lastValue_oneAt rfl hk, if_pos rfl] at hone
      exact lastAt_of_oneAt (spreadOver_length left own) hone.symm
    · intro hk
      have hone := hread k q (spreadOver_lt hq left q (List.mem_of_getElem? hk.1))
      rw [lastValue_oneAt (spreadOver_length left own) hk, if_pos rfl] at hone
      exact lastAt_of_oneAt rfl hone
  · intro hsame outcome hlen
    obtain ⟨t, ht, htlen, hget⟩ := @remap_short n left own hq hlt _ hlen
    refine ⟨_, ht, by rwa [String.toList_ofList], fun q hqn => ?_⟩
    rw [String.toList_ofList, hget q hqn, hsame.lastValue_eq (by simp [hlen]) (by simp [hlen])]

/-! ## Other keys stay -/

theorem remap_long {n : Nat} {own : List Nat} (hlt : ¬ own.length < n) (supports : List Nat)
    {outcome : List Bool} (hlen : outcome.length = own.length) :
    remap n supports (simulatorKey outcome) = some (simulatorKey outcome) := by
  rw [remap, if_neg]
  simpa [simulatorKey, hlen] using hlt

theorem storesOutcome_long {n : Nat} {own : List Nat} (hlt : ¬ own.length < n)
    (supports : List Nat) :
    (∀ outcome : List Bool, outcome.length = own.length →
        StoresOutcome n own outcome (remap n supports (simulatorKey outcome))) ↔
      own = List.range n := by
  constructor
  · intro h
    -- an outcome is stored as it is, so its length is that of the buffer
    have hn : own.length = n := by
      obtain ⟨s, hs, hslen, _⟩ := h (oneAt own.length 0) (by simp [oneAt])
      rw [remap_long hlt supports (by simp [oneAt])] at hs
      rw [← Option.some.inj hs] at hslen
      simpa [simulatorKey, oneAt] using hslen
    -- a single one, in register `q`, has to stand for qubit `q`
    have hat : ∀ q, q < n → own[q]? = some q := by
      intro q hqn
      have hlen : (oneAt own.length q).length = own.length := by simp [oneAt]
      obtain ⟨s, hs, _, hget⟩ := h (oneAt own.length q) hlen
      rw [remap_long hlt supports hlen] at hs
      have hone := hget q hqn
      rw [← Option.some.inj hs, getElem?_simulatorKey (hlen.trans hn) hqn,
        oneAt_getElem? (by omega), if_pos rfl] at hone
      exact (lastAt_of_oneAt rfl (Option.some.inj hone).symm).1
    refine List.ext_getElem? fun q => ?_
    rcases Nat.lt_or_ge q n with hqn | hqn
    · rw [hat q hqn, List.getElem?_range hqn]
    · rw [List.getElem?_eq_none (by omega), List.getElem?_eq_none (by simp; omega)]
  · rintro rfl outcome hlen
    rw [List.length_range] at hlen
    refine ⟨_, remap_long hlt supports (by simpa using hlen), ?_, fun q hqn => ?_⟩
    · simp [simulatorKey, hlen]
    · rw [getElem?_simulatorKey hlen hqn, lastValue_of_nodup List.nodup_range
        (List.getElem?_range hqn) _ (by simp [hlen])]
      rw [List.getElem?_eq_getElem (by simp; omega)]
      rfl

/-- **Which measurement orders are decoded right**, for every outcome. -/
theorem storesOutcome_iff {n : Nat} {left own : List Nat} (hq : ∀ q ∈ own, q < n) :
    (∀ outcome : List Bool, outcome.length = own.length →
        StoresOutcome n own outcome (remap n (left ++ own) (simulatorKey outcome))) ↔
      InRegisterOrder n left own := by
  by_cases hlt : own.length < n
  · rw [storesOutcome_short hq hlt, InRegisterOrder]
    constructor
    · exact fun h => .inl ⟨hlt, h⟩
    · rintro (⟨_, h⟩ | rfl)
      · exact h
      · simp at hlt
  · rw [storesOutcome_long hlt, InRegisterOrder]
    constructor
    · exact .inr
    · rintro (⟨h, _⟩ | h)
      · exact absurd h hlt
      · exact h

/-! ## The measurements of a kernel -/

variable {P : Type}

/-- The qubit and the register of a measurement. -/
def QOp.measurement? : QOp P → Option (Nat × Nat)
  | .measure q c => some (q, c)
  | _ => none

/-- The measurements of a text, in its order. -/
def textMeasurements (ps : List (Piece P)) : List (Nat × Nat) :=
  (operations ps).filterMap fun g => g.op.measurement?

theorem textMeasurements_gate (c : Nat) (g : Gate P) (ps : List (Piece P)) :
    textMeasurements (g.pieces c ++ ps)
      = (g.ops c).filterMap QOp.measurement? ++ textMeasurements ps := by
  rw [textMeasurements, operations, Gate.pieces, operationsFrom_pieces,
    List.filterMap_append, List.filterMap_map]
  rfl

/-- The measurements of primitive instructions take the registers in turn:
the `k`-th `Measure` writes register `k`. -/
theorem textMeasurements_leaves (is : List (Instruction (Gate P)))
    (hleaf : ∀ i ∈ is, ∃ e g, i = .leaf e g) (r : Registers) :
    textMeasurements (piecesList r (is.filter Instruction.isEnabled))
      = (is.filterMap Instruction.measuredQubit).zipIdx r.counter := by
  induction is generalizing r with
  | nil => rfl
  | cons i is ih =>
      obtain ⟨e, g, rfl⟩ := hleaf i (by simp)
      have htail := ih fun j hj => hleaf j (List.mem_cons_of_mem _ hj)
      cases e with
      | false =>
          rw [List.filter_cons_of_neg (by simp [Instruction.isEnabled]), htail,
            List.filterMap_cons_none (by
              simp [Instruction.measuredQubit, Instruction.isEnabled])]
      | true =>
          rw [List.filter_cons_of_pos rfl, piecesList_cons, pieces,
            textMeasurements_gate, htail]
          cases g with
          | measure q k =>
              have hm : (Instruction.leaf true
                  (Gate.measure q k : Gate P)).measuredQubit = some q := rfl
              rw [List.filterMap_cons_some hm]
              rfl
          | _ => rfl

/-- What the visitor did to a kernel that was submitted. -/
theorem visited_of_passAll [ToString P] {is : List (Instruction (Gate P))}
    {v w : OpenQasmVisitor} {u : Unit}
    (h : Submission.passAll accept is v = .ok u w) :
    acceptAll (is.filter Instruction.isEnabled) v = .ok () w := by
  induction is generalizing v with
  | nil =>
      cases h
      rfl
  | cons i is ih =>
      rw [Submission.passAll, Exec.bind_ok] at h
      obtain ⟨_, x, hp, hrest⟩ := h
      rcases Submission.pass_ok accept hp with ⟨he, hacc⟩ | ⟨he, rfl⟩
      · rw [List.filter_cons_of_pos he, acceptAll, Exec.bind_ok]
        exact ⟨(), x, hacc, ih hrest⟩
      · rw [List.filter_cons_of_neg (by simp [he])]
        exact ih hrest

/-- **A kernel's text**: the `k`-th measured qubit of a flat kernel is measured
into register `k`. -/
theorem measuredInTurn [ToString P] {kernel : Function (Gate P)} (hflat : kernel.Flat)
    {n : Nat} {v : OpenQasmVisitor}
    (hpass : Submission.passAll accept kernel.walk (new n false) = .ok () v) :
    v.getOpenQasmString = (new n false).native ++ Piece.render
        (piecesList {} (kernel.walk.filter Instruction.isEnabled)) ∧
      textMeasurements (piecesList {} (kernel.walk.filter Instruction.isEnabled))
        = (Submission.measuredQubits kernel).zipIdx := by
  obtain ⟨_, rfl⟩ := acceptAll_ok (visited_of_passAll hpass)
  refine ⟨rfl, ?_⟩
  have hbody := textMeasurements_leaves kernel.body hflat ({} : Registers)
  have hnode : (kernel.toInstruction :: kernel.body).filterMap
      Instruction.measuredQubit
        = kernel.body.filterMap Instruction.measuredQubit :=
    List.filterMap_cons_none (by
      rw [Instruction.measuredQubit]
      split <;> rfl)
  rw [Submission.measuredQubits, hflat.walk, hnode, ← hbody]
  by_cases he : kernel.toInstruction.isEnabled = true
  · rw [List.filter_cons_of_pos he]
    rfl
  · rw [List.filter_cons_of_neg he]

end XaccIbm
