import XaccIbm.IBMAccelerator.Results
import XaccIbm.Lib.Traverse

/-!
# IBMAccelerator — Decoders

The same kernel and the same raw counts, alone in a job and among others.
Alone, the strings are stored as they come; among others they are made to
fit the buffer. The stored counts are the same when every string fits
already, and never otherwise: what the several-kernel path stores always
fits.
-/

namespace XaccIbm

open Decode StdString

namespace Decode

/-- A key of a physical backend that fits a buffer of `n` qubits: it has no
more characters, and a zero for every qubit that was not measured. -/
def Fits (n : Nat) (supports : List Nat) (key : String) : Prop :=
  key.toList.length ≤ n ∧
    ∀ (k : Nat) c, key.toList.reverse[k]? = some c → k ∈ supports ∨ c = '0'

/-- When the strings of a table are stored as they come either way. -/
def SameStrings (isSimulator : Bool) (n : Nat) (supports : List Nat)
    (table : List (String × Int)) : Prop :=
  ∀ e ∈ table,
    if isSimulator then n ≤ (eraseSpaces e.1).toList.length
    else Fits n supports e.1

/-- What the remapping loop leaves is never shorter than the buffer. -/
theorem le_length_of_remap {n : Nat} {supports : List Nat} {key s : String}
    (h : remap n supports key = some s) : n ≤ s.toList.length := by
  unfold remap at h
  split at h
  · obtain ⟨t, ht, rfl⟩ := Option.map_eq_some_iff.mp h
    rw [String.toList_ofList, placeBits_length ht, List.length_replicate]
  · rename_i hlen
    cases h
    omega

/-- What the mask leaves fits. -/
theorem fits_decodePhysical (n : Nat) (supports : List Nat) (key : String) :
    Fits n supports (decodePhysical n supports key) := by
  simp only [Fits, decodePhysical, String.toList_ofList, maskBits_length]
  refine ⟨?_, ?_⟩
  · split
    · rw [List.length_drop]
      omega
    · omega
  · intro k c hc
    rw [maskBits_reverse_getElem?, Option.map_eq_some_iff] at hc
    obtain ⟨d, _, rfl⟩ := hc
    by_cases hk : k ∈ supports
    · exact .inl hk
    · rw [if_neg hk]
      exact .inr rfl

/-- What fits is left as it is. -/
theorem decodePhysical_of_fits {n : Nat} {supports : List Nat} {key : String}
    (h : Fits n supports key) : decodePhysical n supports key = key := by
  obtain ⟨hlen, hzero⟩ := h
  have hmask : maskBits supports key.toList = key.toList := by
    refine List.reverse_injective (List.ext_getElem? fun k => ?_)
    rw [maskBits_reverse_getElem?]
    cases hk : key.toList.reverse[k]? with
    | none => rfl
    | some c =>
        rw [Option.map_some]
        rcases hzero k c hk with hmem | rfl
        · rw [if_pos hmem]
        · rw [ite_self]
  simp only [decodePhysical]
  rw [if_neg (by omega), hmask, String.ofList_toList]

/-- A string that is the same either way. -/
theorem decodeBatch_of_same {isSimulator : Bool} {n : Nat} {supports : List Nat}
    {key : String}
    (h : if isSimulator then n ≤ (eraseSpaces key).toList.length
      else Fits n supports key) :
    decodeBatch isSimulator n supports key = some (decodeAlone isSimulator key) := by
  cases isSimulator with
  | true =>
      simp only [if_true] at h
      simp only [decodeBatch, decodeAlone, if_true, remap]
      rw [if_neg (by omega)]
  | false =>
      simp only [Bool.false_eq_true, if_false] at h
      simp [decodeBatch, decodeAlone, decodePhysical_of_fits h]

/-- A string that the several-kernel path stores would be the same if it came
alone. -/
theorem same_of_decodeBatch {isSimulator : Bool} {n : Nat} {supports : List Nat}
    {key key' : String}
    (h : decodeBatch isSimulator n supports key'
      = some (decodeAlone isSimulator key)) :
    if isSimulator then n ≤ (eraseSpaces key).toList.length
    else Fits n supports key := by
  cases isSimulator with
  | true =>
      simp only [decodeBatch, decodeAlone, if_true] at h ⊢
      exact le_length_of_remap h
  | false =>
      simp only [decodeBatch, decodeAlone, Bool.false_eq_true, if_false,
        Option.some.injEq] at h ⊢
      rw [← h]
      exact fits_decodePhysical n supports key'

/-- **The two decoders on a table.** -/
theorem counts_decoded_iff {counts : MeasurementCounts} (hcounts : counts.Entered)
    {isSimulator : Bool} {n : Nat} {supports : List Nat}
    {table decoded : List (String × Int)}
    (h : decodeTable (decodeBatch isSimulator n supports) table = some decoded) :
    counts (table.map fun e => (decodeAlone isSimulator e.1, e.2)) = counts decoded ↔
      SameStrings isSimulator n supports table := by
  have hpairs := Traverse.mapM_eq_some.mp h
  constructor
  · intro heq e he
    -- The string of `e` is entered alone, so it is entered among others.
    have halone : (counts (table.map fun e =>
        (decodeAlone isSimulator e.1, e.2))).contains
          (decodeAlone isSimulator e.1) = true :=
      (hcounts _ _).mpr ⟨e.2, List.mem_map.mpr ⟨e, he, rfl⟩⟩
    rw [heq, hcounts] at halone
    obtain ⟨m, hm⟩ := halone
    obtain ⟨j, hj, hget⟩ := List.getElem_of_mem hm
    obtain ⟨hlen, hall⟩ := List.forall₂_iff_get.mp hpairs
    have hpair := hall j (by omega) hj
    simp only [List.get_eq_getElem, hget] at hpair
    obtain ⟨s, hs, hsm⟩ := Option.map_eq_some_iff.mp hpair
    cases hsm
    exact same_of_decodeBatch hs
  · intro hsame
    have hdecoded : decodeTable (decodeBatch isSimulator n supports) table
        = some (table.map fun e => (decodeAlone isSimulator e.1, e.2)) := by
      refine Traverse.mapM_eq_some.mpr ?_
      rw [List.forall₂_map_right_iff, List.forall₂_same]
      intro e he
      rw [decodeBatch_of_same (hsame e he)]
      rfl
    rw [h] at hdecoded
    rw [Option.some.inj hdecoded]

end Decode

open IBMAccelerator

variable {P : Type} [ToString P]

/-- What a run with one result puts on the caller's buffer. -/
theorem Run.Completes.alone {r : Run P} {acc : IBMAccelerator} {qasm : Json}
    {bs : List AcceleratorBuffer} {s : Session}
    (h : r.Completes acc [qasm] bs s) {table : List (String × Int)}
    (htable : rawCounts qasm = some table) :
    s.buffer.measurements = r.buffer.measurements ++ table.map fun e =>
      (decodeAlone (choose r.options acc).chosenBackend.isSimulator e.1, e.2) := by
  obtain ⟨s1, hawaited, hstore⟩ := h
  obtain ⟨hbuf, hframe, _, _⟩ := Run.awaited_ok hawaited
  have hchosen := (backends_of_withoutLoop hframe).1
  rcases (storeJob_ok hstore).2 with ⟨_, s2, hone, halone, hb⟩ | ⟨hne, _⟩
  · cases hone
    obtain ⟨_, _, counts, time, kernel, hcounts, _, _, hbuffer⟩ :=
      storeAlone_ok halone
    rw [htable] at hcounts
    cases hcounts
    rw [hb, hbuffer, hbuf, hchosen]
    unfold calibrated
    split <;> rfl
  · simp at hne

/-- What a run with several results puts into the buffer of one of them. -/
theorem Run.Completes.among {r : Run P} {acc : IBMAccelerator}
    {qasms : List Json} {bs : List AcceleratorBuffer} {s : Session}
    (h : r.Completes acc qasms bs s) (hlen : qasms.length ≠ 1) {i : Nat}
    {qasm : Json} (hi : qasms[i]? = some qasm) {table : List (String × Int)}
    (htable : rawCounts qasm = some table) {kernel : Kernel P}
    (hkernel : r.functions[i]? = some kernel) :
    ∃ b, bs[i]? = some b ∧
      decodeTable (decodeBatch (choose r.options acc).chosenBackend.isSimulator
        r.buffer.size (acc.measurementSupports.getD i [] ++ kernel.measuredQubits))
        table = some b.measurements := by
  obtain ⟨s1, hawaited, hstore⟩ := h
  obtain ⟨hbuf, hframe, _, hsupports⟩ := Run.awaited_ok hawaited
  have hchosen := (backends_of_withoutLoop hframe).1
  rcases (storeJob_ok hstore).2 with ⟨_, _, hone, _⟩ | ⟨_, s2, hseveral, _⟩
  · rw [hone] at hlen
    exact absurd rfl hlen
  · obtain ⟨_, _, hblen, hall⟩ := storeSeveral_ok hseveral
    have hib : i < bs.length := by
      rw [hblen]
      exact (List.getElem?_eq_some_iff.mp hi).1
    obtain ⟨name, _, time, counts, decoded, _, hcounts, hdecoded, hb⟩ :=
      hall i qasm bs[i] hi (List.getElem?_eq_getElem hib)
    rw [htable] at hcounts
    cases hcounts
    refine ⟨bs[i], List.getElem?_eq_getElem hib, ?_⟩
    rw [hsupports, hkernel, hchosen, hbuf] at hdecoded
    rw [hb, AcceleratorBuffer.appendAll_eq]
    exact hdecoded

/-- A kernel is submitted alone in the run `r`, and under the number `i`
among others in the run `r'`, on buffers of one size, for backends of one
kind. Both runs return with the same raw counts `table` for it; `stored` is
what `r` appends to the caller's buffer, and `b` is the buffer of `r'`. -/
structure AloneAndAmong (kernel : Kernel P) (i : Nat) (r r' : Run P)
    (acc acc' : IBMAccelerator) (table stored : List (String × Int))
    (b : AcceleratorBuffer) : Prop where
  alone : r.functions = [kernel]
  among : r'.functions[i]? = some kernel
  several : r'.functions.length ≠ 1
  size : r.buffer.size = r'.buffer.size
  kind : (choose r.options acc).chosenBackend.isSimulator
    = (choose r'.options acc').chosenBackend.isSimulator
  storedAlone : ∃ qasm bs s, r.Completes acc [qasm] bs s ∧
    rawCounts qasm = some table ∧
    s.buffer.measurements = r.buffer.measurements ++ stored
  storedAmong : ∃ qasms qasm bs s, r'.Completes acc' qasms bs s ∧
    qasms.length = r'.functions.length ∧ qasms[i]? = some qasm ∧
    rawCounts qasm = some table ∧ bs[i]? = some b

/-- What is stored, from the raw counts. -/
theorem AloneAndAmong.decoded {kernel : Kernel P} {i : Nat} {r r' : Run P}
    {acc acc' : IBMAccelerator} {table stored : List (String × Int)}
    {b : AcceleratorBuffer}
    (h : AloneAndAmong kernel i r r' acc acc' table stored b) :
    stored = table.map (fun e =>
        (decodeAlone (choose r.options acc).chosenBackend.isSimulator e.1, e.2)) ∧
      decodeTable (decodeBatch (choose r.options acc).chosenBackend.isSimulator
        r.buffer.size (acc'.measurementSupports.getD i [] ++ kernel.measuredQubits))
        table = some b.measurements := by
  obtain ⟨qasm, bs, s, hr, htable, hstored⟩ := h.storedAlone
  obtain ⟨qasms, qasm', bs', s', hr', hlen, hi, htable', hb⟩ := h.storedAmong
  have hseveral := h.several
  obtain ⟨b', hb', hdecoded⟩ := hr'.among (by omega) hi htable' h.among
  rw [hb] at hb'
  cases hb'
  rw [hr.alone htable] at hstored
  rw [← h.kind, ← h.size] at hdecoded
  exact ⟨(List.append_cancel_left hstored).symm, hdecoded⟩

/-- **Alone and among others.** The counts that are stored for a kernel are
the same either way if and only if every string of its raw counts fits the
buffer as it comes: for a simulator it has, without its spaces, no fewer
characters than the buffer has qubits; for a physical backend it has no more,
and a zero for every qubit that is not measured. -/
theorem alone_eq_among_iff {counts : MeasurementCounts} (hcounts : counts.Entered)
    {kernel : Kernel P} {i : Nat} {r r' : Run P} {acc acc' : IBMAccelerator}
    {table stored : List (String × Int)} {b : AcceleratorBuffer}
    (h : AloneAndAmong kernel i r r' acc acc' table stored b) :
    counts stored = counts b.measurements ↔
      SameStrings (choose r.options acc).chosenBackend.isSimulator r.buffer.size
        (acc'.measurementSupports.getD i [] ++ kernel.measuredQubits) table := by
  obtain ⟨hstored, hdecoded⟩ := h.decoded
  rw [hstored]
  exact counts_decoded_iff hcounts hdecoded

/-! ## One kernel on two qubits -/

/-- Counts that are added up. -/
def addedCounts : MeasurementCounts := fun calls =>
  ⟨fun s =>
    if calls.any fun e => e.1 == s then
      some ((calls.filter fun e => e.1 == s).map Prod.snd).sum.toNat
    else none⟩

theorem addedCounts_entered : addedCounts.Entered := by
  intro calls s
  rw [StdMap.contains, addedCounts]
  by_cases h : (calls.any fun e => e.1 == s) = true
  · simp only [h, if_true, Option.isSome_some, true_iff]
    obtain ⟨e, he, hs⟩ := List.any_eq_true.mp h
    rw [beq_iff_eq] at hs
    exact ⟨e.2, hs ▸ he⟩
  · simp only [h, Bool.false_eq_true, if_false, Option.isSome_none, false_iff]
    rintro ⟨n, hn⟩
    exact h (List.any_eq_true.mpr ⟨(s, n), hn, by simp⟩)

/-- A kernel that measures qubit 0 of two, alone and before another. -/
theorem aloneAndAmong_first (counts : String) (table stored : List (String × Int))
    (h : (Run.ask ∅ [Run.measureFirst "foo"] [] (Run.resultText counts)).ends {}
      (fun qasms _ s => decide (qasms.length = 1 ∧
        qasms[0]?.bind rawCounts = some table ∧ s.buffer.measurements = stored))
      = true)
    (h' : (Run.ask ∅ [Run.measureFirst "foo", Run.measureFirst "bar"] []
      (Run.resultText counts ++ "," ++ Run.resultText counts)).ends {}
      (fun qasms _ _ => decide (qasms.length = 2 ∧
        qasms[0]?.bind rawCounts = some table)) = true) :
    ∃ b, AloneAndAmong (Run.measureFirst "foo") 0
      (Run.ask ∅ [Run.measureFirst "foo"] [] (Run.resultText counts))
      (Run.ask ∅ [Run.measureFirst "foo", Run.measureFirst "bar"] []
        (Run.resultText counts ++ "," ++ Run.resultText counts))
      {} {} table stored b := by
  obtain ⟨qasms, bs, s, hr, hp, _⟩ := Run.completes_of_ends h
  obtain ⟨qasms', bs', s', hr', hp', _⟩ := Run.completes_of_ends h'
  obtain ⟨hlen, htable, hstored⟩ := of_decide_eq_true hp
  obtain ⟨hlen', htable'⟩ := of_decide_eq_true hp'
  obtain ⟨qasm, rfl⟩ := List.length_eq_one_iff.mp hlen
  obtain ⟨qasm', hq', hcounts'⟩ := Option.bind_eq_some_iff.mp htable'
  obtain ⟨b, hb, _⟩ := hr'.among (by omega) hq' hcounts'
    (show _ = some (Run.measureFirst "foo") from rfl)
  exact ⟨b, {
    alone := rfl
    among := rfl
    several := show (2 : Nat) ≠ 1 by decide
    size := rfl
    kind := rfl
    storedAlone := ⟨qasm, bs, s, hr, htable, hstored⟩
    storedAmong := ⟨qasms', qasm', bs', s', hr', hlen', hq', hcounts', hb⟩ }⟩

/-- The key `1` is stored as `1` alone and as `01` among others. -/
theorem short_not_alone_eq_among :
    ¬ ∀ (counts : MeasurementCounts), counts.Entered →
        ∀ (kernel : Kernel String) (i : Nat) (r r' : Run String)
          (acc acc' : IBMAccelerator) (table stored : List (String × Int))
          (b : AcceleratorBuffer),
          AloneAndAmong kernel i r r' acc acc' table stored b →
          counts stored = counts b.measurements := by
  intro h
  obtain ⟨b, hb⟩ := aloneAndAmong_first "\"1\": 1024" [("1", 1024)] [("1", 1024)]
    (by decide +kernel) (by decide +kernel)
  have heq := h addedCounts addedCounts_entered _ _ _ _ _ _ _ _ b hb
  obtain ⟨hstored, hdecoded⟩ := hb.decoded
  rw [hstored, counts_decoded_iff addedCounts_entered hdecoded] at heq
  have hlen : 2 ≤ (eraseSpaces "1").toList.length := heq ("1", 1024) (by simp)
  exact absurd hlen (by decide)

/-- The theorem at the key `01`, which is as long as the buffer. -/
theorem alone_eq_among_long :
    ∃ b, AloneAndAmong (Run.measureFirst "foo") 0
        (Run.ask ∅ [Run.measureFirst "foo"] [] (Run.resultText "\"01\": 1024"))
        (Run.ask ∅ [Run.measureFirst "foo", Run.measureFirst "bar"] []
          (Run.resultText "\"01\": 1024" ++ "," ++ Run.resultText "\"01\": 1024"))
        {} {} [("01", 1024)] [("01", 1024)] b ∧
      addedCounts [("01", 1024)] = addedCounts b.measurements := by
  obtain ⟨b, hb⟩ := aloneAndAmong_first "\"01\": 1024" [("01", 1024)]
    [("01", 1024)] (by decide +kernel) (by decide +kernel)
  refine ⟨b, hb, (alone_eq_among_iff addedCounts_entered hb).mpr ?_⟩
  intro e he
  rw [List.mem_singleton.mp he]
  show 2 ≤ (eraseSpaces "01").toList.length
  decide

end XaccIbm
