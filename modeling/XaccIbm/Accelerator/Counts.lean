import XaccIbm.IBMAccelerator.Results
import XaccIbm.Lib.Tally
import XaccIbm.LocalIBMAccelerator.Batch

/-!
# Accelerator — Counts

What a table of raw counts comes to in the buffer of its kernel. The table of
a simulator is only renamed: every character of a key has a measured qubit of
its own, so different outcomes stay different, and both accelerators store
the same. The table of a physical backend is summed up: keys that agree on
the measured qubits end as one string, and what is stored is the marginal of
the table on these qubits.
-/

namespace XaccIbm

open Decode StdString

namespace AcceleratorBuffer

/-- The count of a string, when `appendMeasurement(s, k)` adds `k` to it. -/
def count (b : AcceleratorBuffer) (s : String) : Int :=
  Tally.mass (· = s) b.measurements

def total (b : AcceleratorBuffer) : Int := Tally.total b.measurements

end AcceleratorBuffer

/-- The character of a qubit, qubit 0 rightmost. -/
def qubitChar (s : String) (q : Nat) : Option Char := s.toList.reverse[q]?

/-- A key of a simulator: a character for each of `m` measurements. -/
def IsOutcome (m : Nat) (key : String) : Prop :=
  key.toList.length = m ∧ ∀ c ∈ key.toList, isspace c = false

/-! ## The keys of a simulator -/

/-- **Where the characters of the keys go**, for qubits measured in a buffer of
`n`: the `k`-th from the right is the character of the qubit `at k`. -/
structure Spreads (n : Nat) (qs : List Nat) (qubit : Nat → Nat)
    (decode : String → String) : Prop where
  /-- The characters have a measured qubit each, and the other way round. -/
  bijOn : Set.BijOn qubit {k | k < qs.length} {q | q ∈ qs}
  remap : ∀ key, IsOutcome qs.length key → remap n qs key = some (decode key)
  decodeBatch : ∀ key, IsOutcome qs.length key →
    decodeBatch true n qs key = some (decode key)
  length : ∀ key, IsOutcome qs.length key → (decode key).toList.length = n
  lands : ∀ key, IsOutcome qs.length key → ∀ k < qs.length,
    qubitChar (decode key) (qubit k) = qubitChar key k
  zero : ∀ key, IsOutcome qs.length key → ∀ q < n, q ∉ qs →
    qubitChar (decode key) q = some '0'

theorem IsOutcome.eraseSpaces {m : Nat} {key : String} (h : IsOutcome m key) :
    eraseSpaces key = key := by
  rw [StdString.eraseSpaces, List.filter_eq_self.mpr, String.ofList_toList]
  intro c hc
  rw [h.2 c hc]
  rfl

theorem qubitChar_eq_getElem? {n q : Nat} {s : String} (hs : s.toList.length = n)
    (hq : q < n) : qubitChar s q = s.toList[n - 1 - q]? := by
  rw [qubitChar, List.getElem?_reverse (by omega), hs]

def charAt (s : String) (q : Nat) : Char := (qubitChar s q).getD '0'

theorem map_charAt {n : Nat} {s : String} (hs : s.toList.length = n) :
    (List.range n).map (charAt s) = s.toList.reverse := by
  refine List.ext_getElem? fun q => ?_
  by_cases hq : q < n
  · rw [List.getElem?_map, List.getElem?_range hq, Option.map_some, charAt, qubitChar,
      List.getElem?_eq_getElem (by simpa [hs] using hq)]
    rfl
  · rw [List.getElem?_eq_none (by simpa using hq),
      List.getElem?_eq_none (by simpa [hs] using hq)]

/-- A string is its characters. -/
theorem eq_of_qubitChar {n : Nat} {s t : String} (hs : s.toList.length = n)
    (ht : t.toList.length = n) (h : ∀ q < n, qubitChar s q = qubitChar t q) : s = t := by
  refine String.toList_inj.mp (List.reverse_injective (List.ext_getElem? fun q => ?_))
  by_cases hq : q < n
  · exact h q hq
  · rw [List.getElem?_eq_none (by simp; omega), List.getElem?_eq_none (by simp; omega)]

section

variable {n : Nat} {qs : List Nat}

theorem subperm_range (hn : qs.Nodup) (hq : ∀ q ∈ qs, q < n) :
    qs.Subperm (List.range n) :=
  List.subperm_of_subset hn fun q h => List.mem_range.mpr (hq q h)

/-- As many qubits as the buffer has are all of them. -/
theorem sortSupports_eq_range (hn : qs.Nodup) (hq : ∀ q ∈ qs, q < n)
    (hlen : qs.length = n) : sortSupports qs = List.range n := by
  have hperm : qs.Perm (List.range n) :=
    (subperm_range hn hq).perm_of_length_le (by rw [List.length_range, hlen])
  exact ((sortSupports_perm qs).trans hperm).eq_of_pairwise'
    (sortSupports_sorted qs) List.pairwise_le_range

theorem length_le_of_nodup (hn : qs.Nodup) (hq : ∀ q ∈ qs, q < n) : qs.length ≤ n := by
  simpa using (subperm_range hn hq).length_le

/-- The qubits of the buffer are the measured ones and the others. -/
theorem append_unmeasured_perm (hn : qs.Nodup) (hq : ∀ q ∈ qs, q < n) :
    (qs ++ (List.range n).filter fun q => !decide (q ∈ qs)).Perm (List.range n) := by
  have hmeasured : qs.Perm ((List.range n).filter (· ∈ qs)) := by
    refine (List.perm_ext_iff_of_nodup hn (List.nodup_range.filter _)).mpr fun q => ?_
    simp only [List.mem_filter, List.mem_range, decide_eq_true_eq]
    exact ⟨fun h => ⟨hq q h, h⟩, fun h => h.2⟩
  exact (hmeasured.append_right _).trans
    (List.filter_append_perm (fun q => decide (q ∈ qs)) (List.range n))

/-- A key is spread over the sorted qubits, or is as long as the buffer. -/
theorem remap_outcome (hn : qs.Nodup) (hq : ∀ q ∈ qs, q < n) {key : String}
    (hkey : IsOutcome qs.length key) :
    ∃ s, remap n qs key = some s ∧ s.toList.length = n ∧
      (∀ k q, (sortSupports qs)[k]? = some q → qubitChar s q = qubitChar key k) ∧
      ∀ q < n, q ∉ qs → qubitChar s q = some '0' := by
  have hperm := sortSupports_perm qs
  have hrev : key.toList.reverse.length = qs.length := by rw [List.length_reverse, hkey.1]
  -- fewer qubits than bits: the key is placed on zeros; otherwise it stays as it
  -- is, and the sorted qubits are all there are
  by_cases hlt : qs.length < n
  · obtain ⟨t, ht, htlen, hget⟩ := @placeBits_ok n (sortSupports qs) key.toList.reverse
      (List.replicate n '0') (by rw [hrev, hperm.length_eq])
      (fun q h => hq q (hperm.mem_iff.mp (List.mem_of_mem_take h))) (by simp)
    have hchar : ∀ q < n, qubitChar (String.ofList t) q
        = (lastValue q (sortSupports qs) key.toList.reverse).or (some '0') := by
      intro q hqn
      rw [qubitChar_eq_getElem? (by rw [String.toList_ofList, htlen]) hqn,
        String.toList_ofList, hget q hqn, List.getElem?_replicate, if_pos (by omega)]
    refine ⟨String.ofList t, ?_, by rw [String.toList_ofList, htlen], ?_, ?_⟩
    · rw [remap, if_pos (by rw [hkey.1]; exact hlt), ht]
      rfl
    · intro k q hk
      have hkm : k < qs.length := by
        rw [← hperm.length_eq]
        exact (List.getElem?_eq_some_iff.mp hk).1
      rw [hchar q (hq q (hperm.mem_iff.mp (List.mem_of_getElem? hk))),
        lastValue_of_nodup (hperm.nodup_iff.mpr hn) hk _ (by rw [hrev, hperm.length_eq]),
        qubitChar, List.getElem?_eq_getElem (by rw [hrev]; exact hkm)]
      rfl
    · intro q hqn hnot
      rw [hchar q hqn, lastValue_eq_none (fun h => hnot (hperm.mem_iff.mp h))]
      rfl
  · have hlen : qs.length = n := by
      have := length_le_of_nodup hn hq
      omega
    refine ⟨key, ?_, by rw [hkey.1, hlen], ?_, ?_⟩
    · rw [remap, if_neg (by rw [hkey.1]; exact hlt)]
    · intro k q hk
      rw [sortSupports_eq_range hn hq hlen] at hk
      obtain ⟨hkn, rfl⟩ := List.getElem?_eq_some_iff.mp hk
      rw [List.getElem_range]
    · intro q hqn hnot
      have hmem : q ∈ sortSupports qs := by
        rw [sortSupports_eq_range hn hq hlen]
        exact List.mem_range.mpr hqn
      exact absurd (hperm.mem_iff.mp hmem) hnot

/-- The qubit of the `k`-th character of a key, from the right. -/
def landing (qs : List Nat) (k : Nat) : Nat := (sortSupports qs).getD k 0

theorem landing_eq {k : Nat} (hk : k < qs.length) :
    (sortSupports qs)[k]? = some (landing qs k) := by
  have hk' : k < (sortSupports qs).length := by rwa [(sortSupports_perm qs).length_eq]
  rw [landing, List.getD_eq_getElem?_getD, List.getElem?_eq_getElem hk']
  rfl

theorem landing_bijOn (hn : qs.Nodup) :
    Set.BijOn (landing qs) {k | k < qs.length} {q | q ∈ qs} := by
  have hperm := sortSupports_perm qs
  refine ⟨?_, ?_, ?_⟩
  · intro k hk
    exact hperm.mem_iff.mp (List.mem_of_getElem? (landing_eq hk))
  · intro k hk l hl heq
    have hget := (landing_eq hk).trans (heq ▸ (landing_eq hl).symm)
    exact (List.getElem?_inj (by rw [hperm.length_eq]; exact hk)
      (hperm.nodup_iff.mpr hn)).mp hget
  · intro q hq
    obtain ⟨k, hk⟩ := List.mem_iff_getElem?.mp (hperm.mem_iff.mpr hq)
    have hlt : k < qs.length := by
      rw [← hperm.length_eq]
      exact (List.getElem?_eq_some_iff.mp hk).1
    exact ⟨k, hlt, Option.some.inj ((landing_eq hlt).symm.trans hk)⟩

/-- The decoding of the outcomes of distinct qubits. -/
theorem exists_spreads (hn : qs.Nodup) (hq : ∀ q ∈ qs, q < n) :
    ∃ decode, Spreads n qs (landing qs) decode := by
  have hex : ∀ key, IsOutcome qs.length key → remap n qs key
      = some ((remap n qs key).getD "") := by
    intro key hkey
    obtain ⟨s, hs, _⟩ := remap_outcome hn hq hkey
    rw [hs]
    rfl
  refine ⟨fun key => (remap n qs key).getD "", landing_bijOn hn, hex, ?_, ?_, ?_, ?_⟩
  · intro key hkey
    rw [decodeBatch, if_pos rfl, hkey.eraseSpaces]
    exact hex key hkey
  · intro key hkey
    obtain ⟨s, hs, hlen, _⟩ := remap_outcome hn hq hkey
    rwa [hs]
  · intro key hkey k hk
    obtain ⟨s, hs, _, hland, _⟩ := remap_outcome hn hq hkey
    rw [hs]
    exact hland k _ (landing_eq hk)
  · intro key hkey q hqn hnot
    obtain ⟨s, hs, _, _, hzero⟩ := remap_outcome hn hq hkey
    rw [hs]
    exact hzero q hqn hnot

namespace Spreads

variable {qubit : Nat → Nat} {decode : String → String}

/-- **No two outcomes are merged.** -/
theorem injOn (h : Spreads n qs qubit decode) :
    Set.InjOn decode {key | IsOutcome qs.length key} := by
  intro key hkey key' hkey' heq
  refine eq_of_qubitChar hkey.1 hkey'.1 fun k hk => ?_
  rw [← h.lands key hkey k hk, ← h.lands key' hkey' k hk, heq]

/-- **The ones are kept.** -/
theorem count_one (h : Spreads n qs qubit decode) (hn : qs.Nodup) (hq : ∀ q ∈ qs, q < n)
    {key : String} (hkey : IsOutcome qs.length key) :
    (decode key).toList.count '1' = key.toList.count '1' := by
  have hqubits : ((List.range qs.length).map qubit).Perm qs := by
    refine (List.perm_ext_iff_of_nodup ?_ hn).mpr fun q => ?_
    · refine List.Nodup.map_on (fun k hk l hl => ?_) List.nodup_range
      exact h.bijOn.injOn (List.mem_range.mp hk) (List.mem_range.mp hl)
    · constructor
      · intro hmem
        obtain ⟨k, hk, rfl⟩ := List.mem_map.mp hmem
        exact h.bijOn.mapsTo (List.mem_range.mp hk)
      · intro hmem
        obtain ⟨k, hk, rfl⟩ := h.bijOn.surjOn hmem
        exact List.mem_map.mpr ⟨k, List.mem_range.mpr hk, rfl⟩
  -- an unmeasured qubit has a zero, so the ones are on measured ones
  have hones : ((List.range n).map (charAt (decode key))).count '1'
      = (((List.range qs.length).map qubit).map (charAt (decode key))).count '1' := by
    rw [← ((append_unmeasured_perm hn hq).map _).count_eq, List.map_append, List.count_append,
      (hqubits.map _).count_eq, Nat.add_eq_left, List.count_eq_zero]
    intro hmem
    obtain ⟨q, hmem, hone⟩ := List.mem_map.mp hmem
    rw [List.mem_filter, List.mem_range] at hmem
    rw [charAt, h.zero key hkey q hmem.1 (by simpa using hmem.2)] at hone
    exact absurd hone (by decide)
  have hland : ((List.range qs.length).map qubit).map (charAt (decode key))
      = (List.range qs.length).map (charAt key) := by
    rw [List.map_map]
    refine List.map_congr_left fun k hk => ?_
    exact congrArg (Option.getD · '0') (h.lands key hkey k (List.mem_range.mp hk))
  rw [hland, map_charAt (h.length key hkey), map_charAt hkey.1, List.count_reverse,
    List.count_reverse] at hones
  exact hones

end Spreads

end

/-! ## The tables of a simulator -/

/-- The buffer of a result in the result loop of a run, for the measured
qubits of its kernel and the table of the result. -/
def LocalIBMAccelerator.StoresTable (n : Nat) (qs : List Nat)
    (table : List (String × Int)) (b : AcceleratorBuffer) : Prop :=
  ∃ names results s bs s', LocalIBMAccelerator.storeResults n names 0 results s = .ok bs s' ∧
    ∃ (j : Nat) (result : Json), results[j]? = some result ∧ bs[j]? = some b ∧
      s.entries j = qs ∧ LocalIBMAccelerator.resultCounts result = some table

/-- The same with several kernels of an `IBMAccelerator`. -/
def IBMAccelerator.StoresTable (isSimulator : Bool) (n : Nat) (qs : List Nat)
    (table : List (String × Int)) (b : AcceleratorBuffer) : Prop :=
  ∃ qasms s bs s', IBMAccelerator.storeSeveral qasms s = .ok bs s' ∧
    s.acc.chosenBackend.isSimulator = isSimulator ∧ s.buffer.size = n ∧
    ∃ (j : Nat) (qasm : Json), qasms[j]? = some qasm ∧ bs[j]? = some b ∧
      s.acc.measurementSupports.getD j [] = qs ∧ IBMAccelerator.rawCounts qasm = some table

/-- A buffer that has the counts of a table under renamed keys: what the table
has for an outcome is there, and nothing else. -/
structure Renames (m : Nat) (decode : String → String) (table : List (String × Int))
    (b : AcceleratorBuffer) : Prop where
  count : ∀ key, IsOutcome m key → b.count (decode key) = Tally.mass (· = key) table
  other : ∀ s, (∀ e ∈ table, decode e.1 ≠ s) → b.count s = 0
  total : b.total = Tally.total table

theorem decodeTable_eq {f : String → Option String} {decode : String → String}
    {table : List (String × Int)} (h : ∀ e ∈ table, f e.1 = some (decode e.1)) :
    decodeTable f table = some (table.map fun e => (decode e.1, e.2)) := by
  rw [decodeTable, Traverse.mapM_eq_some, List.forall₂_map_right_iff, List.forall₂_same]
  intro e he
  rw [h e he]
  rfl

theorem LocalIBMAccelerator.StoresTable.measurements {n : Nat} {qs : List Nat}
    {table : List (String × Int)} {b : AcceleratorBuffer} (h : StoresTable n qs table b) :
    ∃ decoded, decodeTable (remap n qs) table = some decoded ∧
      b.measurements = decoded.flatMap fun e => List.replicate e.2.toNat (e.1, 1) := by
  obtain ⟨names, results, s, bs, s', hrun, j, result, hresult, hb, hqs, htable⟩ := h
  obtain ⟨name, _, _, decoded, hdecoded, rfl⟩ :=
    (storeResults_ok.mp ⟨s', hrun⟩).2 j result b hresult hb
  rw [Nat.zero_add, hqs, decodeResult, htable, Option.bind_some] at hdecoded
  refine ⟨decoded, hdecoded, ?_⟩
  rw [AcceleratorBuffer.appendEach_measurements, List.nil_append]

theorem IBMAccelerator.StoresTable.measurements {isSimulator : Bool} {n : Nat}
    {qs : List Nat} {table : List (String × Int)} {b : AcceleratorBuffer}
    (h : StoresTable isSimulator n qs table b) :
    decodeTable (decodeBatch isSimulator n qs) table = some b.measurements := by
  obtain ⟨qasms, s, bs, s', hrun, rfl, rfl, j, qasm, hqasm, hb, rfl, htable⟩ := h
  obtain ⟨name, _, time, counts, decoded, _, hcounts, hdecoded, rfl⟩ :=
    (storeSeveral_ok hrun).2.2.2 j qasm b hqasm hb
  rw [htable] at hcounts
  cases hcounts
  rw [hdecoded, AcceleratorBuffer.appendAll_eq]
  rfl

section

variable {n : Nat} {qs : List Nat} {qubit : Nat → Nat} {decode : String → String}
  {table : List (String × Int)} {b : AcceleratorBuffer}

/-- A buffer is described by the masses of the decoded table. -/
theorem Spreads.renames (h : Spreads n qs qubit decode)
    (htable : ∀ e ∈ table, IsOutcome qs.length e.1)
    (hb : ∀ (p : String → Prop) [DecidablePred p],
      Tally.mass p b.measurements = Tally.mass (fun key => p (decode key)) table) :
    Renames qs.length decode table b := by
  refine ⟨fun key hkey => ?_, fun s hs => ?_, ?_⟩
  · rw [AcceleratorBuffer.count, hb]
    refine Tally.mass_congr _ fun e he => ?_
    exact ⟨fun heq => h.injOn (htable e he) hkey heq, congrArg decode⟩
  · rw [AcceleratorBuffer.count, hb]
    exact Tally.mass_eq_zero _ hs
  · rw [AcceleratorBuffer.total, Tally.total, hb]
    rfl

theorem Spreads.local_renames (h : Spreads n qs qubit decode)
    (htable : ∀ e ∈ table, IsOutcome qs.length e.1 ∧ 0 ≤ e.2)
    (hb : LocalIBMAccelerator.StoresTable n qs table b) :
    Renames qs.length decode table b := by
  obtain ⟨decoded, hdecoded, hms⟩ := hb.measurements
  rw [decodeTable_eq fun e he => h.remap e.1 (htable e he).1] at hdecoded
  cases hdecoded
  refine h.renames (fun e he => (htable e he).1) fun p _ => ?_
  rw [hms, Tally.mass_ones, Tally.mass_map]
  intro e he
  obtain ⟨e', he', rfl⟩ := List.mem_map.mp he
  exact (htable e' he').2

theorem Spreads.batch_renames (h : Spreads n qs qubit decode)
    (htable : ∀ e ∈ table, IsOutcome qs.length e.1)
    (hb : IBMAccelerator.StoresTable true n qs table b) :
    Renames qs.length decode table b := by
  have hms := hb.measurements
  rw [decodeTable_eq fun e he => h.decodeBatch e.1 (htable e he)] at hms
  refine h.renames htable fun p _ => ?_
  rw [← Option.some.inj hms, Tally.mass_map]

/-- Two buffers with the counts of one table have the same counts. -/
theorem Renames.count_eq {m : Nat} {b' : AcceleratorBuffer} (h : Renames m decode table b)
    (h' : Renames m decode table b') (htable : ∀ e ∈ table, IsOutcome m e.1) (s : String) :
    b.count s = b'.count s := by
  by_cases hs : ∃ e ∈ table, decode e.1 = s
  · obtain ⟨e, he, rfl⟩ := hs
    rw [h.count e.1 (htable e he), h'.count e.1 (htable e he)]
  · have hs' : ∀ e ∈ table, decode e.1 ≠ s := fun e he heq => hs ⟨e, he, heq⟩
    rw [h.other s hs', h'.other s hs']

end

/-- **The tables of a simulator are renamed.** For distinct measured qubits of
the buffer the characters of a key go to a measured qubit each and the others
are zero; different outcomes stay different and keep their ones; both
accelerators store the counts of the table under the new names. -/
theorem simulator_tables {n : Nat} {qs : List Nat} (hn : qs.Nodup) (hq : ∀ q ∈ qs, q < n) :
    ∃ qubit decode, Spreads n qs qubit decode ∧
      Set.InjOn decode {key | IsOutcome qs.length key} ∧
      (∀ key, IsOutcome qs.length key →
        (decode key).toList.count '1' = key.toList.count '1') ∧
      ∀ table : List (String × Int), (∀ e ∈ table, IsOutcome qs.length e.1 ∧ 0 ≤ e.2) →
        (∀ b, LocalIBMAccelerator.StoresTable n qs table b →
          Renames qs.length decode table b) ∧
        (∀ b, IBMAccelerator.StoresTable true n qs table b →
          Renames qs.length decode table b) ∧
        ∀ b b', LocalIBMAccelerator.StoresTable n qs table b →
          IBMAccelerator.StoresTable true n qs table b' → ∀ s, b.count s = b'.count s := by
  obtain ⟨decode, h⟩ := exists_spreads hn hq
  refine ⟨landing qs, decode, h, h.injOn, fun key hkey => h.count_one hn hq hkey, ?_⟩
  intro table htable
  have hkeys : ∀ e ∈ table, IsOutcome qs.length e.1 := fun e he => (htable e he).1
  refine ⟨fun b hb => h.local_renames htable hb, fun b hb => h.batch_renames hkeys hb, ?_⟩
  intro b b' hb hb'
  exact (h.local_renames htable hb).count_eq (h.batch_renames hkeys hb') hkeys

/-- A result with two counts. -/
def twoCounts (key : String) (m : Int) (key' : String) (n : Int) : Json :=
  .obj [("result", .obj [("data", .obj [("time", .num 1),
    ("counts", .obj [(key, .num m), (key', .num n)])])])]

/-- The theorem at qubits 2 and 0 of three, measured in this order. -/
theorem simulator_tables_two :
    ∃ b b', LocalIBMAccelerator.StoresTable 3 [2, 0] [("01", 5), ("10", 3)] b ∧
      IBMAccelerator.StoresTable true 3 [2, 0] [("01", 5), ("10", 3)] b' ∧
      (∀ s, b.count s = b'.count s) ∧ b.total = 8 := by
  have hb : ∃ b, LocalIBMAccelerator.StoresTable 3 [2, 0] [("01", 5), ("10", 3)] b :=
    ⟨_, ["foo"], [.obj [("data", .obj [("counts", .obj [("01", .num 5), ("10", .num 3)])])]],
      ⟨⟨fun _ => some [2, 0]⟩⟩, _, _, rfl, 0, _, rfl, rfl, rfl, rfl⟩
  have hb' : ∃ b, IBMAccelerator.StoresTable true 3 [2, 0] [("01", 5), ("10", 3)] b :=
    ⟨_, [twoCounts "01" 5 "10" 3, twoCounts "01" 5 "10" 3],
      { acc := { kernelNames := ["foo", "bar"],
                 measurementSupports := ⟨fun _ => some [2, 0]⟩ },
        buffer := { name := "q", size := 3 }, replies := [] },
      _, _, rfl, rfl, rfl, 0, _, rfl, rfl, rfl, rfl⟩
  obtain ⟨b, hb⟩ := hb
  obtain ⟨b', hb'⟩ := hb'
  obtain ⟨_, _, _, _, _, hall⟩ := @simulator_tables 3 [2, 0] (by decide) (by decide)
  obtain ⟨hlocal, _, hsame⟩ := hall [("01", 5), ("10", 3)] (by
    intro e he
    rcases List.mem_cons.mp he with rfl | he
    · exact ⟨⟨rfl, by simp [isspace]⟩, by decide⟩
    · rw [List.mem_singleton.mp he]
      exact ⟨⟨rfl, by simp [isspace]⟩, by decide⟩)
  exact ⟨b, b', hb, hb', hsame b b' hb hb', (hlocal b hb).total⟩

/-! ## The tables of a physical backend -/

/-- A string of `n` characters that is zero off the measured qubits. -/
def ZeroOff (n : Nat) (supports : List Nat) (s : String) : Prop :=
  s.toList.length = n ∧ ∀ q < n, q ∉ supports → qubitChar s q = some '0'

/-- A key reads as a string does on the measured qubits of the buffer. -/
def AgreeOn (n : Nat) (supports : List Nat) (s key : String) : Prop :=
  ∀ q < n, q ∈ supports → qubitChar key q = qubitChar s q

instance (n : Nat) (supports : List Nat) (s key : String) :
    Decidable (AgreeOn n supports s key) :=
  inferInstanceAs (Decidable (∀ q < n, q ∈ supports → qubitChar key q = qubitChar s q))

/-- **The marginal of a table**: a string that is zero off the measured qubits
has the counts of all keys that agree with it on them, and no other string is
stored. -/
structure Marginal (n : Nat) (supports : List Nat) (table : List (String × Int))
    (b : AcceleratorBuffer) : Prop where
  count : ∀ s, ZeroOff n supports s →
    b.count s = Tally.mass (AgreeOn n supports s) table
  other : ∀ s, ¬ ZeroOff n supports s → ∀ k, (s, k) ∉ b.measurements

section

variable {n : Nat} {supports : List Nat} {key : String}

theorem decodePhysical_length (hkey : n ≤ key.toList.length) :
    (decodePhysical n supports key).toList.length = n := by
  simp only [decodePhysical, String.toList_ofList, maskBits_length]
  split
  · rw [List.length_drop]
    omega
  · omega

/-- The rightmost characters, masked. -/
theorem qubitChar_decodePhysical {q : Nat} (hq : q < n) :
    qubitChar (decodePhysical n supports key) q
      = (qubitChar key q).map fun c => if q ∈ supports then c else '0' := by
  simp only [qubitChar, decodePhysical, String.toList_ofList, maskBits_reverse_getElem?]
  congr 1
  split
  · rw [← List.take_reverse, List.getElem?_take_of_lt hq]
  · rfl

/-- Which keys end as a string. -/
theorem decodePhysical_eq_iff (hkey : n ≤ key.toList.length) {s : String} :
    decodePhysical n supports key = s ↔ ZeroOff n supports s ∧ AgreeOn n supports s key := by
  have hchar : ∀ q < n, ∃ c, qubitChar key q = some c := by
    intro q hq
    exact ⟨_, List.getElem?_eq_getElem (by rw [List.length_reverse]; omega)⟩
  constructor
  · rintro rfl
    refine ⟨⟨decodePhysical_length hkey, fun q hq hnot => ?_⟩, fun q hq hmem => ?_⟩
    · obtain ⟨c, hc⟩ := hchar q hq
      rw [qubitChar_decodePhysical hq, hc, Option.map_some, if_neg hnot]
    · obtain ⟨c, hc⟩ := hchar q hq
      rw [qubitChar_decodePhysical hq, hc, Option.map_some, if_pos hmem]
  · rintro ⟨⟨hlen, hzero⟩, hagree⟩
    refine eq_of_qubitChar (decodePhysical_length hkey) hlen fun q hq => ?_
    obtain ⟨c, hc⟩ := hchar q hq
    rw [qubitChar_decodePhysical hq, hc, Option.map_some]
    by_cases hmem : q ∈ supports
    · rw [if_pos hmem, ← hagree q hq hmem, hc]
    · rw [if_neg hmem, hzero q hq hmem]

end

/-- **The several-kernel path stores the marginal** of a physical backend's
table on the measured qubits. -/
theorem physical_marginal {n : Nat} {supports : List Nat} {table : List (String × Int)}
    (hkeys : ∀ e ∈ table, n ≤ e.1.toList.length) {b : AcceleratorBuffer}
    (hb : IBMAccelerator.StoresTable false n supports table b) :
    Marginal n supports table b := by
  have hms := hb.measurements
  have hdecode : ∀ e ∈ table,
      decodeBatch false n supports e.1 = some (decodePhysical n supports e.1) := fun e _ => rfl
  rw [decodeTable_eq hdecode] at hms
  replace hms := Option.some.inj hms
  refine ⟨fun s hs => ?_, fun s hs k hmem => ?_⟩
  · rw [AcceleratorBuffer.count, ← hms, Tally.mass_map]
    refine Tally.mass_congr _ fun e he => ?_
    rw [decodePhysical_eq_iff (hkeys e he), and_iff_right hs]
  · rw [← hms, List.mem_map] at hmem
    obtain ⟨e, he, heq⟩ := hmem
    exact hs ((decodePhysical_eq_iff (hkeys e he)).mp (congrArg Prod.fst heq)).1

/-- The theorem at qubit 1 of two, with five qubits on the device: `10` has the
counts of both keys. -/
theorem physical_marginal_two :
    ∃ b, IBMAccelerator.StoresTable false 2 [1] [("00110", 5), ("10011", 3)] b ∧
      b.count "10" = 8 := by
  have hb : ∃ b, IBMAccelerator.StoresTable false 2 [1] [("00110", 5), ("10011", 3)] b :=
    ⟨_, [twoCounts "00110" 5 "10011" 3, twoCounts "00110" 5 "10011" 3],
      { acc := { kernelNames := ["foo", "bar"], chosenBackend := { isSimulator := false },
                 measurementSupports := ⟨fun _ => some [1]⟩ },
        buffer := { name := "q", size := 2 }, replies := [] },
      _, _, rfl, rfl, rfl, 0, _, rfl, rfl, rfl, rfl⟩
  obtain ⟨b, hb⟩ := hb
  have h := physical_marginal (by decide) hb
  refine ⟨b, hb, (h.count "10" ⟨rfl, by decide⟩).trans ?_⟩
  decide

end XaccIbm
