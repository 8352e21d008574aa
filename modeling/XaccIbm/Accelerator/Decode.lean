import XaccIbm.Accelerator.Buffer
import XaccIbm.Lib.LastValue
import XaccIbm.Lib.StdString

/-!
# Accelerator — Decode

From the keys of a table of raw counts to the strings that are stored. The
same remapping loop stands in `LocalIBMAccelerator::execute` and in the
several-kernel path of `IBMAccelerator::processResponse`: a key that is
shorter than the buffer is spread over the measured qubits, in the order of
the qubits. Where the loop reads or writes outside its containers the
result is `none`.
-/

namespace XaccIbm.Decode

open StdString

/-- `s[n - 1 - q] = c` for each character of the key from the right, with
the measured qubits in turn. -/
def placeBits (n : Nat) : List Nat → List Char → List Char → Option (List Char)
  | _, [], s => some s
  | [], _ :: _, _ => none
  | q :: qs, c :: cs, s =>
      if q < n then placeBits n qs cs (s.set (n - 1 - q) c) else none

/-- `std::sort`. -/
def sortSupports (supports : List Nat) : List Nat :=
  supports.insertionSort (· ≤ ·)

theorem sortSupports_perm (supports : List Nat) :
    (sortSupports supports).Perm supports :=
  List.perm_insertionSort _ supports

theorem sortSupports_sorted (supports : List Nat) :
    (sortSupports supports).Pairwise (· ≤ ·) :=
  List.pairwise_insertionSort _ supports

/-- The remapping of a key for a buffer of `n` qubits. -/
def remap (n : Nat) (supports : List Nat) (key : String) : Option String :=
  if key.toList.length < n then
    (placeBits n (sortSupports supports) key.toList.reverse
      (List.replicate n '0')).map String.ofList
  else some key

/-- Turn off the characters, counted from the right, of qubits that were
not measured. -/
def maskBits (supports : List Nat) (cs : List Char) : List Char :=
  (cs.reverse.mapIdx fun counter c =>
    if counter ∈ supports then c else '0').reverse

/-- A physical backend: the rightmost `n` characters, masked. -/
def decodePhysical (n : Nat) (supports : List Nat) (key : String) : String :=
  let cs := key.toList
  String.ofList (maskBits supports
    (if n < cs.length then cs.drop (cs.length - n) else cs))

/-- `processResponse` with several kernels. -/
def decodeBatch (isSimulator : Bool) (n : Nat) (supports : List Nat)
    (key : String) : Option String :=
  if isSimulator then remap n supports (eraseSpaces key)
  else some (decodePhysical n supports key)

/-- `processResponse` with one kernel. -/
def decodeAlone (isSimulator : Bool) (key : String) : String :=
  if isSimulator then eraseSpaces key else key

/-- A table with its keys decoded. -/
def decodeTable (decode : String → Option String)
    (table : List (String × Int)) : Option (List (String × Int)) :=
  table.mapM fun e => (decode e.1).map fun s => (s, e.2)

/-! ## Where the loop puts the characters -/

theorem placeBits_ok {n : Nat} {qs : List Nat} {cs s : List Char}
    (hlen : cs.length ≤ qs.length) (hq : ∀ q ∈ qs.take cs.length, q < n)
    (hs : s.length = n) :
    ∃ t, placeBits n qs cs s = some t ∧ t.length = n ∧
      ∀ q, q < n → t[n - 1 - q]? = (lastValue q qs cs).or s[n - 1 - q]? := by
  induction cs generalizing qs s with
  | nil =>
      refine ⟨s, by simp [placeBits], hs, fun q _ => ?_⟩
      cases qs <;> rfl
  | cons c cs ih =>
      cases qs with
      | nil => simp at hlen
      | cons p qs =>
          have hp : p < n := hq p (by simp)
          obtain ⟨t, ht, htlen, hget⟩ := ih (s := s.set (n - 1 - p) c)
            (by simpa using hlen)
            (fun q h => hq q (by simp [h])) (by simpa using hs)
          refine ⟨t, by rw [placeBits, if_pos hp, ht], htlen, fun q hqn => ?_⟩
          rw [hget q hqn, lastValue, Option.or_assoc]
          congr 1
          by_cases hpq : p = q
          · subst hpq
            rw [List.getElem?_set_self (by omega), if_pos rfl]
            rfl
          · rw [List.getElem?_set_ne (by omega), if_neg hpq]
            rfl

/-- The loop keeps the length. -/
theorem placeBits_length {n : Nat} {qs : List Nat} {cs s t : List Char}
    (h : placeBits n qs cs s = some t) : t.length = s.length := by
  induction cs generalizing qs s with
  | nil =>
      rw [placeBits] at h
      exact congrArg _ (Option.some.inj h).symm
  | cons c cs ih =>
      cases qs with
      | nil => simp [placeBits] at h
      | cons p qs =>
          rw [placeBits] at h
          split at h
          · rw [ih h, List.length_set]
          · cases h

@[simp] theorem maskBits_length (supports : List Nat) (cs : List Char) :
    (maskBits supports cs).length = cs.length := by
  simp [maskBits]

/-- Reading a masked string from the right. -/
theorem maskBits_reverse_getElem? (supports : List Nat) (cs : List Char)
    (k : Nat) :
    (maskBits supports cs).reverse[k]? = cs.reverse[k]?.map fun c =>
      if k ∈ supports then c else '0' := by
  rw [maskBits, List.reverse_reverse, List.getElem?_mapIdx]

end XaccIbm.Decode
