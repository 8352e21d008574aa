import XaccIbm.IBMAccelerator.Registry
import XaccIbm.Lib.Decimal
import XaccIbm.Lib.Traverse

/-!
# IBMAccelerator — Queries

What the methods that only read answer, in every state that calls can reach:
the couplings of a backend and whether it is physical, which no later call
changes, and the error rates of the chosen one, which are as many as its
gates.
-/

namespace XaccIbm

open StdString IBMAccelerator

namespace Device

variable {P : Type} [ToString P]

/-! ## Couplings -/

theorem mem_allPairs {nQubits : Nat} {p : Int × Int} :
    p ∈ allPairs nQubits ↔ 0 ≤ p.1 ∧ p.1 < p.2 ∧ p.2 < nQubits := by
  obtain ⟨i, j⟩ := p
  simp only [allPairs, List.mem_flatMap, List.mem_range]
  constructor
  · rintro ⟨a, ha, b, hb, h⟩
    split at h
    · rename_i hlt
      rw [List.mem_singleton, Prod.mk.injEq] at h
      obtain ⟨rfl, rfl⟩ := h
      omega
    · cases h
  · intro ⟨hi, hlt, hj⟩
    refine ⟨i.toNat, by omega, j.toNat, by omega, ?_⟩
    rw [if_pos (by omega), Int.toNat_of_nonneg hi, Int.toNat_of_nonneg (by omega)]
    exact List.mem_singleton_self _

/-- One pair before another, row by row. -/
def Before (p q : Int × Int) : Prop := p.1 < q.1 ∨ p.1 = q.1 ∧ p.2 < q.2

/-- Each pair is listed once, and the rows one after the other. -/
theorem allPairs_sorted (nQubits : Nat) : (allPairs nQubits).Pairwise Before := by
  have hrange : (List.range nQubits).Pairwise (· < ·) := List.pairwise_lt_range
  rw [allPairs, List.pairwise_flatMap]
  constructor
  · intro i _
    rw [List.pairwise_flatMap]
    constructor
    · intro j _
      split
      · exact List.pairwise_singleton _ _
      · exact List.Pairwise.nil
    · apply hrange.imp
      intro j j' hlt p hp q hq
      split at hp
      · split at hq
        · rw [List.mem_singleton] at hp hq
          subst hp hq
          exact .inr ⟨rfl, by simpa using hlt⟩
        · cases hq
      · cases hp
  · apply hrange.imp
    intro i i' hlt p hp q hq
    simp only [List.mem_flatMap, List.mem_range] at hp hq
    obtain ⟨j, _, hp⟩ := hp
    obtain ⟨j', _, hq⟩ := hq
    split at hp
    · split at hq
      · rw [List.mem_singleton] at hp hq
        subst hp hq
        exact .inl (by simpa using hlt)
      · cases hq
    · cases hp

/-- **What the couplings of a backend are**: its couplers as they were read,
or every pair of two of its qubits, once, the lower one first. -/
structure Couples (backend : Backend) (graph : List (Int × Int)) : Prop where
  coupled : backend.couplers ≠ [] → graph = backend.couplers
  complete : backend.couplers = [] → graph.Pairwise Before ∧ ∃ n, backend.nQubits = some n ∧
    ∀ i j, (i, j) ∈ graph ↔ 0 ≤ i ∧ i < j ∧ j < n

theorem couples_of_connectivityOf {backend : Backend} {graph : List (Int × Int)}
    (h : connectivityOf backend = .ok graph) : Couples backend graph := by
  unfold connectivityOf at h
  split at h
  · rename_i hnone
    refine ⟨fun hne => absurd hnone hne, fun _ => ?_⟩
    split at h
    · cases h
    · rename_i n hn
      cases h
      refine ⟨allPairs_sorted _, n, hn, ?_⟩
      intro i j
      rw [mem_allPairs]
      simp only
      omega
  · rename_i hsome
    cases h
    exact ⟨fun _ => rfl, fun hnone => absurd hnone hsome⟩

/-- A name that is known stays known, and as it was. -/
theorem entryOf_persists {earlier : List (Call P)} {options : Options} {backend : Backend}
    (h : (after earlier).entryOf options = some backend) (later : List (Call P)) :
    (after (earlier ++ later)).entryOf options = some backend :=
  (extends_after earlier later).entries _ _ h

/-- **The couplings**: an answer is never taken back. In every reachable state,
a backend that is known has no transformations and its own couplings, and has
them in every state that later calls reach; one that is not known has neither. -/
theorem connectivity_after (earlier : List (Call P)) (options : Options) :
    ((after earlier).entryOf options = none ∧
      (after earlier).getAcceleratorConnectivity options
        = .error (.error (jobBackend options ++ " is not available.")) ∧
      (after earlier).getIRTransformations options
        = .error (.error (jobBackend options ++ " is not available."))) ∨
    ∃ backend, (after earlier).entryOf options = some backend ∧
      backend.name = jobBackend options ∧
      ∀ later : List (Call P),
        (after (earlier ++ later)).getIRTransformations options = .ok [] ∧
        (after (earlier ++ later)).getAcceleratorConnectivity options
          = connectivityOf backend ∧
        ∀ graph, connectivityOf backend = .ok graph → Couples backend graph := by
  cases hentry : (after earlier).entryOf options with
  | none =>
      refine .inl ⟨rfl, ?_, ?_⟩
      · rw [getAcceleratorConnectivity, hentry]
      · rw [getIRTransformations, hentry]
  | some backend =>
      refine .inr ⟨backend, rfl, ((wellFormed_after earlier).entries _ _ hentry).1, ?_⟩
      intro later
      have hlater := entryOf_persists hentry later
      refine ⟨?_, ?_, fun graph => couples_of_connectivityOf⟩
      · rw [getIRTransformations, hlater]
        rfl
      · rw [getAcceleratorConnectivity, hlater]

/-! ## Physical backends -/

omit [ToString P] in
/-- A run that is admitted names no backend, or chooses the one it names. -/
theorem chosenFor_of_admitted {d : Device} {r : Run P}
    (h : admitted d.accelerator r.options r.functions = true) :
    r.options.find "ibm-backend" = none ∨
      ∃ name backend, r.options.find "ibm-backend" = some name ∧
        d.availableBackends.find name = some backend ∧ d.chosenFor r.options = backend := by
  rw [admitted, Bool.and_eq_true, Bool.or_eq_true, Option.isNone_iff_eq_none,
    optionBackend_accelerator, Option.isSome_map] at h
  rcases h.1 with hnone | hsome
  · exact .inl hnone
  · obtain ⟨backend, hb⟩ := Option.isSome_iff_exists.mp hsome
    have hchosen : d.chosenFor r.options = backend := by
      rw [chosenFor, hb]
      rfl
    rw [Option.filter_eq_some_iff, Option.bind_eq_some_iff] at hb
    obtain ⟨⟨name, hname, hfind⟩, _⟩ := hb
    exact .inr ⟨name, backend, hname, hfind, hchosen⟩

/-- **Physical or not**: a run whose response is decoded is decoded as
`isPhysical` says, asked with its options at any time from then on, if and
only if the option was set or the backend chosen before it was a simulator. -/
theorem isPhysical_decodes_iff {earlier later : List (Call P)} {r : Run P}
    {qasms : List Json} {s : Session}
    (h : r.awaited (r.start (after earlier).accelerator) = .ok qasms s) :
    (after (earlier ++ .run r :: later)).isPhysical r.options
        = .ok (!s.acc.chosenBackend.isSimulator) ↔
      (r.options.find "ibm-backend" = none →
        (after earlier).chosenBackend.isSimulator = true) := by
  have hframe := (Run.awaited_ok h).2.1
  have hdecoded : s.acc.chosenBackend = ((after earlier).chosenFor r.options).toIBMBackend := by
    rw [chosenFor_toIBMBackend]
    exact congrArg (fun a => a.chosenBackend) hframe
  rcases chosenFor_of_admitted (Run.awaited_admitted h) with hnone | hset
  · have hsame : (after earlier).chosenFor r.options = (after earlier).chosenBackend := by
      rw [chosenFor, hnone]
      rfl
    rw [isPhysical, hnone, hdecoded, hsame]
    simp
  · obtain ⟨name, backend, hname, hfind, hchosen⟩ := hset
    have hlater := (extends_after earlier (.run r :: later)).entries name backend hfind
    rw [isPhysical, hname, hdecoded, hchosen]
    simp [hlater]

/-- The service has listed a device. -/
def connected : List (Call String) := [.connect up]

/-- A run for the device, which is on. -/
def deviceRun : Run String :=
  Run.ask deviceOptions [Run.measureFirst "foo"] ["\x7b\"status\": \"on\"\x7d"]
    (Run.resultText "\"00001\": 1024")

/-- The theorem at a run for a device, and a call of `initialize` after it. -/
theorem isPhysical_decodes_device :
    ∃ qasms s, deviceRun.awaited (deviceRun.start (after connected).accelerator)
        = .ok qasms s ∧
      (after (connected ++ .run deviceRun :: [.connect down])).isPhysical deviceRun.options
        = .ok (!s.acc.chosenBackend.isSimulator) := by
  have hends : deviceRun.ends (after connected).accelerator (fun _ _ _ => true) = true := by
    decide +kernel
  have hset : (deviceRun.options.find "ibm-backend").isSome = true := by decide +kernel
  obtain ⟨qasms, bs, s', ⟨s, hawaited, _⟩, _⟩ := Run.completes_of_ends hends
  refine ⟨qasms, s, hawaited, (isPhysical_decodes_iff hawaited).mpr ?_⟩
  intro hnone
  rw [hnone] at hset
  cases hset

/-! ## Error rates -/

theorem removeCX_of_free {cs : List Char} (h : ∀ c ∈ cs, c ≠ 'C') : removeCX cs = cs := by
  fun_induction removeCX cs with
  | case1 cs => exact absurd rfl (h 'C' (by simp))
  | case2 c cs _ ih => rw [ih fun d hd => h d (by simp [hd])]
  | case3 => rfl

/-- The name of a gate as the service gives it. -/
def gateName (qubits : Nat × Nat) : String :=
  "CX" ++ toString qubits.1 ++ "_" ++ toString qubits.2

theorem qubitOf_toString {pieces : List String} {i n : Nat} (h : pieces[i]? = some (toString n))
    (hn : n < 2 ^ 31) : qubitOf pieces i = .ok (n : Int) := by
  have hvalue : digitsValue (toString n).toList = n := by
    rw [Decimal.toList_toString]
    exact Nat.ofDigitChars_ten_toDigits
  have hne : (toString n).toList ≠ [] := by
    rw [Decimal.toList_toString]
    exact Nat.toDigits_ne_nil
  rw [qubitOf, h]
  simp only [stoi_of_digits hne fun c hc => Decimal.isDigit_of_mem hc, hvalue, if_pos hn]

/-- **A name is read back.** -/
theorem gateQubits_gateName {qubits : Nat × Nat} (hsource : qubits.1 < 2 ^ 31)
    (htarget : qubits.2 < 2 ^ 31) :
    gateQubits (gateName qubits) = .ok ((qubits.1 : Int), (qubits.2 : Int)) := by
  obtain ⟨source, target⟩ := qubits
  have hdigits : ∀ {n : Nat} {c : Char}, c ∈ (toString n).toList → c ≠ 'C' ∧ c ≠ '_' := by
    intro n c hc
    have hdigit := Decimal.isDigit_of_mem hc
    constructor
    · rintro rfl
      exact absurd hdigit (by decide)
    · rintro rfl
      exact absurd hdigit (by decide)
  have hremoved : removeCX (gateName (source, target)).toList
      = (toString source).toList ++ '_' :: (toString target).toList := by
    have htext : (gateName (source, target)).toList
        = 'C' :: 'X' :: ((toString source).toList ++ '_' :: (toString target).toList) := by
      simp [gateName]
    rw [htext, removeCX]
    apply removeCX_of_free
    intro c hc
    rcases List.mem_append.mp hc with hc | hc
    · exact (hdigits hc).1
    · rcases List.mem_cons.mp hc with rfl | hc
      · decide
      · exact (hdigits hc).1
  have hpieces : split (String.ofList (removeCX (gateName (source, target)).toList)) '_'
      = [toString source, toString target] := by
    rw [split, String.toList_ofList, hremoved,
      List.splitOn_append_cons_self_of_not_mem fun hc => (hdigits hc).2 rfl,
      List.splitOn_eq_singleton fun hc => (hdigits hc).2 rfl, List.map_cons,
      List.map_singleton, String.ofList_toList, String.ofList_toList]
  have hread : qubitOf [toString source, toString target] 0 = .ok (source : Int) :=
    qubitOf_toString rfl hsource
  have hread' : qubitOf [toString source, toString target] 1 = .ok (target : Int) :=
    qubitOf_toString rfl htarget
  simp only [gateQubits, hpieces, hread, hread']
  rfl

/-- **The loop** over the gates reads the error of each at its own index. -/
theorem twoBitErrorRates_eq {errors : List ℚ} {names : List String} {i : Nat}
    (h : i + names.length ≤ errors.length) :
    twoBitErrorRates errors i names
      = (fun qubits => qubits.zip (errors.drop i)) <$> names.mapM gateQubits := by
  induction names generalizing i with
  | nil => rfl
  | cons mqg rest ih =>
      rw [List.length_cons] at h
      have hi : i < errors.length := by omega
      rw [twoBitErrorRates, ih (by omega), List.mapM_cons, List.getElem?_eq_getElem hi,
        ← List.cons_getElem_drop_succ (h := hi)]
      cases gateQubits mqg with
      | error e => rfl
      | ok qubits => cases rest.mapM gateQubits <;> rfl

/-- **The error rates**: in every reachable state there is a rate for each
gate of the chosen backend, and one for each qubit; the rates of the gates fail
with a name that cannot be read and with nothing else. -/
theorem errorRates_after (history : List (Call P)) :
    (after history).getTwoBitErrorRates
        = (fun qubits => qubits.zip (after history).chosenBackend.multiQubitGateErrors) <$>
          (after history).chosenBackend.multiQubitGates.mapM gateQubits ∧
      (after history).chosenBackend.multiQubitGates.length
        = (after history).chosenBackend.multiQubitGateErrors.length ∧
      (after history).getOneBitErrorRates.length
        = (after history).chosenBackend.readoutErrors.length ∧
      ∀ gates : List (Nat × Nat), (∀ g ∈ gates, g.1 < 2 ^ 31 ∧ g.2 < 2 ^ 31) →
        (after history).chosenBackend.multiQubitGates = gates.map gateName →
        (after history).getTwoBitErrorRates
          = .ok ((gates.map fun g => ((g.1 : Int), (g.2 : Int))).zip
              (after history).chosenBackend.multiQubitGateErrors) := by
  have hwell := wellFormed_after history
  have hconsistent : (after history).chosenBackend.Consistent := by
    rcases hwell.chosen with hdefault | ⟨hfind, _⟩
    · rw [hdefault]
      exact Backend.consistent_default
    · exact (hwell.entries _ _ hfind).2
  have hrates : (after history).getTwoBitErrorRates
      = (fun qubits => qubits.zip (after history).chosenBackend.multiQubitGateErrors) <$>
        (after history).chosenBackend.multiQubitGates.mapM gateQubits := by
    rw [getTwoBitErrorRates, twoBitErrorRates_eq (by rw [hconsistent.gates]; omega)]
    rfl
  refine ⟨hrates, hconsistent.gates, hconsistent.qubits.symm, ?_⟩
  intro gates hgates hnames
  have hread : (gates.map gateName).mapM gateQubits
      = .ok (gates.map fun g => ((g.1 : Int), (g.2 : Int))) := by
    clear hnames
    induction gates with
    | nil => rfl
    | cons g rest ih =>
        have hg := hgates g (by simp)
        rw [List.map_cons, List.mapM_cons, gateQubits_gateName hg.1 hg.2,
          ih fun x hx => hgates x (by simp [hx])]
        rfl
  rw [hrates, hnames, hread]
  rfl

/-- The device of a hub has been chosen. -/
def hubConnected : List (Call String) := [.connect hubCall]

/-- The theorem at the device: its gate `CX1_0` has the rate of its calibration. -/
theorem errorRates_after_hub :
    (after hubConnected).getTwoBitErrorRates = .ok [((1, 0), 4)] := by
  have hchosen : (fun b : Backend => (b.multiQubitGates, b.multiQubitGateErrors))
      (after hubConnected).chosenBackend = ([(1, 0)].map gateName, [4]) := by
    decide +kernel
  obtain ⟨hgates, herrors⟩ := Prod.mk.inj hchosen
  obtain ⟨_, _, _, hrates⟩ := errorRates_after hubConnected
  rw [hrates [(1, 0)] (by decide) hgates, herrors]
  rfl

end Device

end XaccIbm
