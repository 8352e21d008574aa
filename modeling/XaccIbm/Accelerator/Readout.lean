import XaccIbm.Accelerator.Bounds
import XaccIbm.Accelerator.Failures
import XaccIbm.IBMAccelerator.Returning
import XaccIbm.Lib.JsonCut

/-!
# Accelerator — Readout

What whole calls store of the outcomes of their kernels. A simulator answers
with a table for each kernel: the keys of its outcomes and how often each
came. The call decodes the table for what `measurementSupports` has under the
kernel's number, which is what calls that failed have left there and then the
kernel's own qubits, and stores it in the kernel's buffer. Every call stores
what was measured exactly when the remapping loop does.
-/

namespace XaccIbm

open Decode StdString Submission

/-! ## Tables of outcomes -/

/-- The counts that a simulator gives for outcomes and how often each came. -/
def countsOf (outcomes : List (List Bool × Int)) : List (String × Int) :=
  outcomes.map fun e => (simulatorKey e.1, e.2)

/-- **A table says what was measured**: it has a string for each outcome, as
often as the outcome came. -/
def SaysOutcomes (n : Nat) (qs : List Nat) (outcomes : List (List Bool × Int))
    (table : List (String × Int)) : Prop :=
  List.Forall₂ (fun e t => StoresOutcome n qs e.1 (some t.1) ∧ t.2 = e.2) outcomes table

@[simp] theorem simulatorKey_length (outcome : List Bool) :
    (simulatorKey outcome).toList.length = outcome.length := by
  simp [simulatorKey]

theorem decodeTable_countsOf {decode : String → Option String}
    {outcomes : List (List Bool × Int)} {table : List (String × Int)} :
    decodeTable decode (countsOf outcomes) = some table ↔
      List.Forall₂ (fun e t => decode (simulatorKey e.1) = some t.1 ∧ t.2 = e.2)
        outcomes table := by
  rw [decodeTable, Traverse.mapM_eq_some, countsOf, List.forall₂_map_left_iff]
  have hentry : ∀ (e : List Bool × Int) (t : String × Int),
      (decode (simulatorKey e.1)).map (fun s => (s, e.2)) = some t ↔
        decode (simulatorKey e.1) = some t.1 ∧ t.2 = e.2 := by
    rintro e ⟨s, k⟩
    simp [eq_comm]
  simp only [hentry]

/-- The keys have no spaces to erase. -/
theorem decodeTable_batch (n : Nat) (supports : List Nat) (outcomes : List (List Bool × Int)) :
    decodeTable (decodeBatch true n supports) (countsOf outcomes)
      = decodeTable (remap n supports) (countsOf outcomes) := by
  refine Option.ext fun table => ?_
  simp only [decodeTable_countsOf, decodeBatch, if_true, eraseSpaces_simulatorKey]

section

variable {n : Nat} {left own : List Nat} (hq : ∀ q ∈ own, q < n)
include hq

/-- A kernel that measures qubits of the buffer has every key decoded. -/
theorem exists_decodeTable {outcome : List Bool} (hlen : outcome.length = own.length) (k : Int) :
    ∃ table, decodeTable (remap n (left ++ own)) (countsOf [(outcome, k)]) = some table := by
  have hin : InBounds n (left ++ own) (simulatorKey outcome) := by
    rw [inBounds_iff, simulatorKey_length, hlen]
    exact enoughBelow_append hq
  obtain ⟨s, hs⟩ := Option.isSome_iff_exists.mp (remap_isSome.mpr hin)
  exact ⟨[(s, k)], decodeTable_countsOf.mpr (.cons ⟨hs, rfl⟩ .nil)⟩

/-- **The tables of a kernel say what was measured** when its registers are in
the order of the loop. -/
theorem saysOutcomes_of_decodeTable (h : InRegisterOrder n left own)
    {outcomes : List (List Bool × Int)} (hlen : ∀ e ∈ outcomes, e.1.length = own.length)
    {table : List (String × Int)}
    (htable : decodeTable (remap n (left ++ own)) (countsOf outcomes) = some table) :
    SaysOutcomes n own outcomes table := by
  have hall := decodeTable_countsOf.mp htable
  refine ((List.forall₂_and_left _ _).mpr ⟨hlen, hall⟩).imp ?_
  rintro e t ⟨he, hs, hk⟩
  refine ⟨?_, hk⟩
  rw [← hs]
  exact (storesOutcome_iff hq).mpr h e.1 he

/-- It is enough to know the tables of single outcomes. -/
theorem inRegisterOrder_of_saysOutcomes
    (h : ∀ outcome : List Bool, outcome.length = own.length → ∀ table,
      decodeTable (remap n (left ++ own)) (countsOf [(outcome, 1)]) = some table →
        SaysOutcomes n own [(outcome, 1)] table) : InRegisterOrder n left own := by
  refine (storesOutcome_iff hq).mp fun outcome hlen => ?_
  obtain ⟨table, htable⟩ := @exists_decodeTable n left own hq _ hlen 1
  have htold := h outcome hlen table htable
  cases decodeTable_countsOf.mp htable with
  | cons hs hrest =>
      cases hrest
      cases htold with
      | cons hstores _ =>
          rw [hs.1]
          exact hstores.1

end

/-! ## A service that gives every kernel one outcome -/

/-- The result of a kernel whose outcome came once. -/
def resultOf (outcome : List Bool) : Json :=
  .obj [("data", .obj [("time", .num 1), ("counts", .obj [(simulatorKey outcome, .num 1)])])]

/-- Its text, from the counts out. -/
def countsText (outcome : List Bool) : List Char :=
  "\x7b\"".toList ++ ((simulatorKey outcome).toList ++ '"' :: ": 1\x7d".toList)

def dataText (outcome : List Bool) : List Char :=
  "\x7b\"time\": 1, \"counts\": ".toList ++ (countsText outcome ++ ['\x7d'])

def resultText (outcome : List Bool) : List Char :=
  "\x7b\"data\": ".toList ++ (dataText outcome ++ ['\x7d'])

def qasmText (outcome : List Bool) : List Char :=
  "\x7b\"result\": ".toList ++ (resultText outcome ++ ['\x7d'])

/-- The answer of the local simulator. -/
def localDocument (outcomes : List (List Bool)) : List Char :=
  "\x7b\"result\": ".toList ++ (Json.cutArray (outcomes.map resultText) ++ ['\x7d'])

/-- The answer of the service to a request for its job. -/
def jobDocument (outcomes : List (List Bool)) : List Char :=
  "\x7b\"status\": \"COMPLETED\", \"qasms\": ".toList ++
    (Json.cutArray (outcomes.map qasmText) ++ ['\x7d'])

/-- A result of the service. -/
def qasmOf (outcome : List Bool) : Json := .obj [("result", resultOf outcome)]

theorem simulatorKey_char {outcome : List Bool} {c : Char}
    (h : c ∈ (simulatorKey outcome).toList) : c = '0' ∨ c = '1' := by
  rw [simulatorKey, String.toList_ofList, List.mem_reverse, List.mem_map] at h
  obtain ⟨b, _, rfl⟩ := h
  cases b
  · exact .inl rfl
  · exact .inr rfl

theorem reads_resultText (outcome : List Bool) :
    Json.Reads (resultText outcome) (resultOf outcome) := by
  have hplain : Json.Plain (simulatorKey outcome) := by
    intro c hc
    rcases simulatorKey_char hc with rfl | rfl <;> decide
  have hopen : Json.lexRun .idle "\x7b\"".toList = some (.str [], [.lbrace]) := rfl
  have hnumber : Json.readNumber "1".toList = some 1 := Json.readNumber_toString 1
  have hcolon : Json.LexesTo ": ".toList [.colon] := rfl
  have hclose : Json.LexesTo "\x7d".toList [.rbrace] := rfl
  have hcounts : Json.Reads (countsText outcome) (.obj [(simulatorKey outcome, .num 1)]) :=
    .of_lexesTo (Json.LexesTo.plain hopen hplain
      (hcolon.append (Json.LexesTo.number hnumber rfl (by decide) hclose))) rfl fun st => rfl
  have hkey : Json.LexesTo "\x7b\"time\": ".toList [.lbrace, .str "time", .colon] := rfl
  have hnext : Json.LexesTo ", \"counts\": ".toList [.comma, .str "counts", .colon] := rfl
  have htime : Json.LexesTo "\x7b\"time\": 1, \"counts\": ".toList
      (.lbrace :: (Json.memberTokens [("time", .num 1)] ++ [.str "counts", .colon])) := by
    rw [Json.memberTokens_cons, Json.memberTokens_nil, Json.tokens_num]
    exact hkey.append (Json.LexesTo.number hnumber rfl (by decide) hnext)
  have hdata : Json.LexesTo "\x7b\"data\": ".toList
      (.lbrace :: (Json.memberTokens [] ++ [.str "data", .colon])) := by
    rw [Json.memberTokens_nil]
    rfl
  exact .obj_concat hdata (.obj_concat htime hcounts)

theorem reads_results {text : List Bool → List Char} {result : List Bool → Json}
    (h : ∀ o, Json.Reads (text o) (result o)) {outcomes : List (List Bool)}
    (hne : outcomes ≠ []) :
    Json.Reads (Json.cutArray (outcomes.map text)) (.arr (outcomes.map result)) := by
  refine Json.reads_cutArray ?_ (by simpa using hne)
  rw [List.forall₂_map_left_iff, List.forall₂_map_right_iff, List.forall₂_same]
  exact fun o _ => h o

theorem parse_localDocument {outcomes : List (List Bool)} (hne : outcomes ≠ []) :
    Json.parse (String.ofList (localDocument outcomes))
      = some (.obj [("result", .arr (outcomes.map resultOf))]) := by
  have hhead : Json.LexesTo "\x7b\"result\": ".toList
      (.lbrace :: (Json.memberTokens [] ++ [.str "result", .colon])) := by
    rw [Json.memberTokens_nil]
    rfl
  apply Json.Reads.parse
  rw [String.toList_ofList]
  exact .obj_concat hhead (reads_results reads_resultText hne)

theorem parse_jobDocument {outcomes : List (List Bool)} (hne : outcomes ≠ []) :
    Json.parse (String.ofList (jobDocument outcomes))
      = some (.obj [("status", .str "COMPLETED"), ("qasms", .arr (outcomes.map qasmOf))]) := by
  have hwrap : Json.LexesTo "\x7b\"result\": ".toList
      (.lbrace :: (Json.memberTokens [] ++ [.str "result", .colon])) := by
    rw [Json.memberTokens_nil]
    rfl
  have hhead : Json.LexesTo "\x7b\"status\": \"COMPLETED\", \"qasms\": ".toList
      (.lbrace :: (Json.memberTokens [("status", .str "COMPLETED")] ++
        [.str "qasms", .colon])) := by
    rw [Json.memberTokens_cons, Json.memberTokens_nil, Json.tokens_str]
    rfl
  have hqasm : ∀ o, Json.Reads (qasmText o) (qasmOf o) := fun o =>
    .obj_concat hwrap (reads_resultText o)
  apply Json.Reads.parse
  rw [String.toList_ofList]
  exact .obj_concat hhead (reads_results hqasm hne)

theorem underscore_not_mem_qasmText {outcome : List Bool} : '_' ∉ qasmText outcome := by
  have hkey : '_' ∉ (simulatorKey outcome).toList := by
    intro h
    rcases simulatorKey_char h with h | h <;> cases h
  have hcounts : '_' ∉ countsText outcome :=
    List.not_mem_append (by decide) (List.not_mem_append hkey (by decide))
  have hdata : '_' ∉ dataText outcome :=
    List.not_mem_append (by decide) (List.not_mem_append hcounts (by decide))
  have hresult : '_' ∉ resultText outcome :=
    List.not_mem_append (by decide) (List.not_mem_append hdata (by decide))
  exact List.not_mem_append (by decide) (List.not_mem_append hresult (by decide))

/-- The word that ends the wait stands there, and no word of a failure. -/
theorem jobDocument_finished {outcomes : List (List Bool)} (hne : outcomes ≠ []) :
    IBMAccelerator.Finished (String.ofList (jobDocument outcomes)) := by
  have hfree : '_' ∉ jobDocument outcomes := by
    refine List.not_mem_append (by decide) (List.not_mem_append ?_ (by decide))
    intro hc
    rcases Json.mem_cutArray hc with ⟨t, ht, hc⟩ | h | h | h
    · obtain ⟨o, _, rfl⟩ := List.mem_map.mp ht
      exact underscore_not_mem_qasmText hc
    · cases h
    · cases h
    · cases h
  refine ⟨?_, ?_, ?_⟩
  · rw [contains, decide_eq_false_iff_not, String.toList_ofList]
    intro hin
    exact hfree (hin.subset (by decide))
  · rw [IBMAccelerator.reportReadable, parse_jobDocument hne]
    rfl
  · have hword : IBMAccelerator.completed.toList <:+:
        "\x7b\"status\": \"COMPLETED\", \"qasms\": ".toList :=
      ⟨"\x7b\"status\": \"".toList, "\", \"qasms\": ".toList, rfl⟩
    rw [contains, decide_eq_true_iff, String.toList_ofList]
    exact hword.trans (List.prefix_append _ _).isInfix

theorem resultsOf_jobDocument {outcomes : List (List Bool)} (hne : outcomes ≠ []) :
    IBMAccelerator.resultsOf (String.ofList (jobDocument outcomes))
      = some (outcomes.map qasmOf) := by
  rw [IBMAccelerator.resultsOf, parse_jobDocument hne]
  rfl

/-- The table of a result. -/
theorem resultCounts_resultOf (outcome : List Bool) :
    LocalIBMAccelerator.resultCounts (resultOf outcome) = some (countsOf [(outcome, 1)]) := by
  rfl

theorem rawCounts_qasmOf (outcome : List Bool) :
    IBMAccelerator.rawCounts (qasmOf outcome) = some (countsOf [(outcome, 1)]) := by
  rfl

/-- The outcome of one kernel, and zeros for the others. -/
def outcomesWith (lengths : List Nat) (i : Nat) (outcome : List Bool) : List (List Bool) :=
  (lengths.map fun m => List.replicate m false).set i outcome

theorem outcomesWith_getElem? {lengths : List Nat} {i m : Nat} {outcome : List Bool}
    (hi : lengths[i]? = some m) : (outcomesWith lengths i outcome)[i]? = some outcome := by
  rw [outcomesWith, List.getElem?_set_self]
  rw [List.length_map]
  exact (List.getElem?_eq_some_iff.mp hi).1

theorem forall₂_outcomesWith {lengths : List Nat} {i m : Nat} {outcome : List Bool}
    (hi : lengths[i]? = some m) (hlen : outcome.length = m) :
    List.Forall₂ (fun (o : List Bool) m => o.length = m) (outcomesWith lengths i outcome)
      lengths := by
  refine List.forall₂_iff_get.mpr ⟨by simp [outcomesWith], fun j hj hj' => ?_⟩
  simp only [outcomesWith, List.get_eq_getElem, List.getElem_set, List.getElem_map]
  split
  · rename_i hij
    subst hij
    rw [hlen]
    exact (List.getElem?_eq_some_iff.mp hi).2.symm
  · simp

/-- Every kernel has an outcome, and one of them is given. -/
theorem exists_outcomes {K : Type} {measures : K → List Nat} {functions : List K} {i : Nat}
    {kernel : K} (hk : functions[i]? = some kernel) {outcome : List Bool}
    (hlen : outcome.length = (measures kernel).length) :
    ∃ outcomes : List (List Bool), outcomes[i]? = some outcome ∧
      List.Forall₂ (fun (o : List Bool) m => o.length = m) outcomes
        (functions.map fun kernel => (measures kernel).length) := by
  have hi : (functions.map fun kernel => (measures kernel).length)[i]?
      = some (measures kernel).length := by
    rw [List.getElem?_map, hk]
    rfl
  exact ⟨_, outcomesWith_getElem? hi, forall₂_outcomesWith hi hlen⟩

/-- The kernel of a result, and the outcome it was made of. -/
theorem outcome_of_result {K : Type} {measures : K → List Nat} {functions : List K}
    {outcomes : List (List Bool)} (hlen : List.Forall₂ (fun (o : List Bool) m => o.length = m)
      outcomes (functions.map fun kernel => (measures kernel).length))
    {resultOf : List Bool → Json} {j : Nat} {result : Json}
    (hr : (outcomes.map resultOf)[j]? = some result) :
    ∃ outcome kernel, functions[j]? = some kernel ∧ result = resultOf outcome ∧
      outcome.length = (measures kernel).length := by
  rw [List.getElem?_map, Option.map_eq_some_iff] at hr
  obtain ⟨o, ho, rfl⟩ := hr
  obtain ⟨hj, rfl⟩ := List.getElem?_eq_some_iff.mp ho
  have hj' : j < functions.length := by
    have hlengths := hlen.length_eq
    rw [List.length_map] at hlengths
    omega
  have hget := hlen.get hj (by simpa using hj')
  exact ⟨_, _, List.getElem?_eq_getElem hj', rfl, by simpa using hget⟩

/-- A table of one outcome that came once is what is appended for it. -/
theorem flatMap_of_once {outcome : List Bool} {t : List (String × Int)}
    (h : List.Forall₂ (fun (e : List Bool × Int) (m : String × Int) => m.2 = e.2)
      [(outcome, 1)] t) :
    (t.flatMap fun e => List.replicate e.2.toNat (e.1, (1 : Int))) = t := by
  cases h with
  | @cons _ m _ _ hm hrest =>
      cases hrest
      obtain ⟨s, k⟩ := m
      obtain rfl : k = 1 := hm
      rfl

/-! ## The calls of `LocalIBMAccelerator` -/

section

open LocalIBMAccelerator

variable {P : Type} [ToString P]

/-- **A call stores what was measured**: where the result of a kernel is a table
of outcomes, the kernel's buffer has a string for each of them, appended as
often as the outcome came. -/
def LocalIBMAccelerator.Call.StoresOutcomes (c : Call P) (s : LocalIBMAccelerator) : Prop :=
  ∀ results bs s', c.Answers s results → c.execute s = .ok bs s' →
    ∀ (i : Nat) kernel result b outcomes, c.functions[i]? = some kernel →
      results[i]? = some result → bs[i]? = some b →
      (∀ e ∈ outcomes, e.1.length = (measuredQubits kernel).length) →
      resultCounts result = some (countsOf outcomes) →
      ∃ table, SaysOutcomes c.size (measuredQubits kernel) outcomes table ∧
        b.measurements = table.flatMap fun e => List.replicate e.2.toNat (e.1, 1)

/-- What is stored of a table. There are buffers for results only if there can be
one of the size. -/
theorem LocalIBMAccelerator.Call.stored {c : Call P} {s s' : LocalIBMAccelerator}
    {bs : List AcceleratorBuffer} {results : List Json} (hanswers : c.Answers s results)
    (h : c.execute s = .ok bs s') {i : Nat} {kernel : Function (Gate P)} {result : Json}
    {b : AcceleratorBuffer} {outcomes : List (List Bool × Int)}
    (hk : c.functions[i]? = some kernel) (hr : results[i]? = some result)
    (hb : bs[i]? = some b) (hcounts : resultCounts result = some (countsOf outcomes)) :
    isValidBufferSize c.size = true ∧
      ∃ table, decodeTable (remap c.size (s.entries i ++ measuredQubits kernel))
          (countsOf outcomes) = some table ∧
        b.measurements = table.flatMap fun e => List.replicate e.2.toNat (e.1, 1) := by
  obtain ⟨results', hanswers', _, hall⟩ := stores_of_execute h
  obtain rfl := hanswers.unique hanswers'
  obtain ⟨hentries, hn, table, htable, rfl⟩ := hall i kernel result b hk hr hb
  rw [decodeResult, hcounts, Option.bind_some, hentries] at htable
  refine ⟨hn, table, htable, ?_⟩
  rw [AcceleratorBuffer.appendEach_measurements, List.nil_append]

/-- A call whose simulator gives every kernel one outcome. -/
def LocalIBMAccelerator.Call.answering (n : Nat) (functions : List (Function (Gate P)))
    (outcomes : List (List Bool)) : Call P where
  simulator := fun _ => .ok (String.ofList (localDocument outcomes))
  options := ∅
  size := n
  functions := functions

theorem LocalIBMAccelerator.Call.answering_returns {n : Nat}
    {functions : List (Function (Gate P))} (hn : isValidBufferSize n = true)
    (hq : ∀ kernel ∈ functions, ∀ q ∈ measuredQubits kernel, q < n)
    {circuits : List Json} {s s1 : LocalIBMAccelerator}
    (hsub : onSupports (submitCircuits n 0 functions) s = .ok circuits s1)
    {outcomes : List (List Bool)} (hne : outcomes ≠ [])
    (hlen : List.Forall₂ (fun (o : List Bool) m => o.length = m) outcomes
      (functions.map fun kernel => (measuredQubits kernel).length)) :
    (Call.answering n functions outcomes).Answers s (outcomes.map resultOf) ∧
      ∃ bs s', bs.length = outcomes.length ∧
        (Call.answering n functions outcomes).execute s = .ok bs s' := by
  obtain ⟨config2, hconfig⟩ : ∃ config2, config ∅ = .ok config2 := ⟨_, rfl⟩
  have hparse := parse_localDocument hne
  have hanswers : (Call.answering n functions outcomes).Answers s (outcomes.map resultOf) :=
    ⟨circuits, s1, config2, _, _, _, hsub, hconfig, rfl, hparse, rfl, rfl⟩
  refine ⟨hanswers, ?_⟩
  obtain ⟨ms, hms, rfl⟩ := onSupports_ok.mp hsub
  have hstore : ∀ (j : Nat) result, (outcomes.map resultOf)[j]? = some result →
      ∃ b, ∃ name, (functions.map Function.name)[0 + j]? = some name ∧
        Stores n name (({ s with measurementSupports := ms } : LocalIBMAccelerator).entries
          (0 + j)) result b := by
    intro j result hr
    obtain ⟨outcome, kernel, hk, rfl, ho⟩ := outcome_of_result hlen hr
    have hentries := submitCircuits_entries hms j
    rw [hk] at hentries
    obtain ⟨table, htable⟩ := @exists_decodeTable n (s.entries j) _
      (hq kernel (List.mem_of_getElem? hk)) _ ho 1
    refine ⟨_, kernel.name, ?_, hn, table, ?_, rfl⟩
    · rw [Nat.zero_add, List.getElem?_map, hk]
      rfl
    · rw [Nat.zero_add, decodeResult, resultCounts_resultOf, Option.bind_some, entries, hentries]
      exact htable
  obtain ⟨bs, hbs, hall⟩ := Traverse.exists_results hstore
  obtain ⟨s2, hs2⟩ := storeResults_ok.mpr ⟨hbs, hall⟩
  obtain ⟨s', hs'⟩ := (@simulate_ok (Call.answering n functions outcomes).simulator ∅ _ _
    circuits _ _).mpr ⟨config2, _, _, _, hconfig, rfl, hparse, rfl, s2, hs2⟩
  exact ⟨bs, s', by simpa using hbs, Exec.bind_ok.mpr ⟨circuits, _, hsub, hs'⟩⟩

/-- **The calls of `LocalIBMAccelerator`**: with the same kernels and from the
same state all of them store what was measured exactly when each kernel's
registers are in the order of the loop, or no call returns because there can be
no buffer of the size. -/
theorem LocalIBMAccelerator.Call.storesOutcomes_iff {n : Nat}
    {functions : List (Function (Gate P))}
    (hq : ∀ kernel ∈ functions, ∀ q ∈ measuredQubits kernel, q < n)
    {circuits : List Json} {s s1 : LocalIBMAccelerator}
    (hsub : onSupports (submitCircuits n 0 functions) s = .ok circuits s1) :
    (∀ c : Call P, c.size = n → c.functions = functions → c.StoresOutcomes s) ↔
      (isValidBufferSize n = true → ∀ (i : Nat) kernel, functions[i]? = some kernel →
        InRegisterOrder n (s.entries i) (measuredQubits kernel)) := by
  constructor
  · intro h hn i kernel hk
    refine inRegisterOrder_of_saysOutcomes (hq kernel (List.mem_of_getElem? hk))
      fun outcome hlen table htable => ?_
    obtain ⟨outcomes, ho, hall⟩ := exists_outcomes hk hlen
    have hne : outcomes ≠ [] := List.ne_nil_of_mem (List.mem_of_getElem? ho)
    obtain ⟨hanswers, bs, s', hbs, hrun⟩ := Call.answering_returns hn hq hsub hne hall
    have hr : (outcomes.map resultOf)[i]? = some (resultOf outcome) := by
      rw [List.getElem?_map, ho]
      rfl
    obtain ⟨b, hb⟩ : ∃ b, bs[i]? = some b := by
      have hir := (List.getElem?_eq_some_iff.mp ho).1
      exact ⟨_, List.getElem?_eq_getElem (hbs ▸ hir)⟩
    obtain ⟨table', htold, hb'⟩ := h _ rfl rfl _ bs s' hanswers hrun i kernel _ b [(outcome, 1)]
      hk hr hb (by simpa using hlen) (resultCounts_resultOf outcome)
    obtain ⟨_, table'', htable', hb''⟩ := Call.stored hanswers hrun hk hr hb
      (resultCounts_resultOf outcome)
    obtain rfl : table = table'' := Option.some.inj (htable.symm.trans htable')
    have hsame := hb''.symm.trans hb'
    rw [flatMap_of_once ((decodeTable_countsOf.mp htable).imp fun _ _ h => h.2),
      flatMap_of_once (htold.imp fun _ _ h => h.2)] at hsame
    rwa [hsame]
  · intro h c hsize hfunctions results bs s' hanswers hrun i kernel result b outcomes hk hr hb
      hlen hcounts
    subst hsize hfunctions
    obtain ⟨hn, table, htable, hb'⟩ := Call.stored hanswers hrun hk hr hb hcounts
    exact ⟨table, saysOutcomes_of_decodeTable (hq kernel (List.mem_of_getElem? hk))
      (h hn i kernel hk) hlen htable, hb'⟩

end

/-! ## The runs of `IBMAccelerator` -/

namespace Run

open IBMAccelerator

variable {P : Type} [ToString P]

/-- **A run stores what was measured**: where the result of a kernel is a table
of outcomes, the kernel's buffer has a string for each of them, with the count
of the outcome. -/
def StoresOutcomes (r : Run P) (acc : IBMAccelerator) : Prop :=
  ∀ qasms bs s', r.Completes acc qasms bs s' →
    ∀ (i : Nat) kernel qasm b outcomes, r.functions[i]? = some kernel →
      qasms[i]? = some qasm → bs[i]? = some b →
      (∀ e ∈ outcomes, e.1.length = kernel.measuredQubits.length) →
      rawCounts qasm = some (countsOf outcomes) →
      SaysOutcomes r.buffer.size kernel.measuredQubits outcomes b.measurements

/-- What is stored of a table. -/
theorem stored {r : Run P} {acc : IBMAccelerator}
    (hsim : (choose r.options acc).chosenBackend.isSimulator = true) {qasms : List Json}
    {bs : List AcceleratorBuffer} {s' : Session} (h : r.Completes acc qasms bs s') {i : Nat}
    {kernel : Kernel P} {qasm : Json} {b : AcceleratorBuffer}
    {outcomes : List (List Bool × Int)} (hk : r.functions[i]? = some kernel)
    (hqasm : qasms[i]? = some qasm) (hb : bs[i]? = some b)
    (hcounts : rawCounts qasm = some (countsOf outcomes)) :
    isValidBufferSize r.buffer.size = true ∧
      decodeTable (remap r.buffer.size
        (acc.measurementSupports.getD i [] ++ kernel.measuredQubits)) (countsOf outcomes)
          = some b.measurements := by
  obtain ⟨s, hawaited, hstore⟩ := h
  obtain ⟨hbuffer, hframe, _, hentries⟩ := awaited_ok hawaited
  have hchosen : s.acc.chosenBackend = (choose r.options acc).chosenBackend :=
    congrArg (fun a => a.chosenBackend) hframe
  rcases (storeJob_ok hstore).2 with ⟨_, s1, _, halone, _⟩ | ⟨_, s1, hseveral, _⟩
  · rw [(storeAlone_ok halone).1] at hb
    simp at hb
  · obtain ⟨name, _, time, counts, decoded, _, hcounts', hdecoded, rfl⟩ :=
      (storeSeveral_ok hseveral).2.2.2 i qasm b hqasm hb
    obtain rfl : countsOf outcomes = counts := Option.some.inj (hcounts.symm.trans hcounts')
    rw [hchosen, hsim, decodeTable_batch, hbuffer, hentries, hk] at hdecoded
    rw [AcceleratorBuffer.appendAll_eq]
    refine ⟨?_, hdecoded⟩
    obtain ⟨⟨hvalid, _⟩, _⟩ := storeSeveral_ok_iff.mp ⟨_, hseveral, rfl⟩
    rw [← hbuffer]
    exact hvalid.resolve_left (List.ne_nil_of_mem (List.mem_of_getElem? hqasm))

/-- A run whose service gives every kernel one outcome, once the device has
been asked for. -/
def answering (options : Options) (buffer : AcceleratorBuffer) (functions : List (Kernel P))
    (devices : Replies) (outcomes : List (List Bool)) : Run P where
  options := options
  pulseLibrary := []
  buffer := buffer
  functions := functions
  post := fun _ => .ok "\x7b\"id\": \"1\"\x7d"
  replies := devices ++ [fun _ _ => .ok "",
    fun _ _ => .ok (String.ofList (jobDocument outcomes))]

theorem answering_completes {options : Options} {pulseLibrary : List (String × String)}
    {functions : List (Kernel P)} {text : String} {s s1 : Session}
    (hsub : processInput options pulseLibrary functions s = .ok text s1)
    (hn : isValidBufferSize s.buffer.size = true)
    (hsim : (choose options s.acc).chosenBackend.isSimulator = true)
    (hq : ∀ kernel ∈ functions, ∀ q ∈ kernel.measuredQubits, q < s.buffer.size)
    {outcomes : List (List Bool)} (hseveral : 1 < outcomes.length)
    (hlen : List.Forall₂ (fun (o : List Bool) m => o.length = m) outcomes
      (functions.map fun kernel => kernel.measuredQubits.length)) :
    ∃ devices bs s', bs.length = outcomes.length ∧
      (answering options s.buffer functions devices outcomes).Completes s.acc
        (outcomes.map qasmOf) bs s' := by
  have hne : outcomes ≠ [] := by
    rintro rfl
    simp at hseveral
  obtain ⟨hadmitted, hon, texts, htexts, _⟩ := processInput_ok_iff.mp ⟨s1, hsub, rfl⟩
  obtain ⟨devices, hdevices⟩ := hon.exists_replies
  let r := answering options s.buffer functions devices outcomes
  have hposted : Posted "\x7b\"id\": \"1\"\x7d" "1" := ⟨by decide, rfl⟩
  have hanswered : r.Answered s.acc [] (outcomes.map qasmOf) := by
    refine ⟨hadmitted, texts, _, "1", _, htexts, hdevices _, rfl, hposted, _, [], _, rfl,
      ⟨"", rfl, trivial⟩, by simp, ⟨_, rfl, jobDocument_finished hne, ?_⟩⟩
    exact resultsOf_jobDocument hne
  have hstore : ∀ (j : Nat) qasm, (outcomes.map qasmOf)[j]? = some qasm →
      ∃ c, ∃ name, (r.names s.acc)[0 + j]? = some name ∧
        Stores (choose options s.acc).chosenBackend.isSimulator s.buffer.size name
          (r.supports s.acc (0 + j)) qasm c := by
    intro j qasm hqasm
    obtain ⟨outcome, kernel, hk, rfl, ho⟩ := outcome_of_result hlen hqasm
    have hk' : r.functions[j]? = some kernel := hk
    obtain ⟨table, htable⟩ := @exists_decodeTable _ (s.acc.measurementSupports.getD j []) _
      (hq kernel (List.mem_of_getElem? hk)) _ ho 1
    have hname : j < (r.names s.acc).length := by
      rw [names, List.length_append, List.length_map]
      exact Nat.lt_add_left _ (List.getElem?_eq_some_iff.mp hk').1
    refine ⟨_, (r.names s.acc)[j], ?_, 1, _, table, rfl, rawCounts_qasmOf _, ?_, rfl⟩
    · rw [Nat.zero_add]
      exact List.getElem?_eq_getElem hname
    · rw [hsim, decodeTable_batch, Nat.zero_add, supports, hk']
      exact htable
  obtain ⟨bs, hbs, hall⟩ := Traverse.exists_results hstore
  have hdelivers : Delivers (choose options s.acc).chosenBackend (r.names s.acc)
      (r.supports s.acc) s.buffer (outcomes.map qasmOf) bs
      (calibrated (choose options s.acc).chosenBackend s.buffer) := by
    cases outcomes with
    | nil => exact absurd rfl hne
    | cons o rest =>
        cases rest with
        | nil => simp at hseveral
        | cons o' rest => exact ⟨⟨.inr hn, hbs, hall⟩, rfl⟩
  obtain ⟨s2, hawaited, _⟩ := awaited_ok_iff.mpr hanswered
  obtain ⟨hbuffer, hchosen, hnames, hsupports, _⟩ := awaited_object hawaited
  have hdelivers' : Delivers s2.acc.chosenBackend s2.acc.kernelNames
      (fun k => s2.acc.measurementSupports.getD k []) s2.buffer (outcomes.map qasmOf) bs
      (calibrated (choose options s.acc).chosenBackend s.buffer) := by
    rw [hbuffer, hchosen, hnames, hsupports]
    exact hdelivers
  exact ⟨devices, bs, _, by simpa using hbs, s2, hawaited,
    storeJob_ok_iff.mpr ⟨_, hdelivers', rfl⟩⟩

/-- **The runs of `IBMAccelerator`** with several kernels on a simulator: with
the same kernels and on the same object all of them store what was measured
exactly when each kernel's registers are in the order of the loop, or there can
be no buffer of the size. -/
theorem storesOutcomes_iff {options : Options} {pulseLibrary : List (String × String)}
    {functions : List (Kernel P)} {text : String} {s s1 : Session}
    (hsub : processInput options pulseLibrary functions s = .ok text s1)
    (hsim : (choose options s.acc).chosenBackend.isSimulator = true)
    (hseveral : 1 < functions.length)
    (hq : ∀ kernel ∈ functions, ∀ q ∈ kernel.measuredQubits, q < s.buffer.size) :
    (∀ r : Run P, r.options = options → r.buffer.size = s.buffer.size →
        r.functions = functions → r.StoresOutcomes s.acc) ↔
      (isValidBufferSize s.buffer.size = true →
        ∀ (i : Nat) kernel, functions[i]? = some kernel →
          InRegisterOrder s.buffer.size (s.acc.measurementSupports.getD i [])
            kernel.measuredQubits) := by
  constructor
  · intro h hn i kernel hk
    refine inRegisterOrder_of_saysOutcomes (hq kernel (List.mem_of_getElem? hk))
      fun outcome hlen table htable => ?_
    obtain ⟨outcomes, ho, hall⟩ := exists_outcomes hk hlen
    have hlengths := hall.length_eq
    rw [List.length_map] at hlengths
    obtain ⟨devices, bs, s', hbs, hrun⟩ := answering_completes hsub hn hsim hq
      (hlengths ▸ hseveral) hall
    have hqasm : (outcomes.map qasmOf)[i]? = some (qasmOf outcome) := by
      rw [List.getElem?_map, ho]
      rfl
    obtain ⟨b, hb⟩ : ∃ b, bs[i]? = some b := by
      have hir := (List.getElem?_eq_some_iff.mp ho).1
      exact ⟨_, List.getElem?_eq_getElem (hbs ▸ hir)⟩
    obtain ⟨_, hstored⟩ := stored hsim hrun hk hqasm hb (rawCounts_qasmOf outcome)
    obtain rfl : table = b.measurements := Option.some.inj (htable.symm.trans hstored)
    exact h _ rfl rfl rfl _ bs s' hrun i kernel _ b [(outcome, 1)] hk hqasm hb
      (by simpa using hlen) (rawCounts_qasmOf outcome)
  · intro h r hoptions hsize hfunctions qasms bs s' hrun i kernel qasm b outcomes hk hqasm hb
      hlen hcounts
    subst hoptions hfunctions
    rw [hsize]
    obtain ⟨hn, hstored⟩ := stored hsim hrun hk hqasm hb hcounts
    rw [hsize] at hn hstored
    exact saysOutcomes_of_decodeTable (hq kernel (List.mem_of_getElem? hk)) (h hn i kernel hk)
      hlen hstored

end Run

/-! ## Both accelerators -/

section

open LocalIBMAccelerator OpenQasmVisitor

variable {P : Type} [ToString P]

/-- **What is stored of the outcomes of flat kernels.** The `k`-th measured
qubit of a kernel is measured into register `k`. Every call of
`LocalIBMAccelerator`, and every run of `IBMAccelerator` with several kernels on
a simulator, stores all outcomes as they were if and only if no buffer of the
size can be made, or each kernel either measures the qubits of the buffer once
each in order, or has fewer measurements and every qubit the same last place
among them and among the entries that the loop spreads a key over: the first of
what was left under the kernel's number and its own qubits, sorted. -/
theorem kernel_storesOutcome_iff {functions : List (Function (Gate P))}
    (hflat : ∀ kernel ∈ functions, kernel.Flat) {n : Nat}
    (hq : ∀ kernel ∈ functions, ∀ q ∈ measuredQubits kernel, q < n) :
    (∀ kernel ∈ functions, ∀ v, passAll accept kernel.walk (new n false) = .ok () v →
      v.getOpenQasmString = (new n false).native ++ Piece.render
          (piecesList {} (kernel.walk.filter Instruction.isEnabled)) ∧
        textMeasurements (piecesList {} (kernel.walk.filter Instruction.isEnabled))
          = (measuredQubits kernel).zipIdx) ∧
    (∀ circuits (s s1 : LocalIBMAccelerator),
      onSupports (submitCircuits n 0 functions) s = .ok circuits s1 →
        ((∀ c : LocalIBMAccelerator.Call P, c.size = n → c.functions = functions →
            c.StoresOutcomes s) ↔
          (isValidBufferSize n = true → ∀ (i : Nat) kernel, functions[i]? = some kernel →
            InRegisterOrder n (s.entries i) (measuredQubits kernel)))) ∧
    ∀ options pulseLibrary text (s s1 : Session),
      IBMAccelerator.processInput options pulseLibrary (functions.map Kernel.gates) s
        = .ok text s1 → s.buffer.size = n →
      (IBMAccelerator.choose options s.acc).chosenBackend.isSimulator = true →
      1 < functions.length →
        ((∀ r : Run P, r.options = options → r.buffer.size = n →
            r.functions = functions.map Kernel.gates → r.StoresOutcomes s.acc) ↔
          (isValidBufferSize n = true → ∀ (i : Nat) kernel, functions[i]? = some kernel →
            InRegisterOrder n (s.acc.measurementSupports.getD i [])
              (measuredQubits kernel))) := by
  refine ⟨fun kernel hk v hpass => measuredInTurn (hflat kernel hk) hpass,
    fun circuits s s1 hsub => LocalIBMAccelerator.Call.storesOutcomes_iff hq hsub, ?_⟩
  rintro options pulseLibrary text s s1 hsub rfl hsim hseveral
  rw [Run.storesOutcomes_iff hsub hsim (by simpa using hseveral) ?_]
  · refine imp_congr_right fun _ => forall_congr' fun i => ?_
    rw [List.getElem?_map]
    cases functions[i]? with
    | none => simp
    | some kernel =>
        simp only [Option.map_some, Option.some.injEq, forall_eq']
        rfl
  · intro kernel hk
    obtain ⟨f, hf, rfl⟩ := List.mem_map.mp hk
    exact hq f hf

end

theorem measuring_flat (qs : List Nat) : (measuring qs).Flat := by
  intro i hi
  obtain ⟨m, _, rfl⟩ := List.mem_map.mp hi
  exact ⟨true, _, rfl⟩

/-- Measuring qubit 1 before qubit 0 of two exchanges their values. -/
theorem descending_not_storesOutcome :
    (¬ ∀ (n : Nat) (functions : List (Function (Gate String))), isValidBufferSize n = true →
        (∀ kernel ∈ functions, kernel.Flat) →
        (∀ kernel ∈ functions, ∀ q ∈ measuredQubits kernel, q < n) →
        ∀ c : LocalIBMAccelerator.Call String, c.size = n → c.functions = functions →
          c.StoresOutcomes {}) ∧
    ¬ ∀ (n : Nat) (functions : List (Function (Gate String))), isValidBufferSize n = true →
        (∀ kernel ∈ functions, kernel.Flat) →
        (∀ kernel ∈ functions, ∀ q ∈ measuredQubits kernel, q < n) → 1 < functions.length →
        ∀ r : Run String, r.options = ∅ → r.buffer.size = n →
          r.functions = functions.map Kernel.gates → r.StoresOutcomes {} := by
  have hdescending : ¬ InRegisterOrder 2 [] [1, 0] := by
    rw [inRegisterOrder_nil_iff]
    decide
  have hflat : ∀ kernel ∈ [measuring [1, 0], measuring [0]], kernel.Flat := by
    simp [measuring_flat]
  have hq : ∀ kernel ∈ [measuring [1, 0], measuring [0]],
      ∀ q ∈ measuredQubits kernel, q < 2 := by
    decide
  constructor
  · intro h
    have hsucceeds : Exec.succeeds (LocalIBMAccelerator.onSupports
        (LocalIBMAccelerator.submitCircuits 2 0 [measuring [1, 0], measuring [0]]) {}) = true := by
      decide +kernel
    obtain ⟨circuits, s1, hsub⟩ := Exec.succeeds_iff.mp hsucceeds
    exact hdescending ((LocalIBMAccelerator.Call.storesOutcomes_iff hq hsub).mp
      (h 2 _ rfl hflat hq) rfl 0 (measuring [1, 0]) rfl)
  · intro h
    have hsucceeds : Exec.succeeds (IBMAccelerator.processInput ∅ []
        ([measuring [1, 0], measuring [0]].map Kernel.gates) (freshSession 2)) = true := by
      decide +kernel
    obtain ⟨text, s1, hsub⟩ := Exec.succeeds_iff.mp hsucceeds
    have hq' : ∀ kernel ∈ [measuring [1, 0], measuring [0]].map Kernel.gates,
        ∀ q ∈ kernel.measuredQubits, q < (freshSession 2).buffer.size := by
      decide
    exact hdescending ((Run.storesOutcomes_iff hsub rfl (by decide) hq').mp
      (h 2 _ rfl hflat hq (by decide)) rfl 0 (.gates (measuring [1, 0])) rfl)

/-- The theorem at two kernels in order, with qubit 2 left under the number of
the first. -/
theorem storesOutcome_ascending :
    (∀ c : LocalIBMAccelerator.Call String, c.size = 3 →
      c.functions = [measuring [0, 1], measuring [0, 1, 2]] →
        c.StoresOutcomes { measurementSupports := leftUnder 0 2 }) ∧
    ∀ r : Run String, r.options = ∅ → r.buffer.size = 3 →
      r.functions = [measuring [0, 1], measuring [0, 1, 2]].map Kernel.gates →
        r.StoresOutcomes { measurementSupports := leftUnder 0 2 } := by
  have hfirst : InRegisterOrder 3 [2] [0, 1] := by
    refine .inl ⟨by decide, ?_⟩
    rw [show spreadOver [2] [0, 1] = [0, 1] by decide]
    exact fun _ _ => Iff.rfl
  have hall : ∀ (i : Nat) kernel, [measuring [0, 1], measuring [0, 1, 2]][i]? = some kernel →
      InRegisterOrder 3 ((leftUnder 0 2).getD i []) (measuredQubits kernel) :=
    Traverse.forall_pair.mpr ⟨hfirst, .inr (by decide)⟩
  have hflat : ∀ kernel ∈ [measuring [0, 1], measuring [0, 1, 2]], kernel.Flat := by
    simp [measuring_flat]
  have hq : ∀ kernel ∈ [measuring [0, 1], measuring [0, 1, 2]],
      ∀ q ∈ measuredQubits kernel, q < 3 := by
    decide
  obtain ⟨_, hlocal, hremote⟩ := kernel_storesOutcome_iff hflat hq
  constructor
  · have hsucceeds : Exec.succeeds (LocalIBMAccelerator.onSupports
        (LocalIBMAccelerator.submitCircuits 3 0 [measuring [0, 1], measuring [0, 1, 2]])
        { measurementSupports := leftUnder 0 2 }) = true := by
      decide +kernel
    obtain ⟨circuits, s1, hsub⟩ := Exec.succeeds_iff.mp hsucceeds
    exact (hlocal circuits _ s1 hsub).mpr fun _ => hall
  · have hsucceeds : Exec.succeeds (IBMAccelerator.processInput ∅ []
        ([measuring [0, 1], measuring [0, 1, 2]].map Kernel.gates)
        { freshSession 3 with acc := { measurementSupports := leftUnder 0 2 } }) = true := by
      decide +kernel
    obtain ⟨text, s1, hsub⟩ := Exec.succeeds_iff.mp hsucceeds
    exact (hremote ∅ [] text _ s1 hsub rfl rfl (by decide)).mpr fun _ => hall

end XaccIbm
