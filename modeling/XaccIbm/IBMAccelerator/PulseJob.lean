import XaccIbm.IBMAccelerator.JobText
import XaccIbm.Lib.JsonCut

/-!
# IBMAccelerator — PulseJob

The document of a job of analog kernels. Three of its lists are written with
a comma behind every item and closed in the place of their last character:
the pulses of a kernel, the pulse library and the experiments. Only the last
of them is known to have an item.
-/

namespace XaccIbm

open Json StdString Submission

/-! ## The pulses of a kernel -/

namespace Pulse

/-- What a pulse appends, in front of its comma. -/
def text (p : Pulse) : String :=
  match p.appended with
  | .ok t => cutLast t
  | .error _ => ""

def object (p : Pulse) : Json := (parse p.text).getD .null

/-- A pulse that appends one object and a comma. -/
def AppendsObject (p : Pulse) : Prop :=
  ∃ t ms, p.appended = .ok (t ++ ",") ∧ parse t = some (.obj ms)

theorem AppendsObject.appended {p : Pulse} (h : p.AppendsObject) :
    p.appended = .ok (p.text ++ ",") := by
  obtain ⟨t, ms, ht, _⟩ := h
  have htext : p.text = t := by
    simp [text, ht, cutLast]
  rw [htext, ht]

theorem AppendsObject.reads {p : Pulse} (h : p.AppendsObject) :
    Reads p.text.toList p.object := by
  obtain ⟨t, ms, ht, hparse⟩ := h
  have htext : p.text = t := by
    simp [text, ht, cutLast]
  rw [object, htext, hparse]
  exact reads_of_parse_obj hparse

end Pulse

variable {P : Type}

/-- The pulse that is played, if the instruction is one. -/
def Instruction.pulse? : Instruction (Primitive P) → Option Pulse
  | .leaf true (.pulse p) => some p
  | _ => none

/-- The pulses of a kernel, in the order of the walk. -/
def pulses (kernel : Function (Primitive P)) : List Pulse :=
  kernel.walk.filterMap Instruction.pulse?

namespace OpenPulseVisitor

/-- What an instruction that is passed appends. -/
theorem native_of_pass {i : Instruction (Primitive P)} {v w : OpenPulseVisitor} {u : Unit}
    (h : pass accept i v = .ok u w) (hp : ∀ p ∈ i.pulse?, p.AppendsObject) :
    w.native = v.native ++ String.join (i.pulse?.toList.map fun p => p.text ++ ",") := by
  rcases pass_ok accept h with ⟨he, hacc⟩ | ⟨he, rfl⟩
  · cases i with
    | leaf e g =>
        obtain rfl : e = true := he
        cases g with
        | gate g =>
            cases g with
            | identity q =>
                cases hacc
                simp [Instruction.pulse?]
            | _ => cases hacc
        | pulse p =>
            rw [accept, (hp p rfl).appended] at hacc
            cases hacc
            simp [Instruction.pulse?]
    | conditional e q body =>
        cases hacc
        simp [Instruction.pulse?]
    | function e n body =>
        cases hacc
        simp [Instruction.pulse?]
  · have hnone : i.pulse? = none := by
      cases i with
      | leaf e g =>
          obtain rfl : e = false := he
          rfl
      | _ => rfl
    simp [hnone]

/-- A kernel appends its pulses in order. -/
theorem native_of_passAll {is : List (Instruction (Primitive P))} {v w : OpenPulseVisitor}
    {u : Unit} (h : passAll accept is v = .ok u w)
    (hp : ∀ p ∈ is.filterMap Instruction.pulse?, p.AppendsObject) :
    w.native = v.native ++
      String.join ((is.filterMap Instruction.pulse?).map fun p => p.text ++ ",") := by
  induction is generalizing v with
  | nil =>
      cases h
      simp
  | cons i is ih =>
      rw [passAll, Exec.bind_ok] at h
      obtain ⟨_, x, hpass, hrest⟩ := h
      have hhead := native_of_pass hpass fun p hpi => hp p (by
        rw [List.mem_filterMap]
        exact ⟨i, by simp, hpi⟩)
      have htail := ih hrest fun p hpi => hp p (by
        rw [List.mem_filterMap] at hpi ⊢
        obtain ⟨j, hj, hjp⟩ := hpi
        exact ⟨j, List.mem_cons_of_mem _ hj, hjp⟩)
      rw [htail, hhead, String.append_assoc]
      cases hpulse : i.pulse? with
      | none => simp [List.filterMap_cons_none hpulse]
      | some p => simp [List.filterMap_cons_some hpulse]

end OpenPulseVisitor

/-! ## The texts of the items -/

/-- The entry of a cached pulse. -/
def libraryEntry (entry : String × String) : Json :=
  .obj [("name", .str entry.1), ("samples", (parse entry.2).getD .null)]

/-- The experiment of a kernel. -/
def experiment (kernel : Function (Primitive P)) : Json :=
  .obj [("name", .str kernel.name), ("instructions", .arr ((pulses kernel).map Pulse.object))]

def entryText (entry : String × String) : List Char :=
  "\x7b\"name\": \"".toList ++
    (entry.1.toList ++ '"' :: (", \"samples\": ".toList ++ (entry.2.toList ++ ['\x7d'])))

def experimentText (kernel : Function (Primitive P)) : List Char :=
  "\x7b \"name\": \"".toList ++ (kernel.name.toList ++ '"' :: (", \"instructions\": ".toList ++
    (cutArray ((pulses kernel).map fun p => p.text.toList) ++ ['\x7d'])))

namespace IBMAccelerator

theorem toList_pulseText (entry : String × String) :
    (pulseText entry).toList = entryText entry ++ [','] := by
  have hsamples : "\", \"samples\": ".toList = '"' :: ", \"samples\": ".toList := rfl
  have hclose : "\x7d,".toList = ['\x7d'] ++ [','] := rfl
  unfold pulseText entryText
  simp only [String.toList_append, List.append_assoc, hsamples, hclose, List.cons_append]

theorem toList_of_adds [ToString P] {size : Nat} {kernel : Function (Primitive P)} {t : String}
    (h : (Kernel.analog kernel).Adds size t) (hp : ∀ p ∈ pulses kernel, p.AppendsObject) :
    t.toList = experimentText kernel ++ [','] := by
  obtain ⟨v, hv, rfl⟩ := h
  have hnative := OpenPulseVisitor.native_of_passAll hv hp
  have hopen : "\", \"instructions\": [".toList = '"' :: ", \"instructions\": ".toList ++ ['['] :=
    rfl
  have hclose : "]\x7d".toList = [']'] ++ ['\x7d'] := rfl
  have hcomma : ",".toList = [','] := rfl
  unfold OpenPulseVisitor.getOpenPulseInstructionsJson cutLast experimentText cutArray
  rw [hnative, OpenPulseVisitor.new]
  simp only [String.toList_append, String.toList_ofList, hopen, hclose, hcomma,
    List.append_assoc, List.cons_append, List.nil_append]
  have hjoin : (String.join ((kernel.walk.filterMap Instruction.pulse?).map
      fun p => p.text ++ ",")).toList
        = ((pulses kernel).map fun p => p.text.toList).flatMap (· ++ [',']) := by
    simp [pulses, List.flatMap_map, String.toList_join]
  rw [hjoin, List.dropLast_append_of_ne_nil (by simp), List.dropLast_append_of_ne_nil (by simp),
    List.dropLast_cons_of_ne_nil (by simp), List.dropLast_append_of_ne_nil (by simp)]
  simp only [List.append_assoc, List.cons_append]

theorem toList_of_forall₂_adds [ToString P] {size : Nat}
    {functions : List (Function (Primitive P))} {ts : List String}
    (hp : ∀ kernel ∈ functions, ∀ p ∈ pulses kernel, p.AppendsObject)
    (hts : List.Forall₂ (fun kernel t => (Kernel.analog kernel).Adds size t) functions ts) :
    (String.join ts).toList = (functions.map experimentText).flatMap (· ++ [',']) := by
  induction hts with
  | nil => rfl
  | cons ht _ ih =>
      rw [String.join_cons, String.toList_append, toList_of_adds ht (hp _ (by simp)),
        ih fun kernel hk => hp kernel (List.mem_cons_of_mem _ hk)]
      simp

/-! ## What the items say -/

theorem lexesTo_samples {samples : String} {v : Json} (h : parse samples = some v) :
    LexesTo (", \"samples\": ".toList ++ (samples.toList ++ ['\x7d']))
      ([.comma, .str "samples", .colon] ++ (v.tokens ++ [.rbrace])) := by
  have hkey : LexesTo ", \"samples\": ".toList [.comma, .str "samples", .colon] := rfl
  exact hkey.append (lexesTo_ended (parse_eq_some.mp h) rfl (by decide) (by decide))

theorem lexRun_entry : lexRun .idle "\x7b\"name\": \"".toList
    = some (.str [], [.lbrace, .str "name", .colon]) := rfl

theorem tokens_libraryEntry {entry : String × String} {v : Json} (h : parse entry.2 = some v) :
    (libraryEntry entry).tokens = [.lbrace, .str "name", .colon] ++ .str entry.1 ::
      ([.comma, .str "samples", .colon] ++ (v.tokens ++ [.rbrace])) := by
  rw [libraryEntry, h, tokens_obj, dropLast_memberTokens_cons, dropLast_memberTokens_singleton]
  simp [tokens]

theorem reads_entryText {entry : String × String} (hname : Plain entry.1)
    (h : (parse entry.2).isSome) : Reads (entryText entry) (libraryEntry entry) := by
  obtain ⟨v, hv⟩ := Option.isSome_iff_exists.mp h
  rw [reads_iff, tokens_libraryEntry hv]
  exact LexesTo.plain lexRun_entry hname (lexesTo_samples hv)

/-- The entry of a name that is not plain is another one. -/
theorem entry_of_lexFrom {entry : String × String} (h : (parse entry.2).isSome)
    {rest : List Char} {us : List Token}
    (hlex : lexFrom .idle (entryText entry ++ rest)
      = some ((libraryEntry entry).tokens ++ us)) :
    Plain entry.1 ∧ lexFrom .idle rest = some us := by
  obtain ⟨v, hv⟩ := Option.isSome_iff_exists.mp h
  rw [tokens_libraryEntry hv] at hlex
  unfold entryText at hlex
  obtain ⟨hname, hlex⟩ := plain_of_within lexRun_entry hlex
  exact ⟨hname, lexFrom_rest (lexesTo_samples hv) hlex⟩

theorem lexRun_experiment : lexRun .idle "\x7b \"name\": \"".toList
    = some (.str [], [.lbrace, .str "name", .colon]) := rfl

theorem lexesTo_instructions :
    LexesTo ", \"instructions\": ".toList [.comma, .str "instructions", .colon] := rfl

theorem tokens_experiment (kernel : Function (Primitive P)) :
    (experiment kernel).tokens = [.lbrace, .str "name", .colon] ++ .str kernel.name ::
      ([.comma, .str "instructions", .colon] ++
        ((arr ((pulses kernel).map Pulse.object)).tokens ++ [.rbrace])) := by
  rw [experiment, tokens_obj, dropLast_memberTokens_cons, dropLast_memberTokens_singleton]
  simp [tokens]

theorem reads_experimentText {kernel : Function (Primitive P)}
    (hp : ∀ p ∈ pulses kernel, p.AppendsObject) (hname : Plain kernel.name)
    (hne : pulses kernel ≠ []) : Reads (experimentText kernel) (experiment kernel) := by
  have hreads : List.Forall₂ Reads ((pulses kernel).map fun p => p.text.toList)
      ((pulses kernel).map Pulse.object) := by
    rw [List.forall₂_map_left_iff, List.forall₂_map_right_iff, List.forall₂_same]
    exact fun p hpk => (hp p hpk).reads
  have harray := reads_iff.mp (reads_cutArray hreads (by simpa using hne))
  have hclose : LexesTo ['\x7d'] [.rbrace] := rfl
  rw [reads_iff, tokens_experiment]
  exact LexesTo.plain lexRun_experiment hname (lexesTo_instructions.append (harray.append hclose))

/-- An experiment without a pulse is not well-formed, and that of a name that is
not plain is another one. -/
theorem experiment_of_lexFrom {kernel : Function (Primitive P)}
    (hp : ∀ p ∈ pulses kernel, p.AppendsObject) {rest : List Char} {us : List Token}
    (hlex : lexFrom .idle (experimentText kernel ++ rest)
      = some ((experiment kernel).tokens ++ us)) :
    (Plain kernel.name ∧ pulses kernel ≠ []) ∧ lexFrom .idle rest = some us := by
  rw [tokens_experiment] at hlex
  unfold experimentText at hlex
  obtain ⟨hname, hlex⟩ := plain_of_within lexRun_experiment hlex
  simp only [List.append_assoc] at hlex
  have harray := lexFrom_rest lexesTo_instructions hlex
  have hpulse : ∀ p ∈ pulses kernel, ∀ rest us,
      lexFrom .idle (p.text.toList ++ rest) = some (p.object.tokens ++ us) →
        True ∧ lexFrom .idle rest = some us := by
    exact fun p hpk rest us h => ⟨trivial, lexFrom_rest (reads_iff.mp (hp p hpk).reads) h⟩
  obtain ⟨hne, _, hclosed⟩ := cutArray_of_lexFrom hpulse harray
  have hclose : lexRun .idle ['\x7d'] = some (.idle, [.rbrace]) := rfl
  exact ⟨⟨hname, hne⟩, lexFrom_rest hclose hclosed⟩

/-! ## The text around the lists -/

/-- The opening of an analog job, up to the name of its backend. -/
def pulseOpening : List Char :=
  "\x7b \"qObject\": \x7b\"qobj_id\": \"xacc-qobj\", \"schema_version\": \"1.0.0\", \"type\": ".toList ++
    "\"PULSE\", \"header\": \x7b \"description\": \"\", \"backend_name\": \"".toList

/-- From the backend to the shots, with two arrays of frequencies. -/
def pulseConfig (meas qubit : List Char) : List Char :=
  " \x7d, \"config\": \x7b \"meas_lo_freq\": ".toList ++ (meas ++
    (", \"qubit_lo_freq\": ".toList ++ (qubit ++
      ", \"rep_time\": 500, \"meas_level\": 1, \"shots\":".toList)))

/-- From the shots to the array of the pulse library. -/
def pulseSettings : List Char :=
  ", \"meas_return\": \"avg\", \"memory_slot_size\": 1, \"seed\": 1, ".toList ++
    "\"pulse_library\": ".toList

def pulseFront (meas qubit : List Char) (backendName shots : String) : List Char :=
  pulseOpening ++ (backendName.toList ++ '"' ::
    (pulseConfig meas qubit ++ (shots.toList ++ pulseSettings)))

/-- The members of a job in front of its configuration. -/
def jobMembers (backendName : String) : List (String × Json) :=
  [("qobj_id", .str "xacc-qobj"), ("schema_version", .str "1.0.0"), ("type", .str "PULSE"),
    ("header", .obj [("description", .str ""), ("backend_name", .str backendName)])]

/-- The members of a configuration in front of its pulse library. -/
def configMembers (meas qubit : Json) (shots : ℚ) : List (String × Json) :=
  [("meas_lo_freq", meas), ("qubit_lo_freq", qubit), ("rep_time", .num 500),
    ("meas_level", .num 1), ("shots", .num shots), ("meas_return", .str "avg"),
    ("memory_slot_size", .num 1), ("seed", .num 1)]

theorem lexRun_pulseOpening : lexRun .idle pulseOpening = some (.str [],
    [.lbrace, .str "qObject", .colon, .lbrace, .str "qobj_id", .colon, .str "xacc-qobj", .comma,
      .str "schema_version", .colon, .str "1.0.0", .comma, .str "type", .colon, .str "PULSE",
      .comma, .str "header", .colon, .lbrace, .str "description", .colon, .str "", .comma,
      .str "backend_name", .colon]) := by
  decide +kernel

theorem lexesTo_pulseSettings : LexesTo pulseSettings
    [.comma, .str "meas_return", .colon, .str "avg", .comma, .str "memory_slot_size", .colon,
      .num 1, .comma, .str "seed", .colon, .num 1, .comma, .str "pulse_library", .colon] := by
  rw [LexesTo]
  decide +kernel

section

variable {meas qubit : List Char} {m q : Json} (hmeas : LexesTo meas m.tokens)
  (hqubit : LexesTo qubit q.tokens)

include hmeas hqubit

theorem lexesTo_pulseConfig : LexesTo (pulseConfig meas qubit)
    ([.rbrace, .comma, .str "config", .colon, .lbrace, .str "meas_lo_freq", .colon] ++
      (m.tokens ++ ([.comma, .str "qubit_lo_freq", .colon] ++
        (q.tokens ++ [.comma, .str "rep_time", .colon, .num 500, .comma, .str "meas_level",
          .colon, .num 1, .comma, .str "shots", .colon])))) := by
  have hopen : LexesTo " \x7d, \"config\": \x7b \"meas_lo_freq\": ".toList [.rbrace, .comma,
      .str "config", .colon, .lbrace, .str "meas_lo_freq", .colon] := rfl
  have hkey : LexesTo ", \"qubit_lo_freq\": ".toList [.comma, .str "qubit_lo_freq", .colon] := rfl
  have hrep : LexesTo ", \"rep_time\": 500, \"meas_level\": 1, \"shots\":".toList
      [.comma, .str "rep_time", .colon, .num 500, .comma, .str "meas_level", .colon, .num 1,
        .comma, .str "shots", .colon] := by
    rw [LexesTo]
    decide +kernel
  exact hopen.append (hmeas.append (hkey.append (hqubit.append hrep)))

theorem lexesTo_pulseFront {backendName shots : String} {x : ℚ}
    (hshots : readNumber shots.toList = some x) (hname : Plain backendName) :
    LexesTo (pulseFront meas qubit backendName shots)
      ([.lbrace, .str "qObject", .colon, .lbrace] ++ (memberTokens (jobMembers backendName) ++
        ([.str "config", .colon, .lbrace] ++ (memberTokens (configMembers m q x) ++
          [.str "pulse_library", .colon])))) := by
  have hcomma : pulseSettings.head? = some ',' := by
    decide +kernel
  have hnumber := LexesTo.number hshots hcomma (by decide) lexesTo_pulseSettings
  have hrest := (lexesTo_pulseConfig hmeas hqubit).append hnumber
  have htokens := LexesTo.plain lexRun_pulseOpening hname hrest
  unfold pulseFront
  simpa [jobMembers, configMembers, tokens_str, tokens_num, tokens_obj] using htokens

end

/-- An analog job of some items. -/
def analogText (meas qubit : List Char) (backendName shots : String)
    (entries experiments : List (List Char)) : List Char :=
  pulseFront meas qubit backendName shots ++ (cutArray entries ++
    (" \x7d, \"experiments\": ".toList ++ (cutArray experiments ++
      ("\x7d, ".toList ++ (backendText backendName).toList))))

theorem toList_analogInit (backendName shots : String) :
    (analogInit backendName shots).toList = pulseFront ("[" ++ measlofreq ++ "]").toList
      ("[" ++ qubitlofreq ++ "]").toList backendName shots ++ ['['] := by
  have hmeas : "\" \x7d, \"config\": \x7b \"meas_lo_freq\": [".toList
      = '"' :: (" \x7d, \"config\": \x7b \"meas_lo_freq\": ".toList ++ "[".toList) := rfl
  have hqubit : "], \"qubit_lo_freq\": [".toList
      = "]".toList ++ (", \"qubit_lo_freq\": ".toList ++ "[".toList) := rfl
  have hrep : "], \"rep_time\": 500, \"meas_level\": 1, \"shots\":".toList
      = "]".toList ++ ", \"rep_time\": 500, \"meas_level\": 1, \"shots\":".toList := rfl
  have hlibrary : "\"pulse_library\": [".toList = "\"pulse_library\": ".toList ++ ['['] := rfl
  unfold analogInit pulseFront pulseOpening pulseConfig pulseSettings
  simp only [String.toList_append, List.append_assoc, List.cons_append]
  rw [hmeas, hqubit, hrep, hlibrary]
  simp only [List.append_assoc, List.cons_append]

theorem toList_analogJob (backendName shots : String) (pulseLibrary : List (String × String))
    {texts : String} {experiments : List (List Char)}
    (h : texts.toList = experiments.flatMap (· ++ [','])) :
    (analogJob backendName shots pulseLibrary texts).toList
      = analogText ("[" ++ measlofreq ++ "]").toList ("[" ++ qubitlofreq ++ "]").toList
          backendName shots (pulseLibrary.map entryText) experiments := by
  have hentries : (String.join (pulseLibrary.map pulseText)).toList
      = (pulseLibrary.map entryText).flatMap (· ++ [',']) := by
    simp [String.toList_join, List.flatMap_map, toList_pulseText]
  have hexperiments : "] \x7d, \"experiments\": [".toList
      = [']'] ++ (" \x7d, \"experiments\": ".toList ++ ['[']) := rfl
  have hclose : "]\x7d, ".toList = [']'] ++ "\x7d, ".toList := rfl
  unfold analogJob analogText cutLast cutArray
  simp only [String.toList_append, String.toList_ofList, toList_analogInit, hentries, h,
    hexperiments, hclose, List.append_assoc, List.cons_append, List.nil_append]
  have hcut : ∀ as bs : List Char, (']' :: (as ++ '[' :: bs)).dropLast
      = ']' :: (as ++ ('[' :: bs).dropLast) := by
    intro as bs
    rw [List.dropLast_cons_of_ne_nil (by simp), List.dropLast_append_cons]
  rw [List.dropLast_append_cons, hcut]
  simp only [List.append_assoc, List.cons_append]

/-! ## The document -/

/-- The document of an analog job. -/
def pulseDocument (meas qubit : Json) (shots : ℚ) (backendName : String)
    (library experiments : Json) : Json :=
  .obj [("qObject", .obj (jobMembers backendName ++
      [("config", .obj (configMembers meas qubit shots ++ [("pulse_library", library)]))] ++
        [("experiments", experiments)])),
    ("backend", .obj [("name", .str backendName)])]

/-- **The document lists the pulses**: the library has the entry of each cached
pulse, and the experiments are those of the kernels, with their pulses. -/
def ListsPulses (pulseLibrary : List (String × String))
    (functions : List (Function (Primitive P))) (text : String) : Prop :=
  ∃ document, parse text = some document ∧
    document.member ["qObject", "config", "pulse_library"]
      = some (.arr (pulseLibrary.map libraryEntry)) ∧
    document.member ["qObject", "experiments"] = some (.arr (functions.map experiment))

section

variable {meas qubit : List Char} {m q : Json} (hmeas : LexesTo meas m.tokens)
  (hqubit : LexesTo qubit q.tokens) {backendName shots : String} {x : ℚ}
  (hshots : readNumber shots.toList = some x) (hname : Plain backendName)

include hmeas hqubit hshots hname

theorem lex_analogText {entries exps : List (List Char)} {library experiments : Json}
    (hlibrary : Reads (cutArray entries) library) (hexps : Reads (cutArray exps) experiments) :
    lex (analogText meas qubit backendName shots entries exps)
      = some (pulseDocument m q x backendName library experiments).tokens := by
  have hkey : LexesTo " \x7d, \"experiments\": ".toList
      [.rbrace, .comma, .str "experiments", .colon] := rfl
  have hclose : LexesTo "\x7d, ".toList [.rbrace, .comma] := rfl
  have htail := (reads_iff.mp hexps).append (hclose.append (lexesTo_backendText hname))
  have hlex := (lexesTo_pulseFront hmeas hqubit hshots hname).append
    ((reads_iff.mp hlibrary).append (hkey.append htail))
  unfold analogText
  rw [hlex.lex, pulseDocument, tokens_obj, dropLast_memberTokens_cons,
    dropLast_memberTokens_singleton, tokens_obj_concat]
  simp only [memberTokens_append, memberTokens_cons, memberTokens_nil, tokens_obj_concat]
  simp [tokens_obj, tokens_str]

/-- What a document that lists the pulses was read from. -/
theorem good_of_member {pulseLibrary : List (String × String)}
    {functions : List (Function (Primitive P))}
    (hsamples : ∀ entry ∈ pulseLibrary, (parse entry.2).isSome)
    (hpulses : ∀ kernel ∈ functions, ∀ p ∈ pulses kernel, p.AppendsObject) {document : Json}
    (hlex : lexFrom .idle (analogText meas qubit backendName shots (pulseLibrary.map entryText)
      (functions.map experimentText)) = some document.tokens)
    (hlibrary : document.member ["qObject", "config", "pulse_library"]
      = some (.arr (pulseLibrary.map libraryEntry)))
    (hexps : document.member ["qObject", "experiments"] = some (.arr (functions.map experiment))) :
    (pulseLibrary ≠ [] ∧ ∀ entry ∈ pulseLibrary, Plain entry.1) ∧
      ∀ kernel ∈ functions, Plain kernel.name ∧ pulses kernel ≠ [] := by
  unfold analogText at hlex
  obtain ⟨us, hus, hfront⟩ := lexFrom_append (lexesTo_pulseFront hmeas hqubit hshots hname) hlex
  -- The members on the way to the pulse library.
  have hstart : document.tokens ++ [] = .lbrace :: (memberTokens [] ++ .str "qObject" :: .colon ::
      .lbrace :: (memberTokens (jobMembers backendName) ++ .str "config" :: .colon ::
        .lbrace :: (memberTokens (configMembers m q x) ++ .str "pulse_library" :: .colon ::
          us))) := by
    simpa using hus
  obtain ⟨job, _, hjob, htokens⟩ := get?_of_tokens hstart (by simp)
  obtain ⟨config, _, hconfig, htokens1⟩ := get?_of_tokens htokens (by simp [jobMembers])
  obtain ⟨library, y, hlib, htokens2⟩ := get?_of_tokens htokens1 (by simp [configMembers])
  obtain rfl : library = .arr (pulseLibrary.map libraryEntry) := by
    simpa [member, hjob, hconfig, hlib] using hlibrary
  rw [← htokens2] at hfront
  obtain ⟨hne, hplain, hbehind⟩ := cutArray_of_lexFrom
    (fun entry he _ _ h => entry_of_lexFrom (hsamples entry he) h) hfront
  -- With the library the members up to the experiments are known.
  have hkey : LexesTo " \x7d, \"experiments\": ".toList
      [.rbrace, .comma, .str "experiments", .colon] := rfl
  obtain ⟨vs, hvs, hlast⟩ := lexFrom_append hkey hbehind
  rw [← htokens2, hvs] at htokens
  have hmembers : .lbrace :: (memberTokens (jobMembers backendName) ++ .str "config" :: .colon ::
      .lbrace :: (memberTokens (configMembers m q x) ++ .str "pulse_library" :: .colon ::
        ((arr (pulseLibrary.map libraryEntry)).tokens ++
          ([.rbrace, .comma, .str "experiments", .colon] ++ vs))))
      = .lbrace :: (memberTokens (jobMembers backendName ++ [("config", .obj (configMembers m q x ++
          [("pulse_library", .arr (pulseLibrary.map libraryEntry))]))]) ++
            .str "experiments" :: .colon :: vs) := by
    simp [memberTokens_append, tokens_obj_concat]
  rw [hmembers] at htokens
  obtain ⟨experiments, z, hexperiments, htokens3⟩ :=
    get?_of_tokens htokens (by simp [jobMembers])
  obtain rfl : experiments = .arr (functions.map experiment) := by
    simpa [member, hjob, hexperiments] using hexps
  rw [← htokens3] at hlast
  obtain ⟨_, hkernels, _⟩ := cutArray_of_lexFrom
    (fun kernel hk _ _ h => experiment_of_lexFrom (hpulses kernel hk) h) hlast
  exact ⟨⟨hne, hplain⟩, hkernels⟩

end

theorem lexesTo_frequencies {s : String}
    (h : ((lex ("[" ++ s ++ "]").toList).bind fun ts =>
      (parseTokens ts).bind Json.elems?).isSome = true) :
    ∃ j : Json, LexesTo ("[" ++ s ++ "]").toList j.tokens := by
  obtain ⟨vs, hvs⟩ := Option.isSome_iff_exists.mp h
  obtain ⟨ts, hts, hvs⟩ := Option.bind_eq_some_iff.mp hvs
  obtain ⟨v, hv, helems⟩ := Option.bind_eq_some_iff.mp hvs
  have hparse : parse ("[" ++ s ++ "]") = some v := by
    rw [parse, hts, Option.bind_some, hv]
  cases v with
  | arr ws => exact ⟨_, reads_iff.mp (reads_of_parse_arr hparse)⟩
  | _ => cases helems

theorem lexesTo_measlofreq : ∃ j : Json, LexesTo ("[" ++ measlofreq ++ "]").toList j.tokens := by
  refine lexesTo_frequencies ?_
  unfold measlofreq
  simp only [String.toList_append]
  decide +kernel

theorem lexesTo_qubitlofreq : ∃ j : Json, LexesTo ("[" ++ qubitlofreq ++ "]").toList j.tokens := by
  refine lexesTo_frequencies ?_
  unfold qubitlofreq
  simp only [String.toList_append]
  decide +kernel

section

variable {options : Options} {pulseLibrary : List (String × String)}
  {functions : List (Function (Primitive P))} {x : ℚ}

theorem listsPulses_iff (hne : functions ≠ [])
    (hpulses : ∀ kernel ∈ functions, ∀ p ∈ pulses kernel, p.AppendsObject)
    (hsamples : ∀ entry ∈ pulseLibrary, (parse entry.2).isSome)
    (hshots : readNumber (shots options).toList = some x)
    (hname : Plain (jobBackend options)) {texts : String}
    (htexts : texts.toList = (functions.map experimentText).flatMap (· ++ [','])) :
    ListsPulses pulseLibrary functions
        (analogJob (jobBackend options) (shots options) pulseLibrary texts) ↔
      (pulseLibrary ≠ [] ∧ ∀ entry ∈ pulseLibrary, Plain entry.1) ∧
        ∀ kernel ∈ functions, Plain kernel.name ∧ pulses kernel ≠ [] := by
  have hjob := toList_analogJob (jobBackend options) (shots options) pulseLibrary htexts
  obtain ⟨m, hmeas⟩ := lexesTo_measlofreq
  obtain ⟨q, hqubit⟩ := lexesTo_qubitlofreq
  -- a document with these members has their tokens, which only good texts give
  constructor
  · rintro ⟨document, hparse, hlibrary, hexps⟩
    rw [parse_eq_some, hjob, lex_eq_lexFrom] at hparse
    exact good_of_member hmeas hqubit hshots hname hsamples hpulses hparse hlibrary hexps
  · rintro ⟨⟨hlib, hnames⟩, hkernels⟩
    have hentries : List.Forall₂ Reads (pulseLibrary.map entryText)
        (pulseLibrary.map libraryEntry) := by
      rw [List.forall₂_map_left_iff, List.forall₂_map_right_iff, List.forall₂_same]
      exact fun entry he => reads_entryText (hnames entry he) (hsamples entry he)
    have hexps : List.Forall₂ Reads (functions.map experimentText)
        (functions.map experiment) := by
      rw [List.forall₂_map_left_iff, List.forall₂_map_right_iff, List.forall₂_same]
      exact fun kernel hk => reads_experimentText (hpulses kernel hk) (hkernels kernel hk).1
        (hkernels kernel hk).2
    have hlex := lex_analogText hmeas hqubit hshots hname
      (reads_cutArray hentries (by simpa using hlib)) (reads_cutArray hexps (by simpa using hne))
    exact ⟨_, parse_eq_some.mpr (by rw [hjob]; exact hlex), rfl, rfl⟩

variable [ToString P]

/-- What `processInput` returns for analog kernels. -/
theorem processInput_analogs (hne : functions ≠ [])
    (hpulses : ∀ kernel ∈ functions, ∀ p ∈ pulses kernel, p.AppendsObject)
    {s s' : Session} {text : String}
    (h : processInput options pulseLibrary (functions.map .analog) s = .ok text s') :
    ∃ texts, texts.toList = (functions.map experimentText).flatMap (· ++ [',']) ∧
      text = analogJob (jobBackend options) (shots options) pulseLibrary texts := by
  obtain ⟨ts, hts, rfl⟩ := processInput_text h
  rw [List.forall₂_map_left_iff] at hts
  have hanalogs : nAnalogs (functions.map Kernel.analog) > 0 := by
    obtain ⟨kernel, rest, rfl⟩ := List.exists_cons_of_ne_nil hne
    simp [nAnalogs, Kernel.isAnalog]
  rw [if_pos hanalogs]
  exact ⟨_, toList_of_forall₂_adds hpulses hts, rfl⟩

/-- **When an analog job lists its pulses**: when the library has a pulse, every
kernel plays one, and the names stand for themselves between quotes. -/
theorem processInput_listsPulses_iff (hne : functions ≠ [])
    (hpulses : ∀ kernel ∈ functions, ∀ p ∈ pulses kernel, p.AppendsObject)
    (hsamples : ∀ entry ∈ pulseLibrary, (parse entry.2).isSome)
    (hshots : readNumber (shots options).toList = some x)
    (hname : Plain (jobBackend options)) {s s' : Session} {text : String}
    (h : processInput options pulseLibrary (functions.map .analog) s = .ok text s') :
    ListsPulses pulseLibrary functions text ↔
      (pulseLibrary ≠ [] ∧ ∀ entry ∈ pulseLibrary, Plain entry.1) ∧
        ∀ kernel ∈ functions, Plain kernel.name ∧ pulses kernel ≠ [] := by
  obtain ⟨texts, htexts, rfl⟩ := processInput_analogs hne hpulses h
  exact listsPulses_iff hne hpulses hsamples hshots hname htexts

end

/-! ## A kernel that plays its sample, and one that idles -/

def sample1 : String × String := ("sample1", "[[0,0], [0.5,0], [1,0]]")

def playing : Function (Primitive String) where
  name := "foo"
  body := [.leaf true (.gate (.identity 0)), .leaf true (.pulse
    { name := "TestPulse", bits := [0]
      appended := .ok ("\x7b \"ch\": \"d0\", \"name\": \"sample1\", \"t0\":0 \x7d" ++ ",") })]

def idling : Function (Primitive String) where
  name := "foo"
  body := [.leaf true (.gate (.identity 0))]

/-- The session of a new accelerator. -/
def newSession : Session where
  acc := {}
  buffer := ⟨"q", 2, [], []⟩
  replies := []

theorem readNumber_defaultShots : readNumber (shots ∅).toList = some 1024 :=
  readNumber_toString 1024

theorem parse_sample1 : ∀ entry ∈ [sample1], (parse entry.2).isSome := by
  decide +kernel

/-- The theorem at a kernel with a pulse. -/
theorem processInput_listsPulses_playing :
    ∃ text s', processInput ∅ [sample1] ([playing].map .analog) newSession = .ok text s' ∧
      ListsPulses [sample1] [playing] text := by
  have hrun : Exec.succeeds (processInput ∅ [sample1] ([playing].map .analog) newSession)
      = true := by
    decide +kernel
  obtain ⟨text, s', htext⟩ := Exec.succeeds_iff.mp hrun
  have hpulses : ∀ kernel ∈ [playing], ∀ p ∈ pulses kernel, p.AppendsObject := by
    intro kernel hk p hp
    rw [List.mem_singleton.mp hk] at hp
    rw [List.mem_singleton.mp hp]
    refine ⟨_, [("ch", .str "d0"), ("name", .str "sample1"), ("t0", .num 0)], rfl, ?_⟩
    rw [parse_eq_some, tokens_obj]
    simp only [dropLast_memberTokens_cons, dropLast_memberTokens_singleton, tokens_str, tokens_num]
    decide +kernel
  have hnames : ([sample1] ≠ [] ∧ ∀ entry ∈ [sample1], Plain entry.1) ∧
      ∀ kernel ∈ [playing], Plain kernel.name ∧ pulses kernel ≠ [] := by
    refine ⟨by decide, fun kernel hk => ?_⟩
    rw [List.mem_singleton.mp hk]
    exact ⟨by decide, fun hnil => by cases hnil⟩
  exact ⟨text, s', htext, (processInput_listsPulses_iff (by simp) hpulses parse_sample1
    readNumber_defaultShots (by decide) htext).mpr hnames⟩

/-- A kernel that only idles spoils the whole job. -/
theorem idling_not_listsPulses :
    ¬ ∀ (pulseLibrary : List (String × String)) (functions : List (Function (Primitive String)))
        (s s' : Session) (text : String), functions ≠ [] →
        (∀ kernel ∈ functions, ∀ p ∈ pulses kernel, p.AppendsObject) →
        (∀ entry ∈ pulseLibrary, (parse entry.2).isSome) →
        processInput ∅ pulseLibrary (functions.map .analog) s = .ok text s' →
        ListsPulses pulseLibrary functions text := by
  intro h
  have hrun : Exec.succeeds (processInput ∅ [sample1] ([idling].map .analog) newSession)
      = true := by
    decide +kernel
  obtain ⟨text, s', htext⟩ := Exec.succeeds_iff.mp hrun
  have hpulses : ∀ kernel ∈ [idling], ∀ p ∈ pulses kernel, p.AppendsObject := by
    intro kernel hk p hp
    rw [List.mem_singleton.mp hk] at hp
    cases hp
  have hlists := h _ _ _ _ _ (by simp) hpulses parse_sample1 htext
  obtain ⟨texts, htexts, rfl⟩ := processInput_analogs (by simp) hpulses htext
  obtain ⟨_, hkernels⟩ := (listsPulses_iff (by simp) hpulses parse_sample1
    readNumber_defaultShots (by decide) htexts).mp hlists
  exact (hkernels idling (by simp)).2 rfl

end IBMAccelerator

end XaccIbm
