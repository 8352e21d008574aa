import XaccIbm.IBMAccelerator.Polling
import XaccIbm.IBMAccelerator.Results
import XaccIbm.IBMAccelerator.Submitting

/-!
# IBMAccelerator — Returning

When a whole run returns, and what it has done by then. It returns when its
job is built, the device is on, the service takes the job, and the job comes
to an end with results that can be stored; the requests are made in this
order, each to its own url and path, and each takes one reply. What is stored
depends on the results and on the names and qubits that the object remembers.
-/

namespace XaccIbm

open Asking Decode StdString

namespace IBMAccelerator

open Session

/-! ## The job -/

/-- What a round of the wait for a job makes of the text of its reply. -/
theorem pollJob_text (getPath : String) (fuel : Nat) (text : String) (s : Session) :
    (if contains text "ERROR_RUNNING_JOB" then
        (throw (.error "Error encountered running IBM job.") : Exec Session String)
      else do
        let d ← Exec.demand (Json.parse text)
        let _ ← Exec.demand (reports d)
        if contains text "COMPLETED" then pure text else pollJob getPath fuel) s =
      match loopTest text with
      | none => pollJob getPath fuel s
      | some (.ok t) => .ok t s
      | some (.error e) => .error e s := by
  by_cases hword : contains text errorRunningJob = true
  · have htest : loopTest text = some (.error jobFailed) := if_pos hword
    rw [htest]
    exact congrFun (if_pos hword) s
  · refine (congrFun (if_neg hword) s).trans ?_
    cases hparse : Json.parse text with
    | none =>
        have htest : loopTest text = some (.error .undefined) := by
          rw [loopTest, if_neg hword, reportReadable, hparse]
          rfl
        rw [htest]
        rfl
    | some d =>
        rw [Exec.bind_of_ok (Exec.demand_some d s)]
        cases hreport : reports d with
        | none =>
            have htest : loopTest text = some (.error .undefined) := by
              rw [loopTest, if_neg hword, reportReadable, hparse, Option.bind_some, hreport]
              rfl
            rw [htest]
            rfl
        | some report =>
            rw [Exec.bind_of_ok (Exec.demand_some report s)]
            have hreadable : reportReadable text = true := by
              rw [reportReadable, hparse, Option.bind_some, hreport]
              rfl
            by_cases hdone : contains text completed = true
            · have htest : loopTest text = some (.ok text) := by
                rw [loopTest, if_neg hword, if_pos hreadable, if_pos hdone]
              rw [htest]
              exact congrFun (if_pos hdone) s
            · have htest : loopTest text = none := by
                rw [loopTest, if_neg hword, if_pos hreadable, if_neg hdone]
              rw [htest]
              exact congrFun (if_neg hdone) s

/-- The wait for a job asks for one path of the api's url. -/
theorem pollJob_eq_poll (getPath : String) (fuel : Nat) (s : Session) :
    pollJob getPath fuel s
      = poll replyQueue (fun reply => reply s.acc.url getPath) loopTest fuel s := by
  induction fuel generalizing s with
  | zero => rfl
  | succ fuel ih =>
      rw [pollJob, poll, Exec.get_bind, restGet_eq, Exec.bind_apply, Exec.bind_apply]
      cases hs : replyQueue.pending s with
      | nil => rw [ask_nil hs]
      | cons reply later =>
          rw [ask_cons hs]
          cases reply s.acc.url getPath with
          | error msg => rfl
          | ok text =>
              refine (pollJob_text getPath fuel text _).trans ?_
              simp only [Exec.reply_ok]
              cases loopTest text with
              | none => exact ih (replyQueue.leave later s)
              | some decision => cases decision <;> rfl

/-- A text that the wait for a job goes on from. -/
structure Running (text : String) : Prop where
  failed : contains text errorRunningJob = false
  report : reportReadable text = true
  done : contains text completed = false

/-- A text that ends the wait for a job. -/
structure Finished (text : String) : Prop where
  failed : contains text errorRunningJob = false
  report : reportReadable text = true
  done : contains text completed = true

theorem loopTest_eq_none {text : String} : loopTest text = none ↔ Running text := by
  rw [loopTest]
  constructor
  · intro h
    split at h
    · cases h
    · rename_i hword
      split at h
      · rename_i hreport
        split at h
        · cases h
        · rename_i hdone
          exact ⟨by simpa using hword, hreport, by simpa using hdone⟩
      · cases h
  · rintro ⟨hword, hreport, hdone⟩
    simp [hword, hreport, hdone]

theorem loopTest_eq_ok {text t : String} :
    loopTest text = some (.ok t) ↔ Finished text ∧ t = text := by
  rw [loopTest]
  constructor
  · intro h
    split at h
    · cases h
    · rename_i hword
      split at h
      · rename_i hreport
        split at h
        · rename_i hdone
          cases h
          exact ⟨⟨by simpa using hword, hreport, hdone⟩, rfl⟩
        · cases h
      · cases h
  · rintro ⟨⟨hword, hreport, hdone⟩, rfl⟩
    simp [hword, hreport, hdone]

/-- **A job is done**: one reply that is not looked at, the replies while the
job runs, and the one that has its results; these are the replies behind it. -/
def JobDone (acc : IBMAccelerator) (jobId : String) (replies later : Replies)
    (qasms : List Json) : Prop :=
  ∃ unread earlier last, replies = unread :: (earlier ++ last :: later) ∧
    Says acc.url (jobPath acc jobId) (fun _ => True) unread ∧
    (∀ reply ∈ earlier, Says acc.url (jobPath acc jobId) Running reply) ∧
    Says acc.url (jobPath acc jobId)
      (fun text => Finished text ∧ resultsOf text = some qasms) last

/-- The choice of the backend and the submission loop change nothing of it. -/
theorem JobDone.congr {acc acc' : IBMAccelerator} {options : Options}
    (h : withoutLoop acc = withoutLoop (choose options acc')) {jobId : String}
    {replies later : Replies} {qasms : List Json} :
    JobDone acc jobId replies later qasms ↔ JobDone acc' jobId replies later qasms := by
  have hurl := congrArg (fun a => a.url) h
  have htoken := congrArg (fun a => a.currentApiToken) h
  simp only [withoutLoop, choose] at hurl htoken
  rw [JobDone, JobDone, jobPath, jobPath, hurl, htoken]

/-- **The wait for a job** ends well when the service has taken the job and the
job is done, and at no other reply. -/
theorem awaitJob_ok_iff {response : String} {s s' : Session} {qasms : List Json} :
    awaitJob response s = .ok qasms s' ↔ ∃ jobId later, Posted response jobId ∧
      JobDone s.acc jobId s.replies later qasms ∧ s' = { s with replies := later } := by
  rw [awaitJob]
  by_cases herror : contains response "error" = true
  · rw [if_pos herror]
    simp [Posted, herror]
  · rw [if_neg herror, Exec.get_bind, Exec.demand_bind_ok]
    refine exists_congr fun jobId => ?_
    have hposted : Posted response jobId ↔
        ((Json.parse response).bind fun d => d.get? "id").bind Json.str? = some jobId := by
      simp [Posted, herror]
    rw [exists_and_left, hposted]
    refine and_congr_right fun _ => ?_
    rw [restGet_eq, ask_bind_ok]
    constructor
    · rintro ⟨unread, rest, x, hreplies, hunread, h⟩
      rw [Exec.bind_ok] at h
      obtain ⟨text, s1, hpoll, h⟩ := h
      obtain ⟨hresults, rfl⟩ := Exec.demand_ok.mp h
      have hfuel : (replyQueue.pending (replyQueue.leave rest s)).length < s.replies.length := by
        have hlen := congrArg List.length hreplies
        rw [List.length_cons] at hlen
        rw [replyQueue.pending_leave]
        show rest.length < (replyQueue.pending s).length
        omega
      rw [pollJob_eq_poll, poll_ok_iff hfuel, replyQueue.pending_leave] at hpoll
      obtain ⟨earlier, last, later, rfl, hearlier, ⟨t, hlast, htest⟩, rfl⟩ := hpoll
      obtain ⟨hfinished, rfl⟩ := loopTest_eq_ok.mp htest
      refine ⟨later, ⟨unread, earlier, last, hreplies, ⟨x, hunread, trivial⟩, ?_,
        ⟨text, hlast, hfinished, hresults⟩⟩, rfl⟩
      intro reply hreply
      obtain ⟨y, hy, hnone⟩ := hearlier reply hreply
      exact ⟨y, hy, loopTest_eq_none.mp hnone⟩
    · rintro ⟨later, ⟨unread, earlier, last, hreplies, ⟨x, hunread, _⟩, hearlier,
        ⟨text, hlast, hfinished, hresults⟩⟩, rfl⟩
      refine ⟨unread, earlier ++ last :: later, x, hreplies, hunread, ?_⟩
      have hfuel : (replyQueue.pending (replyQueue.leave (earlier ++ last :: later) s)).length
          < s.replies.length := by
        rw [replyQueue.pending_leave, hreplies, List.length_cons]
        exact Nat.lt_succ_self _
      rw [Exec.bind_ok]
      refine ⟨text, { s with replies := later }, ?_, Exec.demand_ok.mpr ⟨hresults, rfl⟩⟩
      rw [pollJob_eq_poll, poll_ok_iff hfuel, replyQueue.pending_leave]
      refine ⟨earlier, last, later, rfl, fun reply hreply => ?_,
        ⟨text, hlast, loopTest_eq_ok.mpr ⟨hfinished, rfl⟩⟩, rfl⟩
      obtain ⟨y, hy, hrunning⟩ := hearlier reply hreply
      exact ⟨y, hy, loopTest_eq_none.mpr hrunning⟩

/-! ## The results -/

section

variable (backend : IBMBackend) (names : List String) (supports : Nat → List Nat)
  (b : AcceleratorBuffer)

/-- One result in the caller's buffer. -/
def DeliversAlone (qasm : Json) (bs : List AcceleratorBuffer) (b' : AcceleratorBuffer) : Prop :=
  bs = [] ∧ ∃ counts time kernel, rawCounts qasm = some counts ∧
    resultTime qasm = some time ∧ names.head? = some kernel ∧
    b' = calibrated backend { b with
      measurements := b.measurements ++ counts.map fun e =>
        (decodeAlone backend.isSimulator e.1, e.2)
      info := b.info ++ [("time", .num time), ("kernel", .str kernel)] }

/-- Results in buffers of their own: each under the name and for the qubits
that the object has for its number. -/
def DeliversEach (i : Nat) (qasms : List Json) (bs : List AcceleratorBuffer) : Prop :=
  (qasms = [] ∨ isValidBufferSize b.size = true) ∧ bs.length = qasms.length ∧
    ∀ (j : Nat) qasm c, qasms[j]? = some qasm → bs[j]? = some c →
      ∃ name, names[i + j]? = some name ∧
        Stores backend.isSimulator b.size name (supports (i + j)) qasm c

/-- **What is delivered** of the results of a job: the buffers that are handed
out, and the caller's buffer. -/
def Delivers (qasms : List Json) (bs : List AcceleratorBuffer) (b' : AcceleratorBuffer) : Prop :=
  match qasms with
  | [qasm] => DeliversAlone backend names b qasm bs b'
  | _ => DeliversEach backend names supports b 0 qasms bs ∧ b' = calibrated backend b

end

theorem storeAlone_ok_iff {qasm : Json} {s s' : Session} {bs : List AcceleratorBuffer} :
    storeAlone qasm s = .ok bs s' ↔ ∃ b',
      DeliversAlone s.acc.chosenBackend s.acc.kernelNames s.buffer qasm bs b' ∧
        s' = { s with buffer := b' } := by
  rw [storeAlone, Exec.get_bind, Exec.demand_bind_ok]
  simp only [onBuffer, Exec.modify_bind, Exec.demand_bind_ok,
    Exec.bind_of_ok (attachCalibration_eq _), Exec.pure_apply, EStateM.Result.ok.injEq,
    AcceleratorBuffer.appendAll_eq, AcceleratorBuffer.addExtraInfo, List.append_assoc,
    List.cons_append, List.nil_append]
  constructor
  · rintro ⟨counts, hcounts, time, htime, kernel, hkernel, rfl, rfl⟩
    exact ⟨_, ⟨rfl, counts, time, kernel, hcounts, htime, hkernel, rfl⟩, rfl⟩
  · rintro ⟨b', ⟨rfl, counts, time, kernel, hcounts, htime, hkernel, rfl⟩, rfl⟩
    exact ⟨counts, hcounts, time, htime, kernel, hkernel, rfl, rfl⟩

theorem storeResult_ok_iff {i : Nat} {qasm : Json} {s s' : Session} {c : AcceleratorBuffer} :
    storeResult i qasm s = .ok c s' ↔ isValidBufferSize s.buffer.size = true ∧
      (∃ name, s.acc.kernelNames[i]? = some name ∧
        Stores s.acc.chosenBackend.isSimulator s.buffer.size name
          (s.acc.measurementSupports.getD i []) qasm c) ∧
      readSupports i s = .ok (s.acc.measurementSupports.getD i []) s' := by
  rw [storeResult, Exec.get_bind, Exec.bind_of_ok (readSupports_eq _ _), readSupports_eq,
    Exec.demand_bind_ok]
  simp only [createBuffer_bind_ok, Exec.demand_bind_ok, Exec.pure_apply,
    EStateM.Result.ok.injEq, true_and]
  constructor
  · rintro ⟨name, hname, hvalid, time, htime, counts, hcounts, decoded, hdecoded, rfl, rfl⟩
    exact ⟨hvalid, ⟨name, hname, time, counts, decoded, htime, hcounts, hdecoded, rfl⟩, rfl⟩
  · rintro ⟨hvalid, ⟨name, hname, time, counts, decoded, htime, hcounts, hdecoded, rfl⟩, rfl⟩
    exact ⟨name, hname, hvalid, time, htime, counts, hcounts, decoded, hdecoded, rfl, rfl⟩

/-- The first of several results is delivered, and then the others. -/
theorem deliversEach_cons {backend : IBMBackend} {names : List String}
    {supports : Nat → List Nat} {b : AcceleratorBuffer} {i : Nat} {qasm : Json}
    {rest : List Json} {bs : List AcceleratorBuffer} :
    DeliversEach backend names supports b i (qasm :: rest) bs ↔
      isValidBufferSize b.size = true ∧ ∃ c bs', bs = c :: bs' ∧
        (∃ name, names[i]? = some name ∧
          Stores backend.isSimulator b.size name (supports i) qasm c) ∧
        DeliversEach backend names supports b (i + 1) rest bs' := by
  constructor
  · rintro ⟨hvalid, hlen, hall⟩
    have hsize : isValidBufferSize b.size = true := by simpa using hvalid
    cases bs with
    | nil => simp at hlen
    | cons c bs' =>
        refine ⟨hsize, c, bs', rfl, hall 0 qasm c rfl rfl, .inr hsize, by simpa using hlen, ?_⟩
        intro j q c' hq hc'
        have hj := hall (j + 1) q c' (by simpa using hq) (by simpa using hc')
        rwa [Nat.add_assoc, Nat.add_comm 1 j]
  · rintro ⟨hsize, c, bs', rfl, hfirst, _, hlen, hall⟩
    refine ⟨.inr hsize, by simp [hlen], fun j q c' hq hc' => ?_⟩
    cases j with
    | zero =>
        cases hq
        cases hc'
        exact hfirst
    | succ j =>
        have hj := hall j q c' (by simpa using hq) (by simpa using hc')
        rwa [Nat.add_assoc, Nat.add_comm 1 j] at hj

theorem storeResults_replies (i : Nat) (qasms : List Json) :
    Exec.Keeps Session.replies (storeResults i qasms) := by
  have hcreate : ∀ name size, Exec.Keeps Session.replies
      (createBuffer name size : Exec Session AcceleratorBuffer) :=
    fun name size => .ite (.pure _) (.throw _)
  have hread : ∀ i, Exec.Keeps Session.replies (readSupports i) := fun i s => rfl
  induction qasms generalizing i with
  | nil => exact .pure _
  | cons qasm rest ih =>
      exact .bind (.bind .get fun _ => .bind (hread i) fun _ => .bind (.demand _) fun _ =>
        .bind (hcreate _ _) fun _ => .bind (.demand _) fun _ => .bind (.demand _) fun _ =>
          .bind (.demand _) fun _ => .pure _) fun _ => .bind (ih (i + 1)) fun _ => .pure _

/-- Several results, read from a number on. -/
theorem storeResults_ok_iff {i : Nat} {qasms : List Json} {s : Session}
    {bs : List AcceleratorBuffer} :
    (∃ s', storeResults i qasms s = .ok bs s') ↔
      DeliversEach s.acc.chosenBackend s.acc.kernelNames
        (fun k => s.acc.measurementSupports.getD k []) s.buffer i qasms bs := by
  induction qasms generalizing i s bs with
  | nil =>
      constructor
      · rintro ⟨s', h⟩
        cases h
        exact ⟨.inl rfl, rfl, fun j qasm c h => by simp at h⟩
      · rintro ⟨_, hlen, _⟩
        obtain rfl := List.length_eq_zero_iff.mp hlen
        exact ⟨s, rfl⟩
  | cons qasm rest ih =>
      -- what the first result leaves for the others
      have hleaves : ∀ {s1 : Session},
          readSupports i s = .ok (s.acc.measurementSupports.getD i []) s1 → ∀ bs',
            DeliversEach s1.acc.chosenBackend s1.acc.kernelNames
                (fun k => s1.acc.measurementSupports.getD k []) s1.buffer (i + 1) rest bs' ↔
              DeliversEach s.acc.chosenBackend s.acc.kernelNames
                (fun k => s.acc.measurementSupports.getD k []) s.buffer (i + 1) rest bs' := by
        intro s1 hread bs'
        rw [readSupports_eq] at hread
        cases hread
        simp only [StdMap.getD_insert]
      rw [deliversEach_cons]
      constructor
      · rintro ⟨s', h⟩
        rw [storeResults, Exec.bind_ok] at h
        obtain ⟨c, s1, hc, h⟩ := h
        rw [Exec.bind_ok] at h
        obtain ⟨bs', s2, hbs, h⟩ := h
        cases h
        obtain ⟨hsize, hfirst, hread⟩ := storeResult_ok_iff.mp hc
        exact ⟨hsize, c, bs', rfl, hfirst, (hleaves hread bs').mp (ih.mp ⟨s', hbs⟩)⟩
      · rintro ⟨hsize, c, bs', rfl, hfirst, hrest⟩
        have hc := storeResult_ok_iff.mpr ⟨hsize, hfirst, readSupports_eq i s⟩
        obtain ⟨s', hbs⟩ := ih.mpr ((hleaves (readSupports_eq i s) bs').mpr hrest)
        refine ⟨s', ?_⟩
        rw [storeResults, Exec.bind_of_ok hc, Exec.bind_of_ok hbs]
        rfl

theorem calibrated_size (backend : IBMBackend) (b : AcceleratorBuffer) :
    (calibrated backend b).size = b.size := by
  unfold calibrated
  split <;> rfl

theorem deliversEach_calibrated {backend : IBMBackend} {names : List String}
    {supports : Nat → List Nat} {b : AcceleratorBuffer} {i : Nat} {qasms : List Json}
    {bs : List AcceleratorBuffer} :
    DeliversEach backend names supports (calibrated backend b) i qasms bs ↔
      DeliversEach backend names supports b i qasms bs := by
  rw [DeliversEach, DeliversEach, calibrated_size]

theorem storeSeveral_ok_iff {qasms : List Json} {s : Session} {bs : List AcceleratorBuffer}
    {b' : AcceleratorBuffer} :
    (∃ s', storeSeveral qasms s = .ok bs s' ∧ s'.buffer = b') ↔
      DeliversEach s.acc.chosenBackend s.acc.kernelNames
          (fun k => s.acc.measurementSupports.getD k []) s.buffer 0 qasms bs ∧
        b' = calibrated s.acc.chosenBackend s.buffer := by
  rw [← deliversEach_calibrated]
  have hstart : storeSeveral qasms s = storeResults 0 qasms
      { s with buffer := calibrated s.acc.chosenBackend s.buffer } := by
    rw [storeSeveral, Exec.bind_of_ok (attachCalibration_eq s)]
  rw [hstart]
  constructor
  · rintro ⟨s', h, rfl⟩
    have hbuffer := congrArg (fun v => v.2.1) ((storeResults_keeps 0 qasms).of_ok h)
    exact ⟨storeResults_ok_iff.mp ⟨s', h⟩, hbuffer⟩
  · rintro ⟨hall, rfl⟩
    obtain ⟨s', h⟩ := (storeResults_ok_iff
      (s := { s with buffer := calibrated s.acc.chosenBackend s.buffer })).mpr hall
    have hbuffer := congrArg (fun v => v.2.1) ((storeResults_keeps 0 qasms).of_ok h)
    exact ⟨s', h, hbuffer⟩

theorem storeResultsOf_replies (qasms : List Json) :
    Exec.Keeps Session.replies (storeResultsOf qasms) := by
  have hbuffer : ∀ f, Exec.Keeps Session.replies (onBuffer f) := fun _ => .modify fun _ => rfl
  have hcalibration : Exec.Keeps Session.replies attachCalibration := by
    intro s
    rw [attachCalibration_eq]
    rfl
  unfold storeResultsOf
  split
  · exact .bind .get fun _ => .bind (.demand _) fun _ => .bind (hbuffer _) fun _ =>
      .bind (.demand _) fun _ => .bind (hbuffer _) fun _ => .bind (.demand _) fun _ =>
        .bind (hbuffer _) fun _ => .bind hcalibration fun _ => .pure _
  · exact .bind hcalibration fun _ => storeResults_replies 0 qasms

/-- **Storing the results of a job** ends well when they can be delivered. -/
theorem storeJob_ok_iff {qasms : List Json} {s s' : Session} {bs : List AcceleratorBuffer} :
    storeJob qasms s = .ok bs s' ↔ ∃ b',
      Delivers s.acc.chosenBackend s.acc.kernelNames
          (fun k => s.acc.measurementSupports.getD k []) s.buffer qasms bs b' ∧
        s' = { s with acc := withoutSupports s.acc, buffer := b' } := by
  have hof : ∀ {b' : AcceleratorBuffer},
      (∃ s1, storeResultsOf qasms s = .ok bs s1 ∧ s1.buffer = b') ↔
        Delivers s.acc.chosenBackend s.acc.kernelNames
          (fun k => s.acc.measurementSupports.getD k []) s.buffer qasms bs b' := by
    intro b'
    match qasms with
    | [] => exact storeSeveral_ok_iff
    | [qasm] =>
        constructor
        · rintro ⟨s1, h, rfl⟩
          obtain ⟨b', hb', rfl⟩ := storeAlone_ok_iff.mp h
          exact hb'
        · intro hb'
          exact ⟨_, storeAlone_ok_iff.mpr ⟨b', hb', rfl⟩, rfl⟩
    | _ :: _ :: _ => exact storeSeveral_ok_iff
  -- what is left to clear
  have hend : ∀ {s1 : Session}, storeResultsOf qasms s = .ok bs s1 →
      { s1 with acc := withoutSupports s1.acc }
        = { s with acc := withoutSupports s.acc, buffer := s1.buffer } := by
    intro s1 h
    have hacc : withoutSupports s1.acc = withoutSupports s.acc :=
      congrArg Prod.fst ((storeResultsOf_keeps qasms).of_ok h)
    have hreplies : s1.replies = s.replies := (storeResultsOf_replies qasms).of_ok h
    rw [hacc, hreplies]
  constructor
  · intro h
    rw [storeJob, Exec.bind_ok] at h
    obtain ⟨bs', s1, hstore, h⟩ := h
    cases h
    exact ⟨s1.buffer, hof.mp ⟨s1, hstore, rfl⟩, hend hstore⟩
  · rintro ⟨b', hb', rfl⟩
    obtain ⟨s1, hstore, rfl⟩ := hof.mpr hb'
    rw [← hend hstore, storeJob, Exec.bind_of_ok hstore]
    rfl

end IBMAccelerator

/-! ## A whole run -/

namespace Run

open IBMAccelerator

variable {P : Type}

/-- The names that the object remembers when the results of a run come. -/
def names (r : Run P) (acc : IBMAccelerator) : List String :=
  acc.kernelNames ++ r.functions.map Kernel.name

/-- The measured qubits that it remembers under a number. -/
def supports (r : Run P) (acc : IBMAccelerator) (k : Nat) : List Nat :=
  acc.measurementSupports.getD k [] ++ (r.functions[k]?.map Kernel.measuredQubits).getD []

/-- The object after a run that has returned. -/
def finished (r : Run P) (acc : IBMAccelerator) : IBMAccelerator :=
  { choose r.options acc with kernelNames := r.names acc, measurementSupports := ∅ }

variable [ToString P]

/-- **The service answers a run** with results: the job is built, the device is
on, the job is taken, and it is done. -/
def Answered (r : Run P) (acc : IBMAccelerator) (later : Replies) (qasms : List Json) : Prop :=
  admitted acc r.options r.functions = true ∧
    ∃ texts response jobId waiting,
      List.Forall₂ (fun kernel t => kernel.Adds r.buffer.size t) r.functions texts ∧
      DeviceOn acc r.options r.replies waiting ∧
      r.post (jobOf r.options r.pulseLibrary r.functions texts) = .ok response ∧
      Posted response jobId ∧ JobDone acc jobId waiting later qasms

theorem awaited_ok_iff {r : Run P} {acc : IBMAccelerator} {later : Replies}
    {qasms : List Json} :
    (∃ s, r.awaited (r.start acc) = .ok qasms s ∧ s.replies = later) ↔
      r.Answered acc later qasms := by
  have hframe : ∀ {text : String} {s1 : Session},
      processInput r.options r.pulseLibrary r.functions (r.start acc) = .ok text s1 →
        withoutLoop s1.acc = withoutLoop (choose r.options acc) := by
    intro text s1 hin
    have hframe := processInput_frame r.options r.pulseLibrary r.functions (r.start acc)
    rw [hin] at hframe
    exact congrArg Prod.fst hframe
  constructor
  · rintro ⟨s, h, rfl⟩
    rw [awaited, Exec.bind_ok] at h
    obtain ⟨text, s1, hin, h⟩ := h
    obtain ⟨response, hpost, h⟩ := Exec.reply_bind_ok.mp h
    obtain ⟨jobId, later, hposted, hdone, rfl⟩ := awaitJob_ok_iff.mp h
    obtain ⟨hadmitted, hon, texts, hall, rfl⟩ := processInput_ok_iff.mp ⟨s1, hin, rfl⟩
    exact ⟨hadmitted, texts, response, jobId, s1.replies, hall, hon, hpost, hposted,
      (JobDone.congr (hframe hin)).mp hdone⟩
  · rintro ⟨hadmitted, texts, response, jobId, waiting, hall, hon, hpost, hposted, hdone⟩
    obtain ⟨s1, hin, rfl⟩ := (processInput_ok_iff (s := r.start acc)).mpr
      ⟨hadmitted, hon, texts, hall, rfl⟩
    have hawait : awaitJob response s1 = .ok qasms { s1 with replies := later } :=
      awaitJob_ok_iff.mpr ⟨jobId, later, hposted, (JobDone.congr (hframe hin)).mpr hdone, rfl⟩
    refine ⟨{ s1 with replies := later }, ?_, rfl⟩
    rw [awaited, Exec.bind_of_ok hin, hpost]
    exact hawait

/-- The object when the results of a job have come. -/
theorem awaited_object {r : Run P} {acc : IBMAccelerator} {qasms : List Json} {s : Session}
    (h : r.awaited (r.start acc) = .ok qasms s) :
    s.buffer = r.buffer ∧ s.acc.chosenBackend = (choose r.options acc).chosenBackend ∧
      s.acc.kernelNames = r.names acc ∧
      (fun k => s.acc.measurementSupports.getD k []) = r.supports acc ∧
      withoutSupports s.acc = r.finished acc := by
  obtain ⟨hbuffer, hloop, hnames, hsupports⟩ := awaited_ok h
  refine ⟨hbuffer, congrArg (fun a => a.chosenBackend) hloop, hnames, funext hsupports, ?_⟩
  have hsplit : withoutSupports s.acc
      = { withoutLoop s.acc with kernelNames := s.acc.kernelNames } := rfl
  rw [hsplit, hloop, hnames]
  rfl

end Run

end XaccIbm
