import XaccIbm.IBMAccelerator.ProcessResponse
import XaccIbm.Lib.Decision

/-!
# IBMAccelerator — Polling

The loop of `processResponse` that waits for the job. It searches the text of
a reply for the words of two statuses, wherever they stand, and reads the
progress report of every reply it goes on from. The status itself is a member
of the document: the loop follows it as long as the words stand in a reply
when they are its status, and the report can be read.
-/

namespace XaccIbm

open StdString

namespace Session

/-- These texts are the replies still to come. -/
def asking (s : Session) (texts : List String) : Session :=
  { s with replies := texts.map fun text _ _ => .ok text }

theorem asking_inj {s : Session} {texts texts' : List String}
    (h : s.asking texts = s.asking texts') : texts = texts' := by
  have hreplies := congrArg Session.replies h
  refine List.map_injective_iff.mpr (fun text text' htext => ?_) hreplies
  have happly := congrFun (congrFun htext "") ""
  cases happly
  rfl

theorem restGet_asking (s : Session) (url path text : String) (texts : List String) :
    restGet url path (s.asking (text :: texts)) = .ok text (s.asking texts) := rfl

end Session

namespace IBMAccelerator

open Session

def completed : String := "COMPLETED"

def errorRunningJob : String := "ERROR_RUNNING_JOB"

/-- The exception of a job that failed. -/
def jobFailed : Failure := .error "Error encountered running IBM job."

/-- The documents of a job's results, in the text of a reply. -/
def resultsOf (text : String) : Option (List Json) :=
  ((Json.parse text).bind fun d => d.get? "qasms").bind Json.elems?

/-- What follows the loop: the results of a reply are stored. -/
def decodeFrom (text : String) : Exec Session (List AcceleratorBuffer) := do
  let qasms ← Exec.demand (resultsOf text)
  storeJob qasms

/-- The path of the requests for a job. -/
def jobPath (acc : IBMAccelerator) (jobId : String) : String :=
  "/api/Jobs/" ++ jobId ++ "?access_token=" ++ acc.currentApiToken

/-- The reply to the POST of a job: no error, and the number of the job. -/
def Posted (response jobId : String) : Prop :=
  contains response "error" = false ∧
    ((Json.parse response).bind fun d => d.get? "id").bind Json.str? = some jobId

/-! ## What a reply decides -/

/-- The status of a reply ends the waiting. -/
def Decides (text : String) : Prop :=
  statusOf text = some completed ∨ statusOf text = some errorRunningJob

/-- The queue of a reply, when there is one, has a status and no position but
a number. -/
def QueueReadable (text : String) : Prop :=
  ∀ d info, Json.parse text = some d → d.get? "infoQueue" = some info →
    (∃ status, info.get? "status" = some (.str status)) ∧
      ∀ position, info.get? "position" = some position → ∃ n, position.int? = some n

/-- **The words of a reply are its status**: the two words the loop searches
for stand in the text exactly when they are the status, and the report of a
job that has not failed can be read. -/
structure SaysStatus (text : String) : Prop where
  failed : contains text errorRunningJob = true ↔ statusOf text = some errorRunningJob
  queue : statusOf text ≠ some errorRunningJob → QueueReadable text
  done : statusOf text ≠ some errorRunningJob →
    (contains text completed = true ↔ statusOf text = some completed)

/-- **The loop follows the status** of the replies: it ends with the first
reply that is completed, raises an exception at the first that has failed, and
keeps asking before either. -/
structure FollowsStatus (getPath : String) (s : Session) (texts : List String) : Prop where
  completes : ∀ earlier text later, texts = earlier ++ text :: later →
    (∀ t ∈ earlier, ¬ Decides t) → statusOf text = some completed →
      pollJob getPath (texts.length + 1) (s.asking texts) = .ok text (s.asking later)
  fails : ∀ earlier text later, texts = earlier ++ text :: later →
    (∀ t ∈ earlier, ¬ Decides t) → statusOf text = some errorRunningJob →
      pollJob getPath (texts.length + 1) (s.asking texts) = .error jobFailed (s.asking later)
  waits : (∀ t ∈ texts, ¬ Decides t) →
    pollJob getPath (texts.length + 1) (s.asking texts) = .error .waiting (s.asking [])

/-- Whether the report of a reply can be read. -/
def reportReadable (text : String) : Bool := ((Json.parse text).bind reports).isSome

/-- What the loop makes of a reply. -/
def loopTest (text : String) : Option (Except Failure String) :=
  if contains text errorRunningJob then some (.error jobFailed)
  else if reportReadable text then
    if contains text completed then some (.ok text) else none
  else some (.error .undefined)

/-- What the status of a reply says. -/
def statusTest (text : String) : Option (Except Failure String) :=
  if statusOf text = some errorRunningJob then some (.error jobFailed)
  else if statusOf text = some completed then some (.ok text)
  else none

theorem statusTest_of_completed {text : String} (h : statusOf text = some completed) :
    statusTest text = some (.ok text) := by
  rw [statusTest, h]
  rfl

theorem statusTest_of_failed {text : String} (h : statusOf text = some errorRunningJob) :
    statusTest text = some (.error jobFailed) := by
  rw [statusTest, if_pos h]

theorem statusTest_eq_none {text : String} : statusTest text = none ↔ ¬ Decides text := by
  unfold statusTest Decides
  split
  · rename_i h
    simp [h]
  · rename_i herror
    split
    · rename_i h
      simp [h]
    · rename_i h
      simp [herror, h]

theorem isSome_bind_str {o : Option Json} :
    (o.bind Json.str?).isSome = true ↔ ∃ status, o = some (.str status) := by
  rcases o with _ | j
  · simp
  · cases j <;> simp [Json.str?]

theorem reports_isSome {d : Json} :
    (reports d).isSome = true ↔ (∃ status, d.get? "status" = some (.str status)) ∧
      ∀ info, d.get? "infoQueue" = some info →
        (∃ status, info.get? "status" = some (.str status)) ∧
          ∀ position, info.get? "position" = some position → ∃ n, position.int? = some n := by
  rw [← isSome_bind_str, reports]
  cases hstatus : (d.get? "status").bind Json.str? with
  | none => simp
  | some status =>
      cases hinfo : d.get? "infoQueue" with
      | none => simp
      | some info =>
          have hall : ∀ p : Json → Prop, (∀ j, some info = some j → p j) ↔ p info :=
            fun p => ⟨fun h => h info rfl, fun h j hj => Option.some.inj hj ▸ h⟩
          rw [hall, ← isSome_bind_str]
          cases hqueue : (info.get? "status").bind Json.str? with
          | none => simp [hqueue]
          | some queue =>
              cases hposition : info.get? "position" with
              | none => simp [hqueue, hposition]
              | some position =>
                  cases hn : position.int? <;> simp [hqueue, hposition, hn]

/-- A document with a status has a report that can be read when its queue is
readable. -/
theorem reportReadable_iff {text : String} (h : (statusOf text).isSome = true) :
    reportReadable text = true ↔ QueueReadable text := by
  rw [statusOf] at h
  rw [reportReadable, QueueReadable]
  cases hparse : Json.parse text with
  | none =>
      rw [hparse] at h
      cases h
  | some d =>
      rw [hparse, Option.bind_some] at h
      rw [Option.bind_some, reports_isSome, and_iff_right (isSome_bind_str.mp h)]
      constructor
      · intro hqueue e info he
        cases he
        exact hqueue info
      · intro hqueue info
        exact hqueue d info rfl

/-- Of a job that has failed nothing but the word is looked at. -/
theorem loopTest_eq_iff_of_failed {text : String}
    (hfailed : statusOf text = some errorRunningJob) :
    loopTest text = statusTest text ↔ contains text errorRunningJob = true := by
  have hne : jobFailed ≠ .undefined := nofun
  rw [statusTest_of_failed hfailed]
  constructor
  · intro heq
    by_contra hword
    rw [loopTest, if_neg hword] at heq
    split at heq
    · split at heq <;> cases heq
    · exact hne (Except.error.inj (Option.some.inj heq)).symm
  · intro hword
    rw [loopTest, if_pos hword]

/-- Of a job that has not failed the word is not there, the report can be read,
and the other word says whether it is completed. -/
theorem loopTest_eq_iff_of_not_failed {text : String}
    (hfailed : statusOf text ≠ some errorRunningJob) :
    loopTest text = statusTest text ↔ contains text errorRunningJob ≠ true ∧
      reportReadable text = true ∧
      (contains text completed = true ↔ statusOf text = some completed) := by
  rw [statusTest, if_neg hfailed]
  by_cases hword : contains text errorRunningJob = true
  · rw [loopTest, if_pos hword]
    apply iff_of_false
    · split <;> simp
    · exact fun hs => hs.1 hword
  · rw [loopTest, if_neg hword, and_iff_right hword]
    by_cases hqueue : reportReadable text = true
    · rw [if_pos hqueue, and_iff_right hqueue]
      by_cases hdone : contains text completed = true <;>
        by_cases hstatus : statusOf text = some completed <;> simp [hdone, hstatus]
    · rw [if_neg hqueue]
      apply iff_of_false
      · split <;> simp
      · exact fun hs => hqueue hs.1

/-- **One reply**: the loop and the status agree. -/
theorem loopTest_eq_iff {text : String} (h : (statusOf text).isSome = true) :
    loopTest text = statusTest text ↔ SaysStatus text := by
  by_cases hfailed : statusOf text = some errorRunningJob
  · rw [loopTest_eq_iff_of_failed hfailed]
    constructor
    · intro hword
      exact ⟨iff_of_true hword hfailed, absurd hfailed, absurd hfailed⟩
    · intro htells
      exact htells.failed.mpr hfailed
  · rw [loopTest_eq_iff_of_not_failed hfailed, reportReadable_iff h]
    constructor
    · rintro ⟨hword, hqueue, hdone⟩
      exact ⟨iff_of_false hword hfailed, fun _ => hqueue, fun _ => hdone⟩
    · intro htells
      have hword : contains text errorRunningJob ≠ true :=
        fun hword => hfailed (htells.failed.mp hword)
      exact ⟨hword, htells.queue hfailed, htells.done hfailed⟩

/-! ## The loop -/

/-- **One round** of the loop. -/
theorem pollJob_round (getPath : String) (s : Session) (text : String) (texts : List String)
    (fuel : Nat) :
    pollJob getPath (fuel + 1) (s.asking (text :: texts)) =
      match loopTest text with
      | some (.ok t) => .ok t (s.asking texts)
      | some (.error e) => .error e (s.asking texts)
      | none => pollJob getPath fuel (s.asking texts) := by
  rw [pollJob, Exec.get_bind, Exec.bind_of_ok (restGet_asking s _ _ text texts), loopTest,
    reportReadable]
  by_cases hword : contains text errorRunningJob = true
  · rw [if_pos hword]
    exact congrFun (if_pos hword) _
  · rw [if_neg hword]
    refine (congrFun (if_neg hword) _).trans ?_
    cases hparse : Json.parse text with
    | none => rfl
    | some d =>
        rw [Exec.bind_of_ok (Exec.demand_some d _), Option.bind_some]
        cases hreport : reports d with
        | none => rfl
        | some report =>
            rw [Exec.bind_of_ok (Exec.demand_some report _)]
            by_cases hdone : contains text completed = true
            · simp only [Option.isSome_some, if_true, if_pos hdone]
              exact congrFun (if_pos hdone) _
            · simp only [Option.isSome_some, if_true, if_neg hdone]
              exact congrFun (if_neg hdone) _

/-- How a loop ends that asks until a test decides. -/
def ending (test : String → Option (Except Failure String)) (s : Session)
    (texts : List String) : EStateM.Result Failure Session String :=
  match Decision.first test texts with
  | none => .error .waiting (s.asking [])
  | some (.ok text, later) => .ok text (s.asking later)
  | some (.error e, later) => .error e (s.asking later)

/-- **The loop asks until its test decides.** -/
theorem pollJob_eq (getPath : String) (s : Session) {texts : List String} {fuel : Nat}
    (hfuel : texts.length < fuel) :
    pollJob getPath fuel (s.asking texts) = ending loopTest s texts := by
  induction texts generalizing fuel with
  | nil =>
      obtain ⟨fuel, rfl⟩ : ∃ n, fuel = n + 1 := ⟨fuel - 1, by omega⟩
      rfl
  | cons text texts ih =>
      obtain ⟨fuel, rfl⟩ : ∃ n, fuel = n + 1 := ⟨fuel - 1, by omega⟩
      rw [pollJob_round, ending]
      cases htest : loopTest text with
      | none =>
          rw [Decision.first_cons_of_none htest]
          exact ih (by simpa using hfuel)
      | some decision =>
          rw [Decision.first_cons_of_some htest]
          cases decision <;> rfl

theorem loopTest_ne_waiting {text : String} : loopTest text ≠ some (.error .waiting) := by
  unfold loopTest jobFailed
  split
  · simp
  · split
    · split <;> simp
    · simp

theorem statusTest_ne_waiting {text : String} :
    statusTest text ≠ some (.error .waiting) := by
  unfold statusTest jobFailed
  split
  · simp
  · split <;> simp

/-- Different ends can be told apart: the replies that are left tell how far
the loop came. -/
theorem ending_inj {f g : String → Option (Except Failure String)} {s : Session}
    {texts : List String} (hf : ∀ text, f text ≠ some (.error .waiting))
    (hg : ∀ text, g text ≠ some (.error .waiting))
    (h : ending f s texts = ending g s texts) :
    Decision.first f texts = Decision.first g texts := by
  have hwaiting : ∀ {test : String → Option (Except Failure String)} {e later},
      (∀ text, test text ≠ some (.error .waiting)) →
        Decision.first test texts = some (.error e, later) → e ≠ .waiting := by
    rintro test e later htest hfirst rfl
    obtain ⟨_, text, _, _, hdecides⟩ := Decision.first_eq_some_iff.mp hfirst
    exact htest text hdecides
  unfold ending at h
  rcases hx : Decision.first f texts with _ | ⟨e | t, later⟩ <;>
    rcases hy : Decision.first g texts with _ | ⟨e' | t', later'⟩ <;>
      simp only [hx, hy, EStateM.Result.ok.injEq, EStateM.Result.error.injEq, reduceCtorEq] at h
  · rfl
  · exact absurd h.1.symm (hwaiting hg hy)
  · exact absurd h.1 (hwaiting hf hx)
  · rw [h.1, asking_inj h.2]
  · rw [h.1, asking_inj h.2]

/-- Following the status is ending as it says. -/
theorem followsStatus_iff_ending {getPath : String} {s : Session} {texts : List String} :
    FollowsStatus getPath s texts ↔
      pollJob getPath (texts.length + 1) (s.asking texts) = ending statusTest s texts := by
  have hnone : ∀ {earlier : List String}, (∀ t ∈ earlier, ¬ Decides t) →
      ∀ t ∈ earlier, statusTest t = none :=
    fun h t ht => statusTest_eq_none.mpr (h t ht)
  constructor
  · intro h
    rw [ending]
    cases hfirst : Decision.first statusTest texts with
    | none =>
        rw [Decision.first_eq_none_iff] at hfirst
        exact h.waits fun t ht => statusTest_eq_none.mp (hfirst t ht)
    | some p =>
        obtain ⟨decision, later⟩ := p
        obtain ⟨earlier, text, hsplit, hearlier, hdecision⟩ :=
          Decision.first_eq_some_iff.mp hfirst
        have hundecided : ∀ t ∈ earlier, ¬ Decides t :=
          fun t ht => statusTest_eq_none.mp (hearlier t ht)
        unfold statusTest at hdecision
        split at hdecision
        · rename_i hfailed
          cases hdecision
          exact h.fails earlier text later hsplit hundecided hfailed
        · split at hdecision
          · rename_i hdone
            cases hdecision
            exact h.completes earlier text later hsplit hundecided hdone
          · cases hdecision
  · intro h
    refine ⟨?_, ?_, ?_⟩
    · intro earlier text later hsplit hearlier hdone
      rw [h, ending, Decision.first_eq_some_iff.mpr
        ⟨earlier, text, hsplit, hnone hearlier, statusTest_of_completed hdone⟩]
    · intro earlier text later hsplit hearlier hfailed
      rw [h, ending, Decision.first_eq_some_iff.mpr
        ⟨earlier, text, hsplit, hnone hearlier, statusTest_of_failed hfailed⟩]
    · intro hall
      rw [h, ending, Decision.first_eq_none_iff.mpr (hnone hall)]

/-- When the loop follows the status. -/
theorem followsStatus_iff {getPath : String} {s : Session} {texts : List String}
    (hdocs : ∀ text ∈ texts, (statusOf text).isSome = true) :
    FollowsStatus getPath s texts ↔ ∀ earlier text later, texts = earlier ++ text :: later →
      (∀ t ∈ earlier, ¬ Decides t) → SaysStatus text := by
  have hfirst : pollJob getPath (texts.length + 1) (s.asking texts)
        = ending statusTest s texts ↔
      Decision.first loopTest texts = Decision.first statusTest texts := by
    rw [pollJob_eq getPath s (Nat.lt_succ_self _)]
    constructor
    · exact ending_inj (fun _ => loopTest_ne_waiting) fun _ => statusTest_ne_waiting
    · intro h
      rw [ending, ending, h]
  rw [followsStatus_iff_ending, hfirst, Decision.first_eq_iff]
  refine forall_congr' fun earlier => forall_congr' fun text => forall_congr' fun later =>
    forall_congr' fun hsplit => ?_
  rw [loopTest_eq_iff (hdocs text (by simp [hsplit]))]
  exact imp_congr_left (forall₂_congr fun t _ => statusTest_eq_none)

/-- The results that are decoded are those of the reply the loop ends with. -/
theorem processResponse_asking {response jobId : String} (hposted : Posted response jobId)
    (s : Session) (unread : String) (texts : List String) :
    processResponse response (s.asking (unread :: texts))
      = (pollJob (jobPath s.acc jobId) (texts.length + 1) >>= decodeFrom) (s.asking texts) := by
  obtain ⟨hnoError, hjobId⟩ := hposted
  have hid : (Exec.demand (((Json.parse response).bind fun d => d.get? "id").bind Json.str?) :
      Exec Session String) = pure jobId := by
    rw [hjobId]
    rfl
  have hlength : (s.asking (unread :: texts)).replies.length = texts.length + 1 := by
    simp [Session.asking]
  rw [processResponse, awaitJob, if_neg (by simp [hnoError]), hid, Exec.bind_apply,
    Exec.get_bind]
  rw [Exec.bind_of_ok (Exec.pure_apply jobId _), Exec.bind_of_ok (restGet_asking s _ _ _ _),
    hlength]
  have hpath : "/api/Jobs/" ++ jobId ++ "?access_token="
      ++ (s.asking (unread :: texts)).acc.currentApiToken = jobPath s.acc jobId := rfl
  rw [hpath, Exec.bind_apply, Exec.bind_apply]
  cases pollJob (jobPath s.acc jobId) (texts.length + 1) (s.asking texts) with
  | error e s' => rfl
  | ok text s' => exact (Exec.bind_apply _ _ _).symm

/-- **Waiting for a job.** The first reply is not looked at, and what is
decoded is the reply the loop ends with. On replies that are documents with a
status the loop follows the status if and only if each, up to the first whose
status decides, says its status as the loop reads it. -/
theorem processResponse_followsStatus_iff {response jobId : String}
    (hposted : Posted response jobId) (s : Session) (unread : String)
    {texts : List String} (hdocs : ∀ text ∈ texts, (statusOf text).isSome = true) :
    processResponse response (s.asking (unread :: texts))
        = (pollJob (jobPath s.acc jobId) (texts.length + 1) >>= decodeFrom) (s.asking texts) ∧
      (FollowsStatus (jobPath s.acc jobId) s texts ↔
        ∀ earlier text later, texts = earlier ++ text :: later →
          (∀ t ∈ earlier, ¬ Decides t) → SaysStatus text) :=
  ⟨processResponse_asking hposted s unread texts, followsStatus_iff hdocs⟩

/-! ## A queue whose own status is a word of the search -/

/-- The job is running; an entry of its queue is completed. -/
def runningText : String :=
  "\x7b\"status\": \"RUNNING\", \"infoQueue\": \x7b\"status\": \"COMPLETED\"\x7d\x7d"

/-- The job waits in a queue. -/
def queuedText : String :=
  "\x7b\"status\": \"RUNNING\", \"infoQueue\": " ++
    "\x7b\"status\": \"PENDING_IN_QUEUE\", \"position\": 3\x7d\x7d"

/-- The job is completed. -/
def doneText : String := "\x7b\"status\": \"COMPLETED\", \"qasms\": []\x7d"

/-- A session of a fresh accelerator. -/
def waitingSession : Session where
  acc := {}
  buffer := { name := "q", size := 2 }
  replies := []

/-- The loop ends with the job that is still running. -/
theorem running_not_followsStatus :
    ¬ ∀ (jobId : String) (s : Session) (texts : List String),
        (∀ text ∈ texts, (statusOf text).isSome = true) →
        FollowsStatus (jobPath s.acc jobId) s texts := by
  intro h
  have hdocs : ∀ text ∈ [runningText, doneText], (statusOf text).isSome = true := by
    decide +kernel
  have hword : contains runningText completed = true := by decide +kernel
  have hstatus : statusOf runningText = some "RUNNING" := by decide +kernel
  have htells := (followsStatus_iff hdocs).mp (h "1" waitingSession _ hdocs)
    [] runningText [doneText] rfl (by simp)
  have hrunning := (htells.done (by rw [hstatus]; decide)).mp hword
  rw [hstatus] at hrunning
  exact absurd hrunning (by decide)

/-- The theorem at a job that waits in the queue and is then completed. -/
theorem processResponse_followsStatus_queued :
    pollJob (jobPath waitingSession.acc "1") 3 (waitingSession.asking [queuedText, doneText])
      = .ok doneText (waitingSession.asking []) := by
  have hposted : Posted "\x7b\"id\": \"1\"\x7d" "1" := by
    constructor <;> decide +kernel
  have hdocs : ∀ text ∈ [queuedText, doneText], (statusOf text).isSome = true := by
    decide +kernel
  have htests : ∀ text ∈ [queuedText, doneText], loopTest text = statusTest text := by
    decide +kernel
  have hfollows := (processResponse_followsStatus_iff hposted waitingSession "" hdocs).2.mpr
    (by
      intro earlier text later hsplit _
      have hmem : text ∈ [queuedText, doneText] := by simp [hsplit]
      exact (loopTest_eq_iff (hdocs text hmem)).mp (htests text hmem))
  apply hfollows.completes [queuedText] doneText [] rfl
  · intro text htext
    rw [List.mem_singleton.mp htext, ← statusTest_eq_none]
    decide +kernel
  · decide +kernel

end IBMAccelerator

end XaccIbm
