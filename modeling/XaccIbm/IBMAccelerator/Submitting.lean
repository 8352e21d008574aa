import XaccIbm.IBMAccelerator.Backends
import XaccIbm.IBMAccelerator.JobText
import XaccIbm.Lib.Asking

/-!
# IBMAccelerator — Submitting

When `processInput` returns a job, and what the job depends on. It returns
when its checks pass, the visitors accept every kernel, and the device is on:
it asks for the device until a reply says so, and for the default backend it
asks for nothing. The text is made of the options, the pulse library, the
functions and the size of the buffer; the accelerator and its past have no
part in it.
-/

namespace XaccIbm.IBMAccelerator

open Session Asking

/-! ## Requests -/

/-- The replies that a session still has. -/
def replyQueue : Queue Session (String → String → Except String String) where
  pending := Session.replies
  leave later s := { s with replies := later }
  pending_leave _ _ := rfl
  leave_pending _ := rfl
  leave_leave _ _ _ := rfl

/-- A reply to a request whose text is as `p` says. -/
def Says (url path : String) (p : String → Prop)
    (reply : String → String → Except String String) : Prop :=
  ∃ text, reply url path = .ok text ∧ p text

theorem restGet_eq (url path : String) :
    restGet url path = ask replyQueue fun reply => reply url path := by
  funext s
  have hpending : replyQueue.pending s = s.replies := rfl
  rw [restGet, ask, hpending]
  cases s.replies with
  | nil => rfl
  | cons reply rest =>
      dsimp only
      cases reply url path <;> rfl

/-! ## The device -/

/-- A text with a status that is not `on`. -/
def Offline (text : String) : Prop := ∃ status, statusOf text = some status ∧ status ≠ "on"

/-- The path of the requests for a device. -/
def devicePath (acc : IBMAccelerator) (backendName : String) : String :=
  if acc.hub = "" then "/api/Backends/" ++ backendName
  else "/api/Network/ibm-q-ornl/devices/" ++ backendName ++
    "?access_token=" ++ acc.currentApiToken

/-- **The device of a job is on**: the replies to the requests for it, up to
the one that says so; these are the replies behind it. -/
def DeviceOn (acc : IBMAccelerator) (options : Options) (replies later : Replies) : Prop :=
  if jobBackend options = defaultBackend then replies = later
  else ∃ earlier on, replies = earlier ++ on :: later ∧
    (∀ reply ∈ earlier,
      Says acc.remoteUrl (devicePath acc (jobBackend options)) Offline reply) ∧
    Says acc.remoteUrl (devicePath acc (jobBackend options))
      (fun text => statusOf text = some "on") on

/-- The choice of the backend and the submission loop change nothing of it. -/
theorem DeviceOn.congr {acc acc' : IBMAccelerator} {options : Options}
    (h : withoutLoop acc = withoutLoop (choose options acc')) {replies later : Replies} :
    DeviceOn acc options replies later ↔ DeviceOn acc' options replies later := by
  have hhub := congrArg (fun a => a.hub) h
  have hurl := congrArg (fun a => a.remoteUrl) h
  have htoken := congrArg (fun a => a.currentApiToken) h
  simp only [withoutLoop, choose] at hhub hurl htoken
  rw [DeviceOn, DeviceOn, devicePath, devicePath, hhub, hurl, htoken]

/-- A device that is on can be asked again, with other replies behind. -/
theorem DeviceOn.exists_replies {acc : IBMAccelerator} {options : Options}
    {replies later : Replies} (h : DeviceOn acc options replies later) :
    ∃ devices : Replies, ∀ rest, DeviceOn acc options (devices ++ rest) rest := by
  unfold DeviceOn at h ⊢
  split at h
  · rename_i hdefault
    exact ⟨[], fun rest => by rw [if_pos hdefault]; rfl⟩
  · rename_i hdefault
    obtain ⟨earlier, on, -, hearlier, hon⟩ := h
    refine ⟨earlier ++ [on], fun rest => ?_⟩
    rw [if_neg hdefault]
    exact ⟨earlier, on, List.append_assoc _ _ _, hearlier, hon⟩

/-- What the loop makes of a text. -/
def deviceTest (text : String) : Option (Except Failure Unit) :=
  match statusOf text with
  | none => some (.error .undefined)
  | some status => if status = "on" then some (.ok ()) else none

theorem deviceTest_eq_none {text : String} : deviceTest text = none ↔ Offline text := by
  rw [deviceTest, Offline]
  cases statusOf text with
  | none => simp
  | some status =>
      by_cases hon : status = "on"
      · simp [hon]
      · simp [hon]

theorem deviceTest_eq_ok {text : String} :
    deviceTest text = some (.ok ()) ↔ statusOf text = some "on" := by
  rw [deviceTest]
  cases statusOf text with
  | none => simp
  | some status =>
      by_cases hon : status = "on"
      · simp [hon]
      · simp [hon]

/-- The loop asks for one path of the account's url. -/
theorem pollDevice_eq (checkBackend : String) (fuel : Nat) (s : Session) :
    pollDevice checkBackend fuel s
      = poll replyQueue (fun reply => reply s.acc.remoteUrl checkBackend) deviceTest fuel s := by
  induction fuel generalizing s with
  | zero => rfl
  | succ fuel ih =>
      rw [pollDevice, poll, Exec.get_bind, restGet_eq, Exec.bind_apply, Exec.bind_apply]
      cases hs : replyQueue.pending s with
      | nil => rw [ask_nil hs]
      | cons reply later =>
          rw [ask_cons hs]
          cases reply s.acc.remoteUrl checkBackend with
          | error msg => rfl
          | ok text =>
              simp only [Exec.reply_ok, deviceTest]
              cases statusOf text with
              | none => rfl
              | some status =>
                  rw [Exec.bind_of_ok (Exec.demand_some status _)]
                  by_cases hon : status = "on"
                  · simp only [if_pos hon]
                  · simp only [if_neg hon]
                    exact ih (replyQueue.leave later s)

/-- **The wait for the device** ends well when the device is on, and at no
other reply. -/
theorem awaitDevice_ok_iff {options : Options} {s s' : Session} :
    awaitDevice (jobBackend options) s = .ok () s' ↔
      ∃ later, DeviceOn s.acc options s.replies later ∧ s' = { s with replies := later } := by
  rw [awaitDevice]
  by_cases hdefault : jobBackend options = defaultBackend
  · rw [if_pos hdefault, Exec.pure_apply]
    simp only [DeviceOn, if_pos hdefault, EStateM.Result.ok.injEq, true_and]
    constructor
    · rintro rfl
      exact ⟨s.replies, rfl, rfl⟩
    · rintro ⟨later, rfl, rfl⟩
      rfl
  · have hfuel : (replyQueue.pending s).length < s.replies.length + 1 := Nat.lt_succ_self _
    simp only [DeviceOn, if_neg hdefault, Exec.get_bind, pollDevice_eq]
    rw [poll_ok_iff hfuel]
    simp only [deviceTest_eq_none, deviceTest_eq_ok]
    constructor
    · rintro ⟨earlier, on, later, hsplit, hearlier, hon, rfl⟩
      exact ⟨later, ⟨earlier, on, hsplit, hearlier, hon⟩, rfl⟩
    · rintro ⟨later, ⟨earlier, on, hsplit, hearlier, hon⟩, rfl⟩
      exact ⟨earlier, on, later, hsplit, hearlier, hon, rfl⟩

/-! ## The job -/

variable {P : Type} [ToString P]

/-- **A kernel has one text**, for a size of the buffer. -/
theorem adds_unique {size : Nat} {kernel : Kernel P} {t t' : String}
    (h : kernel.Adds size t) (h' : kernel.Adds size t') : t = t' := by
  cases kernel with
  | gates f =>
      obtain ⟨v, hv, rfl⟩ := h
      obtain ⟨v', hv', rfl⟩ := h'
      rw [hv] at hv'
      cases hv'
      rfl
  | analog f =>
      obtain ⟨v, hv, rfl⟩ := h
      obtain ⟨v', hv', rfl⟩ := h'
      rw [hv] at hv'
      cases hv'
      rfl

theorem texts_unique {size : Nat} {functions : List (Kernel P)} {ts ts' : List String}
    (h : List.Forall₂ (fun kernel t => kernel.Adds size t) functions ts)
    (h' : List.Forall₂ (fun kernel t => kernel.Adds size t) functions ts') : ts = ts' := by
  induction h generalizing ts' with
  | nil =>
      cases h'
      rfl
  | cons ht _ ih =>
      cases h' with
      | cons ht' hrest => rw [adds_unique ht ht', ih hrest]

/-- A kernel with a text is accepted. -/
theorem accepted_of_adds {size : Nat} {kernel : Kernel P} {t : String}
    (h : kernel.Adds size t) : kernel.accepted size = true := by
  cases kernel with
  | gates f =>
      obtain ⟨v, hv, _⟩ := h
      exact Exec.succeeds_iff.mpr ⟨(), v, hv⟩
  | analog f =>
      obtain ⟨v, hv, _⟩ := h
      exact Exec.succeeds_iff.mpr ⟨(), v, hv⟩

theorem submitKernels_succeeds {size : Nat} {functions : List (Kernel P)}
    (h : ∀ kernel ∈ functions, kernel.accepted size = true) (kernelCounter : Nat) (s : Session) :
    Exec.succeeds (submitKernels size kernelCounter functions s) = true := by
  induction functions generalizing kernelCounter s with
  | nil => rfl
  | cons kernel rest ih =>
      obtain ⟨s1, _, _, hsucceeds, _⟩ :=
        submitKernels_cons_accepted (h kernel (by simp)) kernelCounter rest s
      rw [hsucceeds]
      exact ih (fun k hk => h k (by simp [hk])) _ _

theorem submitKernels_replies (size : Nat) (functions : List (Kernel P)) (kernelCounter : Nat) :
    Exec.Keeps Session.replies (submitKernels size kernelCounter functions) := by
  have hsupports : ∀ {α : Type} (x : Exec Supports α),
      Exec.Keeps Session.replies (onSupports x) := by
    intro α x s
    unfold onSupports Exec.onPart
    cases x s.acc.measurementSupports <;> rfl
  induction functions generalizing kernelCounter with
  | nil => exact .pure _
  | cons kernel rest ih =>
      exact .bind (hsupports _) fun _ => .bind (.modify fun _ => rfl) fun _ =>
        .bind (ih _) fun _ => .pure _

/-- The text of a job, from the texts of its kernels. -/
def jobOf (options : Options) (pulseLibrary : List (String × String))
    (functions : List (Kernel P)) (texts : List String) : String :=
  if nAnalogs functions > 0 then
    analogJob (jobBackend options) (shots options) pulseLibrary (String.join texts)
  else qasmJob (jobBackend options) (shots options) (String.join texts)

/-- What `processInput` does once its checks have passed. -/
theorem processInput_admitted {options : Options} {pulseLibrary : List (String × String)}
    {functions : List (Kernel P)} {s : Session}
    (h : admitted s.acc options functions = true) :
    processInput options pulseLibrary functions s = (do
      let texts ← submitKernels s.buffer.size 0 functions
      awaitDevice (jobBackend options)
      pure (if nAnalogs functions > 0 then
          analogJob (jobBackend options) (shots options) pulseLibrary texts
        else qasmJob (jobBackend options) (shots options) texts) : Exec Session String)
      { s with acc := choose options s.acc } := by
  rw [admitted, ← chooseBackend_succeeds options s, Bool.and_eq_true, Bool.not_eq_true',
    decide_eq_false_iff_not, Exec.succeeds_iff] at h
  obtain ⟨⟨name, s1, hchoose⟩, hmix⟩ := h
  have hafter := chooseBackend_after options s
  rw [hchoose, Exec.after_ok] at hafter
  have hcheck : checkAnalogs functions s1 = .ok () s1 := by
    rw [checkAnalogs_eq, if_neg hmix]
  rw [processInput, Exec.bind_of_ok hchoose, Exec.bind_of_ok hcheck, Exec.get_bind,
    chooseBackend_name hchoose, hafter]

/-- **When a job is submitted, and what it is.** `processInput` returns exactly
when its checks pass, the kernels are accepted and the device is on: it takes
the replies up to the one that says so, and no other. -/
theorem processInput_ok_iff {options : Options} {pulseLibrary : List (String × String)}
    {functions : List (Kernel P)} {s : Session} {later : Replies} {text : String} :
    (∃ s', processInput options pulseLibrary functions s = .ok text s' ∧ s'.replies = later) ↔
      admitted s.acc options functions = true ∧ DeviceOn s.acc options s.replies later ∧
        ∃ ts, List.Forall₂ (fun kernel t => kernel.Adds s.buffer.size t) functions ts ∧
          text = jobOf options pulseLibrary functions ts := by
  have hsame : ∀ {joined : String} {s1 : Session},
      submitKernels s.buffer.size 0 functions { s with acc := choose options s.acc }
        = .ok joined s1 → ∀ later, DeviceOn s1.acc options s1.replies later ↔
          DeviceOn s.acc options s.replies later := by
    intro joined s1 hsubmit later
    have hframe := (submitKernels_frame s.buffer.size functions 0).of_ok hsubmit
    have hreplies := (submitKernels_replies s.buffer.size functions 0).of_ok hsubmit
    rw [hreplies]
    exact DeviceOn.congr (congrArg Prod.fst hframe)
  constructor
  · rintro ⟨s', h, rfl⟩
    have hadmitted : admitted s.acc options functions = true := (processInput_ok h).1
    obtain ⟨ts, hall, htext⟩ := processInput_text h
    refine ⟨hadmitted, ?_, ts, hall, htext⟩
    rw [processInput_admitted hadmitted, Exec.bind_ok] at h
    obtain ⟨_, s1, hsubmit, h⟩ := h
    rw [Exec.bind_ok] at h
    obtain ⟨_, s2, hawait, h⟩ := h
    cases h
    obtain ⟨later, hon, rfl⟩ := awaitDevice_ok_iff.mp hawait
    exact (hsame hsubmit later).mp hon
  · rintro ⟨hadmitted, hon, ts, hall, rfl⟩
    have haccepted : ∀ kernel ∈ functions, kernel.accepted s.buffer.size = true := by
      intro kernel hk
      obtain ⟨i, hi, rfl⟩ := List.getElem_of_mem hk
      have hlen : i < ts.length := by
        rw [← hall.length_eq]
        exact hi
      exact accepted_of_adds (hall.get hi hlen)
    obtain ⟨joined, s1, hsubmit⟩ := Exec.succeeds_iff.mp
      (submitKernels_succeeds haccepted 0 { s with acc := choose options s.acc })
    have hawait : awaitDevice (jobBackend options) s1 = .ok () { s1 with replies := later } :=
      awaitDevice_ok_iff.mpr ⟨later, (hsame hsubmit later).mpr hon, rfl⟩
    obtain ⟨ts', hall', rfl⟩ := submitKernels_adds hsubmit
    refine ⟨{ s1 with replies := later }, ?_, rfl⟩
    rw [processInput_admitted hadmitted, Exec.bind_of_ok hsubmit, Exec.bind_of_ok hawait,
      texts_unique hall hall']
    rfl

/-- **A job does not depend on the accelerator**, on what was run on it before
or on what the service answers: the same functions, options and pulses give the
same text in any two sessions with buffers of one size. -/
theorem processInput_text_unique {options : Options} {pulseLibrary : List (String × String)}
    {functions : List (Kernel P)} {s s' t t' : Session} {text text' : String}
    (hsize : s.buffer.size = s'.buffer.size)
    (h : processInput options pulseLibrary functions s = .ok text t)
    (h' : processInput options pulseLibrary functions s' = .ok text' t') : text = text' := by
  obtain ⟨ts, hall, rfl⟩ := processInput_text h
  obtain ⟨ts', hall', rfl⟩ := processInput_text h'
  rw [← hsize] at hall'
  rw [texts_unique hall hall']

/-- The theorem at a fresh accelerator and at one that has run a job for a
device. -/
theorem processInput_text_afterDevice :
    ∃ text t t', processInput ∅ [] [Run.measureFirst "foo"] (Run.onDefault.start {}) = .ok text t ∧
      processInput ∅ [] [Run.measureFirst "foo"]
        (Run.onDefault.start (Run.next Run.onDevice Run.twoBackends)) = .ok text t' := by
  have hfresh : Exec.succeeds (processInput ∅ [] [Run.measureFirst "foo"]
      (Run.onDefault.start {})) = true := by
    decide +kernel
  have hused : Exec.succeeds (processInput ∅ [] [Run.measureFirst "foo"]
      (Run.onDefault.start (Run.next Run.onDevice Run.twoBackends))) = true := by
    decide +kernel
  obtain ⟨text, t, h⟩ := Exec.succeeds_iff.mp hfresh
  obtain ⟨text', t', h'⟩ := Exec.succeeds_iff.mp hused
  have hsize : ∀ acc acc', (Run.onDefault.start acc).buffer.size
      = (Run.onDefault.start acc').buffer.size := fun _ _ => rfl
  have hsame := processInput_text_unique (hsize _ _) h h'
  subst hsame
  exact ⟨text, t, t', h, h'⟩

end XaccIbm.IBMAccelerator
