import XaccIbm.IBMAccelerator.Queries
import XaccIbm.Lib.Supply

/-!
# IBMAccelerator — Conversation

The replies that a call takes. A call takes the replies of its own requests
and leaves the others: with more replies behind it goes the same way, unless
it is still waiting for one. So calls that are served one after the other
from one stream of replies go as they would each on its own.
-/

namespace XaccIbm

open Supply

/-- More replies, behind those still to come. -/
def Session.more (later : Replies) (s : Session) : Session :=
  { s with replies := s.replies ++ later }

namespace IBMAccelerator

open Session

/-- A part of a run that leaves the replies it does not take. -/
def LeavesReplies {α : Type} (x : Exec Session α) : Prop :=
  ∀ later, Follows (more later) x x

variable {later : Replies}

/-! ## Requests -/

theorem restGet_leaves (url path : String) : LeavesReplies (restGet url path) := by
  intro later s hwaits
  unfold restGet at hwaits ⊢
  cases hreplies : s.replies with
  | nil =>
      rw [hreplies] at hwaits
      exact absurd ⟨s, rfl⟩ hwaits
  | cons reply rest =>
      simp only [more, hreplies, List.cons_append]
      cases reply url path <;> rfl

/-- With more replies the loop has more rounds to go, and does not need them
when it ends with the replies that are there. -/
theorem pollDevice_follows (checkBackend : String) {fuel fuel' : Nat} (hfuel : fuel ≤ fuel') :
    Follows (more later) (pollDevice checkBackend fuel) (pollDevice checkBackend fuel') := by
  induction fuel generalizing fuel' with
  | zero => exact fun s h => absurd ⟨s, rfl⟩ h
  | succ fuel ih =>
      obtain ⟨fuel', rfl⟩ : ∃ n, fuel' = n + 1 := ⟨fuel' - 1, by omega⟩
      exact .get_bind fun s => .bind (restGet_leaves _ _ later) fun _ =>
        .bind (.demand _) fun _ => .ite (.pure _) (ih (by omega))

theorem awaitDevice_leaves (backendName : String) : LeavesReplies (awaitDevice backendName) :=
  fun later => .ite (.pure _) (.get_bind fun s => pollDevice_follows _ (by simp [more]))

theorem pollJob_follows (getPath : String) {fuel fuel' : Nat} (hfuel : fuel ≤ fuel') :
    Follows (more later) (pollJob getPath fuel) (pollJob getPath fuel') := by
  induction fuel generalizing fuel' with
  | zero => exact fun s h => absurd ⟨s, rfl⟩ h
  | succ fuel ih =>
      obtain ⟨fuel', rfl⟩ : ∃ n, fuel' = n + 1 := ⟨fuel' - 1, by omega⟩
      exact .get_bind fun s => .bind (restGet_leaves _ _ later) fun _ => .ite (.throw _)
        (.bind (.demand _) fun _ => .bind (.demand _) fun _ => .ite (.pure _) (ih (by omega)))

theorem awaitJob_leaves (response : String) : LeavesReplies (awaitJob response) :=
  fun later => .ite (.throw _) (.get_bind fun s => .bind (.demand _) fun _ =>
    .bind (restGet_leaves _ _ later) fun _ =>
      .bind (pollJob_follows _ (by simp [more])) fun _ => .demand _)

/-! ## The parts of a run -/

theorem chooseBackend_leaves (options : Options) : LeavesReplies (chooseBackend options) := by
  intro later
  unfold chooseBackend
  split
  · exact .pure _
  · rename_i newBackend _
    intro s _
    have hacc : (s.more later).acc = s.acc := rfl
    rw [useBackend, useBackend, hacc]
    cases s.acc.availableBackends.find newBackend with
    | none => rfl
    | some backend =>
        cases hon : backend.status with
        | true =>
            simp only [hon, if_true]
            rfl
        | false => simp [hon]

theorem onSupports_leaves {α : Type} (x : Exec Supports α) : LeavesReplies (onSupports x) := by
  intro later
  rw [onSupports]
  apply Follows.onPart _ _ (Follows.id x)
  · intro s
    rfl
  · intro ms s
    rfl

theorem submitKernels_leaves {P : Type} [ToString P] (size : Nat) (functions : List (Kernel P))
    (kernelCounter : Nat) : LeavesReplies (submitKernels size kernelCounter functions) := by
  intro later
  induction functions generalizing kernelCounter with
  | nil => exact .pure _
  | cons kernel rest ih =>
      exact .bind (onSupports_leaves _ later) fun _ => .bind (.modify fun _ => rfl) fun _ =>
        .bind (ih _) fun _ => .pure _

theorem processInput_leaves {P : Type} [ToString P] (options : Options)
    (pulseLibrary : List (String × String)) (functions : List (Kernel P)) :
    LeavesReplies (processInput options pulseLibrary functions) :=
  fun later => .bind (chooseBackend_leaves options later) fun _ =>
    .bind (.ite (.throw _) (.pure _)) fun _ => .get_bind fun s =>
      .bind (submitKernels_leaves s.buffer.size functions 0 later) fun _ =>
        .bind (awaitDevice_leaves _ later) fun _ => .pure _

theorem onBuffer_leaves (f : AcceleratorBuffer → AcceleratorBuffer) :
    LeavesReplies (onBuffer f) :=
  fun _ => .modify fun _ => rfl

theorem attachCalibration_leaves : LeavesReplies attachCalibration :=
  fun later => .get_bind fun _ => .ite (.pure _) (onBuffer_leaves _ later)

theorem storeAlone_leaves (qasm : Json) : LeavesReplies (storeAlone qasm) :=
  fun later => .get_bind fun _ => .bind (.demand _) fun _ => .bind (onBuffer_leaves _ later)
    fun _ => .bind (.demand _) fun _ => .bind (onBuffer_leaves _ later) fun _ =>
      .bind (.demand _) fun _ => .bind (onBuffer_leaves _ later) fun _ =>
        .bind (attachCalibration_leaves later) fun _ => .pure _

theorem createBuffer_leaves (name : String) (size : Nat) :
    LeavesReplies (createBuffer name size : Exec Session AcceleratorBuffer) :=
  fun _ => .ite (.pure _) (.throw _)

theorem storeResult_leaves (i : Nat) (qasm : Json) : LeavesReplies (storeResult i qasm) :=
  fun later => .get_bind fun _ => .bind (onSupports_leaves _ later) fun _ =>
    .bind (.demand _) fun _ => .bind (createBuffer_leaves _ _ later) fun _ =>
      .bind (.demand _) fun _ => .bind (.demand _) fun _ => .bind (.demand _) fun _ => .pure _

theorem storeResults_leaves (i : Nat) (qasms : List Json) :
    LeavesReplies (storeResults i qasms) := by
  intro later
  induction qasms generalizing i with
  | nil => exact .pure _
  | cons qasm rest ih =>
      exact .bind (storeResult_leaves i qasm later) fun _ => .bind (ih _) fun _ => .pure _

theorem storeJob_leaves (qasms : List Json) : LeavesReplies (storeJob qasms) := by
  intro later
  apply Follows.bind
  · unfold storeResultsOf
    split
    · exact storeAlone_leaves _ later
    · exact .bind (attachCalibration_leaves later) fun _ => storeResults_leaves _ _ later
  · intro _
    exact .bind (.modify fun _ => rfl) fun _ => .pure _

theorem processResponse_leaves (response : String) : LeavesReplies (processResponse response) :=
  fun later => .bind (awaitJob_leaves response later) fun _ => storeJob_leaves _ later

/-- **A whole run** leaves the replies that it does not take. -/
theorem execute_leaves {P : Type} [ToString P] (r : Run P) : LeavesReplies r.execute :=
  fun later => .bind (processInput_leaves _ _ _ later) fun _ => .bind (.reply _) fun _ =>
    processResponse_leaves _ later

/-! ## The parts of `initialize` -/

/-- More replies, behind those still to come. -/
def Startup.more (later : Replies) (s : Startup) : Startup :=
  { s with replies := s.replies ++ later }

theorem request_follows (url path : String) :
    Follows (fun replies => replies ++ later) (request url path) (request url path) := by
  intro replies hwaits
  cases replies with
  | nil => exact absurd ⟨[], rfl⟩ hwaits
  | cons reply rest =>
      simp only [request, List.cons_append]
      cases reply url path <;> rfl

theorem requesting_follows {α : Type} {x : Exec Replies α}
    (h : Follows (fun replies => replies ++ later) x x) :
    Follows (Startup.more later) (requesting x) (requesting x) := by
  rw [requesting]
  apply Follows.onPart _ _ h
  · intro s
    rfl
  · intro replies s
    rfl

theorem describe_follows (account : Account) (d : Json) :
    Follows (fun replies => replies ++ later) (describe account d) (describe account d) :=
  .bind (.demand _) fun _ => .ite (.pure _) (.bind (request_follows _ _) fun _ =>
    .bind (.demand _) fun _ => .bind (request_follows _ _) fun _ => .demand _)

theorem loadBackends_follows (ds : List Json) :
    Follows (Startup.more later) (loadBackends ds) (loadBackends ds) := by
  induction ds with
  | nil => exact .pure _
  | cons d rest ih =>
      exact .get_bind fun s => .bind (requesting_follows (describe_follows s.acc.account d))
        fun _ => .bind (.modify fun _ => rfl) fun _ => ih

theorem searchFile_follows (contents : String) :
    Follows (Startup.more later) (searchFile contents) (searchFile contents) := by
  intro s _
  have hacc : (s.more later).acc = s.acc := rfl
  rw [searchFile, Exec.get_bind, Exec.get_bind, hacc]
  cases findApiKeyInFile contents s.acc.credentials <;> rfl

theorem searchKey_follows (a : Attempt) (home : String) :
    Follows (Startup.more later) (searchKey a home) (searchKey a home) := by
  unfold searchKey
  split
  · exact searchFile_follows _
  · exact searchFile_follows _
  · unfold searchOptions
    cases a.options.find "ibm-api-key" with
    | none => exact .throw _
    | some key => exact .bind (.modify fun _ => rfl) fun _ => .pure _

theorem documents_follows (a : Attempt) :
    Follows (Startup.more later) (documents a) (documents a) := by
  apply Follows.bind
  · exact .bind (.demand _) fun home => .bind (searchKey_follows a home) fun _ =>
      .ite (.throw _) (.pure _)
  · intro apiKey
    apply Follows.bind
    · exact .get_bind fun s => .bind (.reply _) fun _ => .ite (.throw _)
        (.bind (.demand _) fun _ => .modify fun _ => rfl)
    · intro _
      exact .get_bind fun s => .bind (requesting_follows (request_follows _ _)) fun _ =>
        .demand _

theorem checkBackend_follows (options : Options) :
    Follows (Startup.more later) (checkBackend options) (checkBackend options) := by
  intro s _
  have hacc : (s.more later).acc = s.acc := rfl
  rw [checkBackend, checkBackend, hacc]
  cases options.find "ibm-backend" with
  | none => rfl
  | some name =>
      simp only
      cases s.acc.availableBackends.find name with
      | none => rfl
      | some b =>
          cases hon : b.status with
          | true =>
              simp only [hon, if_true]
              rfl
          | false => simp [hon]

theorem initializeAccelerator_follows (a : Attempt) :
    Follows (Startup.more later) (initializeAccelerator a) (initializeAccelerator a) :=
  .get_bind fun _ => .ite (.pure _) (.bind (documents_follows a) fun _ =>
    .bind (loadBackends_follows _) fun _ => .bind (.modify fun _ => rfl) fun _ =>
      checkBackend_follows _)

end IBMAccelerator

/-! ## Calls on one stream of replies -/

namespace Call

open IBMAccelerator

variable {P : Type}

/-- The replies that a call is given. -/
def replies : Call P → Replies
  | connect a => a.replies
  | run r => r.replies

/-- The same call, given other replies. -/
def withReplies (replies : Replies) : Call P → Call P
  | connect a => connect { a with replies := replies }
  | run r => run { r with replies := replies }

variable [ToString P]

/-- A call that is still waiting for a reply. -/
def Waits (c : Call P) (d : Device) : Prop :=
  match c with
  | connect a => Supply.Waits (a.run d.toConnection)
  | run r => Supply.Waits (r.execute (r.start d.accelerator))

/-- The replies that a call does not take. -/
def left (c : Call P) (d : Device) : Replies :=
  match c with
  | connect a => (Exec.after (a.run d.toConnection)).replies
  | run r => (Exec.after (r.execute (r.start d.accelerator))).replies

/-- What a caller sees of a call: its buffers or its exception, and what has
become of the buffer that was handed over. -/
def seen (c : Call P) (d : Device) :
    Except Failure (List AcceleratorBuffer) × Option AcceleratorBuffer :=
  match c with
  | connect a =>
      match a.run d.toConnection with
      | .ok _ _ => (.ok [], none)
      | .error e _ => (.error e, none)
  | run r =>
      match r.execute (r.start d.accelerator) with
      | .ok bs s => (.ok bs, some s.buffer)
      | .error e s => (.error e, some s.buffer)

/-- **One call** goes the same way with more replies behind its own, and
leaves them. -/
theorem withReplies_append (c : Call P) {d : Device} (h : ¬ c.Waits d) (later : Replies) :
    (c.withReplies (c.replies ++ later)).next d = c.next d ∧
      (c.withReplies (c.replies ++ later)).left d = c.left d ++ later ∧
      (c.withReplies (c.replies ++ later)).seen d = c.seen d := by
  cases c with
  | connect a =>
      have hrun : Attempt.run { a with replies := a.replies ++ later } d.toConnection
          = shift (Startup.more later) (a.run d.toConnection) :=
        initializeAccelerator_follows a ⟨d.toConnection, a.replies⟩ h
      simp only [withReplies, replies, next, Device.afterConnect, Attempt.next, left, seen, hrun]
      cases a.run d.toConnection with
      | ok u s => exact ⟨rfl, rfl, rfl⟩
      | error e s => exact ⟨rfl, rfl, rfl⟩
  | run r =>
      have hrun : Run.execute { r with replies := r.replies ++ later }
            (Run.start { r with replies := r.replies ++ later } d.accelerator)
          = shift (Session.more later) (r.execute (r.start d.accelerator)) :=
        execute_leaves r later (r.start d.accelerator) h
      simp only [withReplies, replies, next, Device.afterRun, Run.next, left, seen, hrun]
      cases r.execute (r.start d.accelerator) with
      | ok bs s => exact ⟨rfl, rfl, rfl⟩
      | error e s => exact ⟨rfl, rfl, rfl⟩

end Call

namespace Device

open IBMAccelerator

variable {P : Type} [ToString P]

/-- Calls one after the other, each with the replies that the last one left:
what their callers see, the object afterwards, and the replies left over. -/
def serve : List (Call P) → Device → Replies →
    List (Except Failure (List AcceleratorBuffer) × Option AcceleratorBuffer) × Device × Replies
  | [], d, stream => ([], d, stream)
  | c :: rest, d, stream =>
      let c := c.withReplies stream
      let (seen, d', left) := serve rest (c.next d) (c.left d)
      (c.seen d :: seen, d', left)

/-- What the callers see when each call is given replies of its own. -/
def seenAlong (d : Device) : List (Call P) →
    List (Except Failure (List AcceleratorBuffer) × Option AcceleratorBuffer)
  | [] => []
  | c :: rest => c.seen d :: seenAlong (c.next d) rest

/-- The replies of each call are those that it takes: it waits for no other
and leaves none. -/
def Conversing (d : Device) (history : List (Call P)) : Prop :=
  ∀ earlier c later, history = earlier ++ c :: later →
    ¬ c.Waits (Ledger.stateAfter Call.next d earlier) ∧
      c.left (Ledger.stateAfter Call.next d earlier) = []

/-- **One stream for all calls.** When the replies of each call are those that
it takes, the calls of a history, failed ones among them, may be served from
one stream: each takes its own replies, and what follows them is left. -/
theorem serve_flatMap {history : List (Call P)} {d : Device} (h : d.Conversing history)
    (later : Replies) :
    serve history d (history.flatMap Call.replies ++ later)
      = (seenAlong d history, Ledger.stateAfter Call.next d history, later) := by
  induction history generalizing d with
  | nil => rfl
  | cons c rest ih =>
      have hwaits : ¬ c.Waits d := (h [] c rest rfl).1
      obtain ⟨hnext, hleft', hseen⟩ :=
        c.withReplies_append hwaits (rest.flatMap Call.replies ++ later)
      have hrest : (c.next d).Conversing rest := by
        intro earlier c' later' hsplit
        exact h (c :: earlier) c' later' (by rw [hsplit, List.cons_append])
      have hown : c.left d = [] := (h [] c rest rfl).2
      rw [List.flatMap_cons, List.append_assoc, serve]
      simp only [hnext, hleft', hseen, hown, List.nil_append, ih hrest]
      rfl

end Device

end XaccIbm
