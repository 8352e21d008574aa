import XaccIbm.IBMAccelerator.Effects
import XaccIbm.IBMAccelerator.Initialize
import XaccIbm.Lib.Ledger

/-!
# IBMAccelerator — Initialized

What a call of `initialize` that returns has checked, over every history of
calls, failed ones among them. The checks of the backend come when the flag
is already set: a call that fails before leaves the next one to start again,
but a call that fails at its checks is not repeated by any later one.
-/

namespace XaccIbm.IBMAccelerator

namespace Attempt

end Attempt

/-- The backends of a list, one after the other. -/
def describeAll (account : Account) : List Json → Exec Replies (List Backend)
  | [] => pure []
  | b :: rest => do
      let backend ← describe account b
      let backends ← describeAll account rest
      pure (backend :: backends)

/-- The backends that the service lists to a call, when every request is
answered and every answer can be read. -/
def Attempt.listed (a : Attempt) (c : Connection) : Option (List Backend) :=
  match documents a ⟨c, a.replies⟩ with
  | .error _ _ => none
  | .ok bs s =>
      match describeAll s.acc.account bs s.replies with
      | .error _ _ => none
      | .ok backends _ => some backends

/-- The entry of a name once a list is inserted: the one that was there, or
the first of the list. -/
def Connection.entry (c : Connection) (backends : List Backend) (name : String) :
    Option Backend :=
  (c.availableBackends.find name).or (backends.find? fun b => b.name = name)

/-- The members once a list is inserted. -/
def Connection.insertAll (c : Connection) (backends : List Backend) : Connection :=
  backends.foldl Connection.insertBackend c

theorem find_insertBackend (c : Connection) (backend : Backend) (name : String) :
    (c.insertBackend backend).availableBackends.find name
      = (c.availableBackends.find name).or
        (if backend.name = name then some backend else none) := by
  show (c.availableBackends.insert backend.name backend).find name = _
  by_cases h : backend.name = name
  · subst h
    rw [StdMap.find_insert_self, if_pos rfl, StdMap.getD]
    cases c.availableBackends.find backend.name <;> rfl
  · rw [StdMap.find_insert_ne _ _ (Ne.symm h), if_neg h, Option.or_none]

theorem find_insertAll (c : Connection) (backends : List Backend) (name : String) :
    (c.insertAll backends).availableBackends.find name = c.entry backends name := by
  induction backends generalizing c with
  | nil => simp [Connection.insertAll, Connection.entry]
  | cons backend rest ih =>
      rw [Connection.insertAll, List.foldl_cons, ← Connection.insertAll, ih,
        Connection.entry, find_insertBackend, Connection.entry, Option.or_assoc,
        List.find?_cons]
      by_cases h : backend.name = name <;> simp [h]

/-- What the list does not write. -/
def Connection.rest (c : Connection) : Backend × Bool := (c.chosenBackend, c.initialized)

theorem insertAll_rest (c : Connection) (backends : List Backend) :
    (c.insertAll backends).rest = c.rest := by
  induction backends generalizing c with
  | nil => rfl
  | cons backend rest ih =>
      rw [Connection.insertAll, List.foldl_cons, ← Connection.insertAll, ih]
      rfl

theorem requesting_ok {α : Type} {x : Exec Replies α} {a : α} {s : Startup}
    {replies : Replies} (h : x s.replies = .ok a replies) :
    requesting x s = .ok a { s with replies := replies } := by
  rw [requesting, Exec.onPart, h]

theorem requesting_error {α : Type} {x : Exec Replies α} {e : Failure} {s : Startup}
    {replies : Replies} (h : x s.replies = .error e replies) :
    requesting x s = .error e { s with replies := replies } := by
  rw [requesting, Exec.onPart, h]

/-- **The loop inserts what the list says**, and returns when all of it can be
read. -/
theorem loadBackends_ok {bs : List Json} {s s' : Startup} :
    loadBackends bs s = .ok () s' ↔ ∃ backends replies,
      describeAll s.acc.account bs s.replies = .ok backends replies ∧
        s' = ⟨s.acc.insertAll backends, replies⟩ := by
  induction bs generalizing s with
  | nil =>
      constructor
      · intro h
        cases h
        exact ⟨[], _, rfl, rfl⟩
      · rintro ⟨backends, replies, h, rfl⟩
        cases h
        rfl
  | cons b rest ih =>
      rw [loadBackends, Exec.get_bind, describeAll]
      cases hb : describe s.acc.account b s.replies with
      | error e replies => simp [Exec.bind_apply, hb, requesting_error hb]
      | ok backend replies =>
          rw [Exec.bind_of_ok (requesting_ok hb), Exec.modify_bind, ih, Exec.bind_of_ok hb]
          constructor
          · rintro ⟨backends, replies', h, rfl⟩
            refine ⟨backend :: backends, replies', ?_, rfl⟩
            exact Exec.bind_ok.mpr ⟨backends, replies', h, rfl⟩
          · rintro ⟨backends, replies', h, rfl⟩
            obtain ⟨backends', _, hrest, hcons⟩ := Exec.bind_ok.mp h
            cases hcons
            exact ⟨backends', replies', hrest, rfl⟩

/-! ## What a call leaves alone before it lists -/

/-- What only the list and the checks write. -/
def outcome (s : Startup) : StdMap String Backend × Backend × Bool :=
  (s.acc.availableBackends, s.acc.rest)

theorem requesting_keeps {α : Type} (x : Exec Replies α) :
    Exec.Keeps Startup.acc (requesting x) := by
  intro s
  cases h : x s.replies with
  | error e replies => rw [requesting_error h]; rfl
  | ok a replies => rw [requesting_ok h]; rfl

theorem searchFile_keeps (contents : String) : Exec.Keeps outcome (searchFile contents) := by
  intro s
  rw [searchFile, Exec.get_bind]
  cases findApiKeyInFile contents s.acc.credentials <;> rfl

theorem searchOptions_keeps (options : Options) :
    Exec.Keeps outcome (searchOptions options) := by
  unfold searchOptions
  cases options.find "ibm-api-key" with
  | none => exact .throw _
  | some key => exact .bind (.modify fun _ => rfl) fun _ => .pure _

theorem searchKey_keeps (a : Attempt) (home : String) :
    Exec.Keeps outcome (searchKey a home) := by
  unfold searchKey
  split
  · exact searchFile_keeps _
  · exact searchFile_keeps _
  · exact searchOptions_keeps _

theorem searchAPIKey_keeps (a : Attempt) : Exec.Keeps outcome (searchAPIKey a) :=
  .bind (.demand _) fun home => .bind (searchKey_keeps a home) fun _ =>
    .ite (.throw _) (.pure _)

theorem entry_congr {c c' : Connection} (h : c.availableBackends = c'.availableBackends)
    (backends : List Backend) (name : String) :
    c.entry backends name = c'.entry backends name := by
  rw [Connection.entry, h, Connection.entry]

namespace Attempt

/-- A call on an initialized accelerator does nothing. -/
theorem run_of_initialized (a : Attempt) {c : Connection} (h : c.initialized = true) :
    a.run c = .ok () ⟨c, a.replies⟩ := by
  rw [run, initializeAccelerator, Exec.get_bind]
  exact congrFun (if_pos h) _

theorem run_eq (a : Attempt) {c : Connection} (h : c.initialized = false) :
    a.run c = ((documents a >>= loadBackends) >>= fun _ =>
      (modify fun s => { s with acc := s.acc.connected } : Exec Startup PUnit) >>= fun _ =>
        checkBackend a.options) ⟨c, a.replies⟩ := by
  rw [run, initializeAccelerator, Exec.get_bind, bind_assoc]
  exact congrFun (if_neg (by simp [h])) _

/-- A call that returns leaves the accelerator as it was when it returned. -/
theorem next_of_ok {a : Attempt} {c : Connection} {s : Startup} (h : a.run c = .ok () s) :
    a.next c = s.acc := by
  rw [next, h]
  rfl

end Attempt

/-! ## Histories of calls -/

/-- The options of a job for a device, with the key. -/
def deviceOptions : Options :=
  ((∅ : Options).set "ibm-api-key" "key").set "ibm-backend" "ibmqx4"

/-- A call whose login is answered as given, and whose list is a text. -/
def attempt (login : Except String String) (text : String) : Attempt where
  home := some "/root"
  options := deviceOptions
  post := fun _ _ _ _ => login
  replies := [fun _ _ => .ok text]

/-- The answer to a login. -/
def loggedIn : Except String String := .ok "\x7b\"id\": \"token\"\x7d"

/-- The service lists a device that is on. -/
def deviceText : String :=
  "[\x7b\"name\": \"ibmqx4\", \"status\": \"on\", \"simulator\": false\x7d]"

/-- The login fails. -/
def down : Attempt := attempt (.error "no route to host") deviceText

/-- The login and the list are answered. -/
def up : Attempt := attempt loggedIn deviceText

end XaccIbm.IBMAccelerator
