import Agmem.Tools.Common
import Agmem.Transition.Snapshot

/-! The first use of a space name by several callers at once. `ensure_space` looks for the name
and creates its row in one transaction, and does not try again: of two callers that both find the
name missing, the second to commit is turned away. Its caller is a `remember` call, or a session
that was told it is attached. -/

namespace Agmem.Tools.Registration

open Core Relational Store Transition Snapshot

/-! ### ensure_space, as a transaction of its own -/

/-- The name is in the registry. -/
def isRegistered (name : SpaceName) (db : Db) : Bool := (db.space.get? name).isSome

/-- `ENSURE_SPACE`: it writes if it finds no row. -/
def ensuring (name : SpaceName) (now : Timestamp) : Tx Db Bool StoreError where
  view := isRegistered name
  writes seen := !seen
  body db := ensureSpace db name now
  lost e := decide (e = .db (.indexExists .spaceName) ∨ e = .db .conflict)

/-- Who registers a space: `remember` for the space a call names, the daemon for the space of a
session it has just accepted. -/
inductive Use where
  | remember
  | attach
deriving DecidableEq

inductive Ending where
  | served
  /-- The tool call fails. -/
  | refused (error : ErrorData)
  /-- "session ended badly": the session was told `ok`, and its socket closes. -/
  | endedBadly (error : StoreError)
deriving DecidableEq

/-- What a caller makes of the outcome. -/
def Use.ending : Use → Except StoreError Unit → Ending
  | _, .ok () => .served
  | .remember, .error e => .refused (storeError e)
  | .attach, .error e => .endedBadly e

theorem Use.ending_eq_served {use : Use} {r : Except StoreError Unit} :
    use.ending r = .served ↔ r = .ok () := by
  cases use <;> cases r <;> simp [Use.ending]

variable {name : SpaceName} {db db' : Db}

/-! ### One call -/

theorem isRegistered_iff : isRegistered name db = true ↔ ∃ row ∈ db.space, row.name = name := by
  rw [isRegistered, Option.isSome_iff_exists]
  exact exists_congr fun row => Table.get?_eq_some

/-- With the store to itself, the call goes through. -/
theorem ensureSpace_isOk (db : Db) (name : SpaceName) (now : Timestamp) :
    ∃ db', ensureSpace db name now = .ok db' := by
  unfold ensureSpace
  cases hget : db.space.get? name with
  | some row => exact ⟨db, rfl⟩
  | none =>
    have hnew : (db.space.insert? ⟨name, now⟩).isSome := by
      refine Table.insert?_isSome.mpr fun row hr => ?_
      have hne := Table.get?_eq_none.mp hget row hr
      exact ⟨hne, hne⟩
    obtain ⟨t, ht⟩ := Option.isSome_iff_exists.mp hnew
    simp [ht]

theorem ensureSpace_registers {now : Timestamp} (h : ensureSpace db name now = .ok db') :
    isRegistered name db' = true ∧ ∀ row ∈ db.space, row ∈ db'.space := by
  unfold ensureSpace at h
  split at h
  · next row hget =>
    cases h
    exact ⟨by simp [isRegistered, hget], fun row hr => hr⟩
  · split at h
    · next t ht =>
      cases h
      have hrows := Table.insert?_eq_some.mp ht
      constructor
      · rw [isRegistered_iff]
        exact ⟨⟨name, now⟩, by simp [Table.mem_iff, hrows], rfl⟩
      · intro row hr
        rw [Table.mem_iff, hrows]
        exact List.mem_append_left _ hr
    · cases h

/-- The registry has one row of the name. -/
def HasOne (name : SpaceName) (db : Db) : Prop :=
  ∃ row, ∀ q, q ∈ db.space ∧ q.name = name ↔ q = row

theorem hasOne_iff : HasOne name db ↔ isRegistered name db = true := by
  rw [isRegistered_iff]
  constructor
  · rintro ⟨row, hrow⟩
    exact ⟨row, (hrow row).mpr rfl⟩
  · rintro ⟨row, hr, hname⟩
    refine ⟨row, fun q => ⟨fun ⟨hq, hqname⟩ => ?_, fun hq => hq ▸ ⟨hr, hname⟩⟩⟩
    exact Table.eq_of_key hq hr (hqname.trans hname.symm)

/-! ### Any number of callers -/

section Callers

variable {ι : Type*} [DecidableEq ι] {use : ι → Use} {now : ι → Timestamp}

/-- Whoever is done is served, with one row of the name, exactly when every caller that found
the name missing commits before another has created it. -/
theorem served_iff_not_overtaken
    {steps : List (Step (State ι Db Bool StoreError) (Action ι StoreError))}
    {S : State ι Db Bool StoreError}
    (h : Run (step fun i => ensuring name (now i)) (initial db) steps S) :
    (∀ i r, S.phase i = .done r → (use i).ending r = .served ∧ HasOne name S.store) ↔
      ∀ e ∈ steps, ¬ Overtaken (fun i => ensuring name (now i)) e := by
  have hserved := served_iff (fun i s => ensureSpace_isOk s name (now i)) h
  have hfound := found (P := fun _ s => isRegistered name s = true) (fun i s t ht => by
    obtain ⟨hreg, hkeep⟩ := ensureSpace_registers ht
    refine ⟨hreg, fun j hj => ?_⟩
    obtain ⟨row, hr, hname⟩ := isRegistered_iff.mp hj
    exact isRegistered_iff.mpr ⟨row, hkeep row hr, hname⟩) h
  rw [← hserved]
  constructor
  · intro hall i e hat
    have hok := Use.ending_eq_served.mp (hall i _ hat).1
    cases hok
  · intro hs i r hat
    cases r with
    | ok u => exact ⟨by cases u; rfl, hasOne_iff.mpr (hfound i hat)⟩
    | error e => exact absurd hat (hs i e)

/-- Two callers look before either commits. -/
def bothLook (e : StoreError) : List (Action Bool StoreError) :=
  [.begin true, .begin false, .commit true e, .commit false e]

theorem served_iff_not_overtaken_first :
    ∃ (steps : List (Step (State Bool Db Bool StoreError) (Action Bool StoreError)))
      (S : State Bool Db Bool StoreError),
      Run (step fun i => ensuring agmem (cond i 1 2)) (initial (Db.empty 0)) steps S ∧
      ((∀ i r, S.phase i = .done r → (cond i Use.remember .attach).ending r = .served ∧
        HasOne agmem S.store) ↔
        ∀ e ∈ steps, ¬ Overtaken (fun i => ensuring agmem (cond i 1 2)) e) := by
  obtain ⟨steps, S, hrun, -, -⟩ := exists_run_of_exec
    (step fun i => ensuring agmem (cond i 1 2)) (initial (Db.empty 0)) (bothLook (.db .conflict))
    (fun _ => true) (by decide)
  exact ⟨steps, S, hrun, served_iff_not_overtaken hrun⟩

/-- Of two first uses the second ends with this error, and whoever it is does not serve it. -/
def SecondFails (e : StoreError) : Prop :=
  ∃ (steps : List (Step (State Bool Db Bool StoreError) (Action Bool StoreError)))
    (S : State Bool Db Bool StoreError),
    Run (step fun i => ensuring agmem (cond i 1 2)) (initial (Db.empty 0)) steps S ∧
    S.phase false = .done (.error e) ∧ ∀ use : Use, use.ending (.error e) ≠ .served

/-- Whether the second caller is done with this error. -/
def secondTold (e : StoreError) (S : State Bool Db Bool StoreError) : Bool :=
  match S.phase false with
  | .done (.error e') => decide (e' = e)
  | _ => false

theorem secondFails_of_told {e : StoreError}
    (h : (exec (step fun i => ensuring agmem (cond i 1 2)) (initial (Db.empty 0)) (bothLook e)).any
      (fun u => secondTold e u.2) = true) : SecondFails e := by
  obtain ⟨steps, S, hrun, -, htold⟩ := exists_run_of_exec _ _ _ _ h
  refine ⟨steps, S, hrun, ?_, ?_⟩
  · unfold secondTold at htold
    split at htold
    · next e' he => rw [he, of_decide_eq_true htold]
    · cases htold
  · intro use
    cases use <;> simp [Use.ending]

/-- The second of two first uses fails, in either of the two ways. -/
theorem second_first_use : isRegistered agmem (Db.empty 0) = false ∧
    SecondFails (.db (.indexExists .spaceName)) ∧ SecondFails (.db .conflict) := by
  refine ⟨rfl, ?_, ?_⟩
  · exact secondFails_of_told (by decide)
  · exact secondFails_of_told (by decide)

end Callers

end Agmem.Tools.Registration
