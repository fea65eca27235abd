import Agmem.Core.Model

/-! The log of a session. Every hook of a session is a process of its own, and what one of them has
seen or said the others know from this file only: one entry a line, added at the end. An operation
on the file may fail, which the hooks take for an empty log, or pass over. -/

namespace Agmem.Hook

open Core

inductive EntryKind where
  | recall
  | write
  | nudge
deriving DecidableEq

/-- One line of the session log. -/
structure Entry where
  at_ : Timestamp
  kind : EntryKind
  /-- The tool, or the id of the nudge. -/
  name : Text
  ids : List Text
  cites : List Text
deriving DecidableEq

structure File where
  lines : List Entry
  modified : Timestamp
deriving DecidableEq

/-- Days a log outlives its last write. -/
def LOG_RETENTION_DAYS : ℤ := 7

def day : ℤ := 86400 * 10 ^ 9

/-- `OpenOptions::new().create(true).append(true)`, and the line written. -/
def append (file : Option File) (entry : Entry) (now : Timestamp) : Option File :=
  some ⟨(file.elim [] File.lines) ++ [entry], now⟩

/-- What a read finds; a file that cannot be read is as good as none. -/
def entries (file : Option File) (ok : Bool) : List Entry :=
  if ok then file.elim [] File.lines else []

/-- The nudge has been given. -/
def seen (log : List Entry) (id : Text) : Bool :=
  log.any fun e => decide (e.kind = .nudge) && decide (e.name = id)

def nudge (id : Text) (now : Timestamp) : Entry := ⟨now, .nudge, id, [], []⟩

/-- `true` the first time `id` is asked about, with nobody else at the file. -/
def firstTime (file : Option File) (id : Text) (now : Timestamp) : Option File × Bool :=
  if seen (entries file true) id then (file, false) else (append file (nudge id now) now, true)

/-- Distinct recalled ids, newest first. -/
def recalled (log : List Entry) : List Text :=
  ((log.reverse.filter fun e => decide (e.kind = .recall)).flatMap Entry.ids).eraseDups

def wrote (log : List Entry) : Bool := log.any fun e => decide (e.kind = .write)

/-- A log untouched for the retention is removed. -/
def prune (file : Option File) (now : Timestamp) : Option File :=
  file.filter fun f => !decide (f.modified < now - LOG_RETENTION_DAYS * day)

variable {file : Option File} {log : List Entry} {id key : Text} {now : Timestamp}

theorem entries_append (entry : Entry) :
    entries (append file entry now) true = entries file true ++ [entry] := rfl

theorem seen_append {entry : Entry} : seen (log ++ [entry]) id = true ↔
    seen log id = true ∨ entry.kind = .nudge ∧ entry.name = id := by
  simp [seen]

theorem seen_nudge : seen (log ++ [nudge id now]) key = true ↔ seen log key = true ∨ id = key := by
  simp [seen_append, nudge]

theorem firstTime_snd : (firstTime file id now).2 = !seen (entries file true) id := by
  unfold firstTime
  split_ifs with h <;> simp [h]

/-- The ids the log knows are those asked about. -/
theorem seen_firstTime : seen (entries (firstTime file id now).1 true) key = true ↔
    seen (entries file true) key = true ∨ id = key := by
  unfold firstTime
  split_ifs with h
  · refine ⟨.inl, ?_⟩
    rintro (hkey | rfl)
    · exact hkey
    · exact h
  · exact seen_nudge

/-- Asked again, the log says no; another id it answers as before. -/
theorem firstTime_firstTime (now later : Timestamp) :
    (firstTime (firstTime file id now).1 key later).2 = true ↔
      (firstTime file key later).2 = true ∧ id ≠ key := by
  rw [firstTime_snd, firstTime_snd, Bool.not_eq_true', Bool.not_eq_true', ← Bool.not_eq_true,
    ← Bool.not_eq_true, seen_firstTime, not_or]

end Agmem.Hook
