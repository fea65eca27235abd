import Mathlib.Algebra.GroupWithZero.Nat
import Mathlib.Logic.Function.Basic
import Mathlib.Data.List.Infix
import Mathlib.Tactic.SplitIfs

/-! The log file of the daemon, which rotates itself by size. Files move up a name when the live one
is full, and the oldest falls off. Any rename, create or open may fail, and then the rotation is left
where it is until the next write; whether a file is there is always known. Whatever fails, what the
files hold is the end of what was logged, and no write is in two of them. -/

namespace Agmem.Telemetry

/-- What one write puts into a file. -/
abbrev Chunk := List UInt8

abbrev Content := List Chunk

def size (content : Content) : ℕ := (content.map List.length).sum

structure RotatingFile where
  limit : ℕ
  keep : ℕ

/-- The files by their numbers, the live one as 0; `handle` is the file that the writer holds open,
by the name it has got by now. -/
structure State where
  files : ℕ → Option Content
  handle : Option ℕ
  written : ℕ

/-! ### Operations on the files -/

namespace State

/-- What had the name before is gone, for a handle to it too. -/
def rename (s : State) (m n : ℕ) : State where
  files := Function.update (Function.update s.files n (s.files m)) m none
  handle := if s.handle = some m then some n else if s.handle = some n then none else s.handle
  written := s.written

/-- `RotatingFile::append` on the path: the live file, made if it is not there. -/
def append (s : State) : State where
  files := Function.update s.files 0 (some ((s.files 0).getD []))
  handle := some 0
  written := s.written

/-- `File::create`: the live file, empty. -/
def create (s : State) : State where
  files := Function.update s.files 0 (some [])
  handle := some 0
  written := s.written

/-- To a file without a name a write is lost. -/
def put (s : State) (chunk : Chunk) : State where
  files :=
    match s.handle with
    | none => s.files
    | some h => Function.update s.files h ((s.files h).map fun content => content ++ [chunk])
  handle := s.handle
  written := s.written + chunk.length

end State

variable (log : RotatingFile)

/-- A new process: what is on the disk counts. -/
def RotatingFile.open_ (s : State) : State :=
  { s.append with written := size ((s.files 0).getD []) }

/-- The shifts from `n` down, of which the first `ok` operations go through; what is left of them,
or none after a failure. -/
def shifts : ℕ → ℕ → State → State × Option ℕ
  | 0, ok, s => (s, some ok)
  | n + 1, ok, s =>
    if s.files (n + 1) = none then shifts n ok s
    else
      match ok with
      | 0 => (s, none)
      | ok + 1 => shifts n ok (s.rename (n + 1) (n + 2))

/-- The state, and whether all operations went through. -/
def RotatingFile.rotate (ok : ℕ) (s : State) : State × Bool :=
  if log.keep = 0 then
    if ok = 0 then (s, false) else ({ s.create with written := 0 }, true)
  else
    match shifts (log.keep - 1) ok s with
    | (s, none) => (s, false)
    | (s, some 0) => (s, false)
    | (s, some (ok + 1)) =>
      if s.files 0 = none then (s, false)
      else if ok = 0 then (s.rename 0 1, false)
      else ({ (s.rename 0 1).append with written := 0 }, true)

/-- An empty file is never rotated. -/
def RotatingFile.room (ok : ℕ) (buf : Chunk) (s : State) : State × Bool :=
  if 0 < s.written ∧ log.limit < s.written + buf.length then log.rotate ok s else (s, true)

/-- The file takes so many bytes of `buf`, or fails. -/
def accept (taken : Option ℕ) (buf : Chunk) : State × Bool → State × Option Chunk
  | (s, false) => (s, none)
  | (s, true) =>
    match taken with
    | none => (s, none)
    | some n => (s.put (buf.take n), some (buf.take n))

/-- A write, and the chunk that is logged. -/
def RotatingFile.write (ok : ℕ) (taken : Option ℕ) (buf : Chunk) (s : State) :
    State × Option Chunk :=
  accept taken buf (log.room ok buf s)

/-! ### Runs -/

inductive Action where
  | write (buf : Chunk) (ok : ℕ) (taken : Option ℕ)
  /-- The daemon is gone, and another opens the log. -/
  | restart

def RotatingFile.step (s : State) : Action → State × Option Chunk
  | .write buf ok taken => log.write ok taken buf s
  | .restart => (RotatingFile.open_ s, none)

/-- The state after the actions, and all that was logged. -/
def RotatingFile.run (s : State) : List Action → State × Content
  | [] => (s, [])
  | a :: actions =>
    let rest := RotatingFile.run (log.step s a).1 actions
    (rest.1, (log.step s a).2.toList ++ rest.2)

/-- The log is opened for the first time. -/
def start : State := RotatingFile.open_ ⟨fun _ => none, none, 0⟩

/-- What the files below a number hold, the oldest first. -/
def State.below (s : State) : ℕ → Content
  | 0 => []
  | n + 1 => (s.files n).getD [] ++ s.below n

def kept (s : State) : Content := s.below (log.keep + 1)

/-- No more than the limit, but for a write that is longer. -/
def Fits (content : Content) : Prop :=
  size content ≤ log.limit ∨ ∃ chunk ∈ content, size content = chunk.length

/-- The writer holds the newest file there is. -/
structure Sound (s : State) : Prop where
  handle : ∃ h content, s.handle = some h ∧ s.files h = some content ∧ s.written = size content ∧
    ∀ m < h, s.files m = none
  bound : ∀ n content, s.files n = some content → n ≤ log.keep ∧ Fits log content

variable {log} {s : State}

/-! ### What a rotation keeps -/

theorem below_congr {t : State} {n : ℕ} (h : ∀ m < n, s.files m = t.files m) :
    s.below n = t.below n := by
  induction n with
  | zero => rfl
  | succ n ih =>
    rw [State.below, State.below, h n (Nat.lt_succ_self n),
      ih fun m hm => h m (Nat.lt_succ_of_lt hm)]

theorem below_eq_nil {n : ℕ} (h : ∀ m < n, s.files m = none) : s.below n = [] := by
  induction n with
  | zero => rfl
  | succ n ih =>
    rw [State.below, h n (Nat.lt_succ_self n), ih fun m hm => h m (Nat.lt_succ_of_lt hm)]
    rfl

/-- From a number on the same files: what is more below it is more of all. -/
theorem below_extend {t : State} {n k : ℕ} {more : Content} (hbelow : t.below n = s.below n ++ more)
    (h : ∀ m ≥ n, t.files m = s.files m) : t.below (n + k) = s.below (n + k) ++ more := by
  induction k with
  | zero => exact hbelow
  | succ k ih =>
    rw [← Nat.add_assoc, State.below, State.below, ih, h _ (Nat.le_add_right n k),
      List.append_assoc]

theorem kept_extend {t : State} {n : ℕ} {more : Content} (hn : n ≤ log.keep + 1)
    (hbelow : t.below n = s.below n ++ more) (h : ∀ m ≥ n, t.files m = s.files m) :
    kept log t = kept log s ++ more := by
  obtain ⟨k, hk⟩ := Nat.exists_eq_add_of_le hn
  unfold kept
  rw [hk, below_extend hbelow h]

theorem files_rename (s : State) (m n : ℕ) :
    (s.rename m (m + 1)).files n =
      if n = m then none else if n = m + 1 then s.files m else s.files n := by
  by_cases hm : n = m
  · subst hm
    simp [State.rename]
  · by_cases hn : n = m + 1
    · subst hn
      simp [State.rename]
    · simp [State.rename, hm, hn]

/-- A file that moves up to a free name, or to the last, drops nothing but what is oldest. -/
theorem kept_rename {m : ℕ} (hm : m < log.keep)
    (hfree : s.files (m + 1) = none ∨ m + 1 = log.keep) :
    kept log (s.rename m (m + 1)) <:+ kept log s := by
  have hlow : (s.rename m (m + 1)).below m = s.below m :=
    below_congr fun n hn => by rw [files_rename, if_neg (by omega), if_neg (by omega)]
  have hrenamed : (s.rename m (m + 1)).below (m + 2) = (s.files m).getD [] ++ s.below m := by
    simp [State.below, files_rename, hlow]
  have hbefore : s.below (m + 2) =
      (s.files (m + 1)).getD [] ++ ((s.files m).getD [] ++ s.below m) := rfl
  rcases hfree with hfree | hlast
  · have hsame : (s.rename m (m + 1)).below (m + 2) = s.below (m + 2) ++ [] := by
      rw [hrenamed, hbefore, hfree, List.append_nil]
      rfl
    have hkept : kept log (s.rename m (m + 1)) = kept log s ++ [] :=
      kept_extend (by omega) hsame fun n hn => by
        rw [files_rename, if_neg (by omega), if_neg (by omega)]
    rw [hkept, List.append_nil]
  · rw [kept, kept, ← hlast, hrenamed, hbefore]
    exact List.suffix_append ..

theorem sound_rename {m : ℕ} (h : Sound log s) (hm : m < log.keep) (hthere : s.files m ≠ none) :
    Sound log (s.rename m (m + 1)) := by
  obtain ⟨⟨k, content, hhandle, hfile, hwritten, hnewest⟩, hbound⟩ := h
  have hle : k ≤ m := not_lt.mp fun hlt => hthere (hnewest m hlt)
  constructor
  · by_cases hk : k = m
    · subst hk
      refine ⟨k + 1, content, by simp [State.rename, hhandle], ?_, hwritten, fun n hn => ?_⟩
      · rw [files_rename, if_neg (by omega), if_pos rfl, hfile]
      · rw [files_rename]
        split_ifs
        · rfl
        · omega
        · exact hnewest n (by omega)
    · refine ⟨k, content, ?_, ?_, hwritten, fun n hn => ?_⟩
      · simp [State.rename, hhandle, hk]
        omega
      · rw [files_rename, if_neg hk, if_neg (by omega), hfile]
      · rw [files_rename, if_neg (by omega), if_neg (by omega), hnewest n hn]
  · intro n content hn
    rw [files_rename] at hn
    split_ifs at hn with hnm hnext
    · exact ⟨by omega, (hbound m content hn).2⟩
    · exact hbound n content hn

/-- What a rotation does, as far as it goes. -/
structure Rotated (log : RotatingFile) (s t : State) : Prop where
  sound : Sound log t
  kept : kept log t <:+ kept log s

theorem Rotated.refl (h : Sound log s) : Rotated log s s := ⟨h, List.suffix_refl _⟩

theorem Rotated.trans {t u : State} (h : Rotated log s t) (h' : Rotated log t u) :
    Rotated log s u :=
  ⟨h'.sound, h'.kept.trans h.kept⟩

theorem rotated_rename {m : ℕ} (h : Sound log s) (hm : m < log.keep) (hthere : s.files m ≠ none)
    (hfree : s.files (m + 1) = none ∨ m + 1 = log.keep) : Rotated log s (s.rename m (m + 1)) :=
  ⟨sound_rename h hm hthere, kept_rename hm hfree⟩

/-- From the oldest down each file moves up to a name that is free by then. -/
theorem shifts_rotated {n : ℕ} (ok : ℕ) (h : Sound log s) (hn : n < log.keep)
    (hfree : s.files (n + 1) = none ∨ n + 1 = log.keep) :
    Rotated log s (shifts n ok s).1 ∧
      ((shifts n ok s).1.files 1 = none ∨ 1 = log.keep ∨ (shifts n ok s).2 = none) := by
  induction n generalizing ok s with
  | zero => exact ⟨.refl h, hfree.imp id .inl⟩
  | succ n ih =>
    by_cases hnone : s.files (n + 1) = none
    · have hskip : shifts (n + 1) ok s = shifts n ok s := by cases ok <;> exact if_pos hnone
      rw [hskip]
      exact ih ok h (by omega) (.inl hnone)
    · cases ok with
      | zero =>
        have hfails : shifts (n + 1) 0 s = (s, none) := if_neg hnone
        rw [hfails]
        exact ⟨.refl h, .inr (.inr rfl)⟩
      | succ ok =>
        have hmoves : shifts (n + 1) (ok + 1) s = shifts n ok (s.rename (n + 1) (n + 2)) :=
          if_neg hnone
        rw [hmoves]
        have hrename := rotated_rename h hn hnone hfree
        have hgone : (s.rename (n + 1) (n + 2)).files (n + 1) = none := by simp [files_rename]
        obtain ⟨hrest, hone⟩ := ih ok hrename.sound (by omega) (.inl hgone)
        exact ⟨hrename.trans hrest, hone⟩

/-- The writer begins a live file. -/
def State.fresh (s : State) : State := ⟨Function.update s.files 0 (some []), some 0, 0⟩

theorem files_fresh (s : State) (n : ℕ) :
    s.fresh.files n = if n = 0 then some [] else s.files n := by
  by_cases hn : n = 0
  · subst hn
    rfl
  · simp [State.fresh, hn]

theorem sound_fresh (h : Sound log s) : Sound log s.fresh where
  handle := ⟨0, [], rfl, rfl, rfl, nofun⟩
  bound n content hn := by
    rw [files_fresh] at hn
    split_ifs at hn with hzero
    · cases hn
      exact ⟨by omega, .inl (Nat.zero_le _)⟩
    · exact h.bound n content hn

theorem kept_fresh (h : s.files 0 = none) : kept log s.fresh = kept log s := by
  have hone : s.fresh.below 1 = s.below 1 ++ [] := by simp [State.below, files_fresh, h]
  rw [← List.append_nil (kept log s)]
  refine kept_extend (by omega) hone fun n hn => ?_
  rw [files_fresh, if_neg (by omega)]

theorem rotate_rotated (h : Sound log s) (ok : ℕ) : Rotated log s (log.rotate ok s).1 ∧
    ((log.rotate ok s).2 = true → (log.rotate ok s).1.written = 0) := by
  unfold RotatingFile.rotate
  split_ifs with hkeep hok
  · exact ⟨.refl h, fun hfalse => by cases hfalse⟩
  · refine ⟨⟨sound_fresh h, ?_⟩, fun _ => rfl⟩
    have hempty : s.fresh.below 1 = [] := by simp [State.below, files_fresh]
    change s.fresh.below (log.keep + 1) <:+ _
    rw [hkeep, hempty]
    exact List.nil_suffix
  · have hpos : log.keep - 1 < log.keep := by omega
    obtain ⟨hshift, hone⟩ := shifts_rotated ok h hpos (.inr (by omega))
    generalize shifts (log.keep - 1) ok s = shifted at hshift hone
    obtain ⟨t, left⟩ := shifted
    match left with
    | none | some 0 => exact ⟨hshift, fun hfalse => by cases hfalse⟩
    | some (ok + 1) =>
      dsimp only at hshift hone ⊢
      by_cases hlive : t.files 0 = none
      · rw [if_pos hlive]
        exact ⟨hshift, fun hfalse => by cases hfalse⟩
      have hfree : t.files 1 = none ∨ 0 + 1 = log.keep := by simpa using hone
      have hrename := rotated_rename hshift.sound (by omega) hlive hfree
      rw [if_neg hlive]
      split_ifs with hok
      · exact ⟨hshift.trans hrename, fun hfalse => by cases hfalse⟩
      · have hgone : (t.rename 0 1).files 0 = none := files_rename t 0 0
        have hfresh : ({ (t.rename 0 1).append with written := 0 } : State) =
            (t.rename 0 1).fresh := by
          rw [State.append, State.fresh, hgone]
          rfl
        rw [hfresh]
        refine ⟨⟨sound_fresh hrename.sound, ?_⟩, fun _ => rfl⟩
        rw [kept_fresh hgone]
        exact (hshift.trans hrename).kept

/-! ### What is logged -/

theorem size_append (content : Content) (chunk : Chunk) :
    size (content ++ [chunk]) = size content + chunk.length := by
  simp [size]

/-- A chunk goes behind all others, into the newest file. -/
theorem put_sound (chunk : Chunk) (h : Sound log s)
    (hroom : s.written = 0 ∨ s.written + chunk.length ≤ log.limit) :
    Sound log (s.put chunk) ∧ kept log (s.put chunk) = kept log s ++ [chunk] := by
  obtain ⟨⟨k, content, hhandle, hfile, hwritten, hnewest⟩, hbound⟩ := h
  have hfiles (n : ℕ) : (s.put chunk).files n =
      if n = k then some (content ++ [chunk]) else s.files n := by
    by_cases hn : n = k
    · subst hn
      simp [State.put, hhandle, hfile]
    · simp [State.put, hhandle, hn]
  have hnewer : ∀ m < k, (s.put chunk).files m = none := fun m hm => by
    rw [hfiles, if_neg (by omega), hnewest m hm]
  refine ⟨⟨⟨k, content ++ [chunk], hhandle, ?_, ?_, hnewer⟩, fun n content' hn => ?_⟩, ?_⟩
  · rw [hfiles, if_pos rfl]
  · rw [size_append, ← hwritten]
    rfl
  · rw [hfiles] at hn
    split_ifs at hn with hk
    · cases hn
      refine ⟨hk ▸ (hbound k content hfile).1, ?_⟩
      rw [Fits, size_append, ← hwritten]
      rcases hroom with hzero | hroom
      · exact .inr ⟨chunk, by simp, by omega⟩
      · exact .inl hroom
    · exact hbound n content' hn
  · have hbelow : (s.put chunk).below (k + 1) = s.below (k + 1) ++ [chunk] := by
      rw [State.below, State.below, below_eq_nil hnewer, below_eq_nil hnewest, hfiles, hfile]
      simp
    refine kept_extend (Nat.succ_le_succ (hbound k content hfile).1) hbelow fun n hn => ?_
    rw [hfiles, if_neg (by omega)]

theorem accept_sound {t : State × Bool} (h : Rotated log s t.1) {buf : Chunk}
    (hroom : t.2 = true → t.1.written = 0 ∨ t.1.written + buf.length ≤ log.limit)
    (taken : Option ℕ) : Sound log (accept taken buf t).1 ∧
      kept log (accept taken buf t).1 <:+ kept log s ++ (accept taken buf t).2.toList := by
  obtain ⟨t, rotated⟩ := t
  have hnothing : Sound log t ∧ kept log t <:+ kept log s ++ [] := ⟨h.sound, by simpa using h.kept⟩
  cases rotated with
  | false => exact hnothing
  | true =>
    cases taken with
    | none => exact hnothing
    | some n =>
      have htake : (buf.take n).length ≤ buf.length := List.length_take_le' ..
      obtain ⟨hsound, hkept⟩ := put_sound (buf.take n) h.sound
        ((hroom rfl).imp id fun hle => (Nat.add_le_add_left htake _).trans hle)
      refine ⟨hsound, ?_⟩
      obtain ⟨dropped, hdropped⟩ := h.kept
      change kept log (t.put (buf.take n)) <:+ kept log s ++ [buf.take n]
      rw [hkept, ← hdropped, List.append_assoc]
      exact List.suffix_append ..

theorem room_rotated (h : Sound log s) (ok : ℕ) (buf : Chunk) :
    Rotated log s (log.room ok buf s).1 ∧ ((log.room ok buf s).2 = true →
      (log.room ok buf s).1.written = 0 ∨
        (log.room ok buf s).1.written + buf.length ≤ log.limit) := by
  unfold RotatingFile.room
  split_ifs with hfull
  · obtain ⟨hrotated, hfresh⟩ := rotate_rotated h ok
    exact ⟨hrotated, fun hdone => .inl (hfresh hdone)⟩
  · exact ⟨.refl h, fun _ => by dsimp only; omega⟩

/-- A restart goes on with the live file, or begins one. -/
theorem open_sound (h : Sound log s) : Sound log (RotatingFile.open_ s) ∧
    kept log (RotatingFile.open_ s) = kept log s := by
  cases hlive : s.files 0 with
  | none =>
    have hfresh : RotatingFile.open_ s = s.fresh := by
      simp [RotatingFile.open_, State.append, State.fresh, hlive, size]
    rw [hfresh]
    exact ⟨sound_fresh h, kept_fresh hlive⟩
  | some content =>
    have hfiles : (RotatingFile.open_ s).files = s.files := by
      change Function.update s.files 0 (some ((s.files 0).getD [])) = s.files
      rw [hlive, Option.getD_some, ← hlive, Function.update_eq_self]
    refine ⟨⟨⟨0, content, rfl, by rw [hfiles, hlive], ?_, nofun⟩, ?_⟩, ?_⟩
    · simp [RotatingFile.open_, hlive]
    · rw [hfiles]
      exact h.bound
    · exact below_congr fun n _ => by rw [hfiles]

theorem step_sound (h : Sound log s) (a : Action) : Sound log (log.step s a).1 ∧
    kept log (log.step s a).1 <:+ kept log s ++ (log.step s a).2.toList := by
  cases a with
  | write buf ok taken =>
    obtain ⟨hrotated, hroom⟩ := room_rotated h ok buf
    exact accept_sound hrotated hroom taken
  | restart =>
    obtain ⟨hsound, hkept⟩ := open_sound h
    exact ⟨hsound, by simp [RotatingFile.step, hkept]⟩

theorem run_sound (h : Sound log s) (actions : List Action) : Sound log (log.run s actions).1 ∧
    kept log (log.run s actions).1 <:+ kept log s ++ (log.run s actions).2 := by
  induction actions generalizing s with
  | nil => exact ⟨h, by simp [RotatingFile.run]⟩
  | cons a actions ih =>
    obtain ⟨hstep, dropped, hdropped⟩ := step_sound h a
    obtain ⟨hrun, hkept⟩ := ih hstep
    refine ⟨hrun, hkept.trans ?_⟩
    rw [RotatingFile.run, ← List.append_assoc, ← hdropped, List.append_assoc]
    exact List.suffix_append ..

theorem sound_start : Sound log start where
  handle := ⟨0, [], rfl, rfl, rfl, nofun⟩
  bound n content hn := by
    by_cases hzero : n = 0
    · subst hzero
      cases hn
      exact ⟨Nat.zero_le _, .inl (Nat.zero_le _)⟩
    · simp [start, RotatingFile.open_, State.append, hzero] at hn

/-- Whatever is written, and whatever fails of it, the files hold the end of all that was logged,
write by write; there are no more of them than are to be kept and the live one, and none is longer
than the limit but for a single write that is. -/
theorem log_rotates (log : RotatingFile) (actions : List Action) :
    kept log (log.run start actions).1 <:+ (log.run start actions).2 ∧
      ∀ n content, (log.run start actions).1.files n = some content →
        n ≤ log.keep ∧ Fits log content := by
  obtain ⟨hsound, hkept⟩ := run_sound (sound_start : Sound log start) actions
  have hstart : kept log start = [] :=
    (kept_fresh (s := ⟨fun _ => none, none, 0⟩) rfl).trans (below_eq_nil fun _ _ => rfl)
  rw [hstart, List.nil_append] at hkept
  exact ⟨hkept, hsound.bound⟩

end Agmem.Telemetry
