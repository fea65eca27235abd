import Agmem.Core.Model
import Mathlib.Order.Defs.LinearOrder

/-! What a session and the daemon say to each other before anything else: one line that names what
the session expects, and one that takes it or says why not. Releases are compared as the versions
they read as, which are in a linear order. -/

namespace Agmem.Daemon

open Core

inductive EmbedderKind where
  | llama
  | api
  | none
deriving DecidableEq

inductive ModelKind where
  | embeddinggemma300m
  | bgeSmallEnV15
deriving DecidableEq

structure ApiModel where
  url : Text
  model : Text
deriving DecidableEq

/-- What is checked of what a session tells the daemon. -/
structure Handshake where
  version : ℕ
  release : Text
  dbUrl : Text
  embedder : EmbedderKind
  model : ModelKind
  api : ApiModel
deriving DecidableEq

/-- What to tell the session. -/
inductive Message where
  /-- "the running daemon is agmem … and this session is agmem …; the daemon is retiring so a fresh
  one can serve this release. Sessions still attached to it need a restart." -/
  | newerSession (running asked : Text)
  /-- "the running daemon is agmem … and this session is an older agmem …; the daemon keeps serving
  the newer release. …" -/
  | olderSession (running asked : Text)
  /-- "the running daemon is agmem … and this session is agmem …; the daemon is retiring so a fresh
  one can serve this release." -/
  | unreadable (running asked : Text)
  /-- "this session speaks agmem daemon protocol v… and the running daemon speaks v…; …" -/
  | protocol (asked running : ℕ)
  /-- "the running daemon holds … and this session asked for …. …" -/
  | store (running asked : Text)
  /-- "the running daemon embeds with … and this session asked for …. …; stop the daemon or match
  --embedder." -/
  | embedder (running asked : EmbedderKind)
  /-- "the running daemon embeds with … and this session asked for …. …; stop the daemon or match
  --model." -/
  | model (running asked : ModelKind)
  /-- "the running daemon embeds with … at … and this session asked for … at …. …" -/
  | api (running asked : ApiModel)
  /-- "the running daemon (agmem …) is retiring for a newer release; this session waits for the
  fresh one." -/
  | alreadyRetiring (running : Text)
deriving DecidableEq

/-- Why a daemon turned a session away, and whether it is stepping aside. -/
structure Refusal where
  message : Message
  retire : Bool
deriving DecidableEq

variable {V : Type} [LinearOrder V] (parse : Text → Option V)

/-- Which of two releases is newer, if both are versions that read. -/
def newer (asked daemon : Text) : Option Ordering :=
  match parse asked, parse daemon with
  | some asked, some daemon => some (compare asked daemon)
  | _, _ => none

/-- The checks after the release, in their order. -/
def Handshake.matches (own asked : Handshake) : Except Refusal Unit :=
  if asked.version ≠ own.version then
    .error ⟨.protocol asked.version own.version, decide (own.version < asked.version)⟩
  else if asked.dbUrl ≠ own.dbUrl then .error ⟨.store own.dbUrl asked.dbUrl, false⟩
  else if asked.embedder ≠ own.embedder then .error ⟨.embedder own.embedder asked.embedder, false⟩
  else if asked.model ≠ own.model then .error ⟨.model own.model asked.model, false⟩
  else if asked.api ≠ own.api then .error ⟨.api own.api asked.api, false⟩
  else .ok ()

/-- Refuse a session that expects something this daemon is not serving. -/
def Handshake.accept (own asked : Handshake) : Except Refusal Unit :=
  match newer parse asked.release own.release with
  | some .gt => .error ⟨.newerSession own.release asked.release, true⟩
  | some .lt => .error ⟨.olderSession own.release asked.release, false⟩
  | some .eq => own.matches asked
  | none => .error ⟨.unreadable own.release asked.release, true⟩

/-- What a session hears when it attaches to a daemon another session already retired. -/
def Refusal.alreadyRetiring (own : Handshake) : Refusal := ⟨.alreadyRetiring own.release, true⟩

/-- The one line the daemon writes back. -/
structure Ack where
  ok : Bool
  error : Option Message
  retiring : Bool
deriving DecidableEq

def Ack.accepted : Ack := ⟨true, none, false⟩

def Ack.refused (refusal : Refusal) : Ack := ⟨false, some refusal.message, refusal.retire⟩

/-- The answer to a decision. -/
def Ack.of : Except Refusal Unit → Ack
  | .ok () => .accepted
  | .error refusal => .refused refusal

/-! ### The side of the session -/

inductive Attached where
  | serving
  | daemonRetired
deriving DecidableEq

inductive AttachError where
  /-- "the shared store closed without answering the handshake. …" -/
  | closedWithoutAnswering
  | refused (message : Option Message)
deriving DecidableEq

/-- What one attempt comes to, once the session has read a line or the end of the stream. -/
def attachOnce : Option Ack → Except AttachError Attached
  | none => .error .closedWithoutAnswering
  | some ack =>
    if ack.ok then .ok .serving
    else if ack.retiring then .ok .daemonRetired
    else .error (.refused ack.error)

/-! ### The answers -/

variable {parse} {own asked : Handshake}

theorem Ack.of_ok {decision : Except Refusal Unit} : (Ack.of decision).ok = true ↔
    decision = .ok () := by
  cases decision with
  | ok u => exact ⟨fun _ => rfl, fun _ => rfl⟩
  | error refusal => exact ⟨nofun, nofun⟩

theorem attachOnce_isOk {ack : Ack} :
    (∃ a, attachOnce (some ack) = .ok a) ↔ ack.ok = true ∨ ack.retiring = true := by
  unfold attachOnce
  by_cases hok : ack.ok = true
  · simp [hok]
  · by_cases hretiring : ack.retiring = true
    · simp [hok, hretiring]
    · simp [hok, hretiring]

theorem matches_self (own : Handshake) : own.matches own = .ok () := by
  simp [Handshake.matches]

/-- A session of the release and the configuration of the daemon is taken, unless the release does
not read as a version, and then the daemon retires for it. -/
theorem accept_self (parse : Text → Option V) (own : Handshake) : own.accept parse own = .ok () ∨
    own.accept parse own = .error ⟨.unreadable own.release own.release, true⟩ := by
  unfold Handshake.accept newer
  cases parse own.release with
  | none => exact .inr rfl
  | some v =>
    left
    dsimp only
    rw [compare_eq_iff_eq.mpr rfl]
    exact matches_self own

/-! ### Small scripts -/

/-- A release of three one-digit numbers, as a version. -/
def singleDigits : Text → Option ℕ
  | [major, '.', minor, '.', patch] =>
    if [major, minor, patch].all Char.isDigit then
      some ((major.toNat - 48) * 100 + (minor.toNat - 48) * 10 + (patch.toNat - 48))
    else none
  | _ => none

/-- A handshake of the release "0.1." and a digit, for the usual store. -/
def released (patch : Char) : Handshake where
  version := 3
  release := ['0', '.', '1', '.', patch]
  dbUrl := ['d', 'b']
  embedder := .llama
  model := .embeddinggemma300m
  api := ⟨[], []⟩

example : Handshake.accept singleDigits (released '3') (released '4') =
    .error ⟨.newerSession ['0', '.', '1', '.', '3'] ['0', '.', '1', '.', '4'], true⟩ := by
  decide

end Agmem.Daemon
