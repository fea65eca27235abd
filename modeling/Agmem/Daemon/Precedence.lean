import Mathlib.Logic.Relation
import Mathlib.Order.RelClasses
import Mathlib.Data.Prod.Lex
import Agmem.Daemon.Handshake

/-! Which daemon gives way. A daemon retires for a session that comes from a later release, or from
the same one with a later protocol, and for no other that says a release that reads. So releases
supplant each other in one direction only, however their sessions are configured. -/

namespace Agmem.Daemon

open Core

variable {V : Type} [LinearOrder V] (parse : Text → Option V)

/-- A handshake whose release reads as a version. -/
structure Readable where
  handshake : Handshake
  version : V
  reads : parse handshake.release = some version

/-- The daemon refuses the session and hands the socket over to it. -/
def Retires (own asked : Handshake) : Prop :=
  ∃ message, own.accept parse asked = .error ⟨message, true⟩

variable {parse}

/-- What decides which of two handshakes gives way: the release, then the protocol. -/
def Readable.rank (h : Readable parse) : V ×ₗ ℕ := toLex (h.version, h.handshake.version)

theorem newer_readable (own asked : Readable parse) :
    newer parse asked.handshake.release own.handshake.release =
      some (compare asked.version own.version) := by
  simp [newer, own.reads, asked.reads]

theorem accept_of_gt {own asked : Readable parse} (h : own.version < asked.version) :
    Retires parse own.handshake asked.handshake := by
  refine ⟨.newerSession own.handshake.release asked.handshake.release, ?_⟩
  rw [Handshake.accept, newer_readable, compare_gt_iff_gt.mpr h]

theorem accept_of_lt {own asked : Readable parse} (h : asked.version < own.version) :
    own.handshake.accept parse asked.handshake =
      .error ⟨.olderSession own.handshake.release asked.handshake.release, false⟩ := by
  rw [Handshake.accept, newer_readable, compare_lt_iff_lt.mpr h]

theorem accept_of_eq {own asked : Readable parse} (h : asked.version = own.version) :
    own.handshake.accept parse asked.handshake = own.handshake.matches asked.handshake := by
  rw [Handshake.accept, newer_readable, compare_eq_iff_eq.mpr h]

/-- Of one release, the protocol alone makes a daemon retire. -/
theorem matches_retires_iff {own asked : Handshake} :
    (∃ message, own.matches asked = .error ⟨message, true⟩) ↔ own.version < asked.version := by
  by_cases hversion : asked.version = own.version
  · rw [hversion]
    refine iff_of_false ?_ (lt_irrefl _)
    unfold Handshake.matches
    rw [if_neg (not_not.mpr hversion)]
    split_ifs <;> exact fun ⟨_, h⟩ => nomatch h
  · unfold Handshake.matches
    rw [if_pos hversion]
    simp

theorem matches_ok_iff {own asked : Handshake} : own.matches asked = .ok () ↔
    asked.version = own.version ∧ asked.dbUrl = own.dbUrl ∧ asked.embedder = own.embedder ∧
      asked.model = own.model ∧ asked.api = own.api := by
  unfold Handshake.matches
  split_ifs with hversion hdb hembedder hmodel hapi <;> simp_all

/-- A daemon retires exactly for what ranks above it. -/
theorem retires_iff (own asked : Readable parse) :
    Retires parse own.handshake asked.handshake ↔ own.rank < asked.rank := by
  rw [Readable.rank, Readable.rank, Prod.Lex.toLex_lt_toLex]
  rcases lt_trichotomy own.version asked.version with h | h | h
  · exact iff_of_true (accept_of_gt h) (.inl h)
  · rw [Retires, accept_of_eq h.symm, matches_retires_iff]
    simp [h]
  · rw [Retires, accept_of_lt h]
    exact iff_of_false (fun ⟨_, h⟩ => nomatch h) (by simp [h.not_gt, h.ne'])

/-- What a daemon and its sessions come from: a release, and the protocol it speaks. -/
def Handshake.installed (h : Handshake) : Text × ℕ := (h.release, h.version)

/-- A daemon of the one would retire for a session of the other, in some configuration of both. -/
def Supplants (parse : Text → Option V) (r s : Text × ℕ) : Prop :=
  ∃ own asked : Readable parse, own.handshake.installed = r ∧ asked.handshake.installed = s ∧
    Retires parse own.handshake asked.handshake

omit [LinearOrder V] in
theorem Readable.rank_eq {a b : Readable parse}
    (h : a.handshake.installed = b.handshake.installed) : a.rank = b.rank := by
  obtain ⟨hrelease, hversion⟩ := Prod.mk.inj h
  have hv : a.version = b.version :=
    Option.some.inj (a.reads.symm.trans ((congrArg parse hrelease).trans b.reads))
  rw [Readable.rank, Readable.rank, hv, hversion]

/-- What is reached by retirements ranks above what they began with. -/
theorem rank_of_transGen {r s : Text × ℕ} (h : Relation.TransGen (Supplants parse) r s) :
    ∃ own asked : Readable parse, own.handshake.installed = r ∧ asked.handshake.installed = s ∧
      own.rank < asked.rank := by
  induction h with
  | single h =>
    obtain ⟨own, asked, hown, hasked, hretires⟩ := h
    exact ⟨own, asked, hown, hasked, (retires_iff own asked).mp hretires⟩
  | tail _ h ih =>
    obtain ⟨own, middle, hown, hmiddle, hlt⟩ := ih
    obtain ⟨middle', asked, hmiddle', hasked, hretires⟩ := h
    refine ⟨own, asked, hown, hasked, hlt.trans ?_⟩
    rw [Readable.rank_eq (hmiddle.trans hmiddle'.symm)]
    exact (retires_iff middle' asked).mp hretires

/-- Among handshakes whose releases read, retiring is a strict order, and no installed versions
supplant each other in a round, in whatever configurations; and a session is taken exactly where it
agrees with the daemon on everything that is checked. A version is written in one way only. -/
theorem retirement_consistent (hparse : ∀ a b v, parse a = some v → parse b = some v → a = b) :
    (∀ a : Readable parse, ¬ Retires parse a.handshake a.handshake) ∧
    (∀ a b : Readable parse, Retires parse a.handshake b.handshake →
      ¬ Retires parse b.handshake a.handshake) ∧
    (∀ a b c : Readable parse, Retires parse a.handshake b.handshake →
      Retires parse b.handshake c.handshake → Retires parse a.handshake c.handshake) ∧
    (∀ r : Text × ℕ, ¬ Relation.TransGen (Supplants parse) r r) ∧
    (∀ own asked : Readable parse,
      own.handshake.accept parse asked.handshake = .ok () ↔
        asked.handshake.release = own.handshake.release ∧
        asked.handshake.version = own.handshake.version ∧
        asked.handshake.dbUrl = own.handshake.dbUrl ∧
        asked.handshake.embedder = own.handshake.embedder ∧
        asked.handshake.model = own.handshake.model ∧
        asked.handshake.api = own.handshake.api) := by
  refine ⟨fun a => ?_, fun a b hab => ?_, fun a b c hab hbc => ?_, fun r hround => ?_,
    fun own asked => ?_⟩
  · rw [retires_iff]
    exact lt_irrefl _
  · rw [retires_iff] at hab ⊢
    exact hab.not_gt
  · rw [retires_iff] at hab hbc ⊢
    exact hab.trans hbc
  · obtain ⟨own, asked, hown, hasked, hlt⟩ := rank_of_transGen hround
    exact hlt.ne (Readable.rank_eq (hown.trans hasked.symm))
  · rcases lt_trichotomy own.version asked.version with h | h | h
    · obtain ⟨message, hrefused⟩ := accept_of_gt h
      rw [hrefused]
      refine iff_of_false (fun h => nomatch h) fun hall => h.ne ?_
      exact Option.some.inj (own.reads.symm.trans ((congrArg parse hall.1.symm).trans asked.reads))
    · rw [accept_of_eq h.symm, matches_ok_iff, iff_and_self]
      exact fun _ => hparse _ _ _ asked.reads (h ▸ own.reads)
    · rw [accept_of_lt h]
      refine iff_of_false (fun h => nomatch h) fun hall => h.ne' ?_
      exact Option.some.inj (own.reads.symm.trans ((congrArg parse hall.1.symm).trans asked.reads))

/-- A version of three one-digit numbers is written in one way. -/
theorem singleDigits_inj {a b : Text} {v : ℕ} (ha : singleDigits a = some v)
    (hb : singleDigits b = some v) : a = b := by
  have hreads {text : Text} (h : singleDigits text = some v) : ∃ x y z : Char,
      text = [x, '.', y, '.', z] ∧ x.isDigit = true ∧ y.isDigit = true ∧ z.isDigit = true ∧
        v = (x.toNat - 48) * 100 + (y.toNat - 48) * 10 + (z.toNat - 48) := by
    unfold singleDigits at h
    split at h
    · next x y z =>
      split_ifs at h with hdigits
      simp only [List.all_cons, List.all_nil, Bool.and_true, Bool.and_eq_true] at hdigits
      exact ⟨x, y, z, rfl, hdigits.1, hdigits.2.1, hdigits.2.2, (Option.some.inj h).symm⟩
    · cases h
  have hdigit {c : Char} (h : c.isDigit = true) : 48 ≤ c.toNat ∧ c.toNat ≤ 57 := by
    simp only [Char.isDigit, Bool.and_eq_true, decide_eq_true_eq, ge_iff_le,
      UInt32.le_iff_toNat_le] at h
    exact h
  obtain ⟨x, y, z, rfl, hx, hy, hz, hv⟩ := hreads ha
  obtain ⟨x', y', z', rfl, hx', hy', hz', hv'⟩ := hreads hb
  have := hdigit hx
  have := hdigit hy
  have := hdigit hz
  have := hdigit hx'
  have := hdigit hy'
  have := hdigit hz'
  have hxx : x = x' := Char.toNat_inj.mp (by omega)
  have hyy : y = y' := Char.toNat_inj.mp (by omega)
  have hzz : z = z' := Char.toNat_inj.mp (by omega)
  rw [hxx, hyy, hzz]

/-- A daemon of 0.1.3 retires for a session of 0.1.4, and so one of 0.1.4 not for one of 0.1.3. -/
theorem newer_keeps : Retires singleDigits (released '3') (released '4') ∧
    ¬ Retires singleDigits (released '4') (released '3') := by
  have hretires : Retires singleDigits (released '3') (released '4') := ⟨_, rfl⟩
  exact ⟨hretires, (retirement_consistent fun _ _ _ => singleDigits_inj).2.1
    ⟨released '3', 13, by decide⟩ ⟨released '4', 14, by decide⟩ hretires⟩

end Agmem.Daemon
