/-
  Kompjutr.Refs.Log

  Who moved a ref, when and why: the metadata of a reflog entry and its check
  (`store/refs/reflog.ts`).
-/
import Kompjutr.Refs.Name

namespace Kompjutr.Refs

open Objects (Text text)
open Utf8 (WellFormed)
open Fuel

def maxReflogTimezoneMinutes : Int := 24 * 60

def maxReflogOrdinal : Int := maxSafeInteger

structure RefLogActor where
  name : Text
  email : Text
  deriving DecidableEq

structure RefLogMetadata where
  actor : Option RefLogActor
  timestamp : Int
  timezoneOffset : Int
  reason : Text
  deriving DecidableEq

/-- The part of `validateRefLogMetadata` about an actor. -/
def validateRefLogActor (actor : RefLogActor) : Except GitError Unit := do
  reject (actor.name = [] || actor.email = [])
    (invalidRefValue "reflog actor name and email are required together")
  let _ ← refTextBytes actor.name "reflog actor name"
  let _ ← refTextBytes actor.email "reflog actor email"
  reject (actor.name.contains 0x3c || actor.name.contains 0x3e || actor.email.contains 0x3c ||
      actor.email.contains 0x3e)
    (invalidRefValue "reflog actor identity contains an invalid character")

def validateRefLogMetadata (metadata : RefLogMetadata) : Except GitError RefLogMetadata := do
  reject (!isSafeInteger metadata.timestamp || metadata.timestamp < 0 ||
      maxReflogOrdinal < metadata.timestamp)
    (invalidRefValue "reflog timestamp must be a safe nonnegative epoch second")
  reject (!isSafeInteger metadata.timezoneOffset ||
      metadata.timezoneOffset < -maxReflogTimezoneMinutes ||
      maxReflogTimezoneMinutes < metadata.timezoneOffset)
    (invalidRefValue "reflog timezone offset is outside its bounded range")
  reject (metadata.reason = []) (invalidRefValue "reflog reason is required")
  let _ ← refTextBytes metadata.reason "reflog reason"
  metadata.actor.forM validateRefLogActor
  return metadata

-- What an accepted entry is

/-- A checked name or e-mail. -/
structure PlainText (value : Text) : Prop where
  unbroken : ∀ unit ∈ value, isBreak unit = false
  formed : WellFormed value
  opens : 0x3c ∉ value
  closes : 0x3e ∉ value

theorem validateRefLogActor_ok {actor : RefLogActor} (h : validateRefLogActor actor = .ok ()) :
    PlainText actor.name ∧ PlainText actor.email := by
  unfold validateRefLogActor at h
  replace h := Fuel.after_check h
  obtain ⟨_, hname, h⟩ := bind_eq_ok.1 h
  obtain ⟨_, hemail, h⟩ := bind_eq_ok.1 h
  obtain ⟨hnameUnits, hnameFormed⟩ := checkRefTextFrom_sound (refTextBytes_ok hname)
  obtain ⟨hemailUnits, hemailFormed⟩ := checkRefTextFrom_sound (refTextBytes_ok hemail)
  have hangles := reject_eq_ok.1 h
  simp only [Bool.or_eq_false_iff, List.contains_eq_mem, decide_eq_false_iff_not] at hangles
  obtain ⟨⟨⟨hnameOpen, hnameClose⟩, hemailOpen⟩, hemailClose⟩ := hangles
  exact ⟨⟨hnameUnits, hnameFormed, hnameOpen, hnameClose⟩,
    ⟨hemailUnits, hemailFormed, hemailOpen, hemailClose⟩⟩

/-- The bounds on the two numbers of an entry. -/
structure LogTimes (timestamp timezoneOffset : Int) : Prop where
  safe : isSafeInteger timestamp = true
  nonneg : 0 ≤ timestamp
  zone : timezoneOffset.natAbs ≤ 24 * 60

theorem validateRefLogMetadata_ok {metadata accepted : RefLogMetadata}
    (h : validateRefLogMetadata metadata = .ok accepted) :
    accepted = metadata ∧ LogTimes metadata.timestamp metadata.timezoneOffset ∧
      ∀ actor ∈ metadata.actor, PlainText actor.name ∧ PlainText actor.email := by
  unfold validateRefLogMetadata at h
  obtain ⟨⟨⟩, htime, h⟩ := bind_eq_ok.1 h
  obtain ⟨⟨⟩, hzone, h⟩ := bind_eq_ok.1 h
  replace h := Fuel.after_check h
  obtain ⟨_, -, h⟩ := bind_eq_ok.1 h
  obtain ⟨⟨⟩, hactor, h⟩ := bind_eq_ok.1 h
  unfold maxReflogTimezoneMinutes at hzone
  rw [reject_eq_ok] at htime hzone
  simp only [Bool.or_eq_false_iff, Bool.not_eq_false', decide_eq_false_iff_not] at htime hzone
  refine ⟨(Except.ok.inj h).symm, ⟨htime.1.1, by omega, by omega⟩, ?_⟩
  intro actor hmem
  rw [hmem] at hactor
  exact validateRefLogActor_ok hactor

end Kompjutr.Refs
