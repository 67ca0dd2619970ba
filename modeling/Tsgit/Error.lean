import Mathlib.Init

/-!
# Typed Refusals

Every refusal of the library is a `TsgitError` carrying a code and the data of that
code. This module lists the codes the modelled functions raise, under the names of the
functions that build them.
-/

namespace Tsgit

/-- `MidxCheck`: what a multi-pack index is refused for. -/
inductive MidxCheck where
  | size
  | signature
  | version
  | hashVersion
  | chunkTable
  | requiredChunk
  | fanout
  | chunkLength
  | packNames
  | packIntId
  | largeOffset
  deriving DecidableEq

/-- `BitmapCheck`: what a bitmap is refused for. -/
inductive BitmapCheck where
  | size
  | signature
  | version
  | options
  | stream
  | entry
  deriving DecidableEq

/-- `ReftableCheck`: what a reftable is refused for. -/
inductive ReftableCheck where
  | magic
  | version
  | footerCrc
  | truncated
  | blockType
  | restartCount
  | recordOverrun
  | varintOverflow
  | blockBounds
  | cycle
  | tablesList
  deriving DecidableEq

/-- `RevIndexCheck`: what a reverse index is refused for. -/
inductive RevIndexCheck where
  | size
  | signature
  | version
  | hashId
  deriving DecidableEq

/-- `CruftMtimesCheck`: what the times of a cruft pack are refused for. -/
inductive CruftMtimesCheck where
  | size
  | signature
  | version
  | hashId
  | count
  | checksum
  deriving DecidableEq

/-- `ObjectType`: what an object of the store is. -/
inductive ObjectType where
  | commit
  | tree
  | blob
  | tag
  deriving DecidableEq

inductive BundleBadHeaderDetails where
  | notABundle
  | unknownHashAlgorithm (algorithm : List Char)
  | unknownCapability (capability : List Char)
  | malformedHeader (line : List Char) (length : Nat)
  deriving DecidableEq

/-- A typed refusal: one constructor per error code, with that code's data. -/
inductive TsgitError where
  | invalidDelta (reason : String)
  | resourceLocked (resource path : String) (mtimeMs : Option Nat)
  | fileExists (path : String)
  | fileNotFound (path : String)
  | reftableLocked (stack reason : String)
  | invalidPackEntry (offset : Nat) (reason : String)
  | invalidPackHeader (reason : String)
  | invalidPackRevIndex (check : RevIndexCheck) (reason : String)
  | invalidCruftMtimes (check : CruftMtimesCheck) (reason : String)
  | invalidTreeEntry (offset : Nat) (reason : String)
  | invalidFileMode (mode : List Char)
  | invalidObjectId (value : String)
  | invalidPackIndex (reason : String)
  | invalidMultiPackIndex (check : MidxCheck) (reason : String)
  | invalidIndexHeader (reason : String)
  | invalidIndexEntry (offset : Nat) (reason : String)
  | invalidCommitGraphHeader (reason : String)
  | invalidCommitGraphChunk (reason : String)
  | invalidCommit (reason : String)
  | invalidTag (reason : String)
  | invalidIdentity (line : List Char) (reason : String)
  | invalidPktLength (value : List Char)
  | pktLengthReserved (value : Nat)
  | pktTooLarge (value : Nat)
  | pktTruncated (remaining : Nat)
  | invalidPackBitmap (check : BitmapCheck) (reason : String)
  | packTooLarge (objectCount limit : Nat)
  | invalidRef (reason : String)
  | invalidPackedRefs (reason : String)
  | invalidReftable (check : ReftableCheck) (reason : String)
  | objectNotFound (id : List Char)
  | unexpectedObjectType (expected actual : ObjectType) (id : List Char)
  | treeCycleDetected (id : List Char)
  | treeDepthExceeded (depth : Nat)
  | treeEntryLimitExceeded (count limit : Nat)
  | bundleBadHeader (path : List Char) (details : BundleBadHeaderDetails)
  | invalidFilterSpec (spec : List Char) (reason : String)
  | invalidReflogEntry (reason : String)
  | invalidSequencerTodo (reason : List Char)
  | invalidObjectHeader (reason : List Char)
  deriving DecidableEq

/-- What a call can throw: a typed refusal, a `RangeError` of the platform or of the code, a
`TypeError` of a field of `undefined`, or a plain `Error`. -/
inductive Thrown where
  | refusal (error : TsgitError)
  | rangeError
  | typeError
  | outOfRange (message : String)
  | plain (message : String)
  deriving DecidableEq

theorem bind_eq_ok {ε α β : Type} {step : Except ε α} {next : α → Except ε β} {b : β} :
    step >>= next = .ok b ↔ ∃ a, step = .ok a ∧ next a = .ok b := by
  cases step with
  | error e =>
    constructor
    · intro h
      cases h
    · rintro ⟨a, h, -⟩
      cases h
  | ok a =>
    constructor
    · intro h
      exact ⟨a, rfl, h⟩
    · rintro ⟨a, ⟨⟩, h⟩
      exact h

/-- What follows a step that ran. -/
theorem ok_bind_eq {ε α β : Type} {step : Except ε α} {next : α → Except ε β} {a : α}
    (h : step = .ok a) : step >>= next = next a := by
  rw [h]
  rfl

end Tsgit
