import Mathlib.Data.List.Basic
import Tsgit.Outcome
import Tsgit.Error

/-!
# The Cache of the Last Used

`src/domain/storage/lru-cache.ts`, with the linked list of nodes as a list, the one used last in
front. The keys of the source are strings.
-/

namespace Tsgit

/-- `Node`, without its links. -/
structure CacheEntry (κ V : Type) where
  key : κ
  value : V
  byteSize : ℕ

/-- `LruCache`. A `maxEntries` of `none` is `Number.POSITIVE_INFINITY`. -/
structure LruCache (κ V : Type) where
  maxSize : ℕ
  maxEntries : Option ℕ
  entries : List (CacheEntry κ V)

namespace LruCache

variable {κ V : Type}

def currentSize (cache : LruCache κ V) : ℕ := (cache.entries.map (·.byteSize)).sum

def entryCount (cache : LruCache κ V) : ℕ := cache.entries.length

def exceeds (count : ℕ) : Option ℕ → Bool
  | none => false
  | some maxEntries => maxEntries < count

/-- The loop condition of `evict`. -/
def overfull (cache : LruCache κ V) : Bool :=
  cache.maxSize < cache.currentSize || exceeds cache.entryCount cache.maxEntries

def evict (cache : LruCache κ V) : LruCache κ V :=
  match _h : cache.entries with
  | [] => cache
  | _ :: _ =>
    if cache.overfull then evict { cache with entries := cache.entries.dropLast } else cache
termination_by cache.entries.length
decreasing_by
  rw [_h, List.length_dropLast, List.length_cons]
  exact Nat.lt_succ_self _

variable [DecidableEq κ]

def without (cache : LruCache κ V) (key : κ) : List (CacheEntry κ V) :=
  cache.entries.filter (·.key ≠ key)

def get (cache : LruCache κ V) (key : κ) : Option V × LruCache κ V :=
  match cache.entries.find? (·.key = key) with
  | none => (none, cache)
  | some entry => (some entry.value, { cache with entries := entry :: cache.without key })

/-- Whether the entry is resident now, and the cache. -/
def set (cache : LruCache κ V) (key : κ) (value : V) (byteSize : ℕ) :
    Except Thrown (Bool × LruCache κ V) :=
  if byteSize = 0 then .error (.plain "byteSize must be positive")
  else if cache.maxSize < byteSize then .ok (false, cache)
  else
    .ok (true, evict { cache with entries := ⟨key, value, byteSize⟩ :: cache.without key })

end LruCache

def createLruCache (κ V : Type) (maxSizeBytes : ℕ) (maxEntries : Option ℕ) : LruCache κ V :=
  ⟨maxSizeBytes, maxEntries, []⟩

end Tsgit
