import Mathlib.Algebra.Order.BigOperators.Group.List
import Mathlib.Data.List.AList
import Tsgit.DoublyLinked
import Tsgit.LruCache

/-!
# The Nodes of the Cache of the Last Used

`createLruCache` of `src/domain/storage/lru-cache.ts` as it is kept: nodes in a doubly linked list,
a map from keys to nodes, and a running total of the sizes.
-/

open List

namespace Tsgit

/-! ### The list -/

namespace LruCache

variable {κ V : Type} [DecidableEq κ]

def has (cache : LruCache κ V) (key : κ) : Bool := (cache.entries.find? (·.key = key)).isSome

def delete (cache : LruCache κ V) (key : κ) : Bool × LruCache κ V :=
  (cache.has key, { cache with entries := cache.without key })

def clear (cache : LruCache κ V) : LruCache κ V := { cache with entries := [] }

def withEntries (cache : LruCache κ V) (entries : List (CacheEntry κ V)) : LruCache κ V :=
  { cache with entries }

end LruCache

/-! ### The nodes -/

/-- `createLruCache`, with its variables. -/
structure LinkedCache (κ V : Type) where
  maxSizeBytes : ℕ
  maxEntries : Option ℕ
  nodes : List (CacheEntry κ V)
  links : Links ℕ
  map : AList fun _ : κ => ℕ
  currentSize : ℤ

namespace LinkedCache

variable {κ V : Type}

def create (κ V : Type) (maxSizeBytes : ℕ) (maxEntries : Option ℕ) : LinkedCache κ V :=
  ⟨maxSizeBytes, maxEntries, [], .empty, ∅, 0⟩

def entryCount (cache : LinkedCache κ V) : ℕ := cache.map.keys.length

/-- `map.keys()`, in the order in which they were set. -/
def keys (cache : LinkedCache κ V) : List κ := cache.map.keys.reverse

def removeNode (cache : LinkedCache κ V) (node : ℕ) : LinkedCache κ V :=
  { cache with links := cache.links.unlink node }

def addToHead (cache : LinkedCache κ V) (node : ℕ) : LinkedCache κ V :=
  { cache with links := cache.links.pushFront node }

/-- Moves a node to the head, unless it is there. -/
def relink (cache : LinkedCache κ V) (node : ℕ) : LinkedCache κ V :=
  if cache.links.head ≠ some node then (cache.removeNode node).addToHead node else cache

def byteSize (cache : LinkedCache κ V) (node : ℕ) : ℕ :=
  ((cache.nodes[node]?).map (·.byteSize)).getD 0

variable [DecidableEq κ]

/-- Takes a node out of the list, the map and the total. -/
def drop (cache : LinkedCache κ V) (node : ℕ) (key : κ) : LinkedCache κ V :=
  let removed := cache.removeNode node
  { removed with
    map := removed.map.erase key
    currentSize := removed.currentSize - removed.byteSize node }

/-- The condition of the loop of `evict`, the tail apart. -/
def overfull (cache : LinkedCache κ V) : Bool :=
  cache.maxSizeBytes < cache.currentSize || LruCache.exceeds cache.entryCount cache.maxEntries

def evictFrom : ℕ → LinkedCache κ V → LinkedCache κ V
  | 0, cache => cache
  | fuel + 1, cache =>
    if cache.overfull then
      match cache.links.tail with
      | none => cache
      | some evicted =>
        match cache.nodes[evicted]? with
        | none => cache
        | some entry => evictFrom fuel (cache.drop evicted entry.key)
    else cache

/-- Each turn takes a key out of the map. -/
def evict (cache : LinkedCache κ V) : LinkedCache κ V := evictFrom (cache.entryCount + 1) cache

def get (cache : LinkedCache κ V) (key : κ) : Option V × LinkedCache κ V :=
  match cache.map.lookup key with
  | none => (none, cache)
  | some node => ((cache.nodes[node]?).map (·.value), cache.relink node)

def has (cache : LinkedCache κ V) (key : κ) : Bool := (cache.map.lookup key).isSome

def rewrite (cache : LinkedCache κ V) (node : ℕ) (value : V) (byteSize : ℕ) : LinkedCache κ V :=
  { cache with
    nodes := cache.nodes.modify node fun entry => { entry with value, byteSize }
    currentSize := cache.currentSize - cache.byteSize node + byteSize }

/-- A new node, at the head. -/
def append (cache : LinkedCache κ V) (key : κ) (value : V) (byteSize : ℕ) : LinkedCache κ V :=
  let node := cache.nodes.length
  let added := { cache with
    nodes := cache.nodes ++ [CacheEntry.mk key value byteSize]
    map := cache.map.insert key node }
  let headed := added.addToHead node
  { headed with currentSize := headed.currentSize + byteSize }

def set (cache : LinkedCache κ V) (key : κ) (value : V) (byteSize : ℤ) :
    Except Thrown (Bool × LinkedCache κ V) :=
  if byteSize ≤ 0 then .error (.plain "byteSize must be positive")
  else if cache.maxSizeBytes < byteSize then .ok (false, cache)
  else
    match cache.map.lookup key with
    | some existing =>
      .ok (true, ((cache.rewrite existing value byteSize.toNat).relink existing).evict)
    | none => .ok (true, (cache.append key value byteSize.toNat).evict)

def delete (cache : LinkedCache κ V) (key : κ) : Bool × LinkedCache κ V :=
  match cache.map.lookup key with
  | none => (false, cache)
  | some node => (true, cache.drop node key)

def clear (cache : LinkedCache κ V) : LinkedCache κ V :=
  { cache with
    map := ∅
    links := { cache.links with head := none, tail := none }
    currentSize := 0 }

/-! ### Calls -/

end LinkedCache

inductive CacheCall (κ V : Type) where
  | get (key : κ)
  | has (key : κ)
  | set (key : κ) (value : V) (byteSize : ℤ)
  | delete (key : κ)
  | clear

inductive CacheAnswer (V : Type) where
  | value (found : Option V)
  | flag (answer : Bool)
  | thrown (error : Thrown)
  | done

/-- Makes calls one after the other. -/
def runCalls {κ V σ : Type} (call : CacheCall κ V → σ → CacheAnswer V × σ) :
    List (CacheCall κ V) → σ → List (CacheAnswer V) × σ
  | [], state => ([], state)
  | first :: rest, state =>
    let called := call first state
    let after := runCalls call rest called.2
    (called.1 :: after.1, after.2)

def setAnswer {V σ : Type} (before : σ) : Except Thrown (Bool × σ) → CacheAnswer V × σ
  | .error error => (.thrown error, before)
  | .ok (stored, after) => (.flag stored, after)

variable {κ V : Type} [DecidableEq κ]

def LinkedCache.call (call : CacheCall κ V) (cache : LinkedCache κ V) :
    CacheAnswer V × LinkedCache κ V :=
  match call with
  | .get key => (.value (cache.get key).1, (cache.get key).2)
  | .has key => (.flag (cache.has key), cache)
  | .set key value byteSize => setAnswer cache (cache.set key value byteSize)
  | .delete key => (.flag (cache.delete key).1, (cache.delete key).2)
  | .clear => (.done, cache.clear)

/-- The same calls to the list. A size that is not positive is refused like none at all. -/
def LruCache.call (call : CacheCall κ V) (cache : LruCache κ V) : CacheAnswer V × LruCache κ V :=
  match call with
  | .get key => (.value (cache.get key).1, (cache.get key).2)
  | .has key => (.flag (cache.has key), cache)
  | .set key value byteSize => setAnswer cache (cache.set key value byteSize.toNat)
  | .delete key => (.flag (cache.delete key).1, (cache.delete key).2)
  | .clear => (.done, cache.clear)

/-! ### Evictions from the list -/

namespace LruCache

omit [DecidableEq κ]

variable {cache : LruCache κ V}

theorem not_overfull_nil (cache : LruCache κ V) : (cache.withEntries []).overfull = false := by
  obtain ⟨maxSize, maxEntries, entries⟩ := cache
  cases maxEntries with
  | none => rfl
  | some bound => rfl

theorem withEntries_self (cache : LruCache κ V) : cache.withEntries cache.entries = cache := rfl

theorem evict_of_not_overfull (h : cache.overfull = false) : cache.evict = cache := by
  rw [evict]
  split
  · rfl
  · rw [h]
    rfl

theorem evict_of_overfull (h : cache.overfull = true) :
    cache.evict = (cache.withEntries cache.entries.dropLast).evict := by
  rw [evict]
  split
  · next hnil =>
    have hempty := not_overfull_nil cache
    rw [← hnil, withEntries_self] at hempty
    cases h.symm.trans hempty
  · rw [if_pos h]
    rfl

/-- **What an eviction leaves**: as many entries from the front as fit, and no fewer. -/
theorem evict_take (cache : LruCache κ V) : ∃ kept ≤ cache.entries.length,
    cache.evict = cache.withEntries (cache.entries.take kept) ∧ cache.evict.overfull = false ∧
      ∀ more, kept < more → more ≤ cache.entries.length →
        (cache.withEntries (cache.entries.take more)).overfull = true := by
  induction hlength : cache.entries.length generalizing cache with
  | zero =>
    have hnil : cache.entries = [] := length_eq_zero_iff.mp hlength
    have hempty : cache.overfull = false := by
      have hfits := not_overfull_nil cache
      rwa [← hnil, withEntries_self] at hfits
    refine ⟨0, le_rfl, ?_, ?_, fun more hlower hupper => by omega⟩
    · rw [evict_of_not_overfull hempty, take_zero, ← hnil, withEntries_self]
    · rw [evict_of_not_overfull hempty, hempty]
  | succ n ih =>
    cases hfull : cache.overfull with
    | false =>
      refine ⟨n + 1, le_rfl, ?_, ?_, fun more hlower hupper => by omega⟩
      · rw [evict_of_not_overfull hfull, ← hlength, take_length, withEntries_self]
      · rw [evict_of_not_overfull hfull, hfull]
    | true =>
      obtain ⟨kept, hkept, hevict, hfits, hmore⟩ :=
        ih (cache.withEntries cache.entries.dropLast) (by
          rw [withEntries, length_dropLast, hlength, Nat.add_sub_cancel])
      have htake : ∀ count ≤ n, cache.entries.dropLast.take count = cache.entries.take count :=
        fun count hcount => by
          rw [dropLast_eq_take, take_take, hlength, Nat.add_sub_cancel, Nat.min_eq_left hcount]
      refine ⟨kept, Nat.le_succ_of_le hkept, ?_, ?_, fun more hlower hupper => ?_⟩
      · rw [evict_of_overfull hfull, hevict, ← htake kept hkept]
        rfl
      · rw [evict_of_overfull hfull, hfits]
      · rcases Nat.lt_or_eq_of_le hupper with hlt | rfl
        · rw [← htake more (Nat.le_of_lt_succ hlt)]
          exact hmore more hlower (Nat.le_of_lt_succ hlt)
        · rw [← hlength, take_length]
          exact hfull

end LruCache

/-! ### The nodes of the list -/

namespace LinkedCache

def entriesAt (linked : LinkedCache κ V) (order : List ℕ) : List (CacheEntry κ V) :=
  order.filterMap (linked.nodes[·]?)

/-- The list that the nodes stand for. -/
def listed (linked : LinkedCache κ V) (order : List ℕ) : LruCache κ V :=
  ⟨linked.maxSizeBytes, linked.maxEntries, linked.entriesAt order⟩

/-- The list of nodes, the map and the total hold the same entries. -/
structure Holds (linked : LinkedCache κ V) (order : List ℕ) : Prop where
  links : linked.links.Lists order
  mapped : ∀ key node, linked.map.lookup key = some node ↔
    node ∈ order ∧ ∃ entry, linked.nodes[node]? = some entry ∧ entry.key = key
  made : ∀ node ∈ order, node < linked.nodes.length
  size_eq : linked.currentSize = ((order.map linked.byteSize).sum : ℕ)

variable {linked : LinkedCache κ V} {order : List ℕ} {node : ℕ} {key : κ} {entry : CacheEntry κ V}

theorem holds_create (maxSizeBytes : ℕ) (maxEntries : Option ℕ) :
    (create κ V maxSizeBytes maxEntries).Holds [] where
  links := Links.lists_empty
  mapped key node := ⟨(fun h => by cases h), fun h => absurd h.1 not_mem_nil⟩
  made _ h := absurd h not_mem_nil
  size_eq := rfl

omit [DecidableEq κ] in
theorem byteSize_eq (h : linked.nodes[node]? = some entry) :
    linked.byteSize node = entry.byteSize := by
  rw [byteSize, h]
  rfl

theorem Holds.entryAt (h : linked.Holds order) (hnode : node ∈ order) :
    ∃ entry, linked.nodes[node]? = some entry ∧ linked.map.lookup entry.key = some node := by
  have hget := getElem?_eq_getElem (h.made node hnode)
  exact ⟨_, hget, (h.mapped _ node).mpr ⟨hnode, _, hget, rfl⟩⟩

variable {other : ℕ}

theorem Holds.key_iff (h : linked.Holds order) (hlookup : linked.map.lookup key = some node) (hother : other ∈ order)
    (hentry : linked.nodes[other]? = some entry) : entry.key = key ↔ other = node := by
  constructor
  · intro hkey
    have hsame := (h.mapped key other).mpr ⟨hother, entry, hentry, hkey⟩
    exact Option.some.inj (hsame.symm.trans hlookup)
  · rintro rfl
    obtain ⟨-, found, hfound, hkey⟩ := (h.mapped key other).mp hlookup
    rw [← hkey, Option.some.inj (hentry.symm.trans hfound)]

theorem Holds.currentSize_listed (h : linked.Holds order) :
    (linked.listed order).currentSize = (order.map linked.byteSize).sum := by
  have hmade := h.made
  unfold LruCache.currentSize listed entriesAt
  dsimp only
  clear h
  induction order with
  | nil => rfl
  | cons node order ih =>
    obtain ⟨hnode, hrest⟩ := forall_mem_cons.mp hmade
    have hget := getElem?_eq_getElem hnode
    rw [filterMap_cons_some hget, map_cons, map_cons, sum_cons, sum_cons,
      ih hrest, byteSize_eq hget]

theorem Holds.without_listed (h : linked.Holds order)
    (hlookup : linked.map.lookup key = some node) :
    (linked.listed order).without key = linked.entriesAt (order.filter (· ≠ node)) := by
  rw [LruCache.without, listed, entriesAt, entriesAt, filter_filterMap, filterMap_filter]
  refine filterMap_congr fun other hother => ?_
  have hget := getElem?_eq_getElem (h.made other hother)
  have hiff := h.key_iff hlookup hother hget
  rw [hget, Option.filter_some, decide_eq_decide.mpr (not_congr hiff)]

theorem Holds.without_listed_of_none (h : linked.Holds order)
    (hlookup : linked.map.lookup key = none) :
    (linked.listed order).without key = linked.entriesAt order := by
  refine filter_eq_self.mpr fun entry hentry => ?_
  obtain ⟨node, hnode, hget⟩ := mem_filterMap.mp hentry
  refine decide_eq_true fun hkey => ?_
  have hfound := (h.mapped key node).mpr ⟨hnode, entry, hget, hkey⟩
  cases hlookup.symm.trans hfound

theorem Holds.find_listed (h : linked.Holds order) (hlookup : linked.map.lookup key = some node)
    (hentry : linked.nodes[node]? = some entry) :
    (linked.listed order).entries.find? (·.key = key) = some entry := by
  obtain ⟨hnode, -⟩ := (h.mapped key node).mp hlookup
  have hkey := (h.key_iff hlookup hnode hentry).mpr rfl
  cases hfind : (linked.listed order).entries.find? (·.key = key) with
  | none =>
    have hmem : entry ∈ (linked.listed order).entries :=
      mem_filterMap.mpr ⟨node, hnode, hentry⟩
    exact absurd (decide_eq_true hkey) (find?_eq_none.mp hfind entry hmem)
  | some found =>
    obtain ⟨other, hother, hget⟩ := mem_filterMap.mp (mem_of_find?_eq_some hfind)
    have hfound : found.key = key := by
      simpa using
        find?_some (p := fun entry : CacheEntry κ V => decide (entry.key = key)) hfind
    rw [(h.key_iff hlookup hother hget).mp hfound] at hget
    exact hget.symm.trans hentry

theorem Holds.find_listed_none (h : linked.Holds order) (hlookup : linked.map.lookup key = none) :
    (linked.listed order).entries.find? (·.key = key) = none := by
  refine find?_eq_none.mpr fun entry hentry hkey => ?_
  obtain ⟨node, hnode, hget⟩ := mem_filterMap.mp hentry
  have hfound := (h.mapped key node).mpr ⟨hnode, entry, hget, of_decide_eq_true hkey⟩
  cases hlookup.symm.trans hfound

theorem Holds.keys_perm (h : linked.Holds order) :
    linked.map.keys.Perm ((linked.listed order).entries.map (·.key)) := by
  have hnodup : ((linked.listed order).entries.map (·.key)).Nodup := by
    rw [List.Nodup, pairwise_map, listed, entriesAt, pairwise_filterMap]
    refine h.links.nodup.imp_of_mem fun {a b} ha hb hne entry hentry other hother hkey => hne ?_
    obtain ⟨found, hfound, hlookup⟩ := h.entryAt ha
    rw [Option.some.inj (hentry.symm.trans hfound)] at hkey
    exact ((h.key_iff hlookup hb hother).mp hkey.symm).symm
  refine (perm_ext_iff_of_nodup linked.map.keys_nodup hnodup).mpr fun key => ?_
  rw [← AList.mem_keys, ← AList.lookup_isSome, Option.isSome_iff_exists, mem_map]
  constructor
  · rintro ⟨node, hlookup⟩
    obtain ⟨hnode, entry, hget, hkey⟩ := (h.mapped key node).mp hlookup
    exact ⟨entry, mem_filterMap.mpr ⟨node, hnode, hget⟩, hkey⟩
  · rintro ⟨entry, hentry, hkey⟩
    obtain ⟨node, hnode, hget⟩ := mem_filterMap.mp hentry
    exact ⟨node, (h.mapped key node).mpr ⟨hnode, entry, hget, hkey⟩⟩

theorem Holds.entryCount_eq (h : linked.Holds order) :
    linked.entryCount = (linked.listed order).entryCount := by
  rw [entryCount, h.keys_perm.length_eq, length_map]
  rfl

theorem Holds.overfull_eq (h : linked.Holds order) :
    linked.overfull = (linked.listed order).overfull := by
  have hsize : linked.currentSize = ((linked.listed order).currentSize : ℤ) := by
    rw [h.size_eq, h.currentSize_listed]
  have hlt : ((linked.maxSizeBytes : ℤ) < linked.currentSize) ↔
      (linked.listed order).maxSize < (linked.listed order).currentSize := by
    rw [hsize]
    exact Int.ofNat_lt
  rw [overfull, LruCache.overfull, decide_eq_decide.mpr hlt, h.entryCount_eq]
  rfl

/-! ### What a step does to the nodes -/

theorem filter_ne_middle {front back : List ℕ} (h : (front ++ node :: back).Nodup) :
    (front ++ node :: back).filter (· ≠ node) = front ++ back := by
  rw [nodup_middle, nodup_cons] at h
  rw [filter_append, filter_cons_of_neg (by simp), ← filter_append]
  refine filter_eq_self.mpr fun other hother => ?_
  exact decide_eq_true fun hsame => h.1 (hsame ▸ hother)

theorem Holds.split (h : linked.Holds order) (hnode : node ∈ order) :
    ∃ front back, order = front ++ node :: back ∧ order.filter (· ≠ node) = front ++ back := by
  obtain ⟨front, back, rfl⟩ := append_of_mem hnode
  exact ⟨front, back, rfl, filter_ne_middle h.links.nodup⟩

theorem Holds.sum_split (h : linked.Holds order) (hnode : node ∈ order) (size : ℕ → ℕ) :
    (order.map size).sum = size node + ((order.filter (· ≠ node)).map size).sum := by
  obtain ⟨front, back, rfl, hfilter⟩ := h.split hnode
  rw [hfilter, map_append, map_append, map_cons, sum_append, sum_append, sum_cons]
  omega

theorem Holds.relink (h : linked.Holds order) (hnode : node ∈ order) :
    (linked.relink node).Holds (node :: order.filter (· ≠ node)) := by
  have hmem : ∀ other, other ∈ node :: order.filter (· ≠ node) ↔ other ∈ order := fun other => by
    by_cases hsame : other = node
    · simp [hsame, hnode]
    · simp [hsame]
  have hlinks : (linked.relink node).links.Lists (node :: order.filter (· ≠ node)) := by
    obtain ⟨front, back, rfl, hfilter⟩ := h.split hnode
    rw [hfilter, LinkedCache.relink]
    split
    · have hrest := h.links.unlink
      refine hrest.pushFront ?_
      have hnodup := h.links.nodup
      rw [nodup_middle, nodup_cons] at hnodup
      exact hnodup.1
    · next hhead =>
      rw [not_not, h.links.head_eq] at hhead
      cases front with
      | nil => exact h.links
      | cons first front =>
        obtain rfl : first = node := Option.some.inj hhead
        have hnodup := h.links.nodup
        simp at hnodup
  have hsame : (linked.relink node).nodes = linked.nodes ∧ (linked.relink node).map = linked.map ∧
      (linked.relink node).currentSize = linked.currentSize := by
    unfold LinkedCache.relink
    split
    · exact ⟨rfl, rfl, rfl⟩
    · exact ⟨rfl, rfl, rfl⟩
  obtain ⟨hnodes, hmap, hsize⟩ := hsame
  have hbyteSize : (linked.relink node).byteSize = linked.byteSize := by
    funext other
    rw [byteSize, byteSize, hnodes]
  refine ⟨hlinks, fun key other => ?_, fun other hother => ?_, ?_⟩
  · rw [hmap, hnodes, hmem, h.mapped]
  · rw [hnodes]
    exact h.made other ((hmem other).mp hother)
  · rw [hsize, h.size_eq, hbyteSize, map_cons, sum_cons, h.sum_split hnode]

omit [DecidableEq κ] in
theorem getElem?_rewrite (linked : LinkedCache κ V) (node : ℕ) (value : V) (byteSize other : ℕ) :
    (linked.rewrite node value byteSize).nodes[other]? = (linked.nodes[other]?).map fun entry =>
      if node = other then { entry with value, byteSize } else entry :=
  getElem?_modify ..

omit [DecidableEq κ] in
theorem rewrite_of_ne (linked : LinkedCache κ V) (hne : other ≠ node) (value : V)
    (byteSize : ℕ) :
    (linked.rewrite node value byteSize).nodes[other]? = linked.nodes[other]? := by
  rw [getElem?_rewrite]
  simp [hne.symm]

omit [DecidableEq κ] in
theorem rewrite_self (hentry : linked.nodes[node]? = some entry) (value : V) (byteSize : ℕ) :
    (linked.rewrite node value byteSize).nodes[node]? = some ⟨entry.key, value, byteSize⟩ := by
  rw [getElem?_rewrite, hentry]
  simp

omit [DecidableEq κ] in
theorem sum_congr {linked' : LinkedCache κ V} {nodes : List ℕ}
    (h : ∀ node ∈ nodes, linked'.nodes[node]? = linked.nodes[node]?) :
    (nodes.map linked'.byteSize).sum = (nodes.map linked.byteSize).sum := by
  refine congrArg List.sum (map_congr_left fun node hnode => ?_)
  rw [byteSize, byteSize, h node hnode]

theorem ne_of_mem_filter (h : other ∈ order.filter (· ≠ node)) : other ≠ node :=
  of_decide_eq_true (mem_filter.mp h).2

theorem Holds.rewrite (h : linked.Holds order) (hnode : node ∈ order) (value : V) (byteSize : ℕ) :
    (linked.rewrite node value byteSize).Holds order := by
  have hkeys : ∀ (other : ℕ) (key : κ), (∃ entry : CacheEntry κ V,
        (linked.rewrite node value byteSize).nodes[other]? = some entry ∧ entry.key = key) ↔
      ∃ entry : CacheEntry κ V, linked.nodes[other]? = some entry ∧ entry.key = key := by
    intro other key
    rw [getElem?_rewrite]
    cases linked.nodes[other]? with
    | none => simp
    | some entry =>
      by_cases hsame : node = other
      · simp [hsame]
      · simp [hsame]
  refine ⟨h.links, fun key other => ?_, fun other hother => ?_, ?_⟩
  · rw [hkeys]
    exact h.mapped key other
  · rw [LinkedCache.rewrite, length_modify]
    exact h.made other hother
  obtain ⟨entry, hentry, -⟩ := h.entryAt hnode
  have hrest : ((order.filter (· ≠ node)).map (linked.rewrite node value byteSize).byteSize).sum =
      ((order.filter (· ≠ node)).map linked.byteSize).sum :=
    sum_congr fun other hother => rewrite_of_ne linked (ne_of_mem_filter hother) value byteSize
  have hsize : (linked.rewrite node value byteSize).currentSize =
      linked.currentSize - linked.byteSize node + byteSize := rfl
  rw [hsize, h.size_eq, h.sum_split hnode, h.sum_split hnode, hrest,
    byteSize_eq (rewrite_self hentry value byteSize)]
  push_cast
  omega

theorem Holds.fresh (h : linked.Holds order) : linked.nodes.length ∉ order :=
  fun hmem => absurd (h.made _ hmem) (Nat.lt_irrefl _)

theorem append_of_lt (linked : LinkedCache κ V) (hother : other < linked.nodes.length)
    (key : κ) (value : V) (byteSize : ℕ) :
    (linked.append key value byteSize).nodes[other]? = linked.nodes[other]? :=
  getElem?_append_left hother

theorem append_self (linked : LinkedCache κ V) (key : κ) (value : V) (byteSize : ℕ) :
    (linked.append key value byteSize).nodes[linked.nodes.length]? = some ⟨key, value, byteSize⟩ :=
  getElem?_concat_length

theorem Holds.append (h : linked.Holds order) (hlookup : linked.map.lookup key = none) (value : V)
    (byteSize : ℕ) :
    (linked.append key value byteSize).Holds (linked.nodes.length :: order) := by
  have hmap : (linked.append key value byteSize).map = linked.map.insert key linked.nodes.length :=
    rfl
  have hself := append_self linked key value byteSize
  have hkept : ∀ other ∈ order,
      (linked.append key value byteSize).nodes[other]? = linked.nodes[other]? := fun other hother =>
    append_of_lt linked (h.made other hother) key value byteSize
  refine ⟨h.links.pushFront h.fresh, fun key' other => ?_, fun other hother => ?_, ?_⟩
  · rw [hmap, mem_cons]
    by_cases hkey : key' = key
    · subst hkey
      rw [AList.lookup_insert, Option.some.injEq]
      constructor
      · rintro rfl
        exact ⟨.inl rfl, _, hself, rfl⟩
      · rintro ⟨rfl | hother, entry, hentry, hsame⟩
        · rfl
        · rw [hkept other hother] at hentry
          have hfound := (h.mapped key' other).mpr ⟨hother, entry, hentry, hsame⟩
          cases hlookup.symm.trans hfound
    · rw [AList.lookup_insert_ne hkey, h.mapped]
      constructor
      · rintro ⟨hother, hentry⟩
        rw [hkept other hother]
        exact ⟨.inr hother, hentry⟩
      · rintro ⟨rfl | hother, entry, hentry, hsame⟩
        · rw [← Option.some.inj (hself.symm.trans hentry)] at hsame
          exact absurd hsame.symm hkey
        · rw [hkept other hother] at hentry
          exact ⟨hother, entry, hentry, hsame⟩
  · have hlength : (linked.append key value byteSize).nodes.length = linked.nodes.length + 1 :=
      length_append
    rw [hlength]
    rcases mem_cons.mp hother with rfl | hother
    · exact Nat.lt_succ_self _
    · exact Nat.lt_succ_of_lt (h.made other hother)
  · have hsize : (linked.append key value byteSize).currentSize =
        linked.currentSize + byteSize := rfl
    rw [hsize, h.size_eq, map_cons, sum_cons, sum_congr hkept, byteSize_eq hself]
    push_cast
    omega

theorem Holds.drop (h : linked.Holds order) (hlookup : linked.map.lookup key = some node) :
    (linked.drop node key).Holds (order.filter (· ≠ node)) := by
  obtain ⟨hnode, entry, hentry, hkey⟩ := (h.mapped key node).mp hlookup
  have hmap : (linked.drop node key).map = linked.map.erase key := rfl
  have hnodes : (linked.drop node key).nodes = linked.nodes := rfl
  refine ⟨?_, fun key' other => ?_, fun other hother => ?_, ?_⟩
  · obtain ⟨front, back, rfl, hfilter⟩ := h.split hnode
    rw [hfilter]
    exact h.links.unlink
  · rw [hmap, hnodes]
    by_cases hsame : key' = key
    · subst hsame
      rw [AList.lookup_erase]
      refine ⟨(fun hnone => by cases hnone), ?_⟩
      rintro ⟨hother, found, hfound, hfoundKey⟩
      exact absurd ((h.key_iff hlookup (mem_of_mem_filter hother) hfound).mp hfoundKey)
        (ne_of_mem_filter hother)
    · rw [AList.lookup_erase_ne hsame, h.mapped]
      constructor
      · rintro ⟨hother, found, hfound, hfoundKey⟩
        refine ⟨mem_filter.mpr ⟨hother, decide_eq_true ?_⟩, found, hfound, hfoundKey⟩
        rintro rfl
        rw [← Option.some.inj (hentry.symm.trans hfound), hkey] at hfoundKey
        exact hsame hfoundKey.symm
      · rintro ⟨hother, hfound⟩
        exact ⟨mem_of_mem_filter hother, hfound⟩
  · rw [hnodes]
    exact h.made other (mem_of_mem_filter hother)
  have hsize : (linked.drop node key).currentSize =
      linked.currentSize - linked.byteSize node := rfl
  have hbyteSize : (linked.drop node key).byteSize = linked.byteSize := rfl
  rw [hsize, h.size_eq, hbyteSize, h.sum_split hnode]
  push_cast
  omega

theorem Holds.evictFrom (h : linked.Holds order) {fuel : ℕ} (hfuel : order.length < fuel) :
    ∃ rest, (linked.evictFrom fuel).Holds rest ∧
      (linked.evictFrom fuel).listed rest = (linked.listed order).evict := by
  induction fuel generalizing linked order with
  | zero => exact absurd hfuel (Nat.not_lt_zero _)
  | succ fuel ih =>
    rw [LinkedCache.evictFrom]
    cases hfull : linked.overfull with
    | false =>
      rw [h.overfull_eq] at hfull
      exact ⟨order, h, (LruCache.evict_of_not_overfull hfull).symm⟩
    | true =>
      have hlist := hfull
      rw [h.overfull_eq] at hlist
      rw [if_pos rfl, h.links.tail_eq]
      rcases eq_nil_or_concat order with rfl | ⟨front, evicted, rfl⟩
      · have hempty := LruCache.not_overfull_nil (linked.listed [])
        cases hlist.symm.trans hempty
      rw [concat_eq_append] at h hfuel hlist ⊢
      have hmem : evicted ∈ front ++ [evicted] := mem_append_right _ mem_cons_self
      obtain ⟨entry, hentry, hlookup⟩ := h.entryAt hmem
      have hfront : (front ++ [evicted]).filter (· ≠ evicted) = front := by
        rw [filter_ne_middle h.links.nodup, append_nil]
      have hdrop := h.drop hlookup
      rw [hfront] at hdrop
      have hentries : (linked.entriesAt (front ++ [evicted])).dropLast =
          linked.entriesAt front := by
        rw [entriesAt, filterMap_append, filterMap_cons_some hentry,
          filterMap_nil, dropLast_concat]
        rfl
      rw [getLast?_concat]
      dsimp only
      rw [hentry]
      rw [length_append, length_singleton] at hfuel
      obtain ⟨rest, hrest, hlisted⟩ := ih hdrop (by omega)
      refine ⟨rest, hrest, hlisted.trans ?_⟩
      rw [LruCache.evict_of_overfull hlist]
      refine congrArg LruCache.evict ?_
      exact congrArg (LruCache.mk linked.maxSizeBytes linked.maxEntries) hentries.symm

theorem Holds.evict (h : linked.Holds order) :
    ∃ rest, linked.evict.Holds rest ∧ linked.evict.listed rest = (linked.listed order).evict := by
  refine h.evictFrom ?_
  have hcount : linked.entryCount = order.length := by
    rw [h.entryCount_eq, LruCache.entryCount, listed, entriesAt]
    dsimp only
    have hmade := h.made
    clear h
    induction order with
    | nil => rfl
    | cons node order ih =>
      obtain ⟨hnode, hrest⟩ := forall_mem_cons.mp hmade
      rw [filterMap_cons_some (getElem?_eq_getElem hnode), length_cons, length_cons, ih hrest]
  rw [hcount]
  exact Nat.lt_succ_self _

/-! ### Calls to both -/

omit [DecidableEq κ] in
theorem entriesAt_congr {linked' : LinkedCache κ V} {nodes : List ℕ}
    (h : ∀ node ∈ nodes, linked'.nodes[node]? = linked.nodes[node]?) :
    linked'.entriesAt nodes = linked.entriesAt nodes :=
  filterMap_congr h

omit [DecidableEq κ] in
theorem relink_nodes (linked : LinkedCache κ V) (node : ℕ) :
    (linked.relink node).nodes = linked.nodes ∧
      (linked.relink node).maxSizeBytes = linked.maxSizeBytes ∧
        (linked.relink node).maxEntries = linked.maxEntries := by
  unfold LinkedCache.relink
  split
  · exact ⟨rfl, rfl, rfl⟩
  · exact ⟨rfl, rfl, rfl⟩

omit [DecidableEq κ] in
theorem listed_relink (hentry : linked.nodes[node]? = some entry) (rest : List ℕ) :
    (linked.relink node).listed (node :: rest) =
      ⟨linked.maxSizeBytes, linked.maxEntries, entry :: linked.entriesAt rest⟩ := by
  obtain ⟨hnodes, hsize, hentries⟩ := relink_nodes linked node
  rw [listed, entriesAt, hnodes, hsize, hentries, filterMap_cons_some hentry]
  rfl

theorem Holds.get (h : linked.Holds order) (key : κ) : ∃ rest, (linked.get key).2.Holds rest ∧
    (linked.get key).1 = ((linked.listed order).get key).1 ∧
      (linked.get key).2.listed rest = ((linked.listed order).get key).2 := by
  unfold LinkedCache.get LruCache.get
  cases hlookup : linked.map.lookup key with
  | none =>
    rw [h.find_listed_none hlookup]
    exact ⟨order, h, rfl, rfl⟩
  | some node =>
    obtain ⟨hnode, entry, hentry, -⟩ := (h.mapped key node).mp hlookup
    rw [h.find_listed hlookup hentry]
    refine ⟨_, h.relink hnode, ?_, ?_⟩
    · dsimp only
      rw [hentry]
      rfl
    · dsimp only
      rw [listed_relink hentry, h.without_listed hlookup]
      rfl

theorem Holds.has_eq (h : linked.Holds order) (key : κ) :
    linked.has key = (linked.listed order).has key := by
  rw [LinkedCache.has, LruCache.has]
  cases hlookup : linked.map.lookup key with
  | none =>
    rw [h.find_listed_none hlookup]
    rfl
  | some node =>
    obtain ⟨-, entry, hentry, -⟩ := (h.mapped key node).mp hlookup
    rw [h.find_listed hlookup hentry]
    rfl

theorem Holds.delete (h : linked.Holds order) (key : κ) :
    ∃ rest, (linked.delete key).2.Holds rest ∧
      (linked.delete key).1 = ((linked.listed order).delete key).1 ∧
        (linked.delete key).2.listed rest = ((linked.listed order).delete key).2 := by
  unfold LinkedCache.delete LruCache.delete
  rw [← h.has_eq, LinkedCache.has]
  cases hlookup : linked.map.lookup key with
  | none =>
    dsimp only
    rw [h.without_listed_of_none hlookup]
    exact ⟨order, h, rfl, rfl⟩
  | some node =>
    dsimp only
    rw [h.without_listed hlookup]
    exact ⟨_, h.drop hlookup, rfl, rfl⟩

theorem holds_clear (linked : LinkedCache κ V) : linked.clear.Holds [] where
  links := ⟨nodup_nil, rfl, rfl,
    fun h => absurd h.symm (append_ne_nil_of_right_ne_nil _ (cons_ne_nil _ _)),
    fun h => absurd h.symm (append_ne_nil_of_right_ne_nil _ (cons_ne_nil _ _))⟩
  mapped key node := ⟨(fun h => by cases h), fun h => absurd h.1 not_mem_nil⟩
  made _ h := absurd h not_mem_nil
  size_eq := rfl

theorem Holds.listed_append (h : linked.Holds order) (hlookup : linked.map.lookup key = none)
    (value : V) (byteSize : ℕ) :
    (linked.append key value byteSize).listed (linked.nodes.length :: order) =
      (linked.listed order).withEntries
        (⟨key, value, byteSize⟩ :: (linked.listed order).without key) := by
  have hrest : (linked.append key value byteSize).entriesAt order = linked.entriesAt order :=
    entriesAt_congr fun other hother => append_of_lt linked (h.made other hother) key value byteSize
  rw [h.without_listed_of_none hlookup, ← hrest, listed, entriesAt,
    filterMap_cons_some (append_self linked key value byteSize)]
  rfl

theorem Holds.listed_rewrite (h : linked.Holds order) (hlookup : linked.map.lookup key = some node)
    (value : V) (byteSize : ℕ) :
    ((linked.rewrite node value byteSize).relink node).listed (node :: order.filter (· ≠ node)) =
      (linked.listed order).withEntries
        (⟨key, value, byteSize⟩ :: (linked.listed order).without key) := by
  obtain ⟨-, entry, hentry, hkey⟩ := (h.mapped key node).mp hlookup
  have hrest : (linked.rewrite node value byteSize).entriesAt (order.filter (· ≠ node)) =
      linked.entriesAt (order.filter (· ≠ node)) :=
    entriesAt_congr fun other hother =>
      rewrite_of_ne linked (ne_of_mem_filter hother) value byteSize
  rw [listed_relink (rewrite_self hentry value byteSize), h.without_listed hlookup, hrest, hkey]
  rfl

theorem Holds.set (h : linked.Holds order) (key : κ) (value : V) (byteSize : ℤ) :
    ∃ rest, (linked.call (.set key value byteSize)).2.Holds rest ∧
      (linked.call (.set key value byteSize)).1 =
        ((linked.listed order).call (.set key value byteSize)).1 ∧
      (linked.call (.set key value byteSize)).2.listed rest =
        ((linked.listed order).call (.set key value byteSize)).2 := by
  unfold LinkedCache.call LruCache.call
  dsimp only
  unfold LinkedCache.set LruCache.set
  by_cases hsize : byteSize ≤ 0
  · rw [if_pos hsize, if_pos (Int.toNat_of_nonpos hsize)]
    exact ⟨order, h, rfl, rfl⟩
  have hpos : byteSize.toNat ≠ 0 := by
    omega
  have hlarge : (linked.maxSizeBytes : ℤ) < byteSize ↔
      (linked.listed order).maxSize < byteSize.toNat := by
    change (linked.maxSizeBytes : ℤ) < byteSize ↔ linked.maxSizeBytes < byteSize.toNat
    omega
  rw [if_neg hsize, if_neg hpos]
  by_cases hfits : (linked.maxSizeBytes : ℤ) < byteSize
  · rw [if_pos hfits, if_pos (hlarge.mp hfits)]
    exact ⟨order, h, rfl, rfl⟩
  rw [if_neg hfits, if_neg (fun hlisted => hfits (hlarge.mpr hlisted))]
  cases hlookup : linked.map.lookup key with
  | none =>
    obtain ⟨rest, hrest, hevict⟩ := (h.append hlookup value byteSize.toNat).evict
    rw [h.listed_append hlookup] at hevict
    exact ⟨rest, hrest, rfl, hevict⟩
  | some node =>
    obtain ⟨hnode, -⟩ := (h.mapped key node).mp hlookup
    obtain ⟨rest, hrest, hevict⟩ := ((h.rewrite hnode value byteSize.toNat).relink hnode).evict
    rw [h.listed_rewrite hlookup] at hevict
    exact ⟨rest, hrest, rfl, hevict⟩

theorem Holds.call (h : linked.Holds order) (call : CacheCall κ V) :
    ∃ rest, (linked.call call).2.Holds rest ∧
      (linked.call call).1 = ((linked.listed order).call call).1 ∧
        (linked.call call).2.listed rest = ((linked.listed order).call call).2 := by
  cases call with
  | get key =>
    obtain ⟨rest, hrest, hanswer, hlisted⟩ := h.get key
    exact ⟨rest, hrest, congrArg CacheAnswer.value hanswer, hlisted⟩
  | has key => exact ⟨order, h, congrArg CacheAnswer.flag (h.has_eq key), rfl⟩
  | set key value byteSize => exact h.set key value byteSize
  | delete key =>
    obtain ⟨rest, hrest, hanswer, hlisted⟩ := h.delete key
    exact ⟨rest, hrest, congrArg CacheAnswer.flag hanswer, hlisted⟩
  | clear => exact ⟨[], holds_clear linked, rfl, rfl⟩

end LinkedCache

/-! ### Bounds and recency -/

namespace LruCache

/-- The bounds of a cache. -/
structure Bounded (cache : LruCache κ V) : Prop where
  size_le : cache.currentSize ≤ cache.maxSize
  count_le : ∀ bound, cache.maxEntries = some bound → cache.entryCount ≤ bound

omit [DecidableEq κ]

variable {cache : LruCache κ V}

theorem bounded_iff : cache.Bounded ↔ cache.overfull = false := by
  rw [overfull, Bool.or_eq_false_iff, decide_eq_false_iff_not, not_lt]
  constructor
  · intro h
    refine ⟨h.size_le, ?_⟩
    cases hbound : cache.maxEntries with
    | none => rfl
    | some bound => exact decide_eq_false (not_lt.mpr (h.count_le bound hbound))
  · rintro ⟨hsize, hcount⟩
    refine ⟨hsize, fun bound hbound => ?_⟩
    rw [hbound] at hcount
    exact not_lt.mp (of_decide_eq_false hcount)

theorem Bounded.sublist {entries : List (CacheEntry κ V)} (h : cache.Bounded)
    (hsub : entries.Sublist cache.entries) : (cache.withEntries entries).Bounded where
  size_le :=
    ((hsub.map fun entry : CacheEntry κ V => entry.byteSize).sum_le_sum
      fun _ _ => Nat.zero_le _).trans h.size_le
  count_le bound hbound := hsub.length_le.trans (h.count_le bound hbound)

/-- What a `set` leaves: the new entry in front, and as many of the others as the bounds allow. -/
structure Stored (cache after : LruCache κ V) (entry : CacheEntry κ V)
    (others : List (CacheEntry κ V)) : Prop where
  bounded : after.Bounded
  kept : ∃ kept ≤ others.length, after = cache.withEntries (entry :: others.take kept) ∧
    ∀ more, kept < more → more ≤ others.length →
      (cache.withEntries (entry :: others.take more)).overfull = true

theorem not_overfull_singleton {entry : CacheEntry κ V} (hsize : entry.byteSize ≤ cache.maxSize)
    (hcount : ∀ bound, cache.maxEntries = some bound → 1 ≤ bound) :
    (cache.withEntries [entry]).overfull = false :=
  bounded_iff.mp ⟨hsize, hcount⟩

theorem evict_stored {entry : CacheEntry κ V} {others : List (CacheEntry κ V)}
    (hsize : entry.byteSize ≤ cache.maxSize)
    (hcount : ∀ bound, cache.maxEntries = some bound → 1 ≤ bound) :
    cache.Stored (cache.withEntries (entry :: others)).evict entry others := by
  obtain ⟨kept, hkept, hevict, hfits, hmore⟩ := evict_take (cache.withEntries (entry :: others))
  refine ⟨bounded_iff.mpr hfits, ?_⟩
  cases kept with
  | zero =>
    have hfull := hmore 1 Nat.one_pos (Nat.succ_le_succ (Nat.zero_le _))
    cases hfull.symm.trans (not_overfull_singleton hsize hcount)
  | succ kept =>
    refine ⟨kept, Nat.le_of_succ_le_succ hkept, hevict, fun more hlower hupper => ?_⟩
    exact hmore (more + 1) (Nat.succ_lt_succ hlower) (Nat.succ_le_succ hupper)

end LruCache

/-! ### Runs -/

namespace LinkedCache

variable {linked : LinkedCache κ V} {order : List ℕ}

/-- A call stays within the bounds. -/
theorem Holds.bounded_call (h : linked.Holds order) (hbounded : (linked.listed order).Bounded)
    (call : CacheCall κ V) : ((linked.listed order).call call).2.Bounded := by
  cases call with
  | get key =>
    obtain ⟨rest, hrest, -, hlisted⟩ := h.get key
    have hsame : (linked.get key).2.overfull = linked.overfull := by
      unfold LinkedCache.get
      cases linked.map.lookup key with
      | none => rfl
      | some node =>
        dsimp only
        unfold LinkedCache.relink
        split
        · rfl
        · rfl
    change ((linked.listed order).get key).2.Bounded
    rw [← hlisted, LruCache.bounded_iff, ← hrest.overfull_eq, hsame, h.overfull_eq]
    exact LruCache.bounded_iff.mp hbounded
  | has key => exact hbounded
  | set key value byteSize =>
    change (setAnswer _ ((linked.listed order).set key value byteSize.toNat)).2.Bounded
    unfold LruCache.set
    split
    · exact hbounded
    split
    · exact hbounded
    · obtain ⟨-, -, -, hfits, -⟩ := LruCache.evict_take
        ((linked.listed order).withEntries
          (⟨key, value, byteSize.toNat⟩ :: (linked.listed order).without key))
      exact LruCache.bounded_iff.mpr hfits
  | delete key => exact hbounded.sublist filter_sublist
  | clear => exact hbounded.sublist (nil_sublist _)

/-- What holds after every sequence of calls. -/
structure Agrees (linked : LinkedCache κ V) (cache : LruCache κ V) : Prop where
  /-- The nodes from the head to the tail are the entries, and the map leads to just these. -/
  holds : ∃ order, linked.Holds order ∧ linked.listed order = cache
  keys_perm : linked.map.keys.Perm (cache.entries.map (·.key))
  size_eq : linked.currentSize = (cache.currentSize : ℤ)
  count_eq : linked.entryCount = cache.entryCount
  bounded : cache.Bounded

/-- What the next call does. -/
structure Moves (linked : LinkedCache κ V) (cache : LruCache κ V) : Prop where
  /-- A hit moves its key to the front. -/
  hit : ∀ key node, linked.map.lookup key = some node → ∃ entry ∈ cache.entries,
    entry.key = key ∧ (linked.get key).1 = some entry.value ∧
      (linked.get key).2.Agrees (cache.withEntries (entry :: cache.without key))
  miss : ∀ key, linked.map.lookup key = none → linked.get key = (none, linked)
  /-- A set that reports success leaves its key in front, and drops what was used least recently. -/
  stored : ∀ key value byteSize after, linked.set key value byteSize = .ok (true, after) →
    after.has key = true ∧ ∃ cache', after.Agrees cache' ∧
      cache.Stored cache' ⟨key, value, byteSize.toNat⟩ (cache.without key)
  /-- An entry that is too large leaves everything as it is. -/
  refused : ∀ key value byteSize after, linked.set key value byteSize = .ok (false, after) →
    (cache.maxSize : ℤ) < byteSize ∧ after = linked

theorem Holds.agrees (h : linked.Holds order) (hbounded : (linked.listed order).Bounded) :
    linked.Agrees (linked.listed order) where
  holds := ⟨order, h, rfl⟩
  keys_perm := h.keys_perm
  size_eq := by rw [h.size_eq, h.currentSize_listed]
  count_eq := h.entryCount_eq
  bounded := hbounded

theorem Holds.call_agrees (h : linked.Holds order) (hbounded : (linked.listed order).Bounded)
    (call : CacheCall κ V) : (linked.call call).2.Agrees ((linked.listed order).call call).2 := by
  obtain ⟨rest, hrest, -, hlisted⟩ := h.call call
  have hnext := h.bounded_call hbounded call
  rw [← hlisted] at hnext ⊢
  exact hrest.agrees hnext

theorem Agrees.moves {cache : LruCache κ V} (h : linked.Agrees cache)
    (hcount : ∀ bound, cache.maxEntries = some bound → 1 ≤ bound) : linked.Moves cache := by
  obtain ⟨order, hholds, rfl⟩ := h.holds
  refine ⟨fun key node hlookup => ?_, fun key hlookup => ?_,
    fun key value byteSize after hset => ?_, fun key value byteSize after hset => ?_⟩
  · obtain ⟨hnode, entry, hentry, hkey⟩ := (hholds.mapped key node).mp hlookup
    have hfind := hholds.find_listed hlookup hentry
    refine ⟨entry, mem_filterMap.mpr ⟨node, hnode, hentry⟩, hkey, ?_, ?_⟩
    · rw [LinkedCache.get, hlookup]
      dsimp only
      rw [hentry]
      rfl
    · have hnext := hholds.call_agrees h.bounded (.get key)
      unfold LruCache.call LruCache.get at hnext
      dsimp only at hnext
      rw [hfind] at hnext
      exact hnext
  · rw [LinkedCache.get, hlookup]
  · have hnext := hholds.call_agrees h.bounded (.set key value byteSize)
    have hafter : (linked.call (.set key value byteSize)).2 = after := by
      rw [LinkedCache.call, hset]
      rfl
    rw [hafter] at hnext
    have hpos : ¬ byteSize ≤ 0 := fun hsize => by
      rw [LinkedCache.set, if_pos hsize] at hset
      cases hset
    have hfits : ¬ (linked.maxSizeBytes : ℤ) < byteSize := fun hlarge => by
      rw [LinkedCache.set, if_neg hpos, if_pos hlarge] at hset
      cases hset
    have hsize : byteSize.toNat ≤ (linked.listed order).maxSize := by
      change byteSize.toNat ≤ linked.maxSizeBytes
      omega
    have hlist : ((linked.listed order).call (.set key value byteSize)).2 =
        ((linked.listed order).withEntries
          (⟨key, value, byteSize.toNat⟩ :: (linked.listed order).without key)).evict := by
      unfold LruCache.call LruCache.set
      dsimp only
      rw [if_neg (by omega), if_neg (not_lt.mpr hsize)]
      rfl
    have hstored : (linked.listed order).Stored
        ((linked.listed order).withEntries
          (⟨key, value, byteSize.toNat⟩ :: (linked.listed order).without key)).evict
        ⟨key, value, byteSize.toNat⟩ ((linked.listed order).without key) :=
      LruCache.evict_stored hsize hcount
    rw [hlist] at hnext
    refine ⟨?_, _, hnext, hstored⟩
    obtain ⟨order', hholds', hlisted⟩ := hnext.holds
    obtain ⟨kept, -, hevict, -⟩ := hstored.kept
    rw [hholds'.has_eq, hlisted, hevict, LruCache.has, LruCache.withEntries,
      find?_cons_of_pos (by simp)]
    rfl
  · unfold LinkedCache.set at hset
    by_cases hpos : byteSize ≤ 0
    · rw [if_pos hpos] at hset
      cases hset
    rw [if_neg hpos] at hset
    by_cases hlarge : (linked.maxSizeBytes : ℤ) < byteSize
    · rw [if_pos hlarge] at hset
      exact ⟨hlarge, (congrArg Prod.snd (Except.ok.inj hset)).symm⟩
    rw [if_neg hlarge] at hset
    cases hlookup : linked.map.lookup key with
    | none =>
      rw [hlookup] at hset
      cases congrArg Prod.fst (Except.ok.inj hset)
    | some node =>
      rw [hlookup] at hset
      cases congrArg Prod.fst (Except.ok.inj hset)

theorem Holds.run_agrees (h : linked.Holds order) (hbounded : (linked.listed order).Bounded)
    (calls : List (CacheCall κ V)) :
    (runCalls LinkedCache.call calls linked).1 =
        (runCalls LruCache.call calls (linked.listed order)).1 ∧
      (runCalls LinkedCache.call calls linked).2.Agrees
        (runCalls LruCache.call calls (linked.listed order)).2 := by
  induction calls generalizing linked order with
  | nil => exact ⟨rfl, h.agrees hbounded⟩
  | cons call calls ih =>
    obtain ⟨middle, hmiddle, hanswer, hlisted⟩ := h.call call
    have hnext := h.bounded_call hbounded call
    rw [← hlisted] at hnext
    obtain ⟨hanswers, hlast⟩ := ih hmiddle hnext
    rw [hlisted] at hanswers hlast
    refine ⟨?_, hlast⟩
    rw [runCalls, runCalls]
    dsimp only
    rw [hanswer, hanswers]

end LinkedCache

namespace LruCache

omit [DecidableEq κ] in
theorem bounded_create (maxSizeBytes : ℕ) (maxEntries : Option ℕ) :
    (createLruCache κ V maxSizeBytes maxEntries).Bounded where
  size_le := Nat.zero_le _
  count_le bound _ := Nat.zero_le bound

/-- No call changes the bounds. -/
theorem call_maxEntries (cache : LruCache κ V) (call : CacheCall κ V) :
    (cache.call call).2.maxEntries = cache.maxEntries := by
  cases call with
  | get key =>
    change (cache.get key).2.maxEntries = _
    unfold LruCache.get
    cases cache.entries.find? (·.key = key) with
    | none => rfl
    | some entry => rfl
  | has key => rfl
  | set key value byteSize =>
    change (setAnswer _ (cache.set key value byteSize.toNat)).2.maxEntries = _
    unfold LruCache.set
    split
    · rfl
    split
    · rfl
    · obtain ⟨kept, -, hevict, -⟩ := evict_take
        (cache.withEntries (⟨key, value, byteSize.toNat⟩ :: cache.without key))
      have hsame := congrArg LruCache.maxEntries hevict
      exact hsame
  | delete key => rfl
  | clear => rfl

theorem run_maxEntries (cache : LruCache κ V) (calls : List (CacheCall κ V)) :
    (runCalls LruCache.call calls cache).2.maxEntries = cache.maxEntries := by
  induction calls generalizing cache with
  | nil => rfl
  | cons call calls ih => exact (ih _).trans (call_maxEntries cache call)

end LruCache

/-- **The cache**: after any calls to a new one, the nodes, the map and the total are those of a
list by recency, which answered the same and is within its bounds. -/
theorem lru_cache_runs (maxSizeBytes : ℕ) (maxEntries : Option ℕ)
    (hcount : ∀ bound, maxEntries = some bound → 1 ≤ bound) (calls : List (CacheCall κ V)) :
    (runCalls LinkedCache.call calls (.create κ V maxSizeBytes maxEntries)).1 =
        (runCalls LruCache.call calls (createLruCache κ V maxSizeBytes maxEntries)).1 ∧
      (runCalls LinkedCache.call calls (.create κ V maxSizeBytes maxEntries)).2.Agrees
        (runCalls LruCache.call calls (createLruCache κ V maxSizeBytes maxEntries)).2 ∧
      (runCalls LinkedCache.call calls (.create κ V maxSizeBytes maxEntries)).2.Moves
        (runCalls LruCache.call calls (createLruCache κ V maxSizeBytes maxEntries)).2 := by
  have hnew : (LinkedCache.create κ V maxSizeBytes maxEntries).Holds [] :=
    LinkedCache.holds_create maxSizeBytes maxEntries
  have hbounds : (createLruCache κ V maxSizeBytes maxEntries).Bounded :=
    LruCache.bounded_create maxSizeBytes maxEntries
  obtain ⟨hanswers, hagrees⟩ := hnew.run_agrees hbounds calls
  refine ⟨hanswers, hagrees, hagrees.moves fun bound hbound => hcount bound ?_⟩
  rw [← hbound]
  exact (LruCache.run_maxEntries (createLruCache κ V maxSizeBytes maxEntries) calls).symm

/-- Three keys in a cache of two entries: the key that was used least recently is dropped. -/
theorem lru_cache_runs_sample :
    (runCalls LinkedCache.call [.set 1 'a' 4, .set 2 'b' 4, .get 1, .set 3 'c' 4]
      (.create ℕ Char 16 (some 2))).2.Agrees
      (runCalls LruCache.call [.set 1 'a' 4, .set 2 'b' 4, .get 1, .set 3 'c' 4]
        (createLruCache ℕ Char 16 (some 2))).2 :=
  (lru_cache_runs 16 (some 2) (by simp) [.set 1 'a' 4, .set 2 'b' 4, .get 1, .set 3 'c' 4]).2.1

end Tsgit
