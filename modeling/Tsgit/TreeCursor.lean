import Tsgit.Tree

/-!
# Tree Cursors

`src/domain/objects/tree-cursor.ts`: a walk over the raw body of a tree that decodes nothing.
A cursor holds the places of one entry; advancing it scans the next one.
-/

namespace Tsgit.Objects

structure TreeCursor where
  buf : Bytes
  hash : HashConfig
  offset : ℕ
  modeEnd : ℕ
  nameStart : ℕ
  nameEnd : ℕ
  oidStart : ℕ
  isDir : Bool
  done : Bool
  deriving DecidableEq

/-! ### Scanning -/

def scanMode (c : TreeCursor) (start : ℕ) : Except TsgitError TreeCursor :=
  match indexOf c.buf 0x20 start with
  | none => .error (.invalidTreeEntry start "missing space after mode")
  | some modeEnd =>
    if modeEnd = start ∨ hasNonOctalByte c.buf start modeEnd then
      .error (.invalidTreeEntry start "malformed mode")
    else .ok { c with modeEnd := modeEnd }

def scanName (c : TreeCursor) : Except TsgitError TreeCursor :=
  let nameStart := c.modeEnd + 1
  match indexOf c.buf 0x00 nameStart with
  | none => .error (.invalidTreeEntry c.offset "missing null after name")
  | some nameEnd =>
    if nameEnd = nameStart then .error (.invalidTreeEntry c.offset "empty filename")
    else .ok { c with nameStart := nameStart, nameEnd := nameEnd }

def scanOid (c : TreeCursor) : Except TsgitError TreeCursor :=
  let oidStart := c.nameEnd + 1
  if oidStart + c.hash.digestLength > c.buf.length then
    .error (.invalidTreeEntry c.offset "truncated hash")
  else .ok { c with oidStart := oidStart }

/-- `S_ISDIR` on octal digits: the fifth digit from the right is 4, and the sixth is even. -/
def computeIsDir (buf : Bytes) (modeStart modeEnd : ℕ) : Bool :=
  let length := modeEnd - modeStart
  if length < 5 ∨ byteAt buf (modeEnd - 5) ≠ 0x34 then false
  else if length = 5 then true
  else ((byteAt buf (modeEnd - 6) : ℤ) - 0x30) % 2 = 0

def scanEntryAt (c : TreeCursor) (start : ℕ) : Except TsgitError TreeCursor := do
  let c := { c with offset := start }
  let c ← scanMode c start
  let c ← scanName c
  let c ← scanOid c
  pure { c with isDir := computeIsDir c.buf c.offset c.modeEnd }

def openTreeCursor (buf : Bytes) (hash : HashConfig) : Except TsgitError TreeCursor :=
  let cursor : TreeCursor := ⟨buf, hash, 0, 0, 0, 0, 0, false, buf.length = 0⟩
  if cursor.done then .ok cursor else scanEntryAt cursor 0

def advanceCursor (c : TreeCursor) : Except TsgitError TreeCursor :=
  let next := c.oidStart + c.hash.digestLength
  if next ≥ c.buf.length then .ok { c with done := true } else scanEntryAt c next

/-! ### What a cursor shows -/

def cursorNameBytes (c : TreeCursor) : Bytes := subarray c.buf c.nameStart c.nameEnd

def cursorName (c : TreeCursor) : Text := decodePreservingBom (cursorNameBytes c)

/-- The raw id under the cursor. -/
def cursorOidBytes (c : TreeCursor) : Bytes :=
  subarray c.buf c.oidStart (c.oidStart + c.hash.digestLength)

def cursorOid (c : TreeCursor) : Except TsgitError Text := fromRaw (cursorOidBytes c)

/-- The places a scan leaves behind, and what it does not touch. -/
structure Scanned (c c' : TreeCursor) (start : ℕ) : Prop where
  spans : Spans c.buf c.hash start c'.modeEnd c'.nameEnd
  buf_eq : c'.buf = c.buf
  hash_eq : c'.hash = c.hash
  done_eq : c'.done = c.done
  offset_eq : c'.offset = start
  nameStart_eq : c'.nameStart = c'.modeEnd + 1
  oidStart_eq : c'.oidStart = c'.nameEnd + 1
  isDir_eq : c'.isDir = computeIsDir c.buf start c'.modeEnd

theorem scanEntryAt_ok {c c' : TreeCursor} {start : ℕ} (h : scanEntryAt c start = .ok c') :
    Scanned c c' start := by
  unfold scanEntryAt at h
  obtain ⟨c₁, hmode, h⟩ := bind_eq_ok.mp h
  obtain ⟨c₂, hname, h⟩ := bind_eq_ok.mp h
  obtain ⟨c₃, hoid, h⟩ := bind_eq_ok.mp h
  cases h
  unfold scanMode at hmode
  cases hspace : indexOf c.buf 0x20 start with
  | none =>
    simp only [hspace] at hmode
    cases hmode
  | some modeEnd =>
    simp only [hspace] at hmode
    split at hmode
    · cases hmode
    · next hvalid =>
      cases hmode
      obtain ⟨hne, hoctal⟩ := not_or.mp hvalid
      unfold scanName at hname
      cases hnull : indexOf c.buf 0x00 (modeEnd + 1) with
      | none =>
        simp only [hnull] at hname
        cases hname
      | some nameEnd =>
        simp only [hnull] at hname
        split at hname
        · cases hname
        · next hnonempty =>
          cases hname
          unfold scanOid at hoid
          dsimp only at hoid
          split at hoid
          · cases hoid
          · next hfits =>
            cases hoid
            have hle := (indexOf_spec hspace).1
            have hle' := (indexOf_spec hnull).1
            exact ⟨⟨hspace, by dsimp only; omega, Bool.eq_false_iff.mpr hoctal, hnull,
              by dsimp only; omega, Nat.not_lt.mp hfits⟩, rfl, rfl, rfl, rfl, rfl, rfl,
              rfl⟩

/-- How many bytes are left behind the start of the id under the cursor. -/
def TreeCursor.remaining (c : TreeCursor) : ℕ :=
  if c.done then 0 else c.buf.length - c.oidStart + 1

/-- A cursor moves forward. -/
theorem advanceCursor_lt {c next : TreeCursor} (hdone : c.done = false)
    (h : advanceCursor c = .ok next) : next.remaining < c.remaining := by
  have hc : c.remaining = c.buf.length - c.oidStart + 1 := by
    rw [TreeCursor.remaining, hdone]
    rfl
  unfold advanceCursor at h
  dsimp only at h
  split at h
  · cases h
    rw [hc]
    exact Nat.succ_pos _
  · next hmore =>
    have hscanned := scanEntryAt_ok h
    have := hscanned.spans.mode_ne_nil
    have := hscanned.spans.name_ne_nil
    rw [hc, TreeCursor.remaining, hscanned.done_eq, hdone, hscanned.buf_eq, hscanned.oidStart_eq]
    simp only [Bool.false_eq_true, if_false]
    omega

/-- From a cursor to exhaustion: the name, the id and the directory flag of each entry. -/
def walkFrom (c : TreeCursor) : Except TsgitError (List (Bytes × Text × Bool)) :=
  if _hdone : c.done = false then do
    let id ← cursorOid c
    match _h : advanceCursor c with
    | .error e => .error e
    | .ok next =>
      let rest ← walkFrom next
      pure ((cursorNameBytes c, id, c.isDir) :: rest)
  else .ok []
termination_by c.remaining
decreasing_by
  exact advanceCursor_lt _hdone _h

def walkTreeCursor (content : Bytes) (hash : HashConfig) :
    Except TsgitError (List (Bytes × Text × Bool)) := do
  walkFrom (← openTreeCursor content hash)

theorem walkFrom_eq (c : TreeCursor) :
    walkFrom c = if c.done = false then do
        let id ← cursorOid c
        let next ← advanceCursor c
        let rest ← walkFrom next
        pure ((cursorNameBytes c, id, c.isDir) :: rest)
      else .ok [] := by
  rw [walkFrom]
  by_cases hdone : c.done = false
  · rw [dif_pos hdone, if_pos hdone]
    cases advanceCursor c with
    | error e => rfl
    | ok next => rfl
  · rw [dif_neg hdone, if_neg hdone]

/-! ### The cursor against the parser -/

/-- The directory flag of padded digits. -/
theorem computeIsDir_of_digits {buf : Bytes} {start stop : ℕ} {mode : FileMode}
    (hle : start ≤ stop) (hfits : stop ≤ buf.length)
    (h : stripZeros 0x30 (subarray buf start stop) = mode.bytes) :
    computeIsDir buf start stop = isDirectory mode := by
  obtain ⟨count, hdigits⟩ := stripZeros_eq 0x30 (subarray buf start stop)
  rw [h] at hdigits
  have hlength : stop - start = count + mode.bytes.length := by
    rw [← length_subarray start hfits, hdigits, List.length_append, List.length_replicate]
  -- The digit that is `k` places from the right.
  have hdigit : ∀ k, 0 < k → k ≤ stop - start → byteAt buf (stop - k) =
      (((List.replicate count 0x30 ++ mode.bytes)[stop - start - k]?).getD 0).toNat := by
    intro k hpos hk
    have hplace : start + (stop - start - k) = stop - k := by omega
    rw [← hdigits, getElem?_subarray (by omega), byteAt, hplace]
  have hpadded : ∀ k, mode.bytes.length < k → k ≤ stop - start → byteAt buf (stop - k) = 0x30 := by
    intro k hlt hk
    rw [hdigit k (by omega) hk, List.getElem?_append_left (by rw [List.length_replicate]; omega),
      List.getElem?_replicate_of_lt (by omega)]
    rfl
  have hmode : ∀ k, 0 < k → k ≤ mode.bytes.length →
      byteAt buf (stop - k) = ((mode.bytes[mode.bytes.length - k]?).getD 0).toNat := by
    intro k hpos hk
    have hplace : stop - start - k - count = mode.bytes.length - k := by omega
    rw [hdigit k hpos (by omega), List.getElem?_append_right
      (by rw [List.length_replicate]; omega), List.length_replicate, hplace]
  unfold computeIsDir
  cases mode with
  | directory =>
    have hfifth : byteAt buf (stop - 5) = 0x34 := hmode 5 (by decide) (by decide)
    have hlength' : stop - start = count + 5 := hlength
    rw [if_neg (by omega)]
    by_cases hbare : stop - start = 5
    · rw [if_pos hbare]
      rfl
    · rw [if_neg hbare, hpadded 6 (by decide) (by omega)]
      rfl
  | _ =>
    refine (if_pos (.inr ?_)).trans rfl
    rw [hmode 5 (by decide) (by decide)]
    decide

/-- A cursor that stands on an entry. -/
structure Shows (c : TreeCursor) (entry : TreeEntry) : Prop where
  done_eq : c.done = false
  name_eq : cursorNameBytes c = entry.nameBytes
  nameEnd_le : c.nameStart ≤ c.nameEnd ∧ c.nameEnd ≤ c.buf.length
  oid_eq : bytesToHex (cursorOidBytes c) = entry.id
  oidEnd_le : c.oidStart + c.hash.digestLength ≤ c.buf.length
  isDir_eq : c.isDir = isDirectory entry.mode
  mode_eq : stripZeros 0x30 (subarray c.buf c.offset c.modeEnd) = entry.mode.bytes
  modeEnd_le : c.offset < c.modeEnd ∧ c.modeEnd ≤ c.buf.length

variable {c : TreeCursor}

theorem Shows.cursorOid_eq {entry : TreeEntry} (h : Shows c entry) :
    cursorOid c = .ok entry.id := by
  rw [cursorOid, fromRaw_eq_ok c.hash, h.oid_eq]
  rw [cursorOidBytes, length_subarray _ h.oidEnd_le, Nat.add_sub_cancel_left]

theorem scanEntryAt_of_parseEntryAt {start next : ℕ} {entry : TreeEntry}
    (hdone : c.done = false) (h : parseEntryAt c.buf c.hash start = .ok (entry, next)) :
    ∃ c', scanEntryAt c start = .ok c' ∧ c'.buf = c.buf ∧ c'.hash = c.hash ∧
      Shows c' entry ∧ c'.oidStart + c'.hash.digestLength = next := by
  obtain ⟨spaceIndex, nullIndex, hspans, rfl, hname, hid, hmode⟩ := parseEntryAt_ok h
  have hne := hspans.mode_ne_nil
  have hname_ne := hspans.name_ne_nil
  have hfits := hspans.fits
  let c' : TreeCursor := ⟨c.buf, c.hash, start, spaceIndex, spaceIndex + 1, nullIndex,
    nullIndex + 1, computeIsDir c.buf start spaceIndex, c.done⟩
  have hscan : scanEntryAt c start = .ok c' := by
    simp only [scanEntryAt, scanMode, scanName, scanOid, hspans.space, hspans.octal, bind,
      Except.bind, pure, Except.pure]
    rw [if_neg (by simp; omega)]
    simp only [hspans.null]
    rw [if_neg (by omega)]
    simp only
    rw [if_neg (by omega)]
  have hstrip := stripZeros_mode hspans.octal hmode
  refine ⟨c', hscan, rfl, rfl, ?_, rfl⟩
  exact
    { done_eq := hdone
      name_eq := hname.symm
      nameEnd_le := ⟨hname_ne.le, by dsimp only [c']; omega⟩
      oid_eq := hid.symm
      oidEnd_le := hfits
      isDir_eq := computeIsDir_of_digits hne.le (by omega) hstrip
      mode_eq := hstrip
      modeEnd_le := ⟨hne, by dsimp only [c']; omega⟩ }

theorem scanEntryAt_of_refusal {start offset : ℕ} {reason : String}
    (h : parseEntryAt c.buf c.hash start = .error (.invalidTreeEntry offset reason)) :
    scanEntryAt c start = .error (.invalidTreeEntry offset reason) := by
  unfold parseEntryAt at h
  simp only [scanEntryAt, scanMode, bind, Except.bind]
  cases hspace : indexOf c.buf 0x20 start with
  | none =>
    rw [hspace] at h
    cases h
    rfl
  | some modeEnd =>
    rw [hspace] at h
    dsimp only at h ⊢
    split at h
    · next hmalformed =>
      cases h
      rw [if_pos hmalformed]
    · next hvalid =>
      rw [if_neg hvalid]
      simp only [scanName]
      cases hnull : indexOf c.buf 0x00 (modeEnd + 1) with
      | none =>
        rw [hnull] at h
        cases h
        rfl
      | some nameEnd =>
        rw [hnull] at h
        dsimp only at h ⊢
        split at h
        · next hempty =>
          cases h
          rw [if_pos hempty]
        · next hname =>
          rw [if_neg hname]
          simp only [scanOid]
          split at h
          · next htruncated =>
            cases h
            rw [if_pos htruncated]
          · next hfits =>
            -- The other refusals of the parser are not about the structure.
            rw [fromRaw_eq_ok c.hash (by
              rw [length_subarray _ (Nat.not_lt.mp hfits), Nat.add_sub_cancel_left])] at h
            dsimp only [bind, Except.bind] at h
            unfold normalizeFileMode validateFileMode at h
            split at h
            · next hrefused =>
              split at hrefused
              · cases hrefused
                cases h
              · cases hrefused
            · cases h

/-- A cursor that yields a row of entries, one by one, and is then exhausted. -/
def Follows : TreeCursor → List TreeEntry → Prop
  | c, [] => c.done = true
  | c, entry :: rest => Shows c entry ∧ ∃ next, advanceCursor c = .ok next ∧ Follows next rest

/-- Moves to `start`, or to exhaustion where the body ends before. -/
def arrive (c : TreeCursor) (start : ℕ) : Except TsgitError TreeCursor :=
  if start ≥ c.buf.length then .ok { c with done := true } else scanEntryAt c start

theorem openTreeCursor_eq (buf : Bytes) (hash : HashConfig) :
    openTreeCursor buf hash = arrive ⟨buf, hash, 0, 0, 0, 0, 0, false, false⟩ 0 := by
  unfold openTreeCursor arrive
  cases buf with
  | nil => rfl
  | cons byte buf => rfl

theorem follows_of_parseTreeFrom {start : ℕ} {entries : List TreeEntry}
    (hdone : c.done = false) (h : parseTreeFrom c.buf c.hash start = .ok entries) :
    ∃ c', arrive c start = .ok c' ∧ Follows c' entries := by
  induction entries generalizing c start with
  | nil =>
    rw [parseTreeFrom_eq] at h
    split at h
    · obtain ⟨⟨entry, next⟩, -, h⟩ := bind_eq_ok.mp h
      obtain ⟨entries, -, h⟩ := bind_eq_ok.mp h
      cases h
    · next hend => exact ⟨{ c with done := true }, if_pos (Nat.not_lt.mp hend), rfl⟩
  | cons entry entries ih =>
    rw [parseTreeFrom_eq] at h
    split at h
    · next hlt =>
      obtain ⟨⟨entry', next⟩, hentry, h⟩ := bind_eq_ok.mp h
      obtain ⟨entries', hrest, h⟩ := bind_eq_ok.mp h
      cases h
      obtain ⟨c', hscan, hbuf, hhash, hshows, hnext⟩ := scanEntryAt_of_parseEntryAt hdone hentry
      refine ⟨c', (if_neg (Nat.not_le.mpr hlt)).trans hscan, hshows, ?_⟩
      rw [← hbuf, ← hhash] at hrest
      obtain ⟨c'', harrive, hfollows⟩ := ih hshows.done_eq hrest
      exact ⟨c'', by rw [advanceCursor, hnext]; exact harrive, hfollows⟩
    · cases h

/-- A cursor that follows a row yields it. -/
theorem walkFrom_of_follows {entries : List TreeEntry} (h : Follows c entries) :
    walkFrom c = .ok (entries.map fun entry => (entry.nameBytes, entry.id,
      isDirectory entry.mode)) := by
  induction entries generalizing c with
  | nil =>
    have hdone : c.done = true := h
    rw [walkFrom_eq, hdone]
    rfl
  | cons entry entries ih =>
    obtain ⟨hshows, next, hnext, hrest⟩ := h
    rw [walkFrom_eq, if_pos hshows.done_eq, hshows.cursorOid_eq, hnext]
    simp only [bind, Except.bind]
    rw [ih hrest, hshows.name_eq, hshows.isDir_eq]
    rfl

theorem walkFrom_of_refusal {start offset : ℕ} {reason : String}
    (hdone : c.done = false)
    (h : parseTreeFrom c.buf c.hash start = .error (.invalidTreeEntry offset reason)) :
    (do walkFrom (← arrive c start)) = .error (.invalidTreeEntry offset reason) := by
  -- Induction on how much of the body is left.
  induction hleft : c.buf.length - start using Nat.strongRecOn generalizing c start with
  | ind left ih =>
    rw [parseTreeFrom_eq] at h
    split at h
    · next hlt =>
      have harrive : arrive c start = scanEntryAt c start := if_neg (Nat.not_le.mpr hlt)
      cases hentry : parseEntryAt c.buf c.hash start with
      | error e =>
        rw [hentry] at h
        cases h
        rw [harrive, scanEntryAt_of_refusal hentry]
        rfl
      | ok read =>
        obtain ⟨entry, next⟩ := read
        have hforward := parseEntryAt_lt hentry
        obtain ⟨c', hscan, hbuf, hhash, hshows, hnext⟩ :=
          scanEntryAt_of_parseEntryAt hdone hentry
        rw [hentry] at h
        dsimp only [bind, Except.bind] at h
        have hrest : parseTreeFrom c.buf c.hash next =
            .error (.invalidTreeEntry offset reason) := by
          cases hparse : parseTreeFrom c.buf c.hash next with
          | error e =>
            rw [hparse] at h
            exact h
          | ok entries =>
            rw [hparse] at h
            cases h
        rw [← hbuf, ← hhash] at hrest
        have hrefused := ih (c'.buf.length - next) (by rw [hbuf]; omega) hshows.done_eq
          hrest rfl
        have hadvance : advanceCursor c' = arrive c' next := by
          rw [advanceCursor, hnext]
          rfl
        rw [harrive, hscan]
        change walkFrom c' = _
        rw [walkFrom_eq, if_pos hshows.done_eq, hshows.cursorOid_eq, hadvance]
        cases hmoved : arrive c' next with
        | error e =>
          rw [hmoved] at hrefused
          exact hrefused
        | ok c'' =>
          rw [hmoved] at hrefused
          change walkFrom c'' = _ at hrefused
          dsimp only [bind, Except.bind]
          rw [hrefused]
    · cases h

/-- **A cursor reads what the parser reads**, and refuses what the parser refuses, with the same
reason at the same offset. -/
theorem walkTreeCursor_eq_parseTreeContent (id : Text) (content : Bytes) (hash : HashConfig) :
    (∀ tree, parseTreeContent id content hash = .ok tree →
      walkTreeCursor content hash = .ok (tree.entries.map fun entry =>
        (entry.nameBytes, entry.id, isDirectory entry.mode))) ∧
    ∀ offset reason, parseTreeContent id content hash = .error (.invalidTreeEntry offset reason) →
      walkTreeCursor content hash = .error (.invalidTreeEntry offset reason) := by
  constructor
  · intro tree h
    obtain ⟨entries, hentries, h⟩ := bind_eq_ok.mp h
    cases h
    obtain ⟨c, harrive, hfollows⟩ := follows_of_parseTreeFrom
      (c := ⟨content, hash, 0, 0, 0, 0, 0, false, false⟩) rfl hentries
    rw [walkTreeCursor, openTreeCursor_eq, harrive]
    exact walkFrom_of_follows hfollows
  · intro offset reason h
    rw [walkTreeCursor, openTreeCursor_eq]
    refine walkFrom_of_refusal rfl ?_
    unfold parseTreeContent at h
    cases hparse : parseTreeFrom content hash 0 with
    | error e =>
      rw [hparse] at h
      cases h
      rfl
    | ok entries =>
      rw [hparse] at h
      cases h

end Tsgit.Objects
