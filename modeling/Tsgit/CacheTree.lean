import Tsgit.CommitRoundTrip
import Tsgit.IndexFile
import Tsgit.TreeRoundTrip

/-!
# The Cache Tree of the Index

The `TREE` extension: its writer, `src/domain/git-index/cache-tree.ts`, and its parser, in
`src/domain/git-index/index-parser.ts`.
-/

namespace Tsgit.CacheTree

open List Tsgit.IndexFile Tsgit.Objects

structure CacheTreeEntry where
  path : Text
  nameBytes : Option Bytes
  entryCount : ℤ
  subtreeCount : ℤ
  id : Option Text
  children : List CacheTreeEntry

def nameBytesOf (entry : CacheTreeEntry) : Bytes := entry.nameBytes.getD (encode entry.path)

/-! ### The writer -/

structure EncodedNode where
  path : Bytes
  header : Bytes
  oid : Bytes
  children : List EncodedNode

def encodeOid (entryCount : ℤ) (id : Option Text) (digestLength : ℕ) : Except Thrown Bytes :=
  match id with
  | none => .ok []
  | some id =>
    if entryCount < 0 then .ok []
    else do
      let oid ← hexToBytes id
      if oid.length ≠ digestLength then
        invalidIndexEntry 0 "cache-tree oid width does not match the digest length"
      else pure oid

def headerText (entryCount subtreeCount : ℤ) : Text :=
  decimalText entryCount ++ ' ' :: (decimalText subtreeCount ++ ['\n'])

mutual

def measure (digestLength : ℕ) : CacheTreeEntry → Except Thrown EncodedNode
  | ⟨path, nameBytes, entryCount, subtreeCount, id, children⟩ => do
    let oid ← encodeOid entryCount id digestLength
    let nodes ← measureAll digestLength children
    pure ⟨nameBytes.getD (encode path), encode (headerText entryCount subtreeCount), oid, nodes⟩

def measureAll (digestLength : ℕ) : List CacheTreeEntry → Except Thrown (List EncodedNode)
  | [] => .ok []
  | child :: rest => do
    let node ← measure digestLength child
    let nodes ← measureAll digestLength rest
    pure (node :: nodes)

end

mutual

def sizeOfNode : EncodedNode → ℕ
  | ⟨path, header, oid, children⟩ =>
    path.length + 1 + header.length + oid.length + sizeOfNodes children

def sizeOfNodes : List EncodedNode → ℕ
  | [] => 0
  | child :: rest => sizeOfNode child + sizeOfNodes rest

end

mutual

/-- `write`: the buffer, and where the next node goes. -/
def writeNode (out : Bytes) (start : ℕ) : EncodedNode → Except Thrown (Bytes × ℕ)
  | ⟨path, header, oid, children⟩ => do
    let out ← setBytes out path start
    let out ← setByte out (start + path.length) 0x00
    let out ← setBytes out header (start + path.length + 1)
    let out ← setBytes out oid (start + path.length + 1 + header.length)
    writeNodes out (start + path.length + 1 + header.length + oid.length) children

def writeNodes (out : Bytes) (cursor : ℕ) : List EncodedNode → Except Thrown (Bytes × ℕ)
  | [] => .ok (out, cursor)
  | child :: rest => do
    let (out, cursor) ← writeNode out cursor child
    writeNodes out cursor rest

end

def serializeCacheTree (root : CacheTreeEntry) (digestLength : ℕ) : Except Thrown Bytes := do
  let node ← measure digestLength root
  let out := replicate (sizeOfNode node) 0
  let (out, _) ← writeNode out 0 node
  pure out

/-! ### The parser -/

def maxCacheTreeDepth : ℕ := 1024

def isEntryCount (text : Text) : Bool :=
  let digits := if text.head? = some '-' then text.tail else text
  digits ≠ [] ∧ digits.all isDigit

def isSubtreeCount (text : Text) : Bool := text ≠ [] ∧ text.all isDigit

/-- `Number.parseInt(text, 10)` of digits, which a sign may precede. -/
def parseIntOf (text : Text) : ℤ := ⌊(numberOf text).getD 0⌋

def parseCacheTreeEntryCount (text : Text) (offset : ℕ) : Except Thrown ℤ :=
  if isEntryCount text then .ok (parseIntOf text)
  else invalidIndexEntry offset "cache-tree entry has a malformed entry count"

def parseCacheTreeSubtreeCount (text : Text) (offset : ℕ) : Except Thrown ℤ :=
  if isSubtreeCount text then .ok (parseIntOf text)
  else invalidIndexEntry offset "cache-tree entry has a malformed subtree count"

/-- Whether a name encodes to the bytes it was decoded from. -/
def roundTrips (path : Text) (rawName : Bytes) : Bool :=
  if rawName.any fun byte => 0x80 ≤ byte.toNat then encode path = rawName else true

/-- The id of a valid node, and where it ends. -/
def readCacheTreeOid (data : Bytes) (offset : ℕ) (entryCount : ℤ) (entryStart digestLength : ℕ) :
    Except Thrown (Option Text × ℕ) :=
  if entryCount < 0 then .ok (none, offset)
  else if offset + digestLength > data.length then
    invalidIndexEntry entryStart "cache-tree entry truncated oid"
  else .ok (some (bytesToHex (subarray data offset (offset + digestLength))), offset + digestLength)

def readCacheTreeChildren (parse : ℕ → Except Thrown (CacheTreeEntry × ℕ)) :
    ℕ → ℕ → Except Thrown (List CacheTreeEntry × ℕ)
  | 0, cursor => .ok ([], cursor)
  | turns + 1, cursor => do
    let (child, cursor) ← parse cursor
    let (children, cursor) ← readCacheTreeChildren parse turns cursor
    pure (child :: children, cursor)

def parseCacheTreeEntry (data : Bytes) (digestLength : ℕ) :
    ℕ → ℕ → Except Thrown (CacheTreeEntry × ℕ)
  | 0, start => invalidIndexEntry start "cache-tree nesting exceeds the maximum depth"
  | room + 1, start =>
    match findNul data start with
    | none => invalidIndexEntry start "cache-tree entry missing NUL-terminated path"
    | some pathEnd =>
      let rawName := subarray data start pathEnd
      let path := decode rawName
      let nameBytes := if roundTrips path rawName then none else some rawName
      match indexOf data 0x20 (pathEnd + 1) with
      | none => invalidIndexEntry start "cache-tree entry missing entry-count separator"
      | some spaceIndex => do
        let entryCount ←
          parseCacheTreeEntryCount (decode (subarray data (pathEnd + 1) spaceIndex)) start
        match indexOf data 0x0a (spaceIndex + 1) with
        | none => invalidIndexEntry start "cache-tree entry missing subtree-count terminator"
        | some lfIndex => do
          let subtreeCount ←
            parseCacheTreeSubtreeCount (decode (subarray data (spaceIndex + 1) lfIndex)) start
          let (id, afterOid) ← readCacheTreeOid data (lfIndex + 1) entryCount start digestLength
          let (children, cursor) ←
            readCacheTreeChildren (parseCacheTreeEntry data digestLength room) subtreeCount.toNat
              afterOid
          pure (⟨path, nameBytes, entryCount, subtreeCount, id, children⟩, cursor)

def parseCacheTree (data : Bytes) (digestLength : ℕ) : Except Thrown CacheTreeEntry := do
  let (entry, offset) ← parseCacheTreeEntry data digestLength (maxCacheTreeDepth + 1) 0
  if offset ≠ data.length then invalidIndexEntry offset "cache-tree data has trailing bytes"
  else pure entry

/-! ### What is written -/

mutual

def nodeBytes : EncodedNode → Bytes
  | ⟨path, header, oid, children⟩ => path ++ 0x00 :: (header ++ (oid ++ nodesBytes children))

def nodesBytes : List EncodedNode → Bytes
  | [] => []
  | child :: rest => nodeBytes child ++ nodesBytes rest

end

mutual

theorem length_nodeBytes : ∀ node, (nodeBytes node).length = sizeOfNode node
  | ⟨path, header, oid, children⟩ => by
    rw [nodeBytes, sizeOfNode, ← length_nodesBytes children]
    simp only [length_append, length_cons]
    omega

theorem length_nodesBytes : ∀ nodes, (nodesBytes nodes).length = sizeOfNodes nodes
  | [] => rfl
  | child :: rest => by
    rw [nodesBytes, sizeOfNodes, length_append, length_nodeBytes child, length_nodesBytes rest]

end

/-- A buffer that is filled up to a place, with room behind it. -/
def filled (written : Bytes) (room : ℕ) : Bytes := written ++ replicate room 0

mutual

theorem writeNode_spec : ∀ (node : EncodedNode) (written : Bytes) (room : ℕ),
    (nodeBytes node).length ≤ room → writeNode (filled written room) written.length node =
      .ok (filled (written ++ nodeBytes node) (room - (nodeBytes node).length),
        written.length + (nodeBytes node).length)
  | ⟨path, header, oid, children⟩, written, room, hroom => by
    have hlength : (nodeBytes ⟨path, header, oid, children⟩).length =
        path.length + 1 + header.length + oid.length + (nodesBytes children).length := by
      rw [length_nodeBytes, sizeOfNode, length_nodesBytes]
    rw [hlength] at hroom ⊢
    have hpath : setBytes (filled written room) path written.length =
        .ok (filled (written ++ path) (room - path.length)) := appends_setBytes rfl room (by omega)
    have hnul : setByte (filled (written ++ path) (room - path.length))
        (written.length + path.length) 0x00 =
          .ok (filled (written ++ path ++ [0x00]) (room - path.length - 1)) :=
      appends_setByte length_append.symm 0x00 (room - path.length)
        (by rw [length_singleton]; omega)
    have hwidth : written.length + path.length + 1 = (written ++ path ++ [0x00]).length := by
      rw [length_append, length_append, length_singleton]
    have hheader : setBytes (filled (written ++ path ++ [0x00]) (room - path.length - 1)) header
        (written.length + path.length + 1) = .ok (filled (written ++ path ++ [0x00] ++ header)
            (room - path.length - 1 - header.length)) :=
      appends_setBytes hwidth (room - path.length - 1) (by omega)
    have hwidth' : written.length + path.length + 1 + header.length =
        (written ++ path ++ [0x00] ++ header).length := by
      rw [length_append, ← hwidth]
    have hoid : setBytes (filled (written ++ path ++ [0x00] ++ header)
        (room - path.length - 1 - header.length)) oid
        (written.length + path.length + 1 + header.length) =
          .ok (filled (written ++ path ++ [0x00] ++ header ++ oid)
            (room - path.length - 1 - header.length - oid.length)) :=
      appends_setBytes hwidth' (room - path.length - 1 - header.length) (by omega)
    have hwidth'' : written.length + path.length + 1 + header.length + oid.length =
        (written ++ path ++ [0x00] ++ header ++ oid).length := by
      rw [length_append, ← hwidth']
    have hbytes : written ++ path ++ [0x00] ++ header ++ oid ++ nodesBytes children =
        written ++ nodeBytes ⟨path, header, oid, children⟩ := by
      rw [nodeBytes]
      simp only [append_assoc, cons_append, nil_append]
    have hrest : room - path.length - 1 - header.length - oid.length - (nodesBytes children).length =
        room - (path.length + 1 + header.length + oid.length + (nodesBytes children).length) := by
      omega
    have hchildren := writeNodes_spec children (written ++ path ++ [0x00] ++ header ++ oid)
      (room - path.length - 1 - header.length - oid.length) (by omega)
    rw [← hwidth'', hbytes, hrest] at hchildren
    rw [writeNode, ok_bind_eq hpath, ok_bind_eq hnul, ok_bind_eq hheader, ok_bind_eq hoid, hchildren]
    have hend : written.length + path.length + 1 + header.length + oid.length +
        (nodesBytes children).length = written.length +
          (path.length + 1 + header.length + oid.length + (nodesBytes children).length) := by omega
    rw [hend]

theorem writeNodes_spec : ∀ (nodes : List EncodedNode) (written : Bytes) (room : ℕ),
    (nodesBytes nodes).length ≤ room → writeNodes (filled written room) written.length nodes =
      .ok (filled (written ++ nodesBytes nodes) (room - (nodesBytes nodes).length),
        written.length + (nodesBytes nodes).length)
  | [], written, room, _ => by
    rw [writeNodes, nodesBytes, append_nil, length_nil, Nat.sub_zero, Nat.add_zero]
  | child :: rest, written, room, hroom => by
    rw [nodesBytes, length_append] at hroom
    rw [writeNodes, ok_bind_eq (writeNode_spec child written room (by omega))]
    dsimp only
    rw [← length_append, writeNodes_spec rest _ _ (by omega), nodesBytes, length_append,
      length_append, append_assoc, Nat.sub_sub, Nat.add_assoc]

end

variable {node : EncodedNode}

/-- **The writer lays out the nodes in depth-first order.** -/
theorem serializeCacheTree_eq {root : CacheTreeEntry} {digestLength : ℕ}
    (h : measure digestLength root = .ok node) :
    serializeCacheTree root digestLength = .ok (nodeBytes node) := by
  have hwrite := writeNode_spec node [] (sizeOfNode node) (length_nodeBytes node).le
  rw [length_nodeBytes, Nat.sub_self] at hwrite
  have hfilled : filled ([] ++ nodeBytes node) 0 = nodeBytes node := append_nil _
  rw [hfilled] at hwrite
  rw [serializeCacheTree, ok_bind_eq h]
  exact ok_bind_eq hwrite

variable {entry : CacheTreeEntry}

theorem measure_ok {digestLength : ℕ}
    (h : measure digestLength entry = .ok node) :
    ∃ oid nodes, encodeOid entry.entryCount entry.id digestLength = .ok oid ∧
      measureAll digestLength entry.children = .ok nodes ∧
      node = ⟨nameBytesOf entry, encode (headerText entry.entryCount entry.subtreeCount), oid,
        nodes⟩ := by
  obtain ⟨path, nameBytes, entryCount, subtreeCount, id, children⟩ := entry
  rw [measure] at h
  obtain ⟨oid, hoid, h⟩ := bind_eq_ok.mp h
  obtain ⟨nodes, hnodes, h⟩ := bind_eq_ok.mp h
  exact ⟨oid, nodes, hoid, hnodes, (Except.ok.inj h).symm⟩

theorem measureAll_cons {child : CacheTreeEntry} {rest : List CacheTreeEntry} {digestLength : ℕ}
    {nodes : List EncodedNode} (h : measureAll digestLength (child :: rest) = .ok nodes) :
    ∃ node others, measure digestLength child = .ok node ∧
      measureAll digestLength rest = .ok others ∧ nodes = node :: others := by
  rw [measureAll] at h
  obtain ⟨node, hnode, h⟩ := bind_eq_ok.mp h
  obtain ⟨others, hothers, h⟩ := bind_eq_ok.mp h
  exact ⟨node, others, hnode, hothers, (Except.ok.inj h).symm⟩

/-! ### Counts -/

section

variable {n : ℤ}

theorem numeral_bounds {c : Char} (h : c ∈ decimalText n) : 0x2b ≤ c.toNat ∧ c.toNat ≤ 0x39 := by
  rcases isNumeral_of_mem_decimalText h with rfl | rfl | hdigit
  · decide
  · decide
  obtain ⟨hlower, hupper⟩ := of_decide_eq_true hdigit
  have hlow : ('0' : Char).toNat ≤ c.toNat := hlower
  have hhigh : c.toNat ≤ ('9' : Char).toNat := hupper
  have hzero : ('0' : Char).toNat = 0x30 := rfl
  have hnine : ('9' : Char).toNat = 0x39 := rfl
  omega

/-- No separator is in a number. -/
theorem not_mem_encode_decimalText {byte : UInt8} (h : byte.toNat ≤ 0x20) :
    byte ∉ encode (decimalText n) := by
  intro hmem
  rw [encode_ascii fun c hc => by have := numeral_bounds hc; omega] at hmem
  obtain ⟨c, hc, rfl⟩ := mem_map.mp hmem
  have hbounds := numeral_bounds hc
  have hself : (UInt8.ofNat c.toNat).toNat = c.toNat := Nat.mod_eq_of_lt (by omega)
  omega

theorem decode_decimalText : decode (encode (decimalText n)) = decimalText n := by
  refine decode_encode fun hhead => ?_
  obtain ⟨rest, htext⟩ := head?_eq_some_iff.mp hhead
  have hmem : '\uFEFF' ∈ decimalText n := htext ▸ mem_cons_self
  exact absurd (numeral_bounds hmem).2 (by decide)

theorem isSubtreeCount_toDigits (k : ℕ) : isSubtreeCount (Nat.toDigits 10 k) = true :=
  decide_eq_true ⟨(isWord_toDigits k).ne_nil,
    all_eq_true.mpr fun _ hc => isDigit_of_mem_toDigits hc⟩

theorem isSubtreeCount_decimalText (h : 0 ≤ n) : isSubtreeCount (decimalText n) = true := by
  rw [decimalText, if_neg (Int.not_lt.mpr h)]
  exact isSubtreeCount_toDigits _

theorem isEntryCount_decimalText : isEntryCount (decimalText n) = true := by
  have hdigits := isSubtreeCount_toDigits n.natAbs
  rw [decimalText]
  split
  · exact hdigits
  have hhead : (Nat.toDigits 10 n.natAbs).head? ≠ some '-' := by
    intro hhead
    obtain ⟨rest, htext⟩ := head?_eq_some_iff.mp hhead
    have hdigit := @isDigit_of_mem_toDigits n.natAbs '-' (htext ▸ mem_cons_self)
    exact absurd hdigit (by decide)
  rw [isEntryCount, if_neg hhead]
  exact hdigits

theorem parseIntOf_decimalText (h : |n| ≤ maxSafeInteger) : parseIntOf (decimalText n) = n := by
  rw [parseIntOf, numberOf_decimalText h, Option.getD_some, Int.floor_intCast]

end

/-! ### What is read back -/

/-- A node that the writer takes and the reader gives: an id exactly if the node is valid, and as
many children as it counts. -/
structure NodeFits (digestLength : ℕ) (entry : CacheTreeEntry) : Prop where
  nul_not_mem : 0x00 ∉ nameBytesOf entry
  path_eq : entry.path = decode (nameBytesOf entry)
  nameBytes_eq : entry.nameBytes =
    if roundTrips entry.path (nameBytesOf entry) then none else some (nameBytesOf entry)
  entryCount_safe : |entry.entryCount| ≤ maxSafeInteger
  subtreeCount_eq : entry.subtreeCount = entry.children.length
  subtreeCount_safe : |entry.subtreeCount| ≤ maxSafeInteger
  invalid : entry.entryCount < 0 → entry.id = none
  valid : 0 ≤ entry.entryCount → ∃ id, entry.id = some id ∧ id.length = 2 * digestLength ∧
    ∀ c ∈ id, isHexDigit c = true

/-- A tree of such nodes, at most `room` of them deep. -/
inductive Fits (digestLength : ℕ) : ℕ → CacheTreeEntry → Prop
  | node {room : ℕ} {entry : CacheTreeEntry} (hnode : NodeFits digestLength entry)
    (hchildren : ∀ child ∈ entry.children, Fits digestLength room child) :
    Fits digestLength (room + 1) entry

section

variable {digestLength : ℕ} {data : Bytes}

theorem NodeFits.oid {entry : CacheTreeEntry} (h : NodeFits digestLength entry) :
    ∃ oid, encodeOid entry.entryCount entry.id digestLength = .ok oid ∧
      ∀ offset start, Holds data offset oid → offset + oid.length ≤ data.length →
        readCacheTreeOid data offset entry.entryCount start digestLength =
          .ok (entry.id, offset + oid.length) := by
  by_cases hcount : entry.entryCount < 0
  · refine ⟨[], ?_, fun offset start _ _ => ?_⟩
    · rw [h.invalid hcount]
      rfl
    · rw [readCacheTreeOid, if_pos hcount, h.invalid hcount]
      rfl
  obtain ⟨id, hid, hlength, hdigits⟩ := h.valid (Int.not_lt.mp hcount)
  obtain ⟨oid, hoid, hhex⟩ := hexToBytes_spec (by omega) hdigits
  have hwidth : oid.length = digestLength := by
    have hdouble := length_bytesToHex oid
    rw [hhex] at hdouble
    omega
  refine ⟨oid, ?_, fun offset start hheld hinside => ?_⟩
  · rw [hid]
    unfold encodeOid
    dsimp only
    rw [if_neg hcount, ok_bind_eq hoid]
    exact if_neg (not_not_intro hwidth)
  · rw [readCacheTreeOid, if_neg hcount, if_neg (by omega), hid, ← hwidth, hheld.subarray_eq, hhex]

theorem readCacheTreeChildren_written {parse : ℕ → Except Thrown (CacheTreeEntry × ℕ)}
    {children : List CacheTreeEntry}
    (hparse : ∀ child ∈ children, ∀ node start, measure digestLength child = .ok node →
      Holds data start (nodeBytes node) →
        parse start = .ok (child, start + (nodeBytes node).length))
    {nodes : List EncodedNode} (hnodes : measureAll digestLength children = .ok nodes) {start : ℕ}
    (hheld : Holds data start (nodesBytes nodes)) :
    readCacheTreeChildren parse children.length start =
      .ok (children, start + (nodesBytes nodes).length) := by
  induction children generalizing nodes start with
  | nil =>
    obtain rfl := Except.ok.inj hnodes
    rfl
  | cons child rest ih =>
    obtain ⟨node, others, hnode, hothers, rfl⟩ := measureAll_cons hnodes
    rw [nodesBytes] at hheld
    have hchild := hparse child mem_cons_self node start hnode hheld.left
    have hrest := ih (forall_mem_cons.mp hparse).2 hothers
      hheld.right
    rw [length_cons, readCacheTreeChildren, ok_bind_eq hchild]
    dsimp only
    rw [ok_bind_eq hrest, nodesBytes, length_append, Nat.add_assoc]
    rfl

/-- **The head of a node** is read as it was written; its children follow. -/
theorem parseCacheTreeEntry_head (hnode : NodeFits digestLength entry) (hmeasure : measure digestLength entry = .ok node) {start : ℕ}
    (hheld : Holds data start (nodeBytes node)) :
    ∃ nodes width, measureAll digestLength entry.children = .ok nodes ∧
      (nodeBytes node).length = width + (nodesBytes nodes).length ∧
      Holds data (start + width) (nodesBytes nodes) ∧
      ∀ room, parseCacheTreeEntry data digestLength (room + 1) start =
        readCacheTreeChildren (parseCacheTreeEntry data digestLength room) entry.children.length
            (start + width) >>= fun read =>
          .ok ({ entry with children := read.1 }, read.2) := by
  obtain ⟨oid, nodes, hoid, hnodes, rfl⟩ := measure_ok hmeasure
  obtain ⟨name, hname⟩ : ∃ name, name = nameBytesOf entry := ⟨_, rfl⟩
  obtain ⟨first, hfirst⟩ : ∃ first, first = encode (decimalText entry.entryCount) := ⟨_, rfl⟩
  obtain ⟨second, hsecond⟩ : ∃ second, second = encode (decimalText entry.subtreeCount) :=
    ⟨_, rfl⟩
  have hlayout : nodeBytes ⟨nameBytesOf entry,
      encode (headerText entry.entryCount entry.subtreeCount), oid, nodes⟩ =
      (name ++ [0x00]) ++ ((first ++ [0x20]) ++ ((second ++ [0x0a]) ++
        (oid ++ nodesBytes nodes))) := by
    have hspace : String.utf8EncodeChar ' ' = [0x20] := by decide
    have hnewline : encode ['\n'] = [0x0a] := by decide
    have hheader : encode (headerText entry.entryCount entry.subtreeCount) =
        first ++ ([0x20] ++ (second ++ [0x0a])) := by
      have hcons : encode (' ' :: (decimalText entry.subtreeCount ++ ['\n'])) =
          String.utf8EncodeChar ' ' ++ encode (decimalText entry.subtreeCount ++ ['\n']) := rfl
      rw [headerText, encode_append, hcons, encode_append, hspace, hnewline, ← hfirst, ← hsecond]
    rw [nodeBytes, hheader, ← hname]
    simp only [append_assoc, cons_append, nil_append]
  rw [hlayout] at hheld ⊢
  have hinside := hheld.le_length (by
    rw [length_append, length_append, length_singleton]
    omega)
  simp only [length_append, length_singleton] at hinside ⊢
  have hnameHeld : Holds data start (name ++ [0x00]) := hheld.left
  have hbehindName := hheld.right
  rw [length_append, length_singleton] at hbehindName
  have hfirstHeld : Holds data (start + (name.length + 1)) (first ++ [0x20]) := hbehindName.left
  have hbehindFirst := hbehindName.right
  rw [length_append, length_singleton] at hbehindFirst
  have hsecondHeld := hbehindFirst.left
  have hbehindSecond := hbehindFirst.right
  rw [length_append, length_singleton] at hbehindSecond
  have hoidHeld := hbehindSecond.left
  have hnodesHeld := hbehindSecond.right
  obtain ⟨oid', hoid', hreadOid⟩ := @NodeFits.oid _ data _ hnode
  obtain rfl : oid = oid' := Except.ok.inj (hoid.symm.trans hoid')
  have hnul : findNul data start = some (start + name.length) :=
    indexOf_of_holds hnameHeld (hname ▸ hnode.nul_not_mem)
  have hspaceIndex : indexOf data 0x20 (start + name.length + 1) =
      some (start + (name.length + 1) + first.length) :=
    indexOf_of_holds hfirstHeld (hfirst ▸ not_mem_encode_decimalText (by decide))
  have hlfIndex : indexOf data 0x0a (start + (name.length + 1) + first.length + 1) =
      some (start + (name.length + 1) + (first.length + 1) + second.length) :=
    indexOf_of_holds hsecondHeld (hsecond ▸ not_mem_encode_decimalText (by decide))
  have hraw : subarray data start (start + name.length) = name := hnameHeld.left.subarray_eq
  have hfirstRead : subarray data (start + name.length + 1)
      (start + (name.length + 1) + first.length) = first := hfirstHeld.left.subarray_eq
  have hsecondRead : subarray data (start + (name.length + 1) + first.length + 1)
      (start + (name.length + 1) + (first.length + 1) + second.length) = second :=
    hsecondHeld.left.subarray_eq
  have hnonneg : 0 ≤ entry.subtreeCount := by
    rw [hnode.subtreeCount_eq]
    exact Int.natCast_nonneg _
  have hfirstCount : parseCacheTreeEntryCount (decode first) start = .ok entry.entryCount := by
    rw [hfirst, decode_decimalText, parseCacheTreeEntryCount, if_pos isEntryCount_decimalText,
      parseIntOf_decimalText hnode.entryCount_safe]
  have hsecondCount : parseCacheTreeSubtreeCount (decode second) start =
      .ok entry.subtreeCount := by
    rw [hsecond, decode_decimalText, parseCacheTreeSubtreeCount,
      if_pos (isSubtreeCount_decimalText hnonneg), parseIntOf_decimalText hnode.subtreeCount_safe]
  have hoidRead := hreadOid (start + (name.length + 1) + (first.length + 1) + second.length + 1)
    start hoidHeld (by omega)
  have hturns : entry.subtreeCount.toNat = entry.children.length := by
    rw [hnode.subtreeCount_eq, Int.toNat_natCast]
  have hwidth : start + (name.length + 1) + (first.length + 1) + second.length + 1 + oid.length =
      start + (name.length + 1 + (first.length + 1) + (second.length + 1) + oid.length) := by omega
  refine ⟨nodes, name.length + 1 + (first.length + 1) + (second.length + 1) + oid.length, hnodes,
    by omega, by rw [← hwidth]; exact hnodesHeld, fun room => ?_⟩
  rw [parseCacheTreeEntry, hnul]
  dsimp only
  rw [hspaceIndex]
  dsimp only
  rw [hfirstRead, ok_bind_eq hfirstCount, hlfIndex]
  dsimp only
  rw [hsecondRead, ok_bind_eq hsecondCount, ok_bind_eq hoidRead]
  dsimp only
  rw [hturns, hraw, ← hwidth]
  rw [hname, ← hnode.path_eq, ← hnode.nameBytes_eq]
  rfl

/-- **A tree that was written is read back**, up to the depth of the parser. -/
theorem parseCacheTreeEntry_written {room : ℕ}
    (h : Fits digestLength room entry) : ∀ node start, measure digestLength entry = .ok node →
      Holds data start (nodeBytes node) → parseCacheTreeEntry data digestLength room start =
          .ok (entry, start + (nodeBytes node).length) := by
  induction h with
  | @node room entry hnode hchildren ih =>
    intro node start hmeasure hheld
    obtain ⟨nodes, width, hnodes, hlength, hnodesHeld, hparse⟩ :=
      parseCacheTreeEntry_head hnode hmeasure hheld
    have hchildrenRead := readCacheTreeChildren_written
      (fun child hmem node start => ih child hmem node start) hnodes hnodesHeld
    rw [hparse, ok_bind_eq hchildrenRead, hlength, Nat.add_assoc]
    obtain ⟨path, nameBytes, entryCount, subtreeCount, id, children⟩ := entry
    rfl

theorem measureAll_of_forall {children : List CacheTreeEntry}
    (h : ∀ child ∈ children, ∃ node, measure digestLength child = .ok node) :
    ∃ nodes, measureAll digestLength children = .ok nodes := by
  induction children with
  | nil => exact ⟨[], rfl⟩
  | cons child rest ih =>
    obtain ⟨node, hnode⟩ := h child mem_cons_self
    obtain ⟨nodes, hnodes⟩ := ih (forall_mem_cons.mp h).2
    exact ⟨node :: nodes, by rw [measureAll, ok_bind_eq hnode, ok_bind_eq hnodes]; rfl⟩

theorem Fits.measure_ok {room : ℕ} (h : Fits digestLength room entry) :
    ∃ node, measure digestLength entry = .ok node := by
  induction h with
  | @node room entry hnode hchildren ih =>
    obtain ⟨oid, hoid, -⟩ := @NodeFits.oid _ [] _ hnode
    obtain ⟨nodes, hnodes⟩ := measureAll_of_forall ih
    obtain ⟨path, nameBytes, entryCount, subtreeCount, id, children⟩ := entry
    exact ⟨_, by rw [measure, ok_bind_eq hoid, ok_bind_eq hnodes]; rfl⟩

/-- **Cache trees round trip**, at most as deep as the parser goes. -/
theorem parseCacheTree_written {root : CacheTreeEntry}
    (h : Fits digestLength (maxCacheTreeDepth + 1) root) :
    ∃ bytes, serializeCacheTree root digestLength = .ok bytes ∧
      parseCacheTree bytes digestLength = .ok root := by
  obtain ⟨node, hnode⟩ := h.measure_ok
  refine ⟨nodeBytes node, serializeCacheTree_eq hnode, ?_⟩
  have hread := parseCacheTreeEntry_written h node 0 hnode (holds_self (nodeBytes node))
  rw [parseCacheTree, ok_bind_eq hread]
  exact if_neg (not_not_intro (Nat.zero_add _))

end

/-! ### What is refused -/

/-- The error of the parser. -/
def IsRefusal (thrown : Thrown) : Prop :=
  ∃ offset reason, thrown = .refusal (.invalidIndexEntry offset reason)

section

variable {data : Bytes} {digestLength : ℕ}

theorem refuses {α : Type} {post : α → Prop} (offset : ℕ) (reason : String) :
    Outcome IsRefusal post (invalidIndexEntry offset reason : Except Thrown α) :=
  .error ⟨offset, reason, rfl⟩

theorem readCacheTreeChildren_outcome {parse : ℕ → Except Thrown (CacheTreeEntry × ℕ)}
    (hparse : ∀ start, start ≤ data.length →
      Outcome IsRefusal (fun read => start < read.2 ∧ read.2 ≤ data.length) (parse start))
    {turns cursor : ℕ} (hcursor : cursor ≤ data.length) :
    Outcome IsRefusal (fun read => cursor + turns ≤ read.2 ∧ read.2 ≤ data.length)
      (readCacheTreeChildren parse turns cursor) := by
  induction turns generalizing cursor with
  | zero => exact .ok ⟨le_rfl, hcursor⟩
  | succ turns ih =>
    rw [readCacheTreeChildren]
    refine (hparse cursor hcursor).bind fun ⟨child, next⟩ ⟨hlt, hle⟩ => ?_
    dsimp only at hlt hle
    refine (ih hle).bind fun ⟨children, last⟩ ⟨hafter, hinside⟩ => .pure ?_
    dsimp only at hafter hinside ⊢
    omega

theorem parseCacheTreeEntryCount_outcome (text : Text) (offset : ℕ) :
    Outcome IsRefusal (fun _ => True) (parseCacheTreeEntryCount text offset) :=
  .ite (fun _ => .ok trivial) fun _ => refuses _ _

theorem parseCacheTreeSubtreeCount_outcome (text : Text) (offset : ℕ) :
    Outcome IsRefusal (fun _ => True) (parseCacheTreeSubtreeCount text offset) :=
  .ite (fun _ => .ok trivial) fun _ => refuses _ _

theorem readCacheTreeOid_outcome {offset : ℕ} (hoffset : offset ≤ data.length) (entryCount : ℤ)
    (start : ℕ) : Outcome IsRefusal (fun read => offset ≤ read.2 ∧ read.2 ≤ data.length)
      (readCacheTreeOid data offset entryCount start digestLength) := by
  refine .ite (fun _ => .ok ⟨le_rfl, hoffset⟩) fun _ => .ite (fun _ => refuses _ _) fun hfits => ?_
  exact .ok ⟨Nat.le_add_right _ _, by dsimp only; omega⟩

/-- **The parser refuses with one error**; a node that it accepts takes some of the bytes. -/
theorem parseCacheTreeEntry_outcome {room start : ℕ} (hstart : start ≤ data.length) :
    Outcome IsRefusal (fun read => start < read.2 ∧ read.2 ≤ data.length)
      (parseCacheTreeEntry data digestLength room start) := by
  induction room generalizing start with
  | zero => exact refuses _ _
  | succ room ih =>
    rw [parseCacheTreeEntry]
    cases hnul : findNul data start with
    | none => exact refuses _ _
    | some pathEnd =>
      dsimp only
      cases hspace : indexOf data 0x20 (pathEnd + 1) with
      | none => exact refuses _ _
      | some spaceIndex =>
        dsimp only
        obtain ⟨hafterName, hnulByte, -⟩ := indexOf_spec hnul
        obtain ⟨hafterNul, -, -⟩ := indexOf_spec hspace
        refine (parseCacheTreeEntryCount_outcome _ _).bind fun entryCount _ => ?_
        cases hlf : indexOf data 0x0a (spaceIndex + 1) with
        | none => exact refuses _ _
        | some lfIndex =>
          dsimp only
          obtain ⟨hafterSpace, -, -⟩ := indexOf_spec hlf
          have hinside := indexOf_lt hlf
          refine (parseCacheTreeSubtreeCount_outcome _ _).bind fun subtreeCount _ => ?_
          refine (readCacheTreeOid_outcome (by omega) _ _).bind
            fun ⟨id, afterOid⟩ ⟨hid, hidInside⟩ => ?_
          dsimp only at hid hidInside
          refine (readCacheTreeChildren_outcome (fun _ hle => ih hle) hidInside).bind
            fun ⟨children, cursor⟩ ⟨hchildren, hend⟩ => .pure ?_
          dsimp only at hchildren hend ⊢
          omega

/-- **On every byte string** the parser accepts or refuses with the one error. -/
theorem parseCacheTree_outcome (data : Bytes) (digestLength : ℕ) :
    (∃ root, parseCacheTree data digestLength = .ok root) ∨
      ∃ offset reason, parseCacheTree data digestLength =
        .error (.refusal (.invalidIndexEntry offset reason)) := by
  have houtcome : Outcome IsRefusal (fun _ => True) (parseCacheTree data digestLength) := by
    refine (parseCacheTreeEntry_outcome (Nat.zero_le _)).bind fun ⟨entry, offset⟩ _ => ?_
    exact .ite (fun _ => refuses _ _) fun _ => .pure trivial
  rcases houtcome.elim with ⟨thrown, hthrown, offset, reason, rfl⟩ | ⟨root, hroot, -⟩
  · exact Or.inr ⟨offset, reason, hthrown⟩
  · exact Or.inl ⟨root, hroot⟩

end

/-! ### Trees that are too deep -/

/-- An invalid node below `depth` others, all of them without a name. -/
def chain : ℕ → CacheTreeEntry
  | 0 => ⟨[], none, -1, 0, none, []⟩
  | depth + 1 => ⟨[], none, -1, 1, none, [chain depth]⟩

theorem chain_nodeFits (digestLength depth : ℕ) : NodeFits digestLength (chain depth) := by
  have hone : |(-1 : ℤ)| ≤ maxSafeInteger := abs_le.mpr ⟨by decide, by decide⟩
  have hvalid : ¬ (0 : ℤ) ≤ -1 := by decide
  cases depth with
  | zero =>
    have hcount : |(0 : ℤ)| ≤ maxSafeInteger := abs_le.mpr ⟨by decide, by decide⟩
    exact ⟨not_mem_nil, rfl, rfl, hone, rfl, hcount, fun _ => rfl, fun h => absurd h hvalid⟩
  | succ depth =>
    have hcount : |(1 : ℤ)| ≤ maxSafeInteger := abs_le.mpr ⟨by decide, by decide⟩
    exact ⟨not_mem_nil, rfl, rfl, hone, rfl, hcount, fun _ => rfl, fun h => absurd h hvalid⟩

theorem chain_fits (digestLength depth : ℕ) : Fits digestLength (depth + 1) (chain depth) := by
  induction depth with
  | zero => exact .node (chain_nodeFits digestLength 0) (forall_mem_nil _)
  | succ depth ih =>
    refine .node (chain_nodeFits digestLength (depth + 1)) fun child hmem => ?_
    rw [mem_singleton.mp hmem]
    exact ih

theorem parse_chain {digestLength : ℕ} {data : Bytes} {room : ℕ} :
    ∀ {depth start : ℕ} {node : EncodedNode}, room ≤ depth →
      measure digestLength (chain depth) = .ok node → Holds data start (nodeBytes node) →
        ∃ thrown, parseCacheTreeEntry data digestLength room start = .error thrown := by
  induction room with
  | zero => exact fun _ _ _ => ⟨_, rfl⟩
  | succ room ih =>
    intro depth start node hdepth hmeasure hheld
    obtain ⟨depth, rfl⟩ : ∃ below, depth = below + 1 := ⟨depth - 1, by omega⟩
    obtain ⟨nodes, width, hnodes, -, hnodesHeld, hparse⟩ :=
      parseCacheTreeEntry_head (chain_nodeFits digestLength (depth + 1)) hmeasure hheld
    obtain ⟨child, others, hchild, hothers, rfl⟩ := measureAll_cons hnodes
    rw [nodesBytes] at hnodesHeld
    obtain ⟨thrown, hthrown⟩ := ih (Nat.le_of_succ_le_succ hdepth) hchild hnodesHeld.left
    refine ⟨thrown, ?_⟩
    have hone : (chain (depth + 1)).children.length = 0 + 1 := rfl
    rw [hparse, hone, readCacheTreeChildren, hthrown]
    rfl

theorem parseCacheTree_chain (digestLength : ℕ) : ∃ bytes thrown,
    serializeCacheTree (chain (maxCacheTreeDepth + 1)) digestLength = .ok bytes ∧
      parseCacheTree bytes digestLength = .error thrown := by
  obtain ⟨node, hnode⟩ := (chain_fits digestLength (maxCacheTreeDepth + 1)).measure_ok
  obtain ⟨thrown, hthrown⟩ := parse_chain le_rfl hnode (holds_self (nodeBytes node))
  refine ⟨nodeBytes node, thrown, serializeCacheTree_eq hnode, ?_⟩
  rw [parseCacheTree, hthrown]
  rfl

end Tsgit.CacheTree
