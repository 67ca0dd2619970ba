import Tsgit.CommitRoundTrip
import Tsgit.Outcome
import Tsgit.ReflogFormat

/-!
# Reflogs in Bytes

What the readers for bytes make of a file: each line stands for itself, wherever it starts. What
they read is rewritten to lines that are read the same.
-/

namespace Tsgit.Reflog

open List

/-! ### One character for each byte -/

section

variable {bytes front back : Bytes} {text : Text} {start stop : ℕ}

/-- The bytes of a projection. -/
def latin1Encode (text : Text) : Bytes := text.map fun c => UInt8.ofNat c.toNat

theorem toNat_latin1 (byte : UInt8) : (Char.ofNat byte.toNat).toNat = byte.toNat :=
  toNat_ofNat_of_isValidChar (Or.inl (byte.toNat_lt.trans (by decide)))

theorem latin1Encode_decode (bytes : Bytes) : latin1Encode (latin1Decode bytes) = bytes := by
  rw [latin1Encode, latin1Decode, map_map]
  refine (map_congr_left fun byte _ => ?_).trans (map_id _)
  refine UInt8.toNat_inj.mp ?_
  rw [Function.comp_apply, toNat_latin1]
  exact Nat.mod_eq_of_lt byte.toNat_lt

theorem latin1Decode_encode (h : ∀ c ∈ text, c.toNat < 256) :
    latin1Decode (latin1Encode text) = text := by
  rw [latin1Encode, latin1Decode, map_map]
  refine (map_congr_left fun c hc => ?_).trans (map_id _)
  have hvalue : (UInt8.ofNat c.toNat).toNat = c.toNat := Nat.mod_eq_of_lt (h c hc)
  rw [Function.comp_apply, hvalue, Char.ofNat_toNat]
  rfl

theorem toNat_lt_of_mem_latin1 {c : Char} (h : c ∈ latin1Decode bytes) : c.toNat < 256 := by
  obtain ⟨byte, -, rfl⟩ := mem_map.mp h
  rw [toNat_latin1]
  exact byte.toNat_lt

theorem latin1Decode_append (front back : Bytes) :
    latin1Decode (front ++ back) = latin1Decode front ++ latin1Decode back := map_append

theorem latin1Encode_append (front back : Text) :
    latin1Encode (front ++ back) = latin1Encode front ++ latin1Encode back := map_append

theorem latin1Decode_subarray : latin1Decode (subarray bytes start stop) =
    subarray (latin1Decode bytes) start stop := by
  rw [subarray, subarray, latin1Decode, latin1Decode, map_take, map_drop]

theorem length_latin1Decode (bytes : Bytes) : (latin1Decode bytes).length = bytes.length :=
  length_map _

theorem mem_latin1Decode {c : Char} {byte : UInt8} (hc : c = Char.ofNat byte.toNat) :
    c ∈ latin1Decode bytes ↔ byte ∈ bytes := by
  refine ⟨fun h => ?_, fun h => hc ▸ mem_map_of_mem h⟩
  obtain ⟨other, hother, heq⟩ := mem_map.mp h
  have hsame : other.toNat = byte.toNat := by
    rw [← toNat_latin1 other, ← toNat_latin1 byte, heq, hc]
  exact UInt8.toNat_inj.mp hsame ▸ hother

theorem splitOn_latin1Decode (bytes : Bytes) :
    (latin1Decode bytes).splitOn '\n' = (bytes.splitOn 0x0a).map latin1Decode := by
  obtain ⟨size, hsize⟩ : ∃ size, size = bytes.length := ⟨_, rfl⟩
  induction size using Nat.strong_induction_on generalizing bytes with
  | _ size ih =>
    by_cases hmem : (0x0a : UInt8) ∈ bytes
    · obtain ⟨front, back, rfl, hfront⟩ := eq_append_cons_of_mem hmem
      rw [length_append, length_cons] at hsize
      have hfrontOut : '\n' ∉ latin1Decode front := fun h =>
        hfront ((mem_latin1Decode (by decide)).mp h)
      have hshape : latin1Decode (front ++ 0x0a :: back) =
          latin1Decode front ++ '\n' :: latin1Decode back := latin1Decode_append _ _
      rw [hshape, splitOn_append_cons_self_of_not_mem hfrontOut,
        splitOn_append_cons_self_of_not_mem hfront, map_cons,
        ih back.length (by omega) back rfl]
    · have hout : '\n' ∉ latin1Decode bytes := fun h =>
        hmem ((mem_latin1Decode (by decide)).mp h)
      rw [splitOn_eq_singleton hmem, splitOn_eq_singleton hout]
      rfl

end

/-- The lines of a file that a newline ends. -/
def terminatedLines (bytes : Bytes) : List Bytes := (bytes.splitOn 0x0a).dropLast

theorem splitReflogLines_eq (text : Text) :
    splitReflogLines text = (text.splitOn '\n').dropLast := by
  rw [splitReflogLines]
  cases hlast : lastIndexOf text '\n' with
  | none =>
    have hout : '\n' ∉ text := by
      intro hmem
      obtain ⟨j, hj⟩ := mem_iff_getElem?.mp hmem
      obtain ⟨hlt, -⟩ := List.getElem?_eq_some_iff.mp hj
      exact lastIndexBefore_none hlast j hlt hj
    rw [splitOn_eq_singleton hout]
    rfl
  | some i =>
    obtain ⟨-, hchar, hnone⟩ := lastIndexBefore_some hlast
    have hout : '\n' ∉ text.drop (i + 1) := not_mem_drop hnone
    dsimp only
    conv_rhs => rw [cut_at hchar]
    rw [splitOn_append_cons_self, splitOn_eq_singleton hout, dropLast_concat]

/-! ### A line of bytes -/

section

variable {before after lineBytes : Bytes} {p : LineParts} {timestamp : ℤ} {zone : Text}
  {hexLength start stop : ℕ}

def LineParts.byteEntry (p : LineParts) (timestamp : ℤ) (zone : Text) : ReflogEntry :=
  ⟨p.oldId, p.newId, ⟨decodePreservingBom (latin1Encode (nameOf p.rawName)),
      decodePreservingBom (latin1Encode p.email), timestamp, zone⟩,
    decodePreservingBom (latin1Encode (p.message.getD [])),
    some ⟨latin1Encode (p.rawName ++ '<' :: (p.email ++ ['>'])), latin1Encode (p.message.getD [])⟩⟩

/-- A window of a file that lies in a line. -/
theorem subarray_line (hstop : stop ≤ lineBytes.length) :
    subarray (before ++ (lineBytes ++ after)) (before.length + start) (before.length + stop) =
      subarray lineBytes start stop := by
  have hwidth : before.length + stop - (before.length + start) = stop - start := by omega
  rw [subarray, subarray, hwidth, ← drop_drop, drop_left]
  rcases Nat.lt_or_ge start stop with hlt | hge
  · rw [drop_append_of_le_length (by omega), take_append_of_le_length (by rw [length_drop]; omega)]
  · rw [Nat.sub_eq_zero_of_le hge, take_zero, take_zero]

theorem decodeField_eq (hstop : stop ≤ lineBytes.length) :
    decodeField (before ++ (lineBytes ++ after)) (latin1Decode lineBytes) before.length start stop =
      decodePreservingBom (subarray lineBytes start stop) := by
  unfold decodeField
  rw [subarray_line hstop, ← latin1Decode_subarray]
  dsimp only
  split_ifs with hascii
  · refine (decodePreservingBom_ascii fun byte hmem => ?_).symm
    have hchar := all_eq_true.mp hascii _ (mem_map_of_mem hmem)
    rw [← toNat_latin1 byte]
    exact of_decide_eq_true hchar
  · rfl

theorem subarray_eq {line front field rest : Text} (h : line = front ++ (field ++ rest))
    (hstart : start = front.length) (hstop : stop = start + field.length) :
    subarray line start stop = field := by
  rw [h, hstop, hstart]
  exact subarray_append_left front field rest

theorem subarray_bytes {line field : Text} (hline : latin1Decode lineBytes = line)
    (h : subarray line start stop = field) :
    subarray lineBytes start stop = latin1Encode field := by
  rw [← h, ← hline, ← latin1Decode_subarray, latin1Encode_decode]

theorem nameOf_append (rawName : Text) : ∃ rest, rawName = nameOf rawName ++ rest := by
  rw [nameOf]
  split_ifs with hspace
  · obtain ⟨front, rfl⟩ := getLast?_eq_some_iff.mp hspace
    exact ⟨[' '], by rw [dropLast_concat]⟩
  · exact ⟨[], (append_nil rawName).symm⟩

theorem window_line {field front rest : Text} (hline : latin1Decode lineBytes = p.line)
    (hshape : p.line = front ++ (field ++ rest)) (hstart : start = front.length)
    (hstop : stop = start + field.length) :
    decodeField (before ++ (lineBytes ++ after)) (latin1Decode lineBytes) before.length start
        stop = decodePreservingBom (latin1Encode field) ∧
      subarray (before ++ (lineBytes ++ after)) (before.length + start) (before.length + stop) =
        latin1Encode field := by
  have hlength : stop ≤ lineBytes.length := by
    rw [← length_latin1Decode, hline, hshape, length_append, length_append]
    omega
  have hbytes := subarray_bytes hline (subarray_eq hshape hstart hstop)
  rw [decodeField_eq hlength, subarray_line hlength, hbytes]
  exact ⟨rfl, rfl⟩

theorem LineParts.message_window (h : '\t' ∉ p.front) :
    ∃ first, p.line = first ++ (p.message.getD [] ++ []) ∧ messageStartOf p.line = first.length ∧
        p.line.length = first.length + (p.message.getD []).length := by
  rw [LineParts.line, messageStartOf]
  cases p.message with
  | none =>
    refine ⟨p.front, rfl, ?_, ?_⟩
    · rw [Option.elim_none, append_nil, idxOf?_eq_none_iff.mpr h]
    · rw [Option.elim_none, append_nil]
      rfl
  | some message =>
    refine ⟨p.front ++ ['\t'], ?_, ?_, ?_⟩
    · rw [Option.elim_some, Option.getD_some, append_nil, append_assoc]
      rfl
    · rw [Option.elim_some, idxOf?_append_cons h]
      exact (@length_append _ p.front ['\t']).symm
    · rw [Option.elim_some, Option.getD_some, length_append, length_append,
        length_cons, length_singleton]
      omega

/-- **A line of bytes** is read as the parts of its projection, wherever it starts. -/
theorem parseReflogEntryFromBytes_eq (hline : latin1Decode lineBytes = p.line)
    (hgood : p.Good isWhitespace hexLength timestamp zone) :
    parseReflogEntryFromBytes (before ++ (lineBytes ++ after)) (latin1Decode lineBytes)
      before.length hexLength = .ok (p.byteEntry timestamp zone) := by
  have hgrammar : parseReflogLine (latin1Decode lineBytes) hexLength =
      .ok (p.entry timestamp zone) :=
    parseReflogLine_iff.mpr ⟨p, timestamp, zone, hline, hgood, rfl⟩
  have hold := hgood.oldWidth
  have hnew := hgood.newWidth
  obtain ⟨front, hfront⟩ : ∃ front, front = p.oldId ++ ' ' :: (p.newId ++ [' ']) := ⟨_, rfl⟩
  have hplace : hexLength + 1 + hexLength + 1 = front.length := by
    rw [hfront, length_append, length_cons, length_append, length_singleton]
    omega
  obtain ⟨behind, hbehind⟩ : ∃ behind, behind = p.message.elim [] ('\t' :: ·) := ⟨_, rfl⟩
  have hshape : p.line = front ++ (p.rawName ++ '<' :: (p.email ++ '>' :: (p.tail ++ behind))) := by
    rw [LineParts.line, LineParts.front, LineParts.identity, hfront, ← hbehind]
    simp only [append_assoc, cons_append, nil_append]
  have hregion : (metaOf (latin1Decode lineBytes)).drop (hexLength + 1 + hexLength + 1) =
      p.rawName ++ '<' :: (p.email ++ '>' :: p.tail) := by
    rw [hline, LineParts.metaOf_line hgood.noTab, LineParts.drop_front_identity hold hnew]
    rfl
  obtain ⟨spaces, hspaces⟩ := nameOf_append p.rawName
  have hname := (@window_line before after lineBytes p (hexLength + 1 + hexLength + 1)
    (hexLength + 1 + hexLength + 1 + (nameOf p.rawName).length) (nameOf p.rawName) front
    (spaces ++ '<' :: (p.email ++ '>' :: (p.tail ++ behind)))
    hline (by rw [hshape, ← append_assoc (nameOf p.rawName), ← hspaces]) hplace rfl).1
  have hemail := (@window_line before after lineBytes p
    (hexLength + 1 + hexLength + 1 + p.rawName.length + 1)
    (hexLength + 1 + hexLength + 1 + (p.rawName.length + (p.email.length + 1))) p.email
    (front ++ (p.rawName ++ ['<'])) ('>' :: (p.tail ++ behind)) hline
    (by rw [hshape]; simp only [append_assoc, cons_append, nil_append])
    (by rw [length_append, length_append, length_singleton, hplace]; omega)
    (by omega)).1
  have hidentity := (@window_line before after lineBytes p (hexLength + 1 + hexLength + 1)
    (hexLength + 1 + hexLength + 1 + (p.rawName.length + (p.email.length + 1)) + 1)
    (p.rawName ++ '<' :: (p.email ++ ['>'])) front (p.tail ++ behind) hline
    (by rw [hshape]; simp only [append_assoc, cons_append, nil_append]) hplace
    (by
      rw [length_append, length_cons, length_append, length_singleton]
      omega)).2
  obtain ⟨first, hshape', hstart, hend⟩ := LineParts.message_window hgood.noTab
  have hmessage := @window_line before after lineBytes p (messageStartOf p.line) p.line.length
    (p.message.getD []) first [] hline hshape' hstart (by omega)
  unfold parseReflogEntryFromBytes
  rw [ok_bind_eq hgrammar]
  dsimp only
  rw [hregion, lastClose_eq hgood.tail]
  rw [Option.getD_some, lastOpen_eq hgood.email, Option.getD_some]
  have hplaces : before.length + (hexLength + 1 + hexLength + 1) +
      (p.rawName.length + (p.email.length + 1)) + 1 =
        before.length + (hexLength + 1 + hexLength + 1 +
          (p.rawName.length + (p.email.length + 1)) + 1) := by omega
  have hwidth : (p.entry timestamp zone).identity.name.length = (nameOf p.rawName).length := rfl
  rw [← hline] at hmessage
  rw [hplaces, hidentity, hmessage.1, hmessage.2, hemail, hwidth, hname]
  rfl

end

/-! ### A file of lines -/

section

variable {before after bytes line : Bytes} {hexLength : ℕ}

/-- A line of bytes by itself. -/
def lineEntry (line : Bytes) (hexLength : ℕ) : Except Thrown ReflogEntry :=
  parseReflogEntryFromBytes line (latin1Decode line) 0 hexLength

theorem lineEntry_iff {entry : ReflogEntry} : lineEntry line hexLength = .ok entry ↔
    ∃ p : LineParts, ∃ timestamp zone, latin1Decode line = p.line ∧
      p.Good isWhitespace hexLength timestamp zone ∧ entry = p.byteEntry timestamp zone := by
  have halone : ∀ {p : LineParts} {timestamp : ℤ} {zone : Text}, latin1Decode line = p.line →
      p.Good isWhitespace hexLength timestamp zone →
        lineEntry line hexLength = .ok (p.byteEntry timestamp zone) := by
    intro p timestamp zone hline hgood
    have hread := @parseReflogEntryFromBytes_eq [] [] line p timestamp zone hexLength hline hgood
    rwa [nil_append, append_nil] at hread
  constructor
  · intro h
    obtain ⟨grammar, hgrammar, -⟩ := bind_eq_ok.mp h
    obtain ⟨p, timestamp, zone, hline, hgood, -⟩ := parseReflogLine_iff.mp hgrammar
    rw [halone hline hgood] at h
    cases h
    exact ⟨p, timestamp, zone, hline, hgood, rfl⟩
  · rintro ⟨p, timestamp, zone, hline, hgood, rfl⟩
    exact halone hline hgood

/-- **A line stands for itself**, wherever it starts. -/
theorem parseReflogEntryFromBytes_local :
    parseReflogEntryFromBytes (before ++ (line ++ after)) (latin1Decode line) before.length
      hexLength = lineEntry line hexLength := by
  cases hgrammar : parseReflogLine (latin1Decode line) hexLength with
  | error thrown =>
    unfold lineEntry parseReflogEntryFromBytes
    rw [hgrammar]
    rfl
  | ok grammar =>
    obtain ⟨p, timestamp, zone, hline, hgood, -⟩ := parseReflogLine_iff.mp hgrammar
    rw [parseReflogEntryFromBytes_eq hline hgood,
      lineEntry_iff.mpr ⟨p, timestamp, zone, hline, hgood, rfl⟩]

def Starts (bytes : Bytes) (range : Text × ℕ) (line : Bytes) : Prop :=
  range.1 = latin1Decode line ∧ ∃ before after, bytes = before ++ (line ++ after) ∧
    range.2 = before.length

theorem starts_lineRangesFrom {lines : List Bytes} {rest : Bytes}
    (h : bytes = before ++ (lines.flatMap (· ++ [0x0a]) ++ rest)) :
    List.Forall₂ (Starts bytes) (lineRangesFrom before.length (lines.map latin1Decode)) lines := by
  induction lines generalizing before with
  | nil => exact .nil
  | cons line lines ih =>
    rw [map_cons, lineRangesFrom]
    have hshape : bytes = before ++ (line ++ (0x0a :: (lines.flatMap (· ++ [0x0a]) ++ rest))) := by
      rw [h, flatMap_cons]
      simp only [append_assoc, cons_append, nil_append]
    have hnext : bytes = (before ++ (line ++ [0x0a])) ++
        (lines.flatMap (· ++ [0x0a]) ++ rest) := by
      rw [hshape]
      simp only [append_assoc, cons_append, nil_append]
    have hlength : before.length + (latin1Decode line).length + 1 =
        (before ++ (line ++ [0x0a])).length := by
      rw [length_latin1Decode, length_append, length_append, length_singleton, Nat.add_assoc]
    rw [hlength]
    exact .cons ⟨rfl, before, _, hshape, rfl⟩ (ih hnext)

theorem intercalate_concat (lines : List Bytes) (rest : Bytes) :
    [(0x0a : UInt8)].intercalate (lines ++ [rest]) = lines.flatMap (· ++ [0x0a]) ++ rest := by
  induction lines with
  | nil => exact intercalate_singleton
  | cons line lines ih =>
    rw [cons_append, intercalate_cons_of_ne_nil
      (append_ne_nil_of_right_ne_nil _ (cons_ne_nil _ _)), ih, flatMap_cons]
    simp only [append_assoc]

theorem terminatedLines_spec (bytes : Bytes) : ∃ rest, bytes =
    (terminatedLines bytes).flatMap (· ++ [0x0a]) ++ rest := by
  have hne := splitOn_ne_nil 0x0a bytes
  refine ⟨(bytes.splitOn 0x0a).getLast hne, ?_⟩
  rw [terminatedLines, ← intercalate_concat, dropLast_append_getLast, intercalate_splitOn]

theorem starts_reflogLineByteRanges (bytes : Bytes) :
    List.Forall₂ (Starts bytes) (reflogLineByteRanges bytes) (terminatedLines bytes) := by
  obtain ⟨rest, hrest⟩ := terminatedLines_spec bytes
  rw [reflogLineByteRanges, splitReflogLines_eq, splitOn_latin1Decode, ← map_dropLast]
  exact @starts_lineRangesFrom [] bytes _ rest hrest

theorem Starts.parse_eq {range : Text × ℕ} (h : Starts bytes range line) :
    parseReflogEntryFromBytes bytes range.1 range.2 hexLength = lineEntry line hexLength := by
  obtain ⟨hline, before, after, hbytes, hstart⟩ := h
  rw [hline, hstart, hbytes, parseReflogEntryFromBytes_local]

theorem Starts.nil_iff {range : Text × ℕ} (h : Starts bytes range line) :
    range.1 = [] ↔ line = [] := by
  rw [h.1]
  exact map_eq_nil_iff

theorem mapM_starts {ranges : List (Text × ℕ)} {lines : List Bytes}
    (h : List.Forall₂ (Starts bytes) ranges lines) :
    ((ranges.filter (·.1 ≠ [])).mapM fun range =>
        parseReflogEntryFromBytes bytes range.1 range.2 hexLength) =
      (lines.filter (· ≠ [])).mapM (lineEntry · hexLength) := by
  induction h with
  | nil => rfl
  | @cons range line ranges lines hstarts _ ih =>
    by_cases hempty : line = []
    · rw [filter_cons_of_neg (by rw [decide_eq_true_iff, not_not, hstarts.nil_iff, hempty]),
        filter_cons_of_neg (by rw [decide_eq_true_iff, not_not, hempty]), ih]
    · rw [filter_cons_of_pos (by rw [decide_eq_true_iff, Ne, hstarts.nil_iff]; exact hempty),
        filter_cons_of_pos (by rw [decide_eq_true_iff]; exact hempty), mapM_cons,
        mapM_cons, hstarts.parse_eq, ih]

/-- **The strict reader** reads each line by itself. -/
theorem parseReflogBytes_eq (bytes : Bytes) (hexLength : ℕ) : parseReflogBytes bytes hexLength =
    ((terminatedLines bytes).filter (· ≠ [])).mapM (lineEntry · hexLength) :=
  mapM_starts (starts_reflogLineByteRanges bytes)

theorem lineEntry_of_separator (h : (latin1Decode line)[hexLength]? ≠ some ' ' ∨
    (latin1Decode line)[2 * hexLength + 1]? ≠ some ' ') :
    (lineEntry line hexLength).toOption = none := by
  cases hentry : lineEntry line hexLength with
  | error thrown => rfl
  | ok entry =>
    obtain ⟨p, timestamp, zone, hline, hgood, -⟩ := lineEntry_iff.mp hentry
    obtain ⟨hspace, hspace'⟩ := LineParts.separators hgood.oldWidth hgood.newWidth
    rw [hline] at h
    rcases h with h | h
    · exact absurd hspace h
    · exact absurd hspace' h

theorem filterMap_starts {ranges : List (Text × ℕ)} {lines : List Bytes}
    (h : List.Forall₂ (Starts bytes) ranges lines) :
    (ranges.filterMap fun range =>
        if range.1[hexLength]? ≠ some ' ' ∨ range.1[2 * hexLength + 1]? ≠ some ' ' then none
        else (parseReflogEntryFromBytes bytes range.1 range.2 hexLength).toOption) =
      lines.filterMap fun line => (lineEntry line hexLength).toOption := by
  induction h with
  | nil => rfl
  | @cons range line ranges lines hstarts _ ih =>
    have hfirst : (if range.1[hexLength]? ≠ some ' ' ∨ range.1[2 * hexLength + 1]? ≠ some ' '
        then none
        else (parseReflogEntryFromBytes bytes range.1 range.2 hexLength).toOption) =
        (lineEntry line hexLength).toOption := by
      split_ifs with hseparator
      · rw [hstarts.1] at hseparator
        exact (lineEntry_of_separator hseparator).symm
      · rw [hstarts.parse_eq]
    rw [filterMap_cons, filterMap_cons, hfirst, ih]

/-- **The lenient reader** keeps the lines that can be read by themselves. -/
theorem parseReflogLenientBytes_eq (bytes : Bytes) (hexLength : ℕ) :
    parseReflogLenientBytes bytes hexLength =
      (terminatedLines bytes).filterMap fun line => (lineEntry line hexLength).toOption :=
  filterMap_starts (starts_reflogLineByteRanges bytes)

end

/-! ### Rewriting -/

section

variable {bytes line : Bytes} {text : Text} {hexLength : ℕ} {p : LineParts} {timestamp : ℤ}
  {zone : Text}

variable {c : Char}

theorem mem_of_mem_latin1Encode (h : ∀ c ∈ text, c.toNat < 256) {byte : UInt8}
    (hc : c = Char.ofNat byte.toNat) (hmem : byte ∈ latin1Encode text) : c ∈ text := by
  rw [← latin1Decode_encode h]
  exact (mem_latin1Decode hc).mpr hmem

def LineParts.rewritten (p : LineParts) (timestamp : ℤ) (zone : Text) : LineParts :=
  ⟨p.oldId, p.newId, p.rawName, p.email, ' ' :: (decimalText timestamp ++ ' ' :: zone),
    some (p.message.getD [])⟩

theorem IsTail.safe {isSpace : Char → Bool} {tail : Text} (h : IsTail isSpace tail timestamp zone) :
    |timestamp| ≤ maxSafeInteger ∧ isTimezoneOffset zone = true := by
  obtain ⟨before, number, between, after, -, -, -, -, -, -, hvalue, hzone⟩ := h
  refine ⟨?_, hzone⟩
  obtain ⟨q, -, hq⟩ := Option.bind_eq_some_iff.mp hvalue
  rw [safeInteger] at hq
  split_ifs at hq with hsafe
  cases hq
  exact hsafe.2

theorem isTail_rewritten (hsafe : |timestamp| ≤ maxSafeInteger)
    (hzone : isTimezoneOffset zone = true) :
    IsTail isWhitespace (' ' :: (decimalText timestamp ++ ' ' :: zone)) timestamp zone := by
  refine ⟨[' '], decimalText timestamp, [' '], [], ?_, ?_, isWord_decimalText _,
    cons_ne_nil _ _, ?_, (fun c hc => by cases hc), ?_, hzone⟩
  · rw [append_nil]
    rfl
  · exact fun c hc => mem_singleton.mp hc ▸ rfl
  · exact fun c hc => mem_singleton.mp hc ▸ rfl
  · rw [numberOf_decimalText hsafe, Option.bind_some, safeInteger_int hsafe]

theorem isNumeral_ascii (h : IsNumeral c) : c.toNat ≤ 0x7f := by
  rcases h with rfl | rfl | hdigit
  · decide
  · decide
  · have hbounds : '0' ≤ c ∧ c ≤ '9' := of_decide_eq_true hdigit
    have hupper : c.toNat ≤ 57 := hbounds.2
    omega

theorem hexDigit_ascii (h : isHexDigit c = true) : c.toNat ≤ 0x7f := by
  have hupper : c.toNat ≤ 102 := Nat.not_lt.mp (hexDigit_bounds h).2
  omega

theorem ids_ascii (hold : IsObjectId p.oldId) (hnew : IsObjectId p.newId) :
    ∀ c ∈ p.oldId ++ ' ' :: (p.newId ++ [' ']), c.toNat ≤ 0x7f := by
  intro c hc
  rcases mem_append.mp hc with hc | hc
  · exact hexDigit_ascii (hold.digits c hc)
  rcases mem_cons.mp hc with rfl | hc
  · decide
  · rcases mem_append.mp hc with hc | hc
    · exact hexDigit_ascii (hnew.digits c hc)
    · rw [mem_singleton.mp hc]
      decide

theorem times_ascii (hzone : isTimezoneOffset zone = true) :
    ∀ c ∈ ' ' :: (decimalText timestamp ++ ' ' :: (zone ++ ['\t'])), c.toNat ≤ 0x7f := by
  intro c hc
  have hshape : ' ' :: (decimalText timestamp ++ ' ' :: (zone ++ ['\t'])) =
      (' ' :: (decimalText timestamp ++ ' ' :: zone)) ++ ['\t'] := by
    simp only [append_assoc, cons_append]
  rw [hshape] at hc
  rcases mem_append.mp hc with hc | hc
  · rcases mem_when hzone hc with rfl | hnumeral
    · decide
    · exact isNumeral_ascii hnumeral
  · rw [mem_singleton.mp hc]
    decide

theorem mem_rewritten_front (hzone : isTimezoneOffset zone = true)
    (h : c ∈ (p.rewritten timestamp zone).front) : c ∈ p.front ∨ c = ' ' ∨ IsNumeral c := by
  have hfront : (p.rewritten timestamp zone).front = (p.oldId ++ ' ' :: (p.newId ++
      ' ' :: (p.rawName ++ '<' :: (p.email ++ ['>'])))) ++
        ' ' :: (decimalText timestamp ++ ' ' :: zone) := by
    simp only [LineParts.front, LineParts.identity, LineParts.rewritten, append_assoc,
      cons_append, nil_append]
  have hold : p.front = (p.oldId ++ ' ' :: (p.newId ++
      ' ' :: (p.rawName ++ '<' :: (p.email ++ ['>'])))) ++ p.tail := by
    simp only [LineParts.front, LineParts.identity, append_assoc, cons_append, nil_append]
  rw [hfront] at h
  rcases mem_append.mp h with h | h
  · refine Or.inl ?_
    rw [hold]
    exact mem_append_left _ h
  · exact Or.inr (mem_when hzone h)

theorem good_rewritten (hgood : p.Good isWhitespace hexLength timestamp zone) :
    (p.rewritten timestamp zone).Good isWhitespace hexLength timestamp zone := by
  obtain ⟨hsafe, hzone⟩ := hgood.times.safe
  refine ⟨hgood.oldId, hgood.newId, hgood.oldWidth, hgood.newWidth, hgood.email, ?_, ?_,
    isTail_rewritten hsafe hzone, hgood.nonzero⟩
  · intro hmem
    rcases mem_when hzone hmem with hspace | hnumeral
    · cases hspace
    · exact hnumeral.solid.2.2.2 rfl
  · intro hmem
    rcases mem_rewritten_front hzone hmem with hfront | hspace | hnumeral
    · exact hgood.noTab hfront
    · cases hspace
    · exact absurd hnumeral.solid.1 (by decide)

theorem mem_rewritten (hzone : isTimezoneOffset zone = true)
    (h : c ∈ (p.rewritten timestamp zone).line) :
    c ∈ p.line ∨ c = ' ' ∨ c = '\t' ∨ IsNumeral c := by
  rcases mem_append.mp h with h | h
  · rcases mem_rewritten_front hzone h with hfront | hspace | hnumeral
    · exact Or.inl (mem_append_left _ hfront)
    · exact Or.inr (Or.inl hspace)
    · exact Or.inr (Or.inr (Or.inr hnumeral))
  have hmem : c ∈ '\t' :: p.message.getD [] := h
  rcases mem_cons.mp hmem with htab | hmessage
  · exact Or.inr (Or.inr (Or.inl htab))
  refine Or.inl (mem_append_right _ ?_)
  cases hsome : p.message with
  | none =>
    rw [hsome] at hmessage
    exact absurd hmessage not_mem_nil
  | some message =>
    rw [hsome] at hmessage
    exact mem_cons_of_mem _ hmessage

theorem line_rewritten : (p.rewritten timestamp zone).line =
    (p.oldId ++ ' ' :: (p.newId ++ [' '])) ++ ((p.rawName ++ '<' :: (p.email ++ ['>'])) ++
      (' ' :: (decimalText timestamp ++ ' ' :: (zone ++ ['\t'])) ++ p.message.getD [])) := by
  simp only [LineParts.line, LineParts.front, LineParts.identity, LineParts.rewritten,
    Option.elim_some, append_assoc, cons_append, nil_append]

theorem serialize_byteEntry (hgood : p.Good isWhitespace hexLength timestamp zone)
    (hchars : ∀ c ∈ (p.rewritten timestamp zone).line, c.toNat < 256)
    (hsingle : '\n' ∉ (p.rewritten timestamp zone).line) :
    serializeReflogRewriteLineBytes (p.byteEntry timestamp zone) hexLength =
      .ok (latin1Encode (p.rewritten timestamp zone).line ++ [0x0a]) := by
  obtain ⟨hsafe, hzone⟩ := hgood.times.safe
  have hgoodNew := good_rewritten hgood
  rw [line_rewritten] at hchars hsingle
  have hidentityChars : ∀ c ∈ p.rawName ++ '<' :: (p.email ++ ['>']), c.toNat < 256 :=
    fun c hc => hchars c (mem_append_right _ (mem_append_left _ hc))
  have hmessageChars : ∀ c ∈ p.message.getD [], c.toNat < 256 :=
    fun c hc => hchars c (mem_append_right _ (mem_append_right _
      (mem_append_right _ hc)))
  have hmessage : ¬ (latin1Encode (p.message.getD [])).contains 0x0a = true := by
    rw [contains_iff_mem]
    intro hmem
    exact hsingle (mem_append_right _ (mem_append_right _ (mem_append_right _
      (mem_of_mem_latin1Encode hmessageChars (by decide) hmem))))
  have hidentity : ¬ ((latin1Encode (p.rawName ++ '<' :: (p.email ++ ['>']))).contains 0x0a = true ∨
      (latin1Encode (p.rawName ++ '<' :: (p.email ++ ['>']))).contains 0x09 = true) := by
    rw [contains_iff_mem, contains_iff_mem]
    rintro (hmem | hmem)
    · exact hsingle (mem_append_right _ (mem_append_left _
        (mem_of_mem_latin1Encode hidentityChars (by decide) hmem)))
    refine hgood.noTab ?_
    have htab : '\t' ∈ p.rawName ++ '<' :: (p.email ++ ['>']) :=
      mem_of_mem_latin1Encode hidentityChars (by decide) hmem
    have hfront : p.front = (p.oldId ++ ' ' :: (p.newId ++ [' '])) ++
        ((p.rawName ++ '<' :: (p.email ++ ['>'])) ++ p.tail) := by
      simp only [LineParts.front, LineParts.identity, append_assoc, cons_append, nil_append]
    rw [hfront]
    exact mem_append_right _ (mem_append_left _ htab)
  have hassert : assertReflogLineFields (p.byteEntry timestamp zone) hexLength = .ok () := by
    unfold assertReflogLineFields
    rw [if_neg (by rw [not_or, not_not, not_not]; exact ⟨hgood.oldWidth, hgood.newWidth⟩)]
    exact if_neg hgood.nonzero
  have hbefore : encode (p.oldId ++ ' ' :: (p.newId ++ [' '])) =
      latin1Encode (p.oldId ++ ' ' :: (p.newId ++ [' '])) :=
    encode_ascii (ids_ascii hgood.oldId hgood.newId)
  have hbehind : encode (' ' :: (decimalText timestamp ++ ' ' :: (zone ++ ['\t']))) =
      latin1Encode (' ' :: (decimalText timestamp ++ ' ' :: (zone ++ ['\t']))) :=
    encode_ascii (times_ascii hzone)
  have hbytes : latin1Encode (p.rewritten timestamp zone).line =
      encode (p.oldId ++ ' ' :: (p.newId ++ [' '])) ++
        (latin1Encode (p.rawName ++ '<' :: (p.email ++ ['>'])) ++
          (encode (' ' :: (decimalText timestamp ++ ' ' :: (zone ++ ['\t']))) ++
            latin1Encode (p.message.getD []))) := by
    rw [line_rewritten, hbefore, hbehind, ← latin1Encode_append, ← latin1Encode_append,
      ← latin1Encode_append]
  have hraw : (p.byteEntry timestamp zone).raw =
      some ⟨latin1Encode (p.rawName ++ '<' :: (p.email ++ ['>'])),
        latin1Encode (p.message.getD [])⟩ := rfl
  unfold serializeReflogRewriteLineBytes
  rw [hraw]
  dsimp only
  rw [ok_bind_eq hassert, if_neg hmessage, if_neg hidentity]
  refine (if_neg (not_not_intro hsafe)).trans ((if_neg (not_not_intro hzone)).trans ?_)
  refine congrArg Except.ok ?_
  rw [hbytes, append_assoc, append_assoc, append_assoc]
  rfl

/-- **A line that is read and rewritten** is read the same. -/
theorem rewrite_line {entry : ReflogEntry} (h : lineEntry line hexLength = .ok entry)
    (hsingle : 0x0a ∉ line) : ∃ line', serializeReflogRewriteLineBytes entry hexLength =
      .ok (line' ++ [0x0a]) ∧ 0x0a ∉ line' ∧ line' ≠ [] ∧
        lineEntry line' hexLength = .ok entry := by
  obtain ⟨p, timestamp, zone, hline, hgood, rfl⟩ := lineEntry_iff.mp h
  obtain ⟨hsafe, hzone⟩ := hgood.times.safe
  have hchars : ∀ c ∈ (p.rewritten timestamp zone).line, c.toNat < 256 ∧ c ≠ '\n' := by
    intro c hc
    rcases mem_rewritten hzone hc with hold | rfl | rfl | hnumeral
    · rw [← hline] at hold
      refine ⟨toNat_lt_of_mem_latin1 hold, ?_⟩
      rintro rfl
      exact hsingle ((mem_latin1Decode (by decide)).mp hold)
    · decide
    · decide
    · exact ⟨(isNumeral_ascii hnumeral).trans_lt (by decide), hnumeral.solid.2.1⟩
  have hbytes := serialize_byteEntry hgood (fun c hc => (hchars c hc).1)
    fun hmem => (hchars _ hmem).2 rfl
  refine ⟨_, hbytes, fun hmem => ?_, ?_, ?_⟩
  · exact (hchars _ (mem_of_mem_latin1Encode (fun c hc => (hchars c hc).1) (by decide) hmem)).2 rfl
  · intro hnil
    have hspace := (LineParts.separators (good_rewritten hgood).oldWidth
      (good_rewritten hgood).newWidth).1
    rw [map_eq_nil_iff.mp hnil] at hspace
    cases hspace
  · exact lineEntry_iff.mpr ⟨p.rewritten timestamp zone, timestamp, zone,
      latin1Decode_encode fun c hc => (hchars c hc).1, good_rewritten hgood, rfl⟩

theorem rewrite_lines {lines : List Bytes} {entries : List ReflogEntry}
    (h : lines.mapM (lineEntry · hexLength) = .ok entries) (hsingle : ∀ line ∈ lines, 0x0a ∉ line) :
    ∃ lines' : List Bytes, entries.mapM (serializeReflogRewriteLineBytes · hexLength) =
        .ok (lines'.map (· ++ [0x0a])) ∧ (∀ line ∈ lines', 0x0a ∉ line ∧ line ≠ []) ∧
      lines'.mapM (lineEntry · hexLength) = .ok entries := by
  induction lines generalizing entries with
  | nil =>
    cases h
    exact ⟨[], rfl, forall_mem_nil _, rfl⟩
  | cons line lines ih =>
    rw [mapM_cons] at h
    obtain ⟨entry, hentry, h⟩ := bind_eq_ok.mp h
    obtain ⟨rest, hrest, h⟩ := bind_eq_ok.mp h
    cases h
    obtain ⟨hfirst, hothers⟩ := forall_mem_cons.mp hsingle
    obtain ⟨line', hbytes, hsingle', hne, hread⟩ := rewrite_line hentry hfirst
    obtain ⟨lines', hbytesRest, hsingleRest, hreadRest⟩ := ih hrest hothers
    refine ⟨line' :: lines', ?_, forall_mem_cons.mpr ⟨⟨hsingle', hne⟩, hsingleRest⟩, ?_⟩
    · rw [mapM_cons, ok_bind_eq hbytes, ok_bind_eq hbytesRest]
      rfl
    · rw [mapM_cons, ok_bind_eq hread, ok_bind_eq hreadRest]
      rfl

theorem terminatedLines_flatMap {lines : List Bytes} (h : ∀ line ∈ lines, 0x0a ∉ line) :
    terminatedLines (lines.flatMap (· ++ [0x0a])) = lines := by
  have hjoin : lines.flatMap (· ++ [0x0a]) = [(0x0a : UInt8)].intercalate (lines ++ [[]]) := by
    rw [intercalate_concat, append_nil]
  have hall : ∀ line ∈ lines ++ [[]], (0x0a : UInt8) ∉ line := by
    intro line hmem
    rcases mem_append.mp hmem with hmem | hmem
    · exact h line hmem
    · rw [mem_singleton.mp hmem]
      exact not_mem_nil
  rw [terminatedLines, hjoin, splitOn_intercalate _ hall
    (append_ne_nil_of_right_ne_nil _ (cons_ne_nil _ _)), dropLast_concat]

theorem not_mem_of_mem_terminatedLines (h : line ∈ terminatedLines bytes) : 0x0a ∉ line :=
  not_mem_of_mem_splitOn ((dropLast_sublist _).subset h)

/-- **A file that is read and rewritten** is read the same. -/
theorem rewriteReflog_read {entries : List ReflogEntry}
    (h : parseReflogBytes bytes hexLength = .ok entries) :
    ∃ written, rewriteReflog entries hexLength = .ok written ∧
      parseReflogBytes written hexLength = .ok entries := by
  rw [parseReflogBytes_eq] at h
  obtain ⟨lines, hbytes, hall, hread⟩ := rewrite_lines h fun line hmem =>
    not_mem_of_mem_terminatedLines (mem_of_mem_filter hmem)
  refine ⟨lines.flatMap (· ++ [0x0a]), ?_, ?_⟩
  · rw [rewriteReflog, ok_bind_eq hbytes]
    rfl
  · rw [parseReflogBytes_eq, terminatedLines_flatMap fun line hmem => (hall line hmem).1,
      filter_eq_self.mpr fun line hmem => decide_eq_true (hall line hmem).2, hread]

end

end Tsgit.Reflog
