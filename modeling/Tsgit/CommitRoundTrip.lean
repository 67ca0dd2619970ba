import Tsgit.Commit

/-!
# Commits, Written and Read

What is read of a commit that was written. The header lines are joined by newlines and none is
empty, so that the first blank line is the one behind them.
-/

namespace Tsgit

open List

/-! ### Lines of bytes -/

section

variable {front line rest bytes message : Bytes} {lines : List Bytes}

/-- A line: not empty, and without a newline. -/
structure IsLine (line : Bytes) : Prop where
  ne_nil : line ≠ []
  single : newline ∉ line

theorem getElem?_ne_of_not_mem {xs ys : Bytes} {x : UInt8} (h : x ∉ ys) {i : ℕ}
    (hlower : xs.length ≤ i) (hupper : i < xs.length + ys.length) (zs : Bytes) :
    (xs ++ (ys ++ zs))[i]? ≠ some x := by
  rw [getElem?_append_right hlower, getElem?_append_left (by omega)]
  intro hget
  exact h (mem_of_getElem? hget)

theorem indexOf_newline (hline : newline ∉ line) :
    indexOf (front ++ (line ++ newline :: rest)) newline front.length =
      some (front.length + line.length) := by
  refine indexOf_eq_some (Nat.le_add_right _ _) ?_ fun i hlower hupper =>
    getElem?_ne_of_not_mem hline hlower hupper _
  rw [getElem?_append_right (Nat.le_add_right _ _), Nat.add_sub_cancel_left,
    getElem?_append_right le_rfl, Nat.sub_self, getElem?_cons_zero]

theorem indexOf_newline_none (hline : newline ∉ line) :
    indexOf (front ++ line) newline front.length = none := by
  refine indexOf_eq_none fun i hlower hget => ?_
  rw [getElem?_append_right hlower] at hget
  exact hline (mem_of_getElem? hget)

theorem joined_cons (line : Bytes) (hlines : lines ≠ []) :
    [newline].intercalate (line :: lines) = line ++ newline :: [newline].intercalate lines := by
  rw [intercalate_cons_of_ne_nil hlines, append_assoc]
  rfl

theorem joined_eq_append (line : Bytes) (lines : List Bytes) :
    ∃ more, [newline].intercalate (line :: lines) = line ++ more := by
  cases lines with
  | nil => exact ⟨[], by rw [intercalate_singleton, append_nil]⟩
  | cons next lines => exact ⟨_, joined_cons line (cons_ne_nil _ _)⟩

/-- **The end of the headers** is behind the last line. -/
theorem findBlankLine_joined (hne : lines ≠ []) (hlines : ∀ line ∈ lines, IsLine line) :
    findBlankLineFrom (front ++ ([newline].intercalate lines ++ newline :: newline :: message))
        front.length = some (front.length + ([newline].intercalate lines).length) := by
  induction lines generalizing front with
  | nil => exact absurd rfl hne
  | cons line lines ih =>
    have hline := hlines line mem_cons_self
    cases lines with
    | nil =>
      have hblank : (front ++ (line ++ newline :: newline :: message))[front.length +
          line.length + 1]? = some newline := by
        rw [getElem?_append_right (by omega), getElem?_append_right (by omega)]
        have hplace : front.length + line.length + 1 - front.length - line.length = 1 := by
          omega
        rw [hplace]
        rfl
      rw [intercalate_singleton, findBlankLineFrom]
      split
      · next hnone => cases (indexOf_newline hline.single).symm.trans hnone
      · next found hfound =>
        obtain rfl := Option.some.inj (hfound.symm.trans (indexOf_newline hline.single))
        rw [if_pos hblank]
    | cons next lines =>
      have hnext := hlines next (mem_cons_of_mem _ mem_cons_self)
      obtain ⟨more, hmore⟩ := joined_eq_append next lines
      have hjoin : front ++ ([newline].intercalate (line :: next :: lines) ++
            newline :: newline :: message) =
          (front ++ (line ++ [newline])) ++ ([newline].intercalate (next :: lines) ++
            newline :: newline :: message) := by
        rw [joined_cons line (cons_ne_nil _ _)]
        simp only [append_assoc, cons_append, nil_append]
      have hwidth : (front ++ (line ++ [newline])).length = front.length + line.length + 1 := by
        rw [length_append, length_append, length_singleton, Nat.add_assoc]
      have hfind : indexOf ((front ++ (line ++ [newline])) ++
          ([newline].intercalate (next :: lines) ++ newline :: newline :: message)) newline
            front.length = some (front.length + line.length) := by
        rw [append_assoc, append_assoc]
        exact indexOf_newline hline.single
      have hnot : ((front ++ (line ++ [newline])) ++ ([newline].intercalate (next :: lines) ++
          newline :: newline :: message))[front.length + line.length + 1]? ≠ some newline := by
        rw [hmore, append_assoc next]
        refine getElem?_ne_of_not_mem hnext.single hwidth.le ?_ _
        have := length_pos_of_ne_nil hnext.ne_nil
        omega
      have hrest := @ih (front ++ (line ++ [newline])) (cons_ne_nil _ _)
        (forall_mem_cons.mp hlines).2
      rw [hwidth] at hrest
      rw [hjoin, findBlankLineFrom]
      split
      · next hnone => cases hfind.symm.trans hnone
      · next found hfound =>
        obtain rfl := Option.some.inj (hfound.symm.trans hfind)
        rw [if_neg hnot, hrest, joined_cons line (cons_ne_nil _ _), length_append, length_cons]
        exact congrArg some (by omega)

/-- The offsets show a line. -/
structure ShowsLine (bytes : Bytes) (offsets : ℕ × ℕ) (line : Bytes) : Prop where
  stop_eq : offsets.2 = offsets.1 + line.length
  stop_le : offsets.2 ≤ bytes.length
  held : subarray bytes offsets.1 offsets.2 = line

theorem showsLine_append (front line rest : Bytes) :
    ShowsLine (front ++ (line ++ rest)) (front.length, front.length + line.length) line where
  stop_eq := rfl
  stop_le := by
    rw [length_append, length_append]
    omega
  held := subarray_append_left front line rest

/-- **The lines of joined lines.** -/
theorem splitByteLines_joined (hne : lines ≠ []) (hlines : ∀ line ∈ lines, newline ∉ line) :
    List.Forall₂ (ShowsLine (front ++ [newline].intercalate lines))
      (splitByteLinesFrom (front ++ [newline].intercalate lines) front.length) lines := by
  induction lines generalizing front with
  | nil => exact absurd rfl hne
  | cons line lines ih =>
    have hline := hlines line mem_cons_self
    cases lines with
    | nil =>
      rw [intercalate_singleton, splitByteLinesFrom]
      split
      · have hshows := showsLine_append front line []
        rw [append_nil] at hshows
        rw [length_append]
        exact .cons hshows .nil
      · next found hfound => cases hfound.symm.trans (indexOf_newline_none hline)
    | cons next lines =>
      have hjoin : front ++ [newline].intercalate (line :: next :: lines) =
          (front ++ (line ++ [newline])) ++ [newline].intercalate (next :: lines) := by
        rw [joined_cons line (cons_ne_nil _ _)]
        simp only [append_assoc, cons_append, nil_append]
      have hwidth : (front ++ (line ++ [newline])).length = front.length + line.length + 1 := by
        rw [length_append, length_append, length_singleton, Nat.add_assoc]
      have hassoc : (front ++ (line ++ [newline])) ++ [newline].intercalate (next :: lines) =
          front ++ (line ++ newline :: [newline].intercalate (next :: lines)) := by
        simp only [append_assoc, cons_append, nil_append]
      have hrest := @ih (front ++ (line ++ [newline])) (cons_ne_nil _ _)
        (forall_mem_cons.mp hlines).2
      rw [hwidth] at hrest
      rw [hjoin, splitByteLinesFrom]
      split
      · next hnone =>
        rw [hassoc] at hnone
        cases (indexOf_newline hline).symm.trans hnone
      · next found hfound =>
        rw [hassoc] at hfound
        obtain rfl := Option.some.inj (hfound.symm.trans (indexOf_newline hline))
        refine .cons ?_ hrest
        rw [hassoc]
        exact showsLine_append front line _

end

/-! ### Lines of text -/

section

variable {text keyword value : Text} {bytes : Bytes} {offsets : ℕ × ℕ}

theorem encode_append (text text' : Text) : encode (text ++ text') = encode text ++ encode text' :=
  flatMap_append

theorem isLine_encode (hne : text ≠ []) (hsingle : '\n' ∉ text) : IsLine (encode text) where
  ne_nil := by
    obtain ⟨c, rest, rfl⟩ := exists_cons_of_ne_nil hne
    rw [encode, flatMap_cons]
    exact append_ne_nil_of_left_ne_nil String.utf8EncodeChar_ne_nil _
  single := not_mem_encode rfl (by decide) hsingle

theorem encode_joinLines (lines : List Text) :
    encode (joinLines lines) = [newline].intercalate (lines.map encode) := by
  induction lines with
  | nil => rfl
  | cons line lines ih =>
    cases lines with
    | nil =>
      rw [joinLines, intercalate_singleton, map_cons, map_nil, intercalate_singleton]
    | cons next lines =>
      have hjoin : joinLines (line :: next :: lines) =
          line ++ '\n' :: joinLines (next :: lines) := by
        rw [joinLines, intercalate_cons_of_ne_nil (cons_ne_nil _ _), append_assoc]
        rfl
      have hmap : (next :: lines).map encode ≠ [] := cons_ne_nil _ _
      rw [hjoin, encode_append, map_cons, joined_cons _ hmap, ← ih]
      rfl

/-- Below 0x80 each character is its own byte. -/
theorem encode_ascii (h : ∀ c ∈ keyword, c.toNat ≤ 0x7f) :
    encode keyword = keyword.map fun c => UInt8.ofNat c.toNat := by
  induction keyword with
  | nil => rfl
  | cons c keyword ih =>
    have hbyte : String.utf8EncodeChar c = [UInt8.ofNat c.toNat] :=
      if_pos (h c mem_cons_self)
    have hrest := ih (forall_mem_cons.mp h).2
    rw [encode] at hrest
    rw [encode, flatMap_cons, hbyte, hrest]
    rfl

/-- A keyword of the headers. -/
def IsAscii (keyword : Text) : Prop := ∀ c ∈ keyword, c.toNat ≤ 0x7f

instance (keyword : Text) : Decidable (IsAscii keyword) :=
  List.decidableBAll (fun c : Char => c.toNat ≤ 0x7f) keyword

theorem lineStartsWithAscii_keyword (hascii : IsAscii keyword)
    (hshows : ShowsLine bytes offsets (encode (keyword ++ value))) :
    lineStartsWithAscii bytes offsets keyword = true := by
  have hencode := encode_append keyword value
  rw [encode_ascii hascii] at hencode
  have hlength : (encode (keyword ++ value)).length = keyword.length + (encode value).length := by
    rw [hencode, length_append, length_map]
  have hstop := hshows.stop_eq
  rw [lineStartsWithAscii, Bool.and_eq_true]
  refine ⟨decide_eq_true (by omega), all_eq_true.mpr fun i hi => decide_eq_true ?_⟩
  have hlt := mem_range.mp hi
  have hget : bytes[offsets.1 + i]? = (encode (keyword ++ value))[i]? := by
    rw [← hshows.held, getElem?_subarray (by omega)]
  have hchar := hascii _ (getElem_mem hlt)
  rw [byteAt, hget, hencode, getElem?_append_left (by rwa [length_map]),
    getElem?_map, getElem?_eq_getElem hlt, getD_eq_getElem?_getD,
    getElem?_eq_getElem hlt]
  exact Nat.mod_eq_of_lt (by omega)

theorem lineStartsWithAscii_other {c c' : Char} {rest : Text} (hc : c.toNat ≤ 0x7f)
    (hne : c.toNat ≠ c'.toNat) (hshows : ShowsLine bytes offsets (encode (c :: text))) :
    lineStartsWithAscii bytes offsets (c' :: rest) = false := by
  have hencode : encode (c :: text) = UInt8.ofNat c.toNat :: encode text := by
    have hbyte : String.utf8EncodeChar c = [UInt8.ofNat c.toNat] := if_pos hc
    rw [encode, flatMap_cons, hbyte]
    rfl
  have hstop := hshows.stop_eq
  rw [hencode, length_cons] at hstop
  have hget : bytes[offsets.1 + 0]? = (encode (c :: text))[0]? := by
    rw [← hshows.held, getElem?_subarray (by omega)]
  rw [lineStartsWithAscii, Bool.and_eq_false_iff]
  refine .inr (all_eq_false.mpr ⟨0, mem_range.mpr (Nat.succ_pos _), ?_⟩)
  rw [byteAt, hget, hencode]
  refine of_decide_eq_false (decide_eq_false ?_)
  intro heq
  have hself : (UInt8.ofNat c.toNat).toNat = c.toNat := Nat.mod_eq_of_lt (by omega)
  refine hne (hself.symm.trans ?_)
  exact of_decide_eq_true heq

theorem decodeLineValue_keyword (hascii : IsAscii keyword)
    (hshows : ShowsLine bytes offsets (encode (keyword ++ value))) :
    decodeLineValue bytes offsets keyword.length = value := by
  have hwidth : (encode keyword).length = keyword.length := by
    rw [encode_ascii hascii, length_map]
  have hdrop : subarray bytes (offsets.1 + keyword.length) offsets.2 =
      (subarray bytes offsets.1 offsets.2).drop keyword.length := by
    rw [subarray, subarray, drop_take, drop_drop, Nat.sub_sub]
  rw [decodeLineValue, hdrop, hshows.held, encode_append, ← hwidth, drop_left,
    decodePreservingBom_encode]

end

/-! ### The reader -/

section

variable {bytes : Bytes} {offsets : List (ℕ × ℕ)} {more : List Bytes}

theorem objectIdFrom_ok {id : Text} (h : IsObjectId id) : objectIdFrom id = .ok id :=
  if_pos ⟨h.length_eq, all_eq_true.mpr h.digits⟩

theorem parseTreeLine_written {tree : Text} (htree : IsObjectId tree)
    (hshows : List.Forall₂ (ShowsLine bytes) offsets (encode (treeKeyword ++ tree) :: more)) :
    ∃ rest, parseTreeLine bytes offsets = .ok (tree, rest) ∧
      List.Forall₂ (ShowsLine bytes) rest more := by
  cases hshows with
  | @cons line _ rest _ hline hrest =>
    have hascii : IsAscii treeKeyword := by decide
    refine ⟨rest, ?_, hrest⟩
    rw [parseTreeLine, lineStartsWithAscii_keyword hascii hline, if_neg (not_not_intro rfl),
      decodeLineValue_keyword hascii hline, objectIdFrom_ok htree]
    rfl

theorem parseParents_written {parents : List Text} (hparents : ∀ id ∈ parents, IsObjectId id)
    {text : Text} (hshows : List.Forall₂ (ShowsLine bytes) offsets
      (parents.map (fun id => encode (parentKeyword ++ id)) ++ encode ('a' :: text) :: more)) :
    ∃ rest, parseParents bytes offsets = .ok (parents, rest) ∧
      List.Forall₂ (ShowsLine bytes) rest (encode ('a' :: text) :: more) := by
  induction parents generalizing offsets with
  | nil =>
    rw [map_nil, nil_append] at hshows
    cases hshows with
    | @cons line _ rest _ hline hrest =>
      refine ⟨line :: rest, ?_, .cons hline hrest⟩
      have hother : lineStartsWithAscii bytes line parentKeyword = false :=
        lineStartsWithAscii_other (by decide) (by decide) hline
      rw [parseParents, hother]
      rfl
  | cons parent parents ih =>
    rw [map_cons, cons_append] at hshows
    cases hshows with
    | @cons line _ rest _ hline hrest =>
      have hascii : IsAscii parentKeyword := by decide
      obtain ⟨behind, hbehind, hshows⟩ :=
        ih (forall_mem_cons.mp hparents).2 hrest
      refine ⟨behind, ?_, hshows⟩
      rw [parseParents, lineStartsWithAscii_keyword hascii hline, if_pos rfl,
        decodeLineValue_keyword hascii hline, objectIdFrom_ok (hparents _ mem_cons_self),
        hbehind]
      rfl

theorem parseIdentityLine_written {keyword line : Text} {identity : AuthorIdentity}
    (hascii : IsAscii keyword) (missing : String) (hparse : parseIdentity line = .ok identity)
    (hshows : List.Forall₂ (ShowsLine bytes) offsets (encode (keyword ++ line) :: more)) :
    ∃ rest, parseIdentityLine bytes keyword missing offsets = .ok (identity, rest) ∧
      List.Forall₂ (ShowsLine bytes) rest more := by
  cases hshows with
  | @cons first _ rest _ hline hrest =>
    refine ⟨rest, ?_, hrest⟩
    rw [parseIdentityLine, lineStartsWithAscii_keyword hascii hline, if_neg (not_not_intro rfl),
      decodeLineValue_keyword hascii hline, hparse]
    rfl

theorem decodeLines_written {texts : List Text}
    (hshows : List.Forall₂ (ShowsLine bytes) offsets (texts.map encode)) :
    (offsets.map fun line => decodePreservingBom (subarray bytes line.1 line.2)) = texts := by
  induction texts generalizing offsets with
  | nil =>
    cases hshows with
    | nil => rfl
  | cons text texts ih =>
    rw [map_cons] at hshows
    cases hshows with
    | @cons line _ rest _ hline hrest =>
      rw [map_cons, hline.held, decodePreservingBom_encode, ih hrest]

end

/-! ### The optional headers -/

section

variable {onInvalidKey onDuplicateGpgsig : String → Thrown}

def headerLines (headers : List ExtraHeader) : List Text :=
  headers.flatMap fun header => foldedLines header.key header.value

theorem isContinuation_of_key {key : Text} (hkey : IsKey key) (value : Text) :
    isContinuation (key ++ ' ' :: value) = false := by
  obtain ⟨c, rest, rfl⟩ := exists_cons_of_ne_nil hkey.ne_nil
  refine decide_eq_false fun heq => hkey.solid ?_
  rw [← Option.some.inj heq]
  exact mem_cons_self

theorem not_continuation_headerLines {headers : List ExtraHeader} {more : List Text}
    (hkeys : ∀ header ∈ headers, IsKey header.key)
    (hmore : ∀ line, more.head? = some line → isContinuation line = false) :
    ∀ line, (headerLines headers ++ more).head? = some line → isContinuation line = false := by
  intro line hline
  cases headers with
  | nil => exact hmore line hline
  | cons header headers =>
    rw [headerLines, flatMap_cons, foldedLines] at hline
    obtain rfl := Option.some.inj hline
    exact isContinuation_of_key (hkeys _ mem_cons_self) _

/-- **Headers that are not the signature** are read in order. -/
theorem parseOptionalHeaders_headerLines {headers : List ExtraHeader} {more : List Text}
    (hkeys : ∀ header ∈ headers, IsKey header.key)
    (hother : ∀ header ∈ headers, header.key ≠ gpgsigKey)
    (hmore : ∀ line, more.head? = some line → isContinuation line = false)
    (read : OptionalHeaders) :
    parseOptionalHeaders onInvalidKey onDuplicateGpgsig read (headerLines headers ++ more) =
      parseOptionalHeaders onInvalidKey onDuplicateGpgsig
        { read with extraHeaders := read.extraHeaders ++ headers } more := by
  induction headers generalizing read with
  | nil => rw [headerLines, flatMap_nil, append_nil, nil_append]
  | cons header headers ih =>
    have hkeys' : ∀ other ∈ headers, IsKey other.key := fun other hmem =>
      hkeys other (mem_cons_of_mem _ hmem)
    have hlines : headerLines (header :: headers) ++ more =
        foldedLines header.key header.value ++ (headerLines headers ++ more) := by
      rw [headerLines, flatMap_cons, append_assoc]
      rfl
    rw [hlines, parseOptionalHeaders_cons (hkeys _ mem_cons_self)
        (not_continuation_headerLines hkeys' hmore), if_neg (hother _ mem_cons_self),
      ih hkeys' (forall_mem_cons.mp hother).2]
    dsimp only
    rw [append_assoc]
    rfl

def signatureLines : Option Text → List Text
  | none => []
  | some gpgSignature => foldedLines gpgsigKey gpgSignature

theorem isKey_gpgsigKey : IsKey gpgsigKey := ⟨by decide, by decide, by decide⟩

theorem not_continuation_signatureLines (signature : Option Text) :
    ∀ line, (signatureLines signature).head? = some line → isContinuation line = false := by
  intro line hline
  cases signature with
  | none => cases hline
  | some gpgSignature =>
    obtain rfl := Option.some.inj hline
    exact isContinuation_of_key isKey_gpgsigKey _

theorem parseOptionalHeaderBlock_written {headers : List ExtraHeader}
    (hkeys : ∀ header ∈ headers, IsKey header.key)
    (hother : ∀ header ∈ headers, header.key ≠ gpgsigKey) (signature : Option Text) :
    parseOptionalHeaderBlock (headerLines headers ++ signatureLines signature) onInvalidKey
      onDuplicateGpgsig = .ok ⟨signature, headers⟩ := by
  rw [parseOptionalHeaderBlock, parseOptionalHeaders_headerLines hkeys hother
    (not_continuation_signatureLines signature)]
  cases signature with
  | none =>
    rw [signatureLines, parseOptionalHeaders]
    rfl
  | some gpgSignature =>
    have hend : ∀ line, ([] : List Text).head? = some line → isContinuation line = false :=
      fun line hline => by cases hline
    rw [signatureLines, ← append_nil (foldedLines _ _),
      parseOptionalHeaders_cons isKey_gpgsigKey hend, if_pos rfl]
    refine (if_neg Bool.false_ne_true).trans ?_
    rw [parseOptionalHeaders]
    rfl

end

/-! ### The writer -/

section

variable {data : CommitData} {lines : List Text}

def writtenLines (data : CommitData) (author committer : Text) : List Text :=
  (treeKeyword ++ data.tree) :: (data.parents.map (parentKeyword ++ ·) ++
    (authorKeyword ++ author) :: (committerKeyword ++ committer) ::
      (headerLines data.extraHeaders ++ signatureLines data.gpgSignature))

theorem formatHeaders_ok {headers : List ExtraHeader} {texts : List Text}
    (h : headers.mapM formatHeader = .ok texts) :
    (∀ header ∈ headers, IsKey header.key) ∧
      texts = headers.map fun header => joinLines (foldedLines header.key header.value) := by
  induction headers generalizing texts with
  | nil =>
    cases h
    exact ⟨forall_mem_nil _, rfl⟩
  | cons header headers ih =>
    rw [mapM_cons] at h
    obtain ⟨text, htext, h⟩ := bind_eq_ok.mp h
    obtain ⟨rest, hrest, h⟩ := bind_eq_ok.mp h
    cases h
    obtain ⟨hkey, rfl⟩ := formatContinuationHeader_ok htext
    obtain ⟨hkeys, rfl⟩ := ih hrest
    exact ⟨forall_mem_cons.mpr ⟨hkey, hkeys⟩, rfl⟩

theorem formatSignature_ok {signature : Option Text} {texts : List Text}
    (h : formatSignature signature = .ok texts) :
    ∃ groups : List (List Text), (∀ group ∈ groups, group ≠ []) ∧ texts = groups.map joinLines ∧
      groups.flatten = signatureLines signature := by
  cases signature with
  | none =>
    cases h
    exact ⟨[], forall_mem_nil _, rfl, rfl⟩
  | some gpgSignature =>
    obtain ⟨line, hline, h⟩ := bind_eq_ok.mp h
    cases h
    obtain ⟨-, rfl⟩ := formatContinuationHeader_ok hline
    refine ⟨[foldedLines gpgsigKey gpgSignature], fun group hgroup => ?_, rfl, append_nil _⟩
    rw [mem_singleton.mp hgroup]
    exact cons_ne_nil _ _

theorem map_joinLines_singletons (texts : List Text) :
    (texts.map fun text => [text]).map joinLines = texts := by
  have hself : ∀ text : Text, joinLines [text] = text := fun _ => intercalate_singleton
  rw [map_map]
  exact (map_congr_left fun text _ => hself text).trans (map_id texts)

theorem flatten_singletons (texts : List Text) : (texts.map fun text => [text]).flatten = texts := by
  induction texts with
  | nil => rfl
  | cons text texts ih =>
    rw [map_cons, flatten_cons, ih]
    rfl

/-- **What the writer writes**, if it accepts the commit. -/
theorem commitHeaderLines_ok (h : commitHeaderLines data = .ok lines) :
    ∃ author committer, serializeIdentity data.author = .ok author ∧
      serializeIdentity data.committer = .ok committer ∧
      (∀ header ∈ data.extraHeaders, IsKey header.key) ∧
      joinLines lines = joinLines (writtenLines data author committer) := by
  unfold commitHeaderLines at h
  obtain ⟨author, hauthor, h⟩ := bind_eq_ok.mp h
  obtain ⟨committer, hcommitter, h⟩ := bind_eq_ok.mp h
  obtain ⟨texts, htexts, h⟩ := bind_eq_ok.mp h
  obtain ⟨signature, hsignature, h⟩ := bind_eq_ok.mp h
  cases h
  obtain ⟨hkeys, rfl⟩ := formatHeaders_ok htexts
  obtain ⟨groups, hgroups, rfl, hflat⟩ := formatSignature_ok hsignature
  refine ⟨author, committer, hauthor, hcommitter, hkeys, ?_⟩
  -- Each text is the join of a group of lines; the identities and ids are groups of one.
  let singles := (treeKeyword ++ data.tree) :: (data.parents.map (parentKeyword ++ ·) ++
    [authorKeyword ++ author, committerKeyword ++ committer])
  let folded := data.extraHeaders.map fun header => foldedLines header.key header.value
  have hne : ∀ group ∈ (singles.map fun text => [text]) ++ (folded ++ groups), group ≠ [] := by
    intro group hgroup
    rcases mem_append.mp hgroup with hsingle | hrest
    · obtain ⟨text, -, rfl⟩ := mem_map.mp hsingle
      exact cons_ne_nil _ _
    · rcases mem_append.mp hrest with hfolded | hsignature'
      · obtain ⟨header, -, rfl⟩ := mem_map.mp hfolded
        exact cons_ne_nil _ _
      · exact hgroups group hsignature'
  have hjoin := @intercalate_flatten _ '\n' _ hne
  have hlines : ((singles.map fun text => [text]) ++ (folded ++ groups)).map joinLines =
      (treeKeyword ++ data.tree) :: (data.parents.map (parentKeyword ++ ·) ++
        (authorKeyword ++ author) :: (committerKeyword ++ committer) ::
          ((data.extraHeaders.map fun header => joinLines (foldedLines header.key header.value)) ++
            groups.map joinLines)) := by
    rw [map_append, map_joinLines_singletons, map_append, map_map]
    simp only [singles, cons_append, append_assoc, nil_append]
    rfl
  have hflatten : ((singles.map fun text => [text]) ++ (folded ++ groups)).flatten =
      writtenLines data author committer := by
    rw [flatten_append, flatten_singletons, flatten_append, hflat]
    simp only [singles, writtenLines, cons_append, append_assoc, nil_append]
    rfl
  rw [← hlines, ← hflatten]
  exact hjoin

end

/-! ### The round trip -/

section

variable {commit : Commit} {bytes : Bytes}

theorem writtenLines_isLine {data : CommitData} {author committer : Text}
    (htree : IsObjectId data.tree) (hparents : ∀ id ∈ data.parents, IsObjectId id)
    (hauthor : '\n' ∉ author) (hcommitter : '\n' ∉ committer)
    (hkeys : ∀ header ∈ data.extraHeaders, IsKey header.key) :
    ∀ line ∈ (writtenLines data author committer).map encode, IsLine line := by
  have hid : ∀ {id : Text}, IsObjectId id → '\n' ∉ id := fun h hmem => by
    cases h.digits _ hmem
  have hbehind : ∀ {keyword value : Text}, keyword ≠ [] → '\n' ∉ keyword → '\n' ∉ value →
      IsLine (encode (keyword ++ value)) := fun hne hkeyword hvalue =>
    isLine_encode (append_ne_nil_of_left_ne_nil hne _)
      (not_mem_append hkeyword hvalue)
  intro line hline
  obtain ⟨text, htext, rfl⟩ := mem_map.mp hline
  rcases mem_cons.mp htext with rfl | hrest
  · exact hbehind (cons_ne_nil _ _) (by decide) (hid htree)
  rcases mem_append.mp hrest with hparent | hrest
  · obtain ⟨id, hmem, rfl⟩ := mem_map.mp hparent
    exact hbehind (cons_ne_nil _ _) (by decide) (hid (hparents id hmem))
  rcases mem_cons.mp hrest with rfl | hrest
  · exact hbehind (cons_ne_nil _ _) (by decide) hauthor
  rcases mem_cons.mp hrest with rfl | hrest
  · exact hbehind (cons_ne_nil _ _) (by decide) hcommitter
  rcases mem_append.mp hrest with hheader | hsignature
  · obtain ⟨header, hmem, hfolded⟩ := mem_flatMap.mp hheader
    obtain ⟨hne, hsingle⟩ := foldedLines_single (hkeys header hmem) hfolded
    exact isLine_encode hne hsingle
  cases hsome : data.gpgSignature with
  | none =>
    rw [hsome] at hsignature
    cases hsignature
  | some gpgSignature =>
    rw [hsome] at hsignature
    obtain ⟨hne, hsingle⟩ := foldedLines_single isKey_gpgsigKey hsignature
    exact isLine_encode hne hsingle

/-- **The reader** on what was written: the signature is apart from the other headers. -/
theorem parseCommitContent_written (h : serializeCommitContent commit = .ok bytes)
    (htree : IsObjectId commit.data.tree) (hparents : ∀ id ∈ commit.data.parents, IsObjectId id)
    (hauthor : |commit.data.author.timestamp| ≤ maxSafeInteger)
    (hcommitter : |commit.data.committer.timestamp| ≤ maxSafeInteger)
    (hother : ∀ header ∈ commit.data.extraHeaders, header.key ≠ gpgsigKey) :
    parseCommitContent commit.id bytes = .ok commit := by
  obtain ⟨id, data⟩ := commit
  obtain ⟨lines, hlines, hbytes⟩ := bind_eq_ok.mp h
  cases hbytes
  obtain ⟨author, committer, hauthorLine, hcommitterLine, hkeys, hjoin⟩ :=
    commitHeaderLines_ok hlines
  have hsingle := writtenLines_isLine htree hparents (serializeIdentity_single hauthorLine)
    (serializeIdentity_single hcommitterLine) hkeys
  have hne : (writtenLines data author committer).map encode ≠ [] := cons_ne_nil _ _
  obtain ⟨header, hheader⟩ : ∃ header,
      header = [newline].intercalate ((writtenLines data author committer).map encode) := ⟨_, rfl⟩
  have hcontent : encode (joinLines lines ++ '\n' :: '\n' :: data.message) =
      header ++ newline :: newline :: encode data.message := by
    rw [encode_append, hjoin, encode_joinLines, hheader]
    rfl
  have hblank : findBlankLine (header ++ newline :: newline :: encode data.message) =
      some header.length := by
    have hfind := @findBlankLine_joined [] (encode data.message) _ hne hsingle
    rw [nil_append, length_nil, Nat.zero_add, ← hheader] at hfind
    exact hfind
  have hmessage : messageAfter (header ++ newline :: newline :: encode data.message)
      (some header.length) = data.message := by
    rw [messageAfter, ← drop_drop, drop_left]
    exact decodePreservingBom_encode data.message
  have hblock : headerBlock (header ++ newline :: newline :: encode data.message)
      (some header.length) = header := take_left
  have hshows : List.Forall₂ (ShowsLine header) (splitByteLines header)
      ((writtenLines data author committer).map encode) := by
    have hsplit := @splitByteLines_joined [] _ hne fun line hline => (hsingle line hline).single
    rw [nil_append, ← hheader] at hsplit
    exact hsplit
  obtain ⟨afterTree, htreeLine, hshows⟩ := parseTreeLine_written htree hshows
  rw [map_append, map_map] at hshows
  obtain ⟨afterParents, hparentLines, hshows⟩ := parseParents_written hparents hshows
  have hauthorAscii : IsAscii authorKeyword := by decide
  have hcommitterAscii : IsAscii committerKeyword := by decide
  obtain ⟨afterAuthor, hauthorParse, hshows⟩ := parseIdentityLine_written hauthorAscii
    "missing author" (parseIdentity_serializeIdentity hauthorLine hauthor) hshows
  obtain ⟨afterCommitter, hcommitterParse, hshows⟩ := parseIdentityLine_written hcommitterAscii
    "missing committer" (parseIdentity_serializeIdentity hcommitterLine hcommitter) hshows
  have htexts := decodeLines_written hshows
  have hheaders := @parseOptionalHeaderBlock_written invalidCommit invalidCommit _ hkeys hother
    data.gpgSignature
  dsimp only
  unfold parseCommitContent
  dsimp only
  rw [hcontent, hblank, hblock, hmessage, htreeLine]
  dsimp only [bind, Except.bind]
  rw [hparentLines]
  dsimp only
  rw [hauthorParse]
  dsimp only
  rw [hcommitterParse]
  dsimp only
  rw [htexts, hheaders]
  rfl

end

/-- **Commits round trip**, where no extra header has the key of the signature. -/
theorem commit_roundTrips (commit : Commit) (bytes : Bytes)
    (h : serializeCommitContent commit = .ok bytes) (htree : IsObjectId commit.data.tree)
    (hparents : ∀ id ∈ commit.data.parents, IsObjectId id)
    (hauthor : |commit.data.author.timestamp| ≤ maxSafeInteger)
    (hcommitter : |commit.data.committer.timestamp| ≤ maxSafeInteger)
    (hother : ∀ header ∈ commit.data.extraHeaders, header.key ≠ gpgsigKey) :
    parseCommitContent commit.id bytes = .ok commit :=
  parseCommitContent_written h htree hparents hauthor hcommitter hother

/-- Somebody, somewhen. -/
def somebody : AuthorIdentity := ⟨['A', ' ', 'B'], ['a', '@', 'b'], -60, ['+', '0', '1', '0', '0']⟩

/-- A commit with a signature of two lines, and a message that begins with a blank line. -/
def signedCommit : Commit where
  id := []
  data :=
    { tree := replicate 40 'a'
      parents := [replicate 40 'b']
      author := somebody
      committer := somebody
      message := ['\n', 'é']
      gpgSignature := some ['x', '\n']
      extraHeaders := [⟨['k'], ['\n', '\n', 'v']⟩] }

theorem commit_roundTrips_signed : ∃ bytes, serializeCommitContent signedCommit = .ok bytes ∧
    parseCommitContent signedCommit.id bytes = .ok signedCommit :=
  ⟨_, rfl, commit_roundTrips signedCommit _ rfl (isObjectId_replicate (by decide))
    (forall_mem_singleton.mpr (isObjectId_replicate (by decide))) (by decide) (by decide)
    (by decide)⟩

def headedCommit (signature : Option Text) (headers : List ExtraHeader) : Commit where
  id := []
  data :=
    { tree := replicate 40 'a'
      parents := []
      author := somebody
      committer := somebody
      message := []
      gpgSignature := signature
      extraHeaders := headers }

/-- An extra header with the key of the signature is read as the signature. -/
theorem commit_gpgsigHeader_isSignature :
    ∃ commit bytes, serializeCommitContent commit = .ok bytes ∧ IsObjectId commit.data.tree ∧
      (∀ id ∈ commit.data.parents, IsObjectId id) ∧
      |commit.data.author.timestamp| ≤ maxSafeInteger ∧
      |commit.data.committer.timestamp| ≤ maxSafeInteger ∧
      (∀ header ∈ commit.data.extraHeaders, IsKey header.key) ∧
      parseCommitContent commit.id bytes ≠ .ok commit := by
  have htree : IsObjectId (replicate 40 'a') := isObjectId_replicate (by decide)
  have hnone : ∀ id ∈ ([] : List Text), IsObjectId id := fun _ hmem =>
    absurd hmem not_mem_nil
  refine ⟨headedCommit none [⟨gpgsigKey, ['x']⟩], _, rfl, htree, hnone, by decide, by decide,
    forall_mem_singleton.mpr isKey_gpgsigKey, ?_⟩
  have hread := @parseCommitContent_written (headedCommit (some ['x']) []) _ rfl htree hnone
    (by decide) (by decide) (by decide)
  intro hsame
  cases hsame.symm.trans hread

end Tsgit
