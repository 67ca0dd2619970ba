import Tsgit.CommitRoundTrip
import Tsgit.Outcome
import Tsgit.Tag

/-!
# Tags, Written and Read

A tag that is written is read back, but for where its body is taken apart: the reader looks for
the first armor that reaches to the end, wherever the writer put the signature.
-/

namespace Tsgit

open List

/-! ### The blank line -/

section

variable {line body : Text} {lines : List Text}

theorem splitHeaderAndMessage_newline {rest : Text} (h : rest.head? ≠ some '\n') :
    splitHeaderAndMessage ('\n' :: rest) =
      ('\n' :: (splitHeaderAndMessage rest).1, (splitHeaderAndMessage rest).2) := by
  rw [splitHeaderAndMessage, if_neg fun hblank => h hblank.2]

theorem splitHeaderAndMessage_append (hline : '\n' ∉ line) (rest : Text) :
    splitHeaderAndMessage (line ++ rest) =
      (line ++ (splitHeaderAndMessage rest).1, (splitHeaderAndMessage rest).2) := by
  induction line with
  | nil => rfl
  | cons c line ih =>
    have hc : c ≠ '\n' := fun heq => hline (heq ▸ mem_cons_self)
    have ih' := ih fun hmem => hline (mem_cons_of_mem _ hmem)
    rw [cons_append, splitHeaderAndMessage, if_neg fun hblank => hc hblank.1, ih']
    rfl

theorem splitHeaderAndMessage_joined (hne : lines ≠ [])
    (hlines : ∀ line ∈ lines, line ≠ [] ∧ '\n' ∉ line) (body : Text) :
    splitHeaderAndMessage (joinLines lines ++ '\n' :: '\n' :: body) = (joinLines lines, body) := by
  induction lines with
  | nil => exact absurd rfl hne
  | cons line lines ih =>
    obtain ⟨-, hsingle⟩ := hlines line mem_cons_self
    cases lines with
    | nil =>
      have hblank : splitHeaderAndMessage ('\n' :: '\n' :: body) = ([], body) :=
        if_pos ⟨rfl, rfl⟩
      rw [joinLines, intercalate_singleton, splitHeaderAndMessage_append hsingle, hblank,
        append_nil]
    | cons next lines =>
      have hrest := ih (cons_ne_nil _ _) fun other hmem =>
        hlines other (mem_cons_of_mem _ hmem)
      have hjoin : joinLines (line :: next :: lines) =
          line ++ '\n' :: joinLines (next :: lines) := by
        rw [joinLines, intercalate_cons_of_ne_nil (cons_ne_nil _ _), append_assoc]
        rfl
      have hhead : (joinLines (next :: lines) ++ '\n' :: '\n' :: body).head? ≠ some '\n' := by
        obtain ⟨hnonempty, hfree⟩ := hlines next (mem_cons_of_mem _ mem_cons_self)
        obtain ⟨c, more, rfl⟩ := exists_cons_of_ne_nil hnonempty
        have hstart : (joinLines ((c :: more) :: lines)).head? = some c := by
          cases lines with
          | nil => rfl
          | cons other lines =>
            rw [joinLines, intercalate_cons_of_ne_nil (cons_ne_nil _ _)]
            rfl
        obtain ⟨tail, htail⟩ := head?_eq_some_iff.mp hstart
        rw [htail]
        intro heq
        have hc : c = '\n' := Option.some.inj heq
        exact hfree (hc ▸ mem_cons_self)
      rw [hjoin, append_assoc, splitHeaderAndMessage_append hsingle, cons_append,
        splitHeaderAndMessage_newline hhead, hrest]

end

/-! ### The signature -/

theorem isArmor_nil : isArmor [] = false := by decide

theorem armorIndex_eq_none {text : Text} : armorIndex text = none ↔
    ∀ i, isArmor (text.drop i) = false := by
  induction text with
  | nil => exact ⟨fun _ i => by rw [drop_nil, isArmor_nil], fun _ => rfl⟩
  | cons c rest ih =>
    rw [armorIndex]
    constructor
    · intro h i
      split at h
      · cases h
      · next hnot =>
        cases i with
        | zero => exact Bool.eq_false_iff.mpr hnot
        | succ i => exact ih.mp (Option.map_eq_none_iff.mp h) i
    · intro h
      have hhere : ¬ isArmor (c :: rest) = true := Bool.eq_false_iff.mp (h 0)
      rw [if_neg hhere, Option.map_eq_none_iff]
      exact ih.mpr fun i => h (i + 1)

theorem armorIndex_eq_some {text : Text} {index : ℕ} : armorIndex text = some index ↔
    isArmor (text.drop index) = true ∧ ∀ i < index, isArmor (text.drop i) = false := by
  induction text generalizing index with
  | nil =>
    constructor
    · intro h
      cases h
    · rintro ⟨h, -⟩
      rw [drop_nil, isArmor_nil] at h
      cases h
  | cons c rest ih =>
    rw [armorIndex]
    cases index with
    | zero =>
      constructor
      · intro h
        split at h
        · next harmor => exact ⟨harmor, fun i hi => absurd hi (Nat.not_lt_zero i)⟩
        · obtain ⟨k, -, hk⟩ := Option.map_eq_some_iff.mp h
          cases hk
      · rintro ⟨harmor, -⟩
        exact if_pos harmor
    | succ index =>
      constructor
      · intro h
        split at h
        · cases h
        · next hnot =>
          obtain ⟨k, hrest, hk⟩ := Option.map_eq_some_iff.mp h
          obtain rfl := Nat.succ.inj hk
          obtain ⟨harmor, hfirst⟩ := ih.mp hrest
          refine ⟨harmor, fun i hi => ?_⟩
          cases i with
          | zero => exact Bool.eq_false_iff.mpr hnot
          | succ i => exact hfirst i (Nat.lt_of_succ_lt_succ hi)
      · rintro ⟨harmor, hfirst⟩
        have hhere : ¬ isArmor (c :: rest) = true :=
          Bool.eq_false_iff.mp (hfirst 0 (Nat.succ_pos _))
        rw [if_neg hhere, ih.mpr ⟨harmor, fun i hi => hfirst (i + 1) (Nat.succ_lt_succ hi)⟩]
        rfl

/-- Nothing of the text is lost. -/
theorem peelTagSignature_append (rawMessage : Text) :
    (peelTagSignature rawMessage).1 ++ (peelTagSignature rawMessage).2.getD [] = rawMessage := by
  unfold peelTagSignature
  split
  · exact append_nil _
  · exact take_append_drop _ _

/-- The signature is an armor, and nothing that starts in the message is one. -/
def TagData.SplitsAtSignature (data : TagData) : Prop :=
  match data.gpgSignature with
  | none => ∀ i, isArmor (data.message.drop i) = false
  | some gpgSignature => isArmor gpgSignature = true ∧
      ∀ i < data.message.length, isArmor (data.body.drop i) = false

theorem peelTagSignature_body {data : TagData} :
    peelTagSignature data.body = (data.message, data.gpgSignature) ↔ data.SplitsAtSignature := by
  obtain ⟨object, objectType, tagName, tagger, message, gpgSignature, extraHeaders⟩ := data
  cases gpgSignature with
  | none =>
    have hbody : (message ++ [] : Text) = message := append_nil _
    simp only [TagData.body, TagData.SplitsAtSignature, Option.getD_none, hbody,
      ← armorIndex_eq_none]
    unfold peelTagSignature
    constructor
    · intro h
      split at h
      · assumption
      · cases congrArg Prod.snd h
    · intro h
      rw [h]
  | some signature =>
    have hiff := @armorIndex_eq_some (message ++ signature) message.length
    rw [drop_left] at hiff
    simp only [TagData.body, TagData.SplitsAtSignature, Option.getD_some, ← hiff]
    unfold peelTagSignature
    constructor
    · intro h
      split at h
      · cases congrArg Prod.snd h
      · next index hindex =>
        rw [Prod.mk.injEq] at h
        have hlength := congrArg length h.1
        have hle : index ≤ (message ++ signature).length := by
          by_contra hnot
          have harmor := (armorIndex_eq_some.mp hindex).1
          rw [drop_of_length_le (by omega), isArmor_nil] at harmor
          cases harmor
        rw [length_take, Nat.min_eq_left hle] at hlength
        rw [hindex, hlength]
    · intro h
      rw [h]
      dsimp only
      rw [take_left, drop_left]

/-! ### The lines -/

theorem objectTypeOf_text (type : ObjectType) : objectTypeOf (objectTypeText type) = some type := by
  cases type <;> decide

theorem afterKeyword_append (keyword : Text) (missing : String) (value : Text) (rest : List Text) :
    afterKeyword keyword missing ((keyword ++ value) :: rest) = .ok (value, rest) := by
  have hstarts : keyword.isPrefixOf (keyword ++ value) = true :=
    isPrefixOf_iff_prefix.mpr (prefix_append _ _)
  rw [afterKeyword, if_pos hstarts, drop_left]

theorem afterKeyword_ok {keyword : Text} {missing : String} {lines rest : List Text} {value : Text}
    (h : afterKeyword keyword missing lines = .ok (value, rest)) :
    lines = (keyword ++ value) :: rest := by
  cases lines with
  | nil => cases h
  | cons line lines =>
    rw [afterKeyword] at h
    split at h
    · next hstarts =>
      cases h
      obtain ⟨value, rfl⟩ := isPrefixOf_iff_prefix.mp hstarts
      rw [drop_left]
    · cases h

theorem key_eq_tagger {key value : Text} (hkey : ' ' ∉ key)
    (h : taggerKeyword.isPrefixOf (key ++ ' ' :: value) = true) : key = taggerKey := by
  obtain ⟨rest, hrest⟩ := isPrefixOf_iff_prefix.mp h
  have htagger : taggerKeyword ++ rest = taggerKey ++ ' ' :: rest := append_assoc _ _ _
  have hline := congrArg ExtraHeader.key ((congrArg parseHeaderLine
    (htagger.symm.trans hrest)).symm.trans (parseHeaderLine_key (by decide) rest))
  rwa [parseHeaderLine_key hkey] at hline

/-- **Headers are read in order.** -/
theorem parseTagOptionalHeaders_headerLines {headers : List ExtraHeader}
    (hkeys : ∀ header ∈ headers, IsKey header.key) :
    parseTagOptionalHeaders (headerLines headers) = .ok headers := by
  induction headers with
  | nil =>
    rw [headerLines, flatMap_nil, parseTagOptionalHeaders]
  | cons header headers ih =>
    have hkey := hkeys header mem_cons_self
    have hkeys' : ∀ other ∈ headers, IsKey other.key := fun other hmem =>
      hkeys other (mem_cons_of_mem _ hmem)
    obtain ⟨first, parts, hparts⟩ :=
      exists_cons_of_ne_nil (splitOn_ne_nil '\n' header.value)
    have hvalue : joinLines (first :: parts) = header.value := by
      rw [← hparts]
      exact intercalate_splitOn '\n'
    have hunfold : (parts.map (' ' :: ·)).map (drop 1) = parts := by
      rw [map_map]
      exact map_id parts
    have hmore := @not_continuation_headerLines headers [] hkeys' fun _ hline => by cases hline
    rw [append_nil] at hmore
    obtain ⟨htake, hdrop⟩ := @continued_folded (headerLines headers) parts hmore
    have hlines : headerLines (header :: headers) =
        (header.key ++ ' ' :: first) :: (parts.map (' ' :: ·) ++ headerLines headers) := by
      rw [headerLines, flatMap_cons, foldedLines, hparts]
      rfl
    rw [hlines, parseTagOptionalHeaders, parseHeaderLine_key hkey.solid]
    dsimp only
    rw [if_neg hkey.ne_nil, htake, hdrop, hunfold, hvalue, ok_bind_eq (ih hkeys')]
    rfl

theorem parseHeaderLine_isKey {line : Text} (hline : '\n' ∉ line)
    (h : (parseHeaderLine line).key ≠ []) : IsKey (parseHeaderLine line).key := by
  refine ⟨h, ?_, ?_⟩
  · intro hmem
    rw [parseHeaderLine] at hmem
    split at hmem
    · exact hline hmem
    · exact hline (mem_of_mem_take hmem)
  · intro hmem
    rw [parseHeaderLine] at hmem
    split at hmem
    · next hnone =>
      have := findIdx?_eq_none_iff.mp hnone ' ' hmem
      cases this
    · next spaceIdx hspace =>
      obtain ⟨i, hi⟩ := mem_iff_getElem?.mp hmem
      have hlt : i < spaceIdx := by
        have := (List.getElem?_eq_some_iff.mp hi).1
        rw [length_take] at this
        omega
      rw [getElem?_take_of_lt hlt] at hi
      obtain ⟨hinside, hget⟩ := List.getElem?_eq_some_iff.mp hi
      obtain ⟨_, _, hbefore⟩ := findIdx?_eq_some_iff_getElem.mp hspace
      exact hbefore i hlt (decide_eq_true hget)

theorem parseTagOptionalHeaders_isKey {lines : List Text} {headers : List ExtraHeader}
    (hlines : ∀ line ∈ lines, '\n' ∉ line) (h : parseTagOptionalHeaders lines = .ok headers) :
    ∀ header ∈ headers, IsKey header.key := by
  induction hn : lines.length using Nat.strongRecOn generalizing lines headers with
  | ind n ih =>
    subst hn
    cases lines with
    | nil =>
      rw [parseTagOptionalHeaders] at h
      cases h
      exact fun header hmem => absurd hmem not_mem_nil
    | cons line rest =>
      rw [parseTagOptionalHeaders] at h
      dsimp only at h
      split at h
      · cases h
      · next hkey =>
        obtain ⟨more, hmore, h⟩ := bind_eq_ok.mp h
        cases h
        have hsub := (dropWhile_sublist isContinuation : List.Sublist _ rest)
        have hlength := hsub.length_le
        refine forall_mem_cons.mpr ⟨?_, ih _ ?_ ?_ hmore rfl⟩
        · exact parseHeaderLine_isKey (hlines line mem_cons_self) hkey
        · rw [length_cons]
          omega
        · exact fun other hmem => hlines other (mem_cons_of_mem _ (hsub.subset hmem))

/-! ### The writer -/

section

variable {data : TagData} {lines : List Text}

def taggerLines : Option Text → List Text
  | none => []
  | some line => [taggerKeyword ++ line]

def WritesTagger (tagger : Option AuthorIdentity) (line : Option Text) : Prop :=
  match tagger, line with
  | none, none => True
  | some tagger, some line => serializeIdentity tagger = .ok line
  | _, _ => False

theorem formatTagger_ok {tagger : Option AuthorIdentity} {texts : List Text}
    (h : formatTagger tagger = .ok texts) :
    ∃ line, WritesTagger tagger line ∧ texts = taggerLines line := by
  cases tagger with
  | none =>
    cases h
    exact ⟨none, trivial, rfl⟩
  | some tagger =>
    obtain ⟨line, hline, h⟩ := bind_eq_ok.mp h
    cases h
    exact ⟨some line, hline, rfl⟩

def writtenTagLines (data : TagData) (tagger : Option Text) : List Text :=
  (objectKeyword ++ data.object) :: (typeKeyword ++ objectTypeText data.objectType) ::
    (tagKeyword ++ data.tagName) :: (taggerLines tagger ++ headerLines data.extraHeaders)

/-- **What the writer writes**, if it accepts the tag. -/
theorem tagHeaderLines_ok (h : tagHeaderLines data = .ok lines) :
    isInvalidTagName data.tagName = false ∧ (∀ header ∈ data.extraHeaders, IsKey header.key) ∧
      ∃ tagger, WritesTagger data.tagger tagger ∧
        joinLines lines = joinLines (writtenTagLines data tagger) := by
  unfold tagHeaderLines at h
  split at h
  · cases h
  · next hname =>
    obtain ⟨texts, htexts, h⟩ := bind_eq_ok.mp h
    obtain ⟨headers, hheaders, h⟩ := bind_eq_ok.mp h
    cases h
    obtain ⟨tagger, htagger, rfl⟩ := formatTagger_ok htexts
    obtain ⟨hkeys, rfl⟩ := formatHeaders_ok hheaders
    refine ⟨Bool.eq_false_iff.mpr hname, hkeys, tagger, htagger, ?_⟩
    -- Each header is a group of lines, and each other line is a group of its own.
    have hgroups := @intercalate_flatten Char '\n'
      ([[objectKeyword ++ data.object], [typeKeyword ++ objectTypeText data.objectType],
        [tagKeyword ++ data.tagName]] ++ ((taggerLines tagger).map ([·]) ++
          data.extraHeaders.map fun header => foldedLines header.key header.value)) (by
      intro group hgroup
      simp only [mem_append, mem_cons, mem_map, not_mem_nil, or_false] at hgroup
      rcases hgroup with (rfl | rfl | rfl) | ⟨line, -, rfl⟩ | ⟨header, -, rfl⟩
      all_goals exact cons_ne_nil _ _)
    have htaggers : ((taggerLines tagger).map ([·])).map joinLines = taggerLines tagger :=
      map_joinLines_singletons _
    have hflat : ((taggerLines tagger).map ([·])).flatten = taggerLines tagger :=
      flatten_singletons _
    have hself (text : Text) : joinLines [text] = text := intercalate_singleton
    rw [map_append, map_append, flatten_append, flatten_append, hflat] at hgroups
    have hmap : ∀ groups : List (List Text),
        groups.map (['\n'] : Text).intercalate = groups.map joinLines := fun _ => rfl
    rw [hmap, hmap, hmap, htaggers, map_map] at hgroups
    simp only [map_cons, map_nil, hself] at hgroups
    exact hgroups

end

/-! ### Round trips -/

/-- What the reader relies on: an id, and a tagger with a time that is a safe integer. -/
structure TagData.Readable (data : TagData) : Prop where
  object : IsObjectId data.object
  timestamp : ∀ tagger, data.tagger = some tagger → |tagger.timestamp| ≤ maxSafeInteger

def TagData.TaggerIsTagger (data : TagData) : Prop :=
  data.tagger = none → ∀ header, data.extraHeaders.head? = some header → header.key ≠ taggerKey

/-- The data with its body taken apart as the reader does. -/
def TagData.resplit (data : TagData) : TagData :=
  { data with
    message := (peelTagSignature data.body).1
    gpgSignature := (peelTagSignature data.body).2 }

theorem TagData.resplit_eq_iff {data : TagData} : data.resplit = data ↔ data.SplitsAtSignature := by
  rw [← peelTagSignature_body, Prod.ext_iff]
  constructor
  · intro h
    exact ⟨congrArg TagData.message h, congrArg TagData.gpgSignature h⟩
  · rintro ⟨hmessage, hsignature⟩
    rw [TagData.resplit, hmessage, hsignature]

section

variable {data : TagData} {tag : Tag} {bytes : Bytes}

theorem parseTaggerField_written {tagger : Option AuthorIdentity} {line : Option Text}
    {headers : List ExtraHeader} (hline : WritesTagger tagger line)
    (hsafe : ∀ identity, tagger = some identity → |identity.timestamp| ≤ maxSafeInteger)
    (hkeys : ∀ header ∈ headers, IsKey header.key)
    (hother : tagger = none → ∀ header, headers.head? = some header → header.key ≠ taggerKey) :
    parseTaggerField (taggerLines line ++ headerLines headers) =
      .ok (tagger, headerLines headers) := by
  cases tagger with
  | none =>
    cases line with
    | some line => exact hline.elim
    | none =>
      rw [taggerLines, nil_append]
      cases headers with
      | nil => rfl
      | cons header headers =>
        have hkey := hkeys header mem_cons_self
        have hnot : ¬ taggerKeyword.isPrefixOf (header.key ++ ' ' ::
            (header.value.splitOn '\n').headD []) = true := fun h =>
          hother rfl header rfl (key_eq_tagger hkey.solid h)
        have hlines : headerLines (header :: headers) =
            (header.key ++ ' ' :: (header.value.splitOn '\n').headD []) ::
              (((header.value.splitOn '\n').drop 1).map (' ' :: ·) ++ headerLines headers) := by
          rw [headerLines, flatMap_cons, foldedLines]
          rfl
        rw [hlines, parseTaggerField, if_neg hnot]
  | some identity =>
    cases line with
    | none => exact hline.elim
    | some line =>
      have hstarts : taggerKeyword.isPrefixOf (taggerKeyword ++ line) = true :=
        isPrefixOf_iff_prefix.mpr (prefix_append _ _)
      have hread := parseIdentity_serializeIdentity hline (hsafe identity rfl)
      rw [taggerLines, cons_append, nil_append, parseTaggerField, if_pos hstarts,
        drop_left, ok_bind_eq hread]
      rfl

theorem writtenTagLines_single {tagger : Option Text} (hobject : IsObjectId data.object)
    (hname : isInvalidTagName data.tagName = false) (htagger : WritesTagger data.tagger tagger)
    (hkeys : ∀ header ∈ data.extraHeaders, IsKey header.key) :
    ∀ line ∈ writtenTagLines data tagger, line ≠ [] ∧ '\n' ∉ line := by
  have hkeyword {keyword value : Text} (hne : keyword ≠ []) (hfree : '\n' ∉ keyword)
      (hvalue : '\n' ∉ value) : keyword ++ value ≠ [] ∧ '\n' ∉ keyword ++ value :=
    ⟨append_ne_nil_of_left_ne_nil hne _, fun hmem =>
      (mem_append.mp hmem).elim hfree hvalue⟩
  intro line hline
  rw [writtenTagLines] at hline
  rcases mem_cons.mp hline with rfl | hline
  · refine hkeyword (by decide) (by decide) fun hmem => ?_
    have := hobject.digits _ hmem
    cases this
  rcases mem_cons.mp hline with rfl | hline
  · refine hkeyword (by decide) (by decide) ?_
    cases data.objectType <;> decide
  rcases mem_cons.mp hline with rfl | hline
  · refine hkeyword (by decide) (by decide) fun hmem => ?_
    rw [isInvalidTagName, Bool.or_eq_false_iff] at hname
    exact Bool.false_ne_true (hname.2.symm.trans (contains_iff_mem.mpr hmem))
  rcases mem_append.mp hline with hline | hline
  · cases tagger with
    | none => exact absurd hline not_mem_nil
    | some text =>
      rw [mem_singleton.mp hline]
      refine hkeyword (by decide) (by decide) ?_
      cases htaggerData : data.tagger with
      | none => rw [htaggerData] at htagger; exact htagger.elim
      | some identity =>
        rw [htaggerData] at htagger
        exact serializeIdentity_single htagger
  · obtain ⟨header, hmem, hfolded⟩ := mem_flatMap.mp hline
    exact foldedLines_single (hkeys header hmem) hfolded

theorem parseTagContent_joined (id : Text) {lines : List Text} (hne : lines ≠ [])
    (hsingle : ∀ line ∈ lines, line ≠ [] ∧ '\n' ∉ line) (body : Text) :
    parseTagContent id (encode (joinLines lines ++ '\n' :: '\n' :: body)) = (do
      let (object, objectType, tagName, lines) ← parseRequiredTagFields lines
      let (tagger, lines) ← parseTaggerField lines
      let extraHeaders ← parseTagOptionalHeaders lines
      let (message, gpgSignature) := peelTagSignature body
      pure ⟨id, object, objectType, tagName, tagger, message, gpgSignature, extraHeaders⟩) := by
  have hsplit : (joinLines lines).splitOn '\n' = lines :=
    splitOn_intercalate '\n' (fun line hline => (hsingle line hline).2) hne
  rw [parseTagContent, decodePreservingBom_encode, splitHeaderAndMessage_joined hne hsingle]
  dsimp only
  rw [hsplit]

/-- **A written tag** is read as its data, the body taken apart. -/
theorem parseTagContent_written (h : serializeTagContent tag = .ok bytes)
    (hreadable : tag.data.Readable) (hother : tag.data.TaggerIsTagger) :
    parseTagContent tag.id bytes = .ok ⟨tag.id, tag.data.resplit⟩ := by
  obtain ⟨id, data⟩ := tag
  obtain ⟨lines, hlines, h⟩ := bind_eq_ok.mp h
  cases h
  obtain ⟨hname, hkeys, tagger, htagger, hjoin⟩ := tagHeaderLines_ok hlines
  have hsingle := writtenTagLines_single hreadable.object hname htagger hkeys
  have hfields : parseRequiredTagFields (writtenTagLines data tagger) =
      .ok (data.object, data.objectType, data.tagName,
        taggerLines tagger ++ headerLines data.extraHeaders) := by
    rw [parseRequiredTagFields, writtenTagLines, ok_bind_eq (afterKeyword_append _ _ _ _)]
    dsimp only
    rw [ok_bind_eq (objectIdFrom_ok hreadable.object), ok_bind_eq (afterKeyword_append _ _ _ _)]
    dsimp only
    rw [objectTypeOf_text]
    dsimp only
    rw [ok_bind_eq (afterKeyword_append _ _ _ _)]
    dsimp only
    rw [if_neg (Bool.eq_false_iff.mp hname)]
    rfl
  rw [hjoin]
  have hne : writtenTagLines data tagger ≠ [] := cons_ne_nil _ _
  refine (parseTagContent_joined id hne hsingle data.body).trans ?_
  rw [ok_bind_eq hfields]
  dsimp only
  rw [ok_bind_eq (parseTaggerField_written htagger hreadable.timestamp hkeys hother)]
  dsimp only
  rw [ok_bind_eq (parseTagOptionalHeaders_headerLines hkeys)]
  rfl

theorem parseIdentity_safe {line : Text} {identity : AuthorIdentity}
    (h : parseIdentity line = .ok identity) : |identity.timestamp| ≤ maxSafeInteger := by
  unfold parseIdentity invalidIdentity at h
  split at h
  · cases h
  split at h
  · cases h
  dsimp only at h
  split at h
  · split at h
    · cases h
    · next timestamp htimestamp =>
      split at h
      · cases h
      cases h
      obtain ⟨q, -, hq⟩ := Option.bind_eq_some_iff.mp htimestamp
      rw [safeInteger] at hq
      split at hq
      · next hsafe =>
        obtain rfl := Option.some.inj hq
        exact hsafe.2
      · cases hq
  · cases h

theorem objectIdFrom_valid {hex id : Text} (h : objectIdFrom hex = .ok id) : IsObjectId id := by
  rw [objectIdFrom] at h
  split at h
  · next hvalid =>
    cases h
    exact ⟨hvalid.1, all_eq_true.mp hvalid.2⟩
  · cases h

theorem parseTaggerField_ok {lines rest : List Text} {tagger : Option AuthorIdentity}
    (h : parseTaggerField lines = .ok (tagger, rest)) :
    (∀ identity, tagger = some identity → |identity.timestamp| ≤ maxSafeInteger) ∧ rest ⊆ lines := by
  cases lines with
  | nil =>
    cases h
    exact ⟨fun _ hsome => (by cases hsome), fun _ hmem => hmem⟩
  | cons line lines =>
    rw [parseTaggerField] at h
    split at h
    · obtain ⟨identity, hidentity, h⟩ := bind_eq_ok.mp h
      cases h
      refine ⟨fun other hother => ?_, subset_cons_self _ _⟩
      obtain rfl := Option.some.inj hother
      exact parseIdentity_safe hidentity
    · cases h
      exact ⟨fun _ hsome => (by cases hsome), fun _ hmem => hmem⟩

/-- **What is read**: data that the writer takes, but for its tagger. -/
theorem parseTagContent_ok {id : Text} {content : Bytes}
    (h : parseTagContent id content = .ok tag) :
    tag.id = id ∧ tag.data.Readable ∧ isInvalidTagName tag.data.tagName = false ∧
      (∀ header ∈ tag.data.extraHeaders, IsKey header.key) ∧ tag.data.SplitsAtSignature := by
  rw [parseTagContent] at h
  generalize splitHeaderAndMessage (decodePreservingBom content) = parts at h
  obtain ⟨headerPart, rawMessage⟩ := parts
  obtain ⟨⟨object, objectType, tagName, lines⟩, hfields, h⟩ := bind_eq_ok.mp h
  obtain ⟨⟨tagger, rest⟩, htagger, h⟩ := bind_eq_ok.mp h
  obtain ⟨headers, hheaders, h⟩ := bind_eq_ok.mp h
  have hsingle : ∀ line ∈ headerPart.splitOn '\n', '\n' ∉ line :=
    fun line hline => not_mem_of_mem_splitOn hline
  rw [parseRequiredTagFields] at hfields
  obtain ⟨⟨hex, lines₁⟩, hobjectLine, hfields⟩ := bind_eq_ok.mp hfields
  obtain ⟨object', hobject, hfields⟩ := bind_eq_ok.mp hfields
  obtain ⟨⟨typeText, lines₂⟩, htypeLine, hfields⟩ := bind_eq_ok.mp hfields
  dsimp only at hfields
  cases htype : objectTypeOf typeText with
  | none =>
    rw [htype] at hfields
    cases hfields
  | some type =>
    rw [htype] at hfields
    obtain ⟨⟨name, lines₃⟩, htagLine, hfields⟩ := bind_eq_ok.mp hfields
    dsimp only at hfields
    split at hfields
    · cases hfields
    · next hname =>
      cases hfields
      have hlines : headerPart.splitOn '\n' = (objectKeyword ++ hex) ::
          (typeKeyword ++ typeText) :: (tagKeyword ++ tagName) :: lines := by
        rw [afterKeyword_ok hobjectLine, afterKeyword_ok htypeLine, afterKeyword_ok htagLine]
      obtain ⟨hsafe, hsub⟩ := parseTaggerField_ok htagger
      have hrest : ∀ line ∈ rest, '\n' ∉ line := by
        intro line hmem
        refine hsingle line ?_
        rw [hlines]
        exact mem_cons_of_mem _ (mem_cons_of_mem _ (mem_cons_of_mem _ (hsub hmem)))
      cases h
      refine ⟨rfl, ⟨objectIdFrom_valid hobject, hsafe⟩, Bool.eq_false_iff.mpr hname,
        parseTagOptionalHeaders_isKey hrest hheaders, ?_⟩
      exact peelTagSignature_body.mp
        (congrArg peelTagSignature (peelTagSignature_append rawMessage))

/-- The writer accepts the tagger, if there is one. -/
def TagData.TaggerWrites (data : TagData) : Prop :=
  ∀ tagger, data.tagger = some tagger → ∃ line, serializeIdentity tagger = .ok line

theorem formatHeaders_eq {headers : List ExtraHeader}
    (hkeys : ∀ header ∈ headers, IsKey header.key) : headers.mapM formatHeader =
      .ok (headers.map fun header => joinLines (foldedLines header.key header.value)) := by
  refine mapM_eq_ok fun header hmem => ?_
  obtain ⟨hne, hsingle, hsolid⟩ := hkeys header hmem
  have hvalid : ¬ (header.key.contains '\n' || header.key.contains ' ' ||
      header.key.isEmpty) = true := by
    simp only [Bool.or_eq_true, contains_iff_mem, List.isEmpty_iff, not_or]
    exact ⟨⟨hsingle, hsolid⟩, hne⟩
  rw [formatHeader, formatContinuationHeader, if_neg hvalid]

theorem serializeTagContent_eq_ok (hname : isInvalidTagName tag.data.tagName = false)
    (hkeys : ∀ header ∈ tag.data.extraHeaders, IsKey header.key) (htagger : tag.data.TaggerWrites) :
    ∃ bytes, serializeTagContent tag = .ok bytes := by
  have hlines : ∃ lines, tagHeaderLines tag.data = .ok lines := by
    rw [tagHeaderLines, if_neg (Bool.eq_false_iff.mp hname)]
    have hformat : ∃ texts, formatTagger tag.data.tagger = .ok texts := by
      cases hdata : tag.data.tagger with
      | none => exact ⟨[], rfl⟩
      | some tagger =>
        obtain ⟨line, hline⟩ := htagger tagger hdata
        exact ⟨_, ok_bind_eq hline⟩
    obtain ⟨texts, htexts⟩ := hformat
    exact ⟨_, (ok_bind_eq htexts).trans (ok_bind_eq (formatHeaders_eq hkeys))⟩
  obtain ⟨lines, hlines⟩ := hlines
  exact ⟨_, ok_bind_eq hlines⟩

end

/-- **Tags round trip.** Data that the writer accepts is read back if its body is taken apart where
it was put together; and content that was written is written again byte for byte. -/
theorem tag_roundTrips :
    (∀ tag bytes, serializeTagContent tag = .ok bytes → tag.data.Readable →
      tag.data.TaggerIsTagger → tag.data.SplitsAtSignature →
        parseTagContent tag.id bytes = .ok tag) ∧
    (∀ id content tag, parseTagContent id content = .ok tag → tag.data.TaggerWrites →
      tag.data.TaggerIsTagger →
        ∃ bytes, serializeTagContent tag = .ok bytes ∧ parseTagContent id bytes = .ok tag) ∧
    ∀ tag content, serializeTagContent tag = .ok content → tag.data.Readable →
      tag.data.TaggerIsTagger →
        ∃ read, parseTagContent tag.id content = .ok read ∧ serializeTagContent read = .ok content := by
  refine ⟨fun tag bytes h hreadable hother hsplits => ?_,
    fun id content tag h htagger hother => ?_, fun tag content h hreadable hother => ?_⟩
  · rw [parseTagContent_written h hreadable hother, TagData.resplit_eq_iff.mpr hsplits]
  · obtain ⟨rfl, hreadable, hname, hkeys, hsplits⟩ := parseTagContent_ok h
    obtain ⟨bytes, hbytes⟩ := serializeTagContent_eq_ok hname hkeys htagger
    refine ⟨bytes, hbytes, ?_⟩
    rw [parseTagContent_written hbytes hreadable hother, TagData.resplit_eq_iff.mpr hsplits]
  · refine ⟨_, parseTagContent_written h hreadable hother, ?_⟩
    have hbody : tag.data.resplit.body = tag.data.body := peelTagSignature_append _
    have hlines : tagHeaderLines tag.data.resplit = tagHeaderLines tag.data := rfl
    rw [serializeTagContent, hlines, hbody]
    exact h

def blobTag (tagger : Option AuthorIdentity) (message : Text) (headers : List ExtraHeader) : Tag where
  id := []
  data :=
    { object := replicate 40 'a'
      objectType := .blob
      tagName := ['v']
      tagger := tagger
      message := message
      gpgSignature := none
      extraHeaders := headers }

/-- A tag with a message and a signature of two lines. -/
def signedTag : Tag :=
  { blobTag (some somebody) ['m', '\n'] [⟨['k'], ['\n', '\n', 'v']⟩] with
    data := { (blobTag (some somebody) ['m', '\n'] [⟨['k'], ['\n', '\n', 'v']⟩]).data with
      gpgSignature := some ("-----BEGIN PGP SIGNATURE-----".toList ++ '\n' ::
        "-----END PGP SIGNATURE-----".toList) } }

theorem tag_roundTrips_signed : ∃ bytes, serializeTagContent signedTag = .ok bytes ∧
    parseTagContent signedTag.id bytes = .ok signedTag := by
  have hreadable : signedTag.data.Readable :=
    ⟨isObjectId_replicate (by decide), fun tagger htagger => by cases htagger; decide⟩
  have hsplits : signedTag.data.SplitsAtSignature := by
    refine ⟨by decide +kernel, fun i hi => ?_⟩
    have hall : ∀ i < 2, isArmor (signedTag.data.body.drop i) = false := by decide +kernel
    exact hall i hi
  exact ⟨_, rfl, tag_roundTrips.1 signedTag _ rfl hreadable (fun hnone => by cases hnone) hsplits⟩

/-- `A B <a@b> -60 +0100`, with what stands in front of the address. -/
def identityLine (rawName : Text) : Text :=
  rawName ++ '<' :: (['a', '@', 'b'] ++ '>' :: ' ' :: (decimalText (-60) ++ ' ' ::
    ['+', '0', '1', '0', '0']))

theorem parseIdentity_identityLine (rawName : Text) :
    parseIdentity (identityLine rawName) =
      .ok ⟨nameOf rawName, ['a', '@', 'b'], -60, ['+', '0', '1', '0', '0']⟩ :=
  parseIdentity_line rawName (by simp) (by decide) (abs_le.mpr ⟨by decide, by decide⟩)

def blobTagLines (line : Text) : List Text :=
  [objectKeyword ++ replicate 40 'a', typeKeyword ++ ['b', 'l', 'o', 'b'],
    tagKeyword ++ ['v'], line]

theorem parseTagContent_blobTagLines {line : Text} (hline : line ≠ [] ∧ '\n' ∉ line)
    {tagger : Option AuthorIdentity} {rest : List Text} {headers : List ExtraHeader}
    (htagger : parseTaggerField [line] = .ok (tagger, rest))
    (hheaders : parseTagOptionalHeaders rest = .ok headers) :
    parseTagContent [] (encode (joinLines (blobTagLines line) ++ ['\n', '\n'])) =
      .ok (blobTag tagger [] headers) := by
  have hsingle : ∀ other ∈ blobTagLines line, other ≠ [] ∧ '\n' ∉ other := by
    simp only [blobTagLines, forall_mem_cons]
    exact ⟨by decide, by decide, by decide, hline, forall_mem_nil _⟩
  have hfields : parseRequiredTagFields (blobTagLines line) =
      .ok (replicate 40 'a', .blob, ['v'], [line]) := rfl
  have hne : blobTagLines line ≠ [] := cons_ne_nil _ _
  rw [parseTagContent_joined [] hne hsingle [], ok_bind_eq hfields]
  dsimp only
  rw [ok_bind_eq htagger]
  dsimp only
  rw [ok_bind_eq hheaders]
  rfl

theorem parseTaggerField_tagger {line : Text} {identity : AuthorIdentity}
    (h : parseIdentity line = .ok identity) :
    parseTaggerField [taggerKeyword ++ line] = .ok (some identity, []) := by
  have hstarts : taggerKeyword.isPrefixOf (taggerKeyword ++ line) = true :=
    isPrefixOf_iff_prefix.mpr (prefix_append _ _)
  rw [parseTaggerField, if_pos hstarts, drop_left, ok_bind_eq h]
  rfl

/-- **Where tags do not round trip**: a message that ends in an armor, a first header keyed as a
tagger, a tagger that cannot be written, and a bare keyword of a tagger. -/
theorem tag_roundTrips_not :
    (∃ tag bytes, serializeTagContent tag = .ok bytes ∧ tag.data.Readable ∧
      tag.data.TaggerIsTagger ∧ parseTagContent tag.id bytes ≠ .ok tag) ∧
    (∃ tag bytes read, serializeTagContent tag = .ok bytes ∧ tag.data.Readable ∧
      tag.data.SplitsAtSignature ∧ parseTagContent tag.id bytes = .ok read ∧ read ≠ tag ∧
        serializeTagContent read ≠ .ok bytes) ∧
    (∃ content tag, parseTagContent tag.id content = .ok tag ∧ tag.data.TaggerIsTagger ∧
      ∀ bytes, serializeTagContent tag ≠ .ok bytes) ∧
    ∃ content tag bytes, parseTagContent tag.id content = .ok tag ∧ tag.data.TaggerWrites ∧
      serializeTagContent tag = .ok bytes ∧ parseTagContent tag.id bytes ≠ .ok tag := by
  have hobject : IsObjectId (replicate 40 'a') := isObjectId_replicate (by decide)
  have hnil : parseTagOptionalHeaders [] = .ok [] := by rw [parseTagOptionalHeaders]
  refine ⟨?_, ?_, ?_, ?_⟩
  · let armor : Text := "-----BEGIN PGP SIGNATURE-----".toList ++ '\n' ::
      "-----END PGP SIGNATURE-----".toList
    have hreadable : (blobTag none armor []).data.Readable := ⟨hobject, fun _ hsome => by cases hsome⟩
    have hother : (blobTag none armor []).data.TaggerIsTagger := fun _ _ hhead => by cases hhead
    refine ⟨blobTag none armor [], _, rfl, hreadable, hother, fun heq => ?_⟩
    have hread := @parseTagContent_written (blobTag none armor []) _ rfl hreadable hother
    have hsame := congrArg Tag.data (Except.ok.inj (hread.symm.trans heq))
    have harmor := TagData.resplit_eq_iff.mp hsame 0
    have htrue : isArmor armor = true := by decide +kernel
    exact Bool.false_ne_true (harmor.symm.trans htrue)
  · have hread := @parseTagContent_blobTagLines (taggerKeyword ++ identityLine ['A', ' ', 'B'])
      (by decide) _ _ _ (parseTaggerField_tagger (parseIdentity_identityLine _)) hnil
    refine ⟨blobTag none [] [⟨taggerKey, identityLine ['A', ' ', 'B']⟩], _, _, rfl,
      ⟨hobject, fun _ hsome => by cases hsome⟩, fun i => ?_, hread, ?_, ?_⟩
    · rw [show (blobTag none [] [⟨taggerKey, identityLine ['A', ' ', 'B']⟩]).data.message = [] from
        rfl, drop_nil, isArmor_nil]
    · intro heq
      cases congrArg (fun tag : Tag => tag.data.tagger) heq
    · decide +kernel
  · have hread := @parseTagContent_blobTagLines
      (taggerKeyword ++ identityLine ['A', '<', 'B', ' '])
      (by decide) _ _ _ (parseTaggerField_tagger (parseIdentity_identityLine _)) hnil
    refine ⟨_, blobTag (some ⟨nameOf ['A', '<', 'B', ' '], ['a', '@', 'b'], -60,
      ['+', '0', '1', '0', '0']⟩) [] [], hread, fun _ _ hhead => (by cases hhead), fun bytes h => ?_⟩
    obtain ⟨lines, hlines, -⟩ := bind_eq_ok.mp h
    obtain ⟨-, -, tagger, htagger, -⟩ := tagHeaderLines_ok hlines
    cases tagger with
    | none => exact htagger.elim
    | some line =>
      obtain ⟨hwritable, -⟩ := serializeIdentity_ok htagger
      exact (hwritable.name_solid '<' (by decide)).2.1 rfl
  · have hheaders : parseTagOptionalHeaders [taggerKey] = .ok [⟨taggerKey, []⟩] := by
      rw [parseTagOptionalHeaders]
      dsimp only
      rw [if_neg (by decide), dropWhile_nil, ok_bind_eq hnil]
      rfl
    have hread := @parseTagContent_blobTagLines taggerKey (by decide) none _ _ rfl hheaders
    refine ⟨_, blobTag none [] [⟨taggerKey, []⟩],
      encode (joinLines (blobTagLines taggerKeyword) ++ ['\n', '\n']), hread,
      fun _ hsome => (by cases hsome), rfl, fun h => ?_⟩
    have hne : blobTagLines taggerKeyword ≠ [] := cons_ne_nil _ _
    have hsingle : ∀ other ∈ blobTagLines taggerKeyword, other ≠ [] ∧ '\n' ∉ other := by
      simp only [blobTagLines, forall_mem_cons]
      exact ⟨by decide, by decide, by decide, by decide, forall_mem_nil _⟩
    have hfields : parseRequiredTagFields (blobTagLines taggerKeyword) =
        .ok (replicate 40 'a', .blob, ['v'], [taggerKeyword]) := rfl
    have hjoined := parseTagContent_joined [] hne hsingle []
    rw [ok_bind_eq hfields] at hjoined
    cases hjoined.symm.trans h

end Tsgit
