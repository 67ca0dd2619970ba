import Tsgit.Hex

/-!
# Header Blocks

The optional headers of an object, from `src/domain/objects/encoding.ts`: a value of several lines
is folded, each line but the first one behind a space.
-/

namespace Tsgit

open List

structure ExtraHeader where
  key : Text
  value : Text
  deriving DecidableEq

def joinLines (lines : List Text) : Text := ['\n'].intercalate lines

def foldedLines (key value : Text) : List Text :=
  let valueParts := value.splitOn '\n'
  (key ++ ' ' :: valueParts.headD []) :: (valueParts.drop 1).map (' ' :: ·)

def formatContinuationHeader (key value : Text) : Except Thrown Text :=
  if key.contains '\n' || key.contains ' ' || key.isEmpty then
    .error (.plain s!"invalid header key: {String.ofList key}")
  else .ok (joinLines (foldedLines key value))

def parseHeaderLine (line : Text) : ExtraHeader :=
  match line.findIdx? (· = ' ') with
  | none => ⟨line, []⟩
  | some spaceIdx => ⟨line.take spaceIdx, line.drop (spaceIdx + 1)⟩

def isContinuation (line : Text) : Bool := line.head? = some ' '

/-- What is read of a header block: the signature, and the other headers. -/
structure OptionalHeaders where
  gpgSignature : Option Text
  extraHeaders : List ExtraHeader
  deriving DecidableEq

def gpgsigKey : Text := ['g', 'p', 'g', 's', 'i', 'g']

/-- The loop of `parseOptionalHeaderBlock`. -/
def parseOptionalHeaders (onInvalidKey onDuplicateGpgsig : String → Thrown)
    (read : OptionalHeaders) : List Text → Except Thrown OptionalHeaders
  | [] => .ok read
  | line :: rest =>
    let header := parseHeaderLine line
    if header.key = [] then
      .error (onInvalidKey "unexpected continuation line without preceding header")
    else
      let continued := rest.takeWhile isContinuation
      let value := joinLines (header.value :: continued.map (drop 1))
      if header.key = gpgsigKey then
        if read.gpgSignature.isSome then .error (onDuplicateGpgsig "duplicate gpgsig header")
        else parseOptionalHeaders onInvalidKey onDuplicateGpgsig
          { read with gpgSignature := some value } (rest.dropWhile isContinuation)
      else parseOptionalHeaders onInvalidKey onDuplicateGpgsig
        { read with extraHeaders := read.extraHeaders ++ [⟨header.key, value⟩] }
        (rest.dropWhile isContinuation)
termination_by lines => lines.length
decreasing_by
  all_goals
    have := (dropWhile_sublist isContinuation : List.Sublist _ rest).length_le
    rw [length_cons]
    omega

def parseOptionalHeaderBlock (lines : List Text) (onInvalidKey onDuplicateGpgsig : String → Thrown) :
    Except Thrown OptionalHeaders :=
  parseOptionalHeaders onInvalidKey onDuplicateGpgsig ⟨none, []⟩ lines

/-! ### Lines of lines -/

section

variable {α : Type} {x : α} {front back : List (List α)}

theorem intercalate_append (hfront : front ≠ []) (hback : back ≠ []) :
    [x].intercalate (front ++ back) = [x].intercalate front ++ x :: [x].intercalate back := by
  induction front with
  | nil => exact absurd rfl hfront
  | cons line front ih =>
    cases front with
    | nil =>
      rw [cons_append, nil_append, intercalate_cons_of_ne_nil hback,
        intercalate_singleton, append_assoc]
      rfl
    | cons line' front =>
      have hrest : (line' :: front) ++ back ≠ [] := cons_ne_nil _ _
      rw [cons_append, intercalate_cons_of_ne_nil hrest,
        ih (cons_ne_nil _ _), intercalate_cons_of_ne_nil (cons_ne_nil _ _)]
      simp only [append_assoc]

/-- Lines of lines are lines. -/
theorem intercalate_flatten {groups : List (List (List α))} (h : ∀ group ∈ groups, group ≠ []) :
    [x].intercalate (groups.map [x].intercalate) = [x].intercalate groups.flatten := by
  induction groups with
  | nil => rfl
  | cons group groups ih =>
    have hgroup := h group mem_cons_self
    have ih' := ih (forall_mem_cons.mp h).2
    cases groups with
    | nil =>
      rw [map_cons, map_nil, intercalate_singleton, flatten_cons, flatten_nil, append_nil]
    | cons next groups =>
      have hnext := h next (mem_cons_of_mem _ mem_cons_self)
      have hrest : (next :: groups).flatten ≠ [] := by
        rw [flatten_cons]
        exact append_ne_nil_of_left_ne_nil hnext _
      have hmap : (next :: groups).map [x].intercalate ≠ [] := cons_ne_nil _ _
      have hflat : (group :: next :: groups).flatten = group ++ (next :: groups).flatten :=
        flatten_cons
      rw [map_cons, intercalate_cons_of_ne_nil hmap, ih', hflat,
        intercalate_append hgroup hrest, append_assoc]
      rfl

theorem mem_of_mem_intercalate {c : α} {lines : List (List α)} (h : c ∈ [x].intercalate lines) :
    c = x ∨ ∃ line ∈ lines, c ∈ line := by
  induction lines with
  | nil => exact absurd h not_mem_nil
  | cons line lines ih =>
    cases lines with
    | nil =>
      rw [intercalate_singleton] at h
      exact Or.inr ⟨line, mem_cons_self, h⟩
    | cons next lines =>
      rw [intercalate_cons_of_ne_nil (cons_ne_nil _ _), append_assoc] at h
      rcases mem_append.mp h with hfirst | h
      · exact Or.inr ⟨line, mem_cons_self, hfirst⟩
      · rcases mem_cons.mp h with rfl | hrest
        · exact Or.inl rfl
        · exact (ih hrest).imp_right fun ⟨other, hother, hc⟩ =>
            ⟨other, mem_cons_of_mem _ hother, hc⟩

theorem not_mem_of_mem_splitOn [DecidableEq α] {xs part : List α} (h : part ∈ xs.splitOn x) :
    x ∉ part := by
  induction xs generalizing part with
  | nil =>
    rw [splitOn_nil, mem_singleton] at h
    rw [h]
    exact not_mem_nil
  | cons y xs ih =>
    rw [splitOn_cons_eq_if_modifyHead] at h
    split at h
    · rcases mem_cons.mp h with rfl | hrest
      · exact not_mem_nil
      · exact ih hrest
    · next hne =>
      have hne' : x ≠ y := fun heq => hne (beq_iff_eq.mpr heq.symm)
      obtain ⟨first, parts, hparts⟩ := exists_cons_of_ne_nil (splitOn_ne_nil x xs)
      rw [hparts, modifyHead_cons] at h
      rcases mem_cons.mp h with rfl | hrest
      · rw [mem_cons, not_or]
        exact ⟨hne', ih (hparts ▸ mem_cons_self)⟩
      · exact ih (hparts ▸ mem_cons_of_mem _ hrest)

end

/-! ### Folded values -/

/-- A key that `formatContinuationHeader` takes. -/
structure IsKey (key : Text) : Prop where
  ne_nil : key ≠ []
  single : '\n' ∉ key
  solid : ' ' ∉ key

theorem formatContinuationHeader_ok {key value line : Text}
    (h : formatContinuationHeader key value = .ok line) :
    IsKey key ∧ line = joinLines (foldedLines key value) := by
  unfold formatContinuationHeader at h
  split at h
  · cases h
  · next hvalid =>
    cases h
    simp only [Bool.or_eq_true, contains_iff_mem, List.isEmpty_iff, not_or] at hvalid
    exact ⟨⟨hvalid.2, hvalid.1.1, hvalid.1.2⟩, rfl⟩

section

variable {key value line : Text}

theorem foldedLines_single (hkey : IsKey key) (h : line ∈ foldedLines key value) :
    line ≠ [] ∧ '\n' ∉ line := by
  obtain ⟨first, parts, hparts⟩ := exists_cons_of_ne_nil (splitOn_ne_nil '\n' value)
  have hfree : ∀ part ∈ first :: parts, '\n' ∉ part := by
    rw [← hparts]
    exact fun part hpart => not_mem_of_mem_splitOn hpart
  rw [foldedLines, hparts] at h
  dsimp only [List.headD, drop] at h
  rcases mem_cons.mp h with rfl | hrest
  · refine ⟨append_ne_nil_of_left_ne_nil hkey.ne_nil _, ?_⟩
    rw [mem_append, mem_cons, not_or, not_or]
    exact ⟨hkey.single, by decide, hfree first mem_cons_self⟩
  · obtain ⟨part, hpart, rfl⟩ := mem_map.mp hrest
    refine ⟨cons_ne_nil _ _, ?_⟩
    rw [mem_cons, not_or]
    exact ⟨by decide, hfree part (mem_cons_of_mem _ hpart)⟩

theorem parseHeaderLine_key (hkey : ' ' ∉ key) (value : Text) :
    parseHeaderLine (key ++ ' ' :: value) = ⟨key, value⟩ := by
  have hfind : (key ++ ' ' :: value).findIdx? (· = ' ') = some key.length := by
    have hnone : key.findIdx? (· = ' ') = none := by
      refine findIdx?_eq_none_iff.mpr fun c hc => decide_eq_false ?_
      rintro rfl
      exact hkey hc
    have hhead : (' ' :: value).findIdx? (· = ' ') = some 0 := findIdx?_cons
    rw [findIdx?_append, hnone, hhead]
    exact congrArg some (Nat.zero_add _)
  rw [parseHeaderLine, hfind]
  dsimp only
  rw [take_left, ← drop_drop, drop_left]
  rfl

theorem continued_folded {more : List Text} {parts : List Text}
    (hmore : ∀ line, more.head? = some line → isContinuation line = false) :
    (parts.map (' ' :: ·) ++ more).takeWhile isContinuation = parts.map (' ' :: ·) ∧
      (parts.map (' ' :: ·) ++ more).dropWhile isContinuation = more := by
  have hall : ∀ line ∈ parts.map (' ' :: ·), isContinuation line = true := by
    intro line hline
    obtain ⟨part, -, rfl⟩ := mem_map.mp hline
    rfl
  rw [takeWhile_append_of_pos hall, dropWhile_append_of_pos hall]
  cases more with
  | nil => exact ⟨append_nil _, rfl⟩
  | cons line more =>
    have hnot : ¬ isContinuation line = true := Bool.eq_false_iff.mp (hmore line rfl)
    rw [takeWhile_cons_of_neg hnot, dropWhile_cons_of_neg hnot]
    exact ⟨append_nil _, rfl⟩

theorem parseOptionalHeaders_cons (hkey : IsKey key) {more : List Text}
    (hmore : ∀ line, more.head? = some line → isContinuation line = false)
    (onInvalidKey onDuplicateGpgsig : String → Thrown) (read : OptionalHeaders) :
    parseOptionalHeaders onInvalidKey onDuplicateGpgsig read (foldedLines key value ++ more) =
      if key = gpgsigKey then
        if read.gpgSignature.isSome then .error (onDuplicateGpgsig "duplicate gpgsig header")
        else parseOptionalHeaders onInvalidKey onDuplicateGpgsig
          { read with gpgSignature := some value } more
      else parseOptionalHeaders onInvalidKey onDuplicateGpgsig
        { read with extraHeaders := read.extraHeaders ++ [⟨key, value⟩] } more := by
  obtain ⟨first, parts, hparts⟩ := exists_cons_of_ne_nil (splitOn_ne_nil '\n' value)
  have hvalue : joinLines (first :: parts) = value := by
    rw [← hparts]
    exact intercalate_splitOn '\n'
  have hunfold : (parts.map (' ' :: ·)).map (drop 1) = parts := by
    rw [map_map]
    exact map_id parts
  obtain ⟨htake, hdrop⟩ := @continued_folded more parts hmore
  rw [foldedLines, hparts]
  dsimp only [List.headD, drop]
  rw [cons_append, parseOptionalHeaders, parseHeaderLine_key hkey.solid]
  dsimp only
  rw [if_neg hkey.ne_nil, htake, hdrop, hunfold, hvalue]

end

end Tsgit
