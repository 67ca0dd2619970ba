import Mathlib.Data.List.TakeWhile
import Tsgit.TextDecoder

/-!
# ASCII in Decoded Bytes

What the decoder of `src/domain/objects/encoding.ts` makes of bytes that need not be UTF-8: an
ASCII character of the text comes from a byte of its own, so that splitting the bytes and
splitting the text give the same parts.
-/

namespace Tsgit

open List

/-- The code points, so far, of characters that are not ASCII and still miss some bytes. -/
def Completes : ℕ → ℕ → Prop
  | 0, codePoint => 0x80 ≤ codePoint ∧ codePoint.isValidChar
  | 1, codePoint => 2 ≤ codePoint ∧ codePoint ≤ 0x43ff ∧ ¬ (0x360 ≤ codePoint ∧ codePoint ≤ 0x37f)
  | 2, codePoint => 0x10 ≤ codePoint ∧ codePoint ≤ 0x10f
  | _, _ => False

/-- What the decoder can wait for: the byte may be none of ASCII, and with it the character is
on its way. -/
structure Pending.Sound (pending : Pending) : Prop where
  lower_le : 0x80 ≤ pending.lower
  needed_pos : 0 < pending.needed
  completes : ∀ byte, pending.lower ≤ byte → byte ≤ pending.upper →
    Completes (pending.needed - 1) (pending.codePoint <<< 6 ||| (byte &&& 0x3f))

theorem codePoint_add {codePoint byte : ℕ} (hlower : 0x80 ≤ byte) (hupper : byte ≤ 0xbf) :
    codePoint <<< 6 ||| (byte &&& 0x3f) = codePoint * 0x40 + (byte - 0x80) := by
  have hmask : byte &&& 0x3f = byte % 0x40 := Nat.and_two_pow_sub_one_eq_mod _ 6
  rw [hmask, shiftLeft_six_or (Nat.mod_lt _ (by decide))]
  omega

theorem Completes.sound {needed codePoint : ℕ} (h : Completes (needed + 1) codePoint) :
    Pending.Sound ⟨codePoint, needed + 1, 0x80, 0xbf⟩ where
  lower_le := le_rfl
  needed_pos := Nat.succ_pos _
  completes := by
    intro byte hlower hupper
    dsimp only at hlower hupper
    rw [Nat.add_sub_cancel]
    dsimp only
    rw [codePoint_add hlower hupper]
    match needed, h with
    | 0, h =>
      obtain ⟨hlow, hhigh, hsurrogate⟩ := h
      refine ⟨by omega, ?_⟩
      unfold Nat.isValidChar
      omega
    | 1, h =>
      obtain ⟨hlow, hhigh⟩ := h
      refine ⟨by omega, by omega, by omega⟩

variable {byte : ℕ} {pending : Pending}

theorem startSequence_sound
    (h : (startSequence byte).2 = some pending) : pending.Sound := by
  have htwo : byte &&& 0x1f = byte % 2 ^ 5 := Nat.and_two_pow_sub_one_eq_mod _ 5
  have hthree : byte &&& 0x0f = byte % 2 ^ 4 := Nat.and_two_pow_sub_one_eq_mod _ 4
  have hfour : byte &&& 0x07 = byte % 2 ^ 3 := Nat.and_two_pow_sub_one_eq_mod _ 3
  unfold startSequence at h
  split at h
  · cases h
  split at h
  · next hlead =>
    cases h
    refine ⟨le_rfl, one_pos, fun next hlower hupper => ?_⟩
    dsimp only at hlower hupper
    dsimp only
    rw [codePoint_add hlower hupper, htwo]
    refine ⟨by omega, ?_⟩
    unfold Nat.isValidChar
    omega
  · split at h
    · next hlead =>
      cases h
      refine ⟨?_, two_pos, fun next hlower hupper => ?_⟩
      · dsimp only
        split <;> omega
      · dsimp only at hlower hupper
        dsimp only
        rw [codePoint_add (by split at hlower <;> omega) (by split at hupper <;> omega), hthree]
        refine ⟨?_, ?_, ?_⟩ <;> split at hlower <;> split at hupper <;> omega
    · split at h
      · next hlead =>
        cases h
        refine ⟨?_, three_pos, fun next hlower hupper => ?_⟩
        · dsimp only
          split <;> omega
        · dsimp only at hlower hupper
          dsimp only
          rw [codePoint_add (by split at hlower <;> omega) (by split at hupper <;> omega),
            hfour]
          refine ⟨?_, ?_⟩ <;> split at hlower <;> split at hupper <;> omega
      · cases h

theorem toNat_ofNat_of_isValidChar {n : ℕ} (h : n.isValidChar) : (Char.ofNat n).toNat = n := by
  rw [Char.ofNat, dif_pos h]
  rfl

variable {c : Char}

theorem startSequence_ascii (hmem : c ∈ (startSequence byte).1)
    (hascii : c.toNat ≤ 0x7f) : byte = c.toNat := by
  unfold startSequence at hmem
  split at hmem
  · next hbyte =>
    obtain rfl := mem_singleton.mp hmem
    exact (toNat_ofNat_of_isValidChar (Or.inl (by omega))).symm
  split at hmem
  · cases hmem
  split at hmem
  · cases hmem
  · split at hmem
    · cases hmem
    · obtain rfl := mem_singleton.mp hmem
      exact absurd hascii (by decide)

theorem Pending.Sound.last (h : pending.Sound)
    (hlower : pending.lower ≤ byte) (hupper : byte ≤ pending.upper) (hlast : pending.needed = 1) :
    0x80 ≤ (Char.ofNat (pending.codePoint <<< 6 ||| (byte &&& 0x3f))).toNat := by
  have hcompletes := h.completes byte hlower hupper
  rw [hlast] at hcompletes
  obtain ⟨hlow, hvalid⟩ := hcompletes
  rw [toNat_ofNat_of_isValidChar hvalid]
  exact hlow

theorem Pending.Sound.next {pending : Pending} (h : pending.Sound) {byte : ℕ}
    (hlower : pending.lower ≤ byte) (hupper : byte ≤ pending.upper) (hmore : pending.needed ≠ 1) :
    Pending.Sound ⟨pending.codePoint <<< 6 ||| (byte &&& 0x3f), pending.needed - 1, 0x80, 0xbf⟩ := by
  have hcompletes := h.completes byte hlower hupper
  have hpos := h.needed_pos
  have hneeded : pending.needed - 1 = (pending.needed - 2) + 1 := by omega
  rw [hneeded] at hcompletes ⊢
  exact hcompletes.sound

theorem continueSequence_sound {before pending : Pending} (hbefore : before.Sound)
    (h : (continueSequence before byte).2 = some pending) : pending.Sound := by
  unfold continueSequence at h
  split at h
  · next hbounds =>
    dsimp only at h
    split at h
    · cases h
    · next hmore =>
      cases h
      exact hbefore.next hbounds.1 hbounds.2 hmore
  · exact startSequence_sound h

theorem continueSequence_ascii (hsound : pending.Sound)
    (hmem : c ∈ (continueSequence pending byte).1) (hascii : c.toNat ≤ 0x7f) : byte = c.toNat := by
  unfold continueSequence at hmem
  split at hmem
  · next hbounds =>
    dsimp only at hmem
    split at hmem
    · next hlast =>
      obtain rfl := mem_singleton.mp hmem
      have hlow := hsound.last hbounds.1 hbounds.2 hlast
      omega
    · cases hmem
  · dsimp only at hmem
    rcases mem_cons.mp hmem with rfl | hmem
    · exact absurd hascii (by decide)
    · exact startSequence_ascii hmem hascii

/-- **An ASCII character of a decoded text is one of the bytes.** -/
theorem mem_of_mem_decodeFrom {bytes : Bytes} {pending : Option Pending}
    (hsound : ∀ waits, pending = some waits → waits.Sound) (hmem : c ∈ decodeFrom pending bytes)
    (hascii : c.toNat ≤ 0x7f) : ∃ byte ∈ bytes, byte.toNat = c.toNat := by
  induction bytes generalizing pending with
  | nil =>
    cases pending with
    | none => cases hmem
    | some waits =>
      obtain rfl := mem_singleton.mp hmem
      exact absurd hascii (by decide)
  | cons byte rest ih =>
    cases pending with
    | none =>
      rw [decodeFrom] at hmem
      rcases mem_append.mp hmem with hhead | hrest
      · exact ⟨byte, mem_cons_self, startSequence_ascii hhead hascii⟩
      · obtain ⟨found, hfound, heq⟩ := ih (fun _ => startSequence_sound) hrest
        exact ⟨found, mem_cons_of_mem _ hfound, heq⟩
    | some waits =>
      have hwaits := hsound waits rfl
      rw [decodeFrom] at hmem
      rcases mem_append.mp hmem with hhead | hrest
      · exact ⟨byte, mem_cons_self, continueSequence_ascii hwaits hhead hascii⟩
      · obtain ⟨found, hfound, heq⟩ := ih (fun _ => continueSequence_sound hwaits) hrest
        exact ⟨found, mem_cons_of_mem _ hfound, heq⟩

theorem mem_of_mem_decodePreservingBom {bytes : Bytes}
    (hmem : c ∈ decodePreservingBom bytes) (hascii : c.toNat ≤ 0x7f) :
    ∃ byte ∈ bytes, byte.toNat = c.toNat :=
  mem_of_mem_decodeFrom (fun _ hnone => by cases hnone) hmem hascii

/-- A character that has begun ends as one that is not ASCII. -/
theorem decodeFrom_pending_eq_cons {bytes : Bytes} {pending : Pending}
    (hsound : pending.Sound) :
    ∃ c text, decodeFrom (some pending) bytes = c :: text ∧ 0x80 ≤ c.toNat := by
  induction bytes generalizing pending with
  | nil => exact ⟨replacementCharacter, [], rfl, by decide⟩
  | cons byte rest ih =>
    rw [decodeFrom]
    by_cases hbounds : pending.lower ≤ byte.toNat ∧ byte.toNat ≤ pending.upper
    · by_cases hlast : pending.needed = 1
      · have hnext : continueSequence pending byte.toNat =
            ([Char.ofNat (pending.codePoint <<< 6 ||| (byte.toNat &&& 0x3f))], none) :=
          (if_pos hbounds).trans (if_pos hlast)
        rw [hnext]
        exact ⟨_, _, rfl, hsound.last hbounds.1 hbounds.2 hlast⟩
      have hnext : continueSequence pending byte.toNat =
          ([], some ⟨pending.codePoint <<< 6 ||| (byte.toNat &&& 0x3f), pending.needed - 1,
            0x80, 0xbf⟩) :=
        (if_pos hbounds).trans (if_neg hlast)
      rw [hnext]
      exact ih (hsound.next hbounds.1 hbounds.2 hlast)
    · have hnext : continueSequence pending byte.toNat =
          (replacementCharacter :: (startSequence byte.toNat).1, (startSequence byte.toNat).2) :=
        if_neg hbounds
      rw [hnext]
      exact ⟨replacementCharacter, _, rfl, by decide⟩

/-- Bytes are decoded to some text. -/
theorem decodePreservingBom_cons_ne_nil (byte : UInt8) (rest : Bytes) :
    decodePreservingBom (byte :: rest) ≠ [] := by
  rw [decodePreservingBom, decodeFrom]
  obtain ⟨shown, next, hstart⟩ : ∃ shown next, startSequence byte.toNat = (shown, next) :=
    ⟨_, _, rfl⟩
  rw [hstart]
  cases next with
  | some pending =>
    have hnext : (startSequence byte.toNat).2 = some pending := congrArg Prod.snd hstart
    obtain ⟨c, text, hcons, -⟩ := @decodeFrom_pending_eq_cons rest _ (startSequence_sound hnext)
    dsimp only
    rw [hcons]
    exact append_ne_nil_of_right_ne_nil _ (cons_ne_nil _ _)
  | none =>
    refine append_ne_nil_of_left_ne_nil ?_ _
    unfold startSequence at hstart
    split_ifs at hstart
    all_goals
      obtain ⟨rfl, hnext⟩ := Prod.mk.inj hstart
      first
        | exact cons_ne_nil _ _
        | cases hnext

/-- **A text that begins with an ASCII character** was decoded from bytes that begin with it. -/
theorem decodePreservingBom_eq_cons {byte : UInt8} {rest : Bytes} {text : Text}
    (hc : c.toNat ≤ 0x7f) (h : decodePreservingBom (byte :: rest) = c :: text) :
    byte.toNat = c.toNat ∧ decodePreservingBom rest = text := by
  by_cases hbyte : byte.toNat ≤ 0x7f
  · have hstart : startSequence byte.toNat = ([Char.ofNat byte.toNat], none) := if_pos hbyte
    rw [decodePreservingBom, decodeFrom, hstart] at h
    obtain ⟨hhead, htail⟩ := cons.inj h
    rw [← hhead, toNat_ofNat_of_isValidChar (Or.inl (by omega))]
    exact ⟨rfl, htail⟩
  have hhigh : ∃ c' text', decodePreservingBom (byte :: rest) = c' :: text' ∧
      0x80 ≤ c'.toNat := by
    rw [decodePreservingBom, decodeFrom]
    obtain ⟨shown, next, hstart⟩ : ∃ shown next, startSequence byte.toNat = (shown, next) :=
      ⟨_, _, rfl⟩
    rw [hstart]
    cases next with
    | some pending =>
      have hnext : (startSequence byte.toNat).2 = some pending := congrArg Prod.snd hstart
      have hnone : shown = [] := by
        unfold startSequence at hstart
        split_ifs at hstart
        all_goals first
          | exact (congrArg Prod.fst hstart).symm
          | cases hstart
      obtain ⟨c', text', hcons, hc'⟩ :=
        @decodeFrom_pending_eq_cons rest _ (startSequence_sound hnext)
      exact ⟨c', text', by rw [hnone]; exact hcons, hc'⟩
    | none =>
      have hshown : shown = [replacementCharacter] := by
        unfold startSequence at hstart
        rw [if_neg hbyte] at hstart
        split_ifs at hstart
        all_goals first
          | exact (congrArg Prod.fst hstart).symm
          | cases hstart
      rw [hshown]
      exact ⟨replacementCharacter, _, rfl, by decide⟩
  obtain ⟨c', text', hcons, hc'⟩ := hhigh
  rw [h] at hcons
  obtain ⟨rfl, -⟩ := cons.inj hcons
  omega

/-- **Only an ASCII byte begins a text of ASCII characters.** -/
theorem lead_of_decodePreservingBom {byte : UInt8} {rest : Bytes}
    (h : ∀ c ∈ decodePreservingBom (byte :: rest), c.toNat ≤ 0x7f) : byte.toNat ≤ 0x7f := by
  have hne : decodePreservingBom (byte :: rest) ≠ [] := decodePreservingBom_cons_ne_nil byte rest
  obtain ⟨c, text, hcons⟩ := exists_cons_of_ne_nil hne
  have hc := h c (by rw [hcons]; exact mem_cons_self)
  rw [(decodePreservingBom_eq_cons hc hcons).1]
  exact hc

theorem decodePreservingBom_eq_append {front text : Text} (hfront : ∀ c ∈ front, c.toNat ≤ 0x7f)
    {bytes : Bytes} (h : decodePreservingBom bytes = front ++ text) :
    ∃ rest, bytes = encode front ++ rest ∧ decodePreservingBom rest = text := by
  induction front generalizing bytes with
  | nil => exact ⟨bytes, rfl, h⟩
  | cons c front ih =>
    cases bytes with
    | nil => cases h
    | cons byte bytes =>
      have hc := hfront c mem_cons_self
      obtain ⟨hbyte, hrest⟩ := decodePreservingBom_eq_cons hc h
      obtain ⟨rest, rfl, htext⟩ :=
        ih (fun c' hmem => hfront c' (mem_cons_of_mem _ hmem)) hrest
      refine ⟨rest, ?_, htext⟩
      have hchar : String.utf8EncodeChar c = [UInt8.ofNat c.toNat] := if_pos hc
      have hencode : encode (c :: front) = byte :: encode front := by
        rw [encode, flatMap_cons, hchar, ← hbyte, UInt8.ofNat_toNat]
        rfl
      rw [hencode]
      rfl

theorem decodePreservingBom_encode_append (front : Text) (rest : Bytes) :
    decodePreservingBom (encode front ++ rest) = front ++ decodePreservingBom rest := by
  induction front with
  | nil => rfl
  | cons c front ih =>
    rw [encode, flatMap_cons, append_assoc, decodePreservingBom, decodeFrom_utf8EncodeChar]
    exact congrArg (c :: ·) ih

theorem decodeFrom_append_ascii {front back : Bytes} {pending : Option Pending} {byte : UInt8}
    (hpending : ∀ waits, pending = some waits → 0x80 ≤ waits.lower) (hbyte : byte.toNat ≤ 0x7f) :
    decodeFrom pending (front ++ byte :: back) =
      decodeFrom pending front ++ Char.ofNat byte.toNat :: decodePreservingBom back := by
  have hstart : startSequence byte.toNat = ([Char.ofNat byte.toNat], none) := if_pos hbyte
  induction front generalizing pending with
  | nil =>
    cases pending with
    | none =>
      have hread : decodeFrom none (byte :: back) =
          [Char.ofNat byte.toNat] ++ decodeFrom none back := by rw [decodeFrom, hstart]
      exact hread
    | some waits =>
      have hlower := hpending waits rfl
      have hnext : continueSequence waits byte.toNat =
          ([replacementCharacter, Char.ofNat byte.toNat], none) := by
        rw [continueSequence, if_neg (by omega), hstart]
      have hread : decodeFrom (some waits) (byte :: back) =
          [replacementCharacter, Char.ofNat byte.toNat] ++ decodeFrom none back := by
        rw [decodeFrom, hnext]
      exact hread
  | cons head front ih =>
    cases pending with
    | none =>
      rw [cons_append, decodeFrom, decodeFrom]
      dsimp only
      rw [ih fun _ => startSequence_lower, append_assoc]
    | some waits =>
      rw [cons_append, decodeFrom, decodeFrom]
      dsimp only
      rw [ih fun _ => continueSequence_lower, append_assoc]

/-- **Splitting at an ASCII byte and decoding commute.** -/
theorem splitOn_decodePreservingBom {byte : UInt8} {c : Char} (hc : c = Char.ofNat byte.toNat)
    (hbyte : byte.toNat ≤ 0x7f) (bytes : Bytes) :
    (decodePreservingBom bytes).splitOn c = (bytes.splitOn byte).map decodePreservingBom := by
  have htoNat : c.toNat = byte.toNat := by
    rw [hc]
    exact toNat_ofNat_of_isValidChar (Or.inl (by omega))
  have hnot : ∀ part : Bytes, byte ∉ part → c ∉ decodePreservingBom part := by
    intro part hpart hmem
    obtain ⟨found, hfound, heq⟩ := mem_of_mem_decodePreservingBom hmem (by omega)
    rw [htoNat] at heq
    exact hpart (UInt8.toNat_inj.mp heq ▸ hfound)
  obtain ⟨size, hsize⟩ : ∃ size, size = bytes.length := ⟨_, rfl⟩
  induction size using Nat.strong_induction_on generalizing bytes with
  | _ size ih =>
    by_cases hmem : byte ∈ bytes
    · obtain ⟨front, back, rfl, hfront⟩ := eq_append_cons_of_mem hmem
      rw [length_append, length_cons] at hsize
      have hdecode : decodePreservingBom (front ++ byte :: back) =
          decodePreservingBom front ++ c :: decodePreservingBom back := by
        rw [hc]
        exact decodeFrom_append_ascii (fun _ hnone => by cases hnone) hbyte
      rw [hdecode, splitOn_append_cons_self_of_not_mem (hnot front hfront),
        splitOn_append_cons_self_of_not_mem hfront, map_cons,
        ih back.length (by omega) back rfl]
    · rw [splitOn_eq_singleton hmem, splitOn_eq_singleton (hnot bytes hmem)]
      rfl

end Tsgit
