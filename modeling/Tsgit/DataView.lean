import Mathlib.Data.List.Induction
import Mathlib.Tactic.Ring
import Tsgit.Error
import Tsgit.Outcome
import Tsgit.TypedArray

/-!
# Data Views

Big-endian reads and writes of a buffer, and what a buffer holds at a place. A read or a write
that leaves the buffer throws.
-/

namespace Tsgit

open List

/-- The four bytes of a number, modulo `2 ^ 32`. -/
def uint32Bytes (value : ℕ) : Bytes :=
  [UInt8.ofNat (value >>> 24), UInt8.ofNat (value >>> 16), UInt8.ofNat (value >>> 8),
    UInt8.ofNat value]

/-- The number that bytes state, the first one the highest. -/
def bigEndian (bytes : Bytes) : ℕ := bytes.foldl (fun value byte => value * 256 + byte.toNat) 0

def getUint8 (bytes : Bytes) (offset : ℕ) : Except Thrown ℕ :=
  match bytes[offset]? with
  | some byte => .ok byte.toNat
  | none => .error .rangeError

def getUint32 (bytes : Bytes) (offset : ℕ) : Except Thrown ℕ :=
  if offset + 4 ≤ bytes.length then .ok (bigEndian (subarray bytes offset (offset + 4)))
  else .error .rangeError

/-- The two bytes of a number, modulo `2 ^ 16`. -/
def uint16Bytes (value : ℕ) : Bytes := [UInt8.ofNat (value >>> 8), UInt8.ofNat value]

def getUint16 (bytes : Bytes) (offset : ℕ) : Except Thrown ℕ :=
  if offset + 2 ≤ bytes.length then .ok (bigEndian (subarray bytes offset (offset + 2)))
  else .error .rangeError

def getBigUint64 (bytes : Bytes) (offset : ℕ) : Except Thrown ℕ :=
  if offset + 8 ≤ bytes.length then .ok (bigEndian (subarray bytes offset (offset + 8)))
  else .error .rangeError

def setBytes (dst src : Bytes) (offset : ℕ) : Except Thrown Bytes :=
  if offset + src.length ≤ dst.length then .ok (overwrite dst src offset)
  else .error .rangeError

def setUint32 (bytes : Bytes) (offset value : ℕ) : Except Thrown Bytes :=
  setBytes bytes (uint32Bytes value) offset

def setUint16 (bytes : Bytes) (offset value : ℕ) : Except Thrown Bytes :=
  setBytes bytes (uint16Bytes value) offset

theorem length_uint32Bytes (value : ℕ) : (uint32Bytes value).length = 4 := rfl

theorem length_uint16Bytes (value : ℕ) : (uint16Bytes value).length = 2 := rfl

theorem bigEndian_lt (bytes : Bytes) : bigEndian bytes < 256 ^ bytes.length := by
  induction bytes using List.reverseRecOn with
  | nil => exact Nat.one_pos
  | append_singleton bytes byte ih =>
    have hbyte := byte.toNat_lt
    rw [bigEndian] at ih
    rw [bigEndian, foldl_append, foldl_cons, foldl_nil, length_append,
      length_singleton, Nat.pow_succ]
    omega

theorem bigEndian_cons (byte : UInt8) (bytes : Bytes) :
    bigEndian (byte :: bytes) = byte.toNat * 256 ^ bytes.length + bigEndian bytes := by
  have hfold : ∀ (bytes : Bytes) (start : ℕ),
      bytes.foldl (fun value byte => value * 256 + byte.toNat) start =
        start * 256 ^ bytes.length + bigEndian bytes := by
    intro bytes
    induction bytes with
    | nil => intro start; simp [bigEndian]
    | cons byte bytes ih =>
      intro start
      rw [bigEndian, foldl_cons, foldl_cons, ih, ih, length_cons, Nat.pow_succ]
      ring
  rw [bigEndian, foldl_cons, Nat.zero_mul, Nat.zero_add, hfold]

theorem bigEndian_append (front back : Bytes) :
    bigEndian (front ++ back) = bigEndian front * 256 ^ back.length + bigEndian back := by
  induction front with
  | nil =>
    have hnone : bigEndian [] = 0 := rfl
    rw [nil_append, hnone, Nat.zero_mul, Nat.zero_add]
  | cons byte front ih =>
    rw [cons_append, bigEndian_cons, bigEndian_cons, ih, length_append, Nat.pow_add]
    ring

theorem bigEndian_uint32Bytes (value : ℕ) : bigEndian (uint32Bytes value) = value % 2 ^ 32 := by
  simp only [bigEndian, uint32Bytes, foldl_cons, foldl_nil, UInt8.toNat_ofNat',
    Nat.shiftRight_eq_div_pow]
  omega

theorem getUint32_lt {bytes : Bytes} {offset value : ℕ}
    (h : getUint32 bytes offset = .ok value) : value < 2 ^ 32 := by
  unfold getUint32 at h
  split at h
  · next hfits =>
    cases h
    refine Nat.lt_of_lt_of_eq (bigEndian_lt _) ?_
    rw [length_subarray _ hfits, Nat.add_sub_cancel_left]
    norm_num
  · cases h

section

variable {refuses : Thrown → Prop} {bytes : Bytes} {offset : ℕ}

theorem getUint8_outcome (h : offset < bytes.length) :
    Outcome refuses (· < 2 ^ 8) (getUint8 bytes offset) := by
  rw [getUint8, getElem?_eq_getElem h]
  exact Outcome.ok (UInt8.toNat_lt _)

theorem getUint32_eq_ok (h : offset + 4 ≤ bytes.length) :
    ∃ value < 2 ^ 32, getUint32 bytes offset = .ok value := by
  have hok : getUint32 bytes offset = .ok (bigEndian (subarray bytes offset (offset + 4))) :=
    if_pos h
  exact ⟨_, getUint32_lt hok, hok⟩

theorem getUint32_outcome (h : offset + 4 ≤ bytes.length) :
    Outcome refuses (· < 2 ^ 32) (getUint32 bytes offset) := by
  obtain ⟨value, hlt, hok⟩ := getUint32_eq_ok h
  rw [hok]
  exact Outcome.ok hlt

theorem getUint16_outcome (h : offset + 2 ≤ bytes.length) :
    Outcome refuses (fun _ => True) (getUint16 bytes offset) := by
  rw [getUint16, if_pos h]
  exact Outcome.ok trivial

theorem getBigUint64_outcome (h : offset + 8 ≤ bytes.length) :
    Outcome refuses (fun _ => True) (getBigUint64 bytes offset) := by
  rw [getBigUint64, if_pos h]
  exact Outcome.ok trivial

end

/-! ### What a buffer holds -/

section

variable {α : Type}

theorem getElem?_overwrite {dst src : List α} {offset : ℕ}
    (hfits : offset + src.length ≤ dst.length) (i : ℕ) :
    (overwrite dst src offset)[i]? =
      if offset ≤ i ∧ i < offset + src.length then src[i - offset]? else dst[i]? := by
  have htake : (dst.take offset).length = offset := by
    rw [length_take]
    omega
  rw [overwrite, append_assoc]
  rcases Nat.lt_or_ge i offset with hbefore | hfrom
  · rw [if_neg (by omega), getElem?_append_left (by omega), getElem?_take_of_lt hbefore]
  · rw [getElem?_append_right (by omega), htake]
    rcases Nat.lt_or_ge i (offset + src.length) with hinside | hbehind
    · rw [if_pos ⟨hfrom, hinside⟩, getElem?_append_left (by omega)]
    · have hplace : offset + src.length + (i - offset - src.length) = i := by omega
      rw [if_neg (by omega), getElem?_append_right (by omega), getElem?_drop, hplace]

def Holds (buf : List α) (offset : ℕ) (src : List α) : Prop :=
  ∀ i < src.length, buf[offset + i]? = src[i]?

variable {buf src src' : List α} {offset offset' : ℕ}

theorem holds_overwrite (hfits : offset + src.length ≤ buf.length) :
    Holds (overwrite buf src offset) offset src := by
  intro i hi
  rw [getElem?_overwrite hfits, if_pos ⟨Nat.le_add_right _ _, by omega⟩, Nat.add_sub_cancel_left]

theorem Holds.le_length (h : Holds buf offset src) (hpos : 0 < src.length) :
    offset + src.length ≤ buf.length := by
  have hlast := h (src.length - 1) (by omega)
  have := (List.getElem?_eq_some_iff.mp
    (hlast.trans (getElem?_eq_getElem (by omega)))).1
  omega

theorem Holds.subarray_eq (h : Holds buf offset src) :
    subarray buf offset (offset + src.length) = src := by
  refine ext_getElem? fun i => ?_
  rcases Nat.lt_or_ge i src.length with hlt | hge
  · rw [getElem?_subarray (by omega), h i hlt]
  · rw [getElem?_eq_none hge, getElem?_eq_none]
    rw [subarray, length_take]
    omega

theorem holds_append (front src back : List α) : Holds (front ++ (src ++ back)) front.length src := by
  intro i hi
  rw [getElem?_append_right (Nat.le_add_right _ _), Nat.add_sub_cancel_left,
    getElem?_append_left hi]

/-- What is held inside of what is held. -/
theorem Holds.trans {inner : List α} {k : ℕ} (h : Holds buf offset src) (hinner : Holds src k inner)
    (hfits : k + inner.length ≤ src.length) : Holds buf (offset + k) inner := by
  intro i hi
  rw [Nat.add_assoc, h (k + i) (by omega), hinner i hi]

section

variable {β : Type} {f : β → List α} {width : ℕ}

theorem length_flatMap_of_width {l : List β} (hwidth : ∀ b ∈ l, (f b).length = width) :
    (l.flatMap f).length = l.length * width := by
  induction l with
  | nil => exact (Nat.zero_mul width).symm
  | cons b l ih =>
    rw [flatMap_cons, length_append, ih (forall_mem_cons.mp hwidth).2,
      hwidth b mem_cons_self, length_cons, Nat.succ_mul, Nat.add_comm]

theorem holds_flatMap {l : List β} (hwidth : ∀ b ∈ l, (f b).length = width) {k : ℕ} {b : β}
    (h : l[k]? = some b) : Holds (l.flatMap f) (k * width) (f b) := by
  induction l generalizing k with
  | nil => cases h
  | cons c l ih =>
    have hhead := hwidth c mem_cons_self
    rw [flatMap_cons]
    intro i hi
    cases k with
    | zero =>
      obtain rfl := Option.some.inj h
      rw [Nat.zero_mul, Nat.zero_add, getElem?_append_left hi]
    | succ k =>
      rw [getElem?_cons_succ] at h
      have hplace : (k + 1) * width + i - (f c).length = k * width + i := by
        rw [hhead, Nat.succ_mul]
        omega
      rw [getElem?_append_right (by rw [hhead, Nat.succ_mul]; omega), hplace]
      exact ih (forall_mem_cons.mp hwidth).2 h i hi

end

/-- What a place holds from `k` on. -/
theorem Holds.drop (h : Holds buf offset src) (k : ℕ) :
    Holds buf (offset + k) (src.drop k) := by
  intro i hi
  rw [length_drop] at hi
  rw [getElem?_drop, Nat.add_assoc, h (k + i) (by omega)]

theorem Holds.left (h : Holds buf offset (src ++ src')) : Holds buf offset src := by
  intro i hi
  rw [h i (by rw [length_append]; omega), getElem?_append_left hi]

theorem Holds.right (h : Holds buf offset (src ++ src')) :
    Holds buf (offset + src.length) src' := by
  have hdrop := h.drop src.length
  rwa [drop_left] at hdrop

theorem holds_subarray (buf : List α) (start stop : ℕ) :
    Holds buf start (subarray buf start stop) := by
  intro i hi
  rw [subarray, length_take] at hi
  rw [getElem?_subarray (by omega)]

theorem holds_self (src : List α) : Holds src 0 src := by
  intro i _
  rw [Nat.zero_add]

end

theorem Holds.getUint32 {buf : Bytes} {offset value : ℕ} (h : Holds buf offset (uint32Bytes value))
    (hvalue : value < 2 ^ 32) : getUint32 buf offset = .ok value := by
  have hfits : offset + 4 ≤ buf.length := h.le_length (by decide : 0 < 4)
  have hread : subarray buf offset (offset + 4) = uint32Bytes value := h.subarray_eq
  rw [Tsgit.getUint32, if_pos hfits, hread, bigEndian_uint32Bytes, Nat.mod_eq_of_lt hvalue]

theorem bigEndian_uint16Bytes (value : ℕ) : bigEndian (uint16Bytes value) = value % 2 ^ 16 := by
  simp only [bigEndian, uint16Bytes, foldl_cons, foldl_nil, UInt8.toNat_ofNat',
    Nat.shiftRight_eq_div_pow]
  omega

theorem Holds.getUint16 {buf : Bytes} {offset value : ℕ} (h : Holds buf offset (uint16Bytes value))
    (hvalue : value < 2 ^ 16) : getUint16 buf offset = .ok value := by
  have hfits : offset + 2 ≤ buf.length := h.le_length (by decide : 0 < 2)
  have hread : subarray buf offset (offset + 2) = uint16Bytes value := h.subarray_eq
  rw [Tsgit.getUint16, if_pos hfits, hread, bigEndian_uint16Bytes, Nat.mod_eq_of_lt hvalue]

theorem setBytes_fill {written src : Bytes} {room offset : ℕ} (hoffset : offset = written.length)
    (hroom : src.length ≤ room) :
    setBytes (written ++ replicate room 0) src offset =
      .ok ((written ++ src) ++ replicate (room - src.length) 0) := by
  have hfits : offset + src.length ≤ (written ++ replicate room (0 : UInt8)).length := by
    rw [length_append, length_replicate]
    omega
  rw [setBytes, if_pos hfits, overwrite, hoffset, take_left, drop_append,
    drop_eq_nil_of_le (Nat.le_add_right _ _), Nat.add_sub_cancel_left, nil_append,
    drop_replicate]

theorem fill_zeros (written : Bytes) {count room : ℕ} (h : count ≤ room) :
    written ++ replicate room (0 : UInt8) =
      (written ++ replicate count 0) ++ replicate (room - count) 0 := by
  rw [append_assoc, replicate_append_replicate, Nat.add_sub_cancel' h]

/-- **A step that writes `src` behind what is written**, where there is room for it. -/
def Appends (step : Bytes → Except Thrown Bytes) (written src : Bytes) : Prop :=
  ∀ room, src.length ≤ room → step (written ++ replicate room 0) =
      .ok ((written ++ src) ++ replicate (room - src.length) 0)

section

variable {step next : Bytes → Except Thrown Bytes} {written src src' : Bytes} {offset : ℕ}

theorem appends_setBytes (hoffset : offset = written.length) :
    Appends (fun buf => setBytes buf src offset) written src :=
  fun _ hroom => setBytes_fill hoffset hroom

theorem appends_setUint32 {value : ℕ} (hoffset : offset = written.length) :
    Appends (fun buf => setUint32 buf offset value) written (uint32Bytes value) :=
  appends_setBytes hoffset

theorem appends_setUint16 {value : ℕ} (hoffset : offset = written.length) :
    Appends (fun buf => setUint16 buf offset value) written (uint16Bytes value) :=
  appends_setBytes hoffset

theorem appends_ok (written : Bytes) : Appends .ok written [] := by
  intro room _
  rw [append_nil, length_nil, Nat.sub_zero]

theorem Appends.bind (h : Appends step written src) (hnext : Appends next (written ++ src) src') :
    Appends (fun buf => step buf >>= next) written (src ++ src') := by
  intro room hroom
  rw [length_append] at hroom ⊢
  refine (ok_bind_eq (h room (by omega))).trans ?_
  rw [hnext (room - src.length) (by omega), append_assoc written, Nat.sub_sub]

theorem Appends.zeros (h : Appends step written src) (count : ℕ) :
    Appends step written (src ++ replicate count 0) := by
  intro room hroom
  rw [length_append, length_replicate] at hroom ⊢
  have hrest : room - src.length - count = room - (src.length + count) := Nat.sub_sub _ _ _
  rw [h room (by omega), fill_zeros _ (show count ≤ room - src.length by omega), hrest,
    append_assoc written]

end

/-! ### Counted loops -/

def forRange {m : Type → Type} [Monad m] {σ : Type} : ℕ → (ℕ → σ → m σ) → σ → m σ
  | 0, _, state => pure state
  | n + 1, step, state => do step n (← forRange n step state)

/-- **A counted loop** that keeps an invariant runs to its end. -/
theorem forRange_spec {ε σ : Type} {n : ℕ} {step : ℕ → σ → Except ε σ} {state : σ}
    (inv : ℕ → σ → Prop) (hstart : inv 0 state)
    (hstep : ∀ i < n, ∀ s, inv i s → ∃ s', step i s = .ok s' ∧ inv (i + 1) s') :
    ∃ final, forRange n step state = .ok final ∧ inv n final := by
  induction n with
  | zero => exact ⟨state, rfl, hstart⟩
  | succ n ih =>
    obtain ⟨s, hs, hinv⟩ := ih fun i hi => hstep i (Nat.lt_succ_of_lt hi)
    obtain ⟨s', hs', hinv'⟩ := hstep n (Nat.lt_succ_self n) s hinv
    exact ⟨s', by rw [forRange, hs]; exact hs', hinv'⟩

theorem forRange_outcome {ε σ : Type} {refuses : ε → Prop} {n : ℕ} {step : ℕ → σ → Except ε σ}
    {state : σ} (inv : ℕ → σ → Prop) (hstart : inv 0 state)
    (hstep : ∀ i < n, ∀ s, inv i s → Outcome refuses (inv (i + 1)) (step i s)) :
    Outcome refuses (inv n) (forRange n step state) := by
  induction n with
  | zero => exact .pure hstart
  | succ n ih =>
    refine (ih fun i hi => hstep i (Nat.lt_succ_of_lt hi)).bind fun s hs => ?_
    exact hstep n (Nat.lt_succ_self n) s hs

/-- The buffer is the same but for `[start, stop)`. -/
structure ChangedWithin (start stop : ℕ) (before after : Bytes) : Prop where
  length_eq : after.length = before.length
  getElem?_eq : ∀ i, i < start ∨ stop ≤ i → after[i]? = before[i]?

section

variable {start stop : ℕ} {before between after : Bytes}

theorem ChangedWithin.refl (start stop : ℕ) (buf : Bytes) : ChangedWithin start stop buf buf :=
  ⟨rfl, fun _ _ => rfl⟩

theorem ChangedWithin.trans (h : ChangedWithin start stop before between)
    (h' : ChangedWithin start stop between after) : ChangedWithin start stop before after :=
  ⟨h'.length_eq.trans h.length_eq, fun i hi => (h'.getElem?_eq i hi).trans (h.getElem?_eq i hi)⟩

theorem ChangedWithin.mono {start' stop' : ℕ} (h : ChangedWithin start stop before after)
    (hstart : start' ≤ start) (hstop : stop ≤ stop') : ChangedWithin start' stop' before after :=
  ⟨h.length_eq, fun i hi => h.getElem?_eq i (by omega)⟩

/-- What is held outside is still held. -/
theorem ChangedWithin.holds {offset : ℕ} {src : Bytes} (h : ChangedWithin start stop before after)
    (hholds : Holds before offset src) (hout : offset + src.length ≤ start ∨ stop ≤ offset) :
    Holds after offset src := by
  intro i hi
  rw [h.getElem?_eq (offset + i) (by omega)]
  exact hholds i hi

theorem changedWithin_overwrite {src : Bytes} {offset : ℕ}
    (hfits : offset + src.length ≤ before.length) :
    ChangedWithin offset (offset + src.length) before (overwrite before src offset) :=
  ⟨length_overwrite hfits, fun i hi => by rw [getElem?_overwrite hfits, if_neg (by omega)]⟩

/-- A write inside the buffer. -/
theorem setBytes_spec {src : Bytes} {offset : ℕ} (hfits : offset + src.length ≤ before.length) :
    ∃ after, setBytes before src offset = .ok after ∧ Holds after offset src ∧
      ChangedWithin offset (offset + src.length) before after :=
  ⟨_, if_pos hfits, holds_overwrite hfits, changedWithin_overwrite hfits⟩

/-- **A table written slot by slot** holds each slot, and changes nothing else. -/
theorem writeTable_spec {n width start : ℕ} {value : ℕ → Bytes} {buf : Bytes}
    (hwidth : ∀ p < n, (value p).length = width) (hfits : start + n * width ≤ buf.length) :
    ∃ after, forRange n (fun p buf => setBytes buf (value p) (start + p * width)) buf = .ok after ∧
      (∀ p < n, Holds after (start + p * width) (value p)) ∧
      ChangedWithin start (start + n * width) buf after := by
  have hslot : ∀ {p q : ℕ}, p < q → p * width + width ≤ q * width := by
    intro p q hlt
    calc p * width + width = (p + 1) * width := (Nat.succ_mul p width).symm
      _ ≤ q * width := Nat.mul_le_mul_right _ hlt
  let inv (i : ℕ) (after : Bytes) : Prop :=
    (∀ p < i, Holds after (start + p * width) (value p)) ∧
      ChangedWithin start (start + n * width) buf after
  have hstart : inv 0 buf := ⟨fun p hp => absurd hp (Nat.not_lt_zero p), .refl _ _ _⟩
  have hstep : ∀ i < n, ∀ after, inv i after →
      ∃ next, setBytes after (value i) (start + i * width) = .ok next ∧ inv (i + 1) next := by
    rintro i hi after ⟨hheld, hchanged⟩
    have hend := hslot hi
    have hlength := hwidth i hi
    obtain ⟨next, hset, hholds, hwithin⟩ := @setBytes_spec after (value i) (start + i * width)
      (by rw [hchanged.length_eq]; omega)
    refine ⟨next, hset, fun p hp => ?_, hchanged.trans (hwithin.mono (by omega) (by omega))⟩
    rcases Nat.lt_succ_iff_lt_or_eq.mp hp with hlt | rfl
    · have hbefore := hslot hlt
      exact hwithin.holds (hheld p hlt) (.inl (by rw [hwidth p (hlt.trans hi)]; omega))
    · exact hholds
  obtain ⟨after, hrun, hheld, hchanged⟩ := forRange_spec inv hstart hstep
  exact ⟨after, hrun, hheld, hchanged⟩

end

end Tsgit
