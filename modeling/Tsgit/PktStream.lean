import Tsgit.PktLine

/-!
# Packet Lines in Chunks

However a stream is cut, the decoder yields the frames of its bytes. `frames` reads them off the
bytes alone; the bytes that are left behind the last complete frame are what the decoder keeps.
-/

namespace Tsgit.Pkt

open Generator List

/-! ### The frames of bytes -/

/-- The frame that bytes start with, and its size. -/
def headOf (v2 : Bool) (bytes : Bytes) : Except Thrown (Option (PktLine × ℕ)) :=
  if bytes.length < pktLengthBytes then .ok none
  else do
    let length ← parseLength bytes 0
    match ← classify length bytes.length v2 with
    | .wait => pure none
    | .data consume => pure (some (.data (subarray bytes pktLengthBytes consume), consume))
    | .marker packet consume => pure (some (packet, consume))

theorem classify_cases {length available : ℕ} {v2 : Bool} {decision : Decision}
    (h : classify length available v2 = .ok decision) :
    (∃ packet, length < pktLengthBytes ∧ decision = .marker packet pktLengthBytes) ∨
      (pktLengthBytes ≤ length ∧ length ≤ available ∧ decision = .data length) ∨
      (pktLengthBytes ≤ length ∧ available < length ∧ decision = .wait) := by
  unfold classify at h
  rw [pktLengthBytes] at h ⊢
  split_ifs at h with hzero hone hfirst htwo hsecond hreserved hwait
  · cases h
    exact .inl ⟨_, by omega, rfl⟩
  · cases h
    exact .inl ⟨_, by omega, rfl⟩
  · cases h
    exact .inl ⟨_, by omega, rfl⟩
  · cases h
    exact .inr (.inr ⟨by omega, hwait, rfl⟩)
  · cases h
    exact .inr (.inl ⟨by omega, by omega, rfl⟩)

theorem parseLength_le {view : Bytes} {offset length : ℕ}
    (h : parseLength view offset = .ok length) : length ≤ maxPktLineFrame := by
  unfold parseLength at h
  dsimp only at h
  split_ifs at h with hdigits hlarge
  cases h
  exact Nat.not_lt.mp hlarge

/-- The bytes end before their first frame does. -/
def Incomplete (bytes : Bytes) : Prop :=
  bytes.length < pktLengthBytes ∨
    ∃ length, parseLength bytes 0 = .ok length ∧ pktLengthBytes ≤ length ∧ bytes.length < length

theorem Incomplete.length_lt {bytes : Bytes} (h : Incomplete bytes) :
    bytes.length < maxPktLineFrame := by
  rcases h with hshort | ⟨length, hparse, -, hlt⟩
  · rw [maxPktLineFrame]
    omega
  · exact hlt.trans_le (parseLength_le hparse)

theorem headOf_cases {v2 : Bool} {bytes : Bytes} {head : Option (PktLine × ℕ)}
    (h : headOf v2 bytes = .ok head) :
    (head = none ∧ Incomplete bytes) ∨
      ∃ packet size, head = some (packet, size) ∧ pktLengthBytes ≤ size ∧
        size ≤ bytes.length := by
  unfold headOf at h
  split at h
  · next hshort =>
    cases h
    exact .inl ⟨rfl, .inl hshort⟩
  · next hlong =>
    have hfits := Nat.not_lt.mp hlong
    obtain ⟨length, hparse, h⟩ := bind_eq_ok.mp h
    obtain ⟨decision, hdecision, h⟩ := bind_eq_ok.mp h
    rcases classify_cases hdecision with ⟨packet, -, rfl⟩ | ⟨hfour, hle, rfl⟩ |
      ⟨hfour, hlt, rfl⟩
    · cases h
      exact .inr ⟨_, _, rfl, le_rfl, hfits⟩
    · cases h
      exact .inr ⟨_, _, rfl, hfour, hle⟩
    · cases h
      exact .inl ⟨rfl, .inr ⟨length, hparse, hfour, hlt⟩⟩

theorem drop_lt_of_headOf {v2 : Bool} {bytes : Bytes} {packet : PktLine} {size : ℕ}
    (h : headOf v2 bytes = .ok (some (packet, size))) :
    (bytes.drop size).length < bytes.length := by
  rcases headOf_cases h with ⟨hnone, -⟩ | ⟨_, _, hsome, hfour, hle⟩
  · cases hnone
  · cases hsome
    rw [length_drop]
    rw [pktLengthBytes] at hfour
    omega

/-- **The frames of bytes**: yields each complete frame, and returns what is left behind them. -/
def frames (v2 : Bool) (bytes : Bytes) : Generator PktLine Thrown Bytes :=
  match _h : headOf v2 bytes with
  | .error error => thrown error
  | .ok none => returned bytes
  | .ok (some (packet, size)) => yielded packet (frames v2 (bytes.drop size))
termination_by bytes.length
decreasing_by exact drop_lt_of_headOf _h

section

variable {v2 : Bool} {bytes : Bytes}

theorem frames_of_error {error : Thrown} (h : headOf v2 bytes = .error error) :
    frames v2 bytes = thrown error := by
  rw [frames]
  split
  · next h' => cases h.symm.trans h'; rfl
  · next h' => cases h.symm.trans h'
  · next h' => cases h.symm.trans h'

theorem frames_of_none (h : headOf v2 bytes = .ok none) : frames v2 bytes = returned bytes := by
  rw [frames]
  split
  · next h' => cases h.symm.trans h'
  · rfl
  · next h' => cases h.symm.trans h'

theorem frames_of_some {packet : PktLine} {size : ℕ}
    (h : headOf v2 bytes = .ok (some (packet, size))) :
    frames v2 bytes = yielded packet (frames v2 (bytes.drop size)) := by
  rw [frames]
  split
  · next h' => cases h.symm.trans h'
  · next h' => cases h.symm.trans h'
  · next h' => cases h.symm.trans h'; rfl

theorem frames_ends (v2 : Bool) (bytes : Bytes) :
    Ends (fun rest => Incomplete rest ∧ headOf v2 rest = .ok none ∧ rest <:+ bytes)
      (frames v2 bytes) := by
  induction bytes using frames.induct v2 with
  | case1 bytes error h =>
    rw [frames_of_error h]
    exact .thrown error
  | case2 bytes h =>
    rw [frames_of_none h]
    rcases headOf_cases h with ⟨-, hincomplete⟩ | ⟨_, _, hsome, -⟩
    · exact .returned ⟨hincomplete, h, suffix_rfl⟩
    · cases hsome
  | case3 bytes packet size h ih =>
    rw [frames_of_some h]
    refine .yielded packet fun rest hrest => ?_
    obtain ⟨hincomplete, hnone, hsuffix⟩ := ih rest hrest
    exact ⟨hincomplete, hnone, hsuffix.trans (drop_suffix size bytes)⟩

end

/-! ### Frames and more bytes -/

theorem subarray_append_of_le {as bs : Bytes} {start stop : ℕ} (h : stop ≤ as.length) :
    subarray (as ++ bs) start stop = subarray as start stop := by
  rcases Nat.lt_or_ge stop start with hlt | hle
  · rw [subarray, subarray, Nat.sub_eq_zero_of_le hlt.le, take_zero, take_zero]
  · rw [subarray, subarray, drop_append_of_le_length (hle.trans h), take_append_of_le_length]
    rw [length_drop]
    omega

theorem parseLength_append {as bs : Bytes} (h : pktLengthBytes ≤ as.length) :
    parseLength (as ++ bs) 0 = parseLength as 0 := by
  unfold parseLength
  dsimp only
  rw [subarray_append_of_le (by omega)]

theorem classify_mono {length available available' : ℕ} {v2 : Bool} (h : available ≤ available')
    (hwait : classify length available v2 ≠ .ok .wait) :
    classify length available' v2 = classify length available v2 := by
  unfold classify at hwait ⊢
  split_ifs at hwait ⊢
  all_goals first
    | rfl
    | omega
    | exact absurd rfl hwait

theorem headOf_append {v2 : Bool} {as : Bytes} (bs : Bytes)
    (h : headOf v2 as ≠ .ok none) : headOf v2 (as ++ bs) = headOf v2 as := by
  have hlong : ¬ as.length < pktLengthBytes := by
    intro hshort
    exact h (if_pos hshort)
  have hfits := Nat.not_lt.mp hlong
  have hlong' : ¬ (as ++ bs).length < pktLengthBytes := by
    rw [length_append]
    omega
  unfold headOf at h ⊢
  rw [if_neg hlong] at h ⊢
  rw [if_neg hlong', parseLength_append hfits]
  cases hparse : parseLength as 0 with
  | error error => rfl
  | ok length =>
    rw [hparse] at h
    have hwait : classify length as.length v2 ≠ .ok .wait := by
      intro hwait
      dsimp only [bind, Except.bind] at h
      rw [hwait] at h
      exact h rfl
    have hsame := classify_mono (length_append ▸ Nat.le_add_right as.length bs.length :
      as.length ≤ (as ++ bs).length) hwait
    dsimp only [bind, Except.bind]
    rw [hsame]
    cases hdecision : classify length as.length v2 with
    | error error => rfl
    | ok decision =>
      rcases classify_cases hdecision with ⟨packet, -, rfl⟩ | ⟨-, hle, rfl⟩ | ⟨-, -, rfl⟩
      · rfl
      · dsimp only
        rw [subarray_append_of_le hle]
      · rfl

theorem frames_append (v2 : Bool) (as bs : Bytes) :
    frames v2 (as ++ bs) = frames v2 as >>= fun rest => frames v2 (rest ++ bs) := by
  induction as using frames.induct v2 with
  | case1 as error h =>
    have happend := headOf_append bs (fun hnone => by cases h.symm.trans hnone)
    rw [frames_of_error h, frames_of_error (happend.trans h)]
    rfl
  | case2 as h =>
    rw [frames_of_none h]
    rfl
  | case3 as packet size h ih =>
    have hle : size ≤ as.length := by
      rcases headOf_cases h with ⟨hnone, -⟩ | ⟨_, _, hsome, -, hle⟩
      · cases hnone
      · cases hsome
        exact hle
    have happend := headOf_append bs (fun hnone => by cases h.symm.trans hnone)
    rw [frames_of_some h, frames_of_some (happend.trans h), yielded_bind,
      drop_append_of_le_length hle, ih]

/-! ### The decoder's loops -/

theorem subarray_subarray {xs : Bytes} {start stop a b : ℕ} (h : start + b ≤ stop) :
    subarray (subarray xs start stop) a b = subarray xs (start + a) (start + b) := by
  refine ext_getElem? fun i => ?_
  rcases Nat.lt_or_ge (a + i) b with hlt | hge
  · rw [getElem?_subarray hlt, getElem?_subarray (by omega), getElem?_subarray (by omega),
      Nat.add_assoc]
  · rw [subarray, getElem?_take, if_neg (by omega), subarray, getElem?_take, if_neg (by omega)]

section

variable {view : Bytes} {limit start : ℕ} {v2 : Bool}

theorem parseLength_subarray (h : start + pktLengthBytes ≤ limit) :
    parseLength (subarray view start limit) 0 = parseLength view start := by
  unfold parseLength
  dsimp only
  rw [Nat.zero_add, subarray_subarray h, Nat.add_zero]

theorem drainTurn_cases (hlimit : limit ≤ view.length) (hstart : start ≤ limit) :
    (∃ error, headOf v2 (subarray view start limit) = .error error ∧
      drainTurn view limit v2 start = thrown error) ∨
    (headOf v2 (subarray view start limit) = .ok none ∧
      drainTurn view limit v2 start = returned (.stop start)) ∨
    ∃ packet size, headOf v2 (subarray view start limit) = .ok (some (packet, size)) ∧
      pktLengthBytes ≤ size ∧ start + size ≤ limit ∧
      drainTurn view limit v2 start = yielded packet (returned (.again (start + size))) := by
  have hlength : (subarray view start limit).length = limit - start := length_subarray start hlimit
  unfold drainTurn headOf
  rw [hlength]
  by_cases hshort : limit - start < pktLengthBytes
  · rw [if_pos hshort, if_pos hshort]
    exact .inr (.inl ⟨rfl, rfl⟩)
  have hfits : start + pktLengthBytes ≤ limit := by omega
  rw [if_neg hshort, if_neg hshort, parseLength_subarray hfits]
  cases parseLength view start with
  | error error => exact .inl ⟨error, rfl, rfl⟩
  | ok length =>
    dsimp only [bind, Except.bind, Generator.ofExcept, andThen]
    cases hdecision : classify length (limit - start) v2 with
    | error error => exact .inl ⟨error, rfl, rfl⟩
    | ok decision =>
      rcases classify_cases hdecision with ⟨packet, -, rfl⟩ | ⟨hfour, hle, rfl⟩ |
        ⟨-, -, rfl⟩
      · exact .inr (.inr ⟨_, _, rfl, le_rfl, hfits, rfl⟩)
      · have hend : start + length ≤ limit := by omega
        refine .inr (.inr ⟨_, _, rfl, hfour, hend, ?_⟩)
        rw [subarray_subarray hend]
        rfl
      · exact .inr (.inl ⟨rfl, rfl⟩)

/-- **The drain** yields the frames of `view[start, limit)`, and ends where the rest starts. -/
theorem drainFrames_frames (hlimit : limit ≤ view.length) (fuel : ℕ) (hstart : start ≤ limit)
    (hfuel : limit - start < fuel) :
    Alike (fun offset rest => start ≤ offset ∧ offset ≤ limit ∧ rest = subarray view offset limit)
      (drainFrames fuel view limit v2 start) (frames v2 (subarray view start limit)) := by
  induction fuel generalizing start with
  | zero => omega
  | succ fuel ih =>
    unfold drainFrames at ih ⊢
    rw [Generator.loop]
    rcases @drainTurn_cases view limit start v2 hlimit hstart with ⟨error, hhead, hturn⟩ |
      ⟨hhead, hturn⟩ | ⟨packet, size, hhead, hfour, hend, hturn⟩
    · rw [hturn, frames_of_error hhead]
      exact .thrown error
    · rw [hturn, frames_of_none hhead]
      exact .returned ⟨le_rfl, hstart, rfl⟩
    rw [pktLengthBytes] at hfour
    have hdrop : (subarray view start limit).drop size = subarray view (start + size) limit := by
      rw [subarray, subarray, drop_take, drop_drop, Nat.sub_sub]
    rw [hturn, frames_of_some hhead, hdrop]
    refine .yielded packet ((ih hend (by omega)).mono ?_)
    rintro offset rest ⟨hbehind, hle, rfl⟩
    exact ⟨by omega, hle, rfl⟩

end

/-- The buffer keeps these bytes. -/
structure Carries (buffer : PktBuffer) (rest : Bytes) : Prop where
  length_eq : buffer.buf.length = maxPktLineFrame
  used_eq : buffer.used = rest.length
  held : buffer.buf.take buffer.used = rest

theorem Carries.fresh : Carries .fresh [] where
  length_eq := length_replicate
  used_eq := rfl
  held := take_zero

theorem incomplete_of_headOf {v2 : Bool} {bytes : Bytes} (h : headOf v2 bytes = .ok none) :
    Incomplete bytes := by
  rcases headOf_cases h with ⟨-, hincomplete⟩ | ⟨_, _, hsome, -⟩
  · exact hincomplete
  · cases hsome

section

variable {fuel off : ℕ} {chunk rest : Bytes} {v2 : Bool} {buffer : PktBuffer}

/-- What was kept is copied to the front of the buffer. -/
theorem carries_copyDown {buf : Bytes} {start stop : ℕ} (hlength : buf.length = maxPktLineFrame)
    (hle : stop ≤ buf.length) :
    Carries ⟨copyDown buf start stop, stop - start⟩ (subarray buf start stop) := by
  have hwidth := length_subarray start hle
  have hfits : 0 + (subarray buf start stop).length ≤ buf.length := by omega
  refine ⟨(length_overwrite hfits).trans hlength, hwidth.symm, ?_⟩
  have htake := @take_overwrite _ buf (subarray buf start stop) 0 (Nat.zero_le _)
  rwa [hwidth, Nat.zero_add, take_zero, nil_append] at htake

theorem acceptTurn_pending (hcarries : Carries buffer rest) (hrest : headOf v2 rest = .ok none)
    (hused : 0 < rest.length) (hoff : off < chunk.length)
    (hfuel : rest.length + (chunk.length - off) < fuel) :
    ∃ stop, off < stop ∧ stop ≤ chunk.length ∧
      Alike (fun turn rest' => ∃ buffer', turn = .again (buffer', stop) ∧ Carries buffer' rest')
        (acceptTurn fuel chunk v2 (buffer, off)) (frames v2 (rest ++ subarray chunk off stop)) := by
  have hroom := (incomplete_of_headOf hrest).length_lt
  obtain ⟨take, htake⟩ : ∃ take, take = min (maxPktLineFrame - rest.length) (chunk.length - off) :=
    ⟨_, rfl⟩
  have hwidth : (subarray chunk off (off + take)).length = take := by
    rw [length_subarray off (by omega), Nat.add_sub_cancel_left]
  have hfits : rest.length + (subarray chunk off (off + take)).length ≤ buffer.buf.length := by
    rw [hcarries.length_eq]
    omega
  obtain ⟨buf, hbuf⟩ : ∃ buf, buf =
      overwrite buffer.buf (subarray chunk off (off + take)) rest.length := ⟨_, rfl⟩
  have hset : setBytes buffer.buf (subarray chunk off (off + take)) rest.length = .ok buf := by
    rw [hbuf]
    exact if_pos hfits
  have hlength : buf.length = maxPktLineFrame := by
    rw [hbuf, length_overwrite hfits, hcarries.length_eq]
  have hfront : subarray buf 0 (rest.length + take) = rest ++ subarray chunk off (off + take) := by
    have hfilled := @take_overwrite _ buffer.buf (subarray chunk off (off + take)) rest.length
      (by omega)
    have hheld := hcarries.held
    rw [hcarries.used_eq] at hheld
    rw [← hbuf, hwidth, hheld] at hfilled
    exact hfilled
  refine ⟨off + take, by omega, by omega, ?_⟩
  have hdrain := @drainFrames_frames buf (rest.length + take) 0 v2 (by omega) fuel (Nat.zero_le _)
    (by omega)
  rw [hfront] at hdrain
  unfold acceptTurn
  dsimp only
  rw [if_neg (not_not_intro hoff), hcarries.used_eq, if_pos hused, hcarries.length_eq, ← htake,
    hset]
  refine hdrain.bind_left ?_
  rintro consumed rest' ⟨-, -, rfl⟩
  exact .returned ⟨_, rfl, carries_copyDown hlength (by omega)⟩

theorem acceptTurn_direct (hcarries : Carries buffer []) (hoff : off < chunk.length)
    (hfuel : chunk.length - off < fuel) :
    Alike (fun turn rest' => ∃ buffer', turn = .again (buffer', chunk.length) ∧
        Carries buffer' rest')
      (acceptTurn fuel chunk v2 (buffer, off)) (frames v2 (subarray chunk off chunk.length)) := by
  have hdrain := (@drainFrames_frames chunk chunk.length off v2 le_rfl fuel hoff.le hfuel).with_ends
    (frames_ends v2 _)
  have hused : buffer.used = 0 := hcarries.used_eq
  unfold acceptTurn
  dsimp only
  rw [if_neg (not_not_intro hoff), hused, if_neg (lt_irrefl 0)]
  refine hdrain.bind_left ?_
  rintro consumed rest' ⟨⟨-, hle, rfl⟩, hincomplete, -, -⟩
  have hwidth := length_subarray consumed (le_refl chunk.length)
  split
  · have hfits : 0 + (subarray chunk consumed chunk.length).length ≤ buffer.buf.length := by
      rw [Nat.zero_add, hcarries.length_eq]
      exact hincomplete.length_lt.le
    have hset : setBytes buffer.buf (subarray chunk consumed chunk.length) 0 =
        .ok (overwrite buffer.buf (subarray chunk consumed chunk.length) 0) := if_pos hfits
    rw [hset]
    refine .returned ⟨_, rfl, (length_overwrite hfits).trans hcarries.length_eq, hwidth.symm, ?_⟩
    have hfilled := @take_overwrite _ buffer.buf (subarray chunk consumed chunk.length) 0
      (Nat.zero_le _)
    rwa [hwidth, Nat.zero_add, take_zero, nil_append] at hfilled
  · next hend =>
    obtain rfl : consumed = chunk.length := by omega
    rw [subarray_self]
    exact .returned ⟨buffer, rfl, hcarries⟩

/-- A turn reads on in the chunk. -/
theorem acceptTurn_frames (hcarries : Carries buffer rest) (hrest : headOf v2 rest = .ok none)
    (hoff : off < chunk.length) (hfuel : rest.length + (chunk.length - off) < fuel) :
    ∃ stop, off < stop ∧ stop ≤ chunk.length ∧
      Alike (fun turn rest' => ∃ buffer', turn = .again (buffer', stop) ∧ Carries buffer' rest')
        (acceptTurn fuel chunk v2 (buffer, off)) (frames v2 (rest ++ subarray chunk off stop)) := by
  rcases Nat.eq_zero_or_pos rest.length with hnone | hused
  · obtain rfl := eq_nil_of_length_eq_zero hnone
    exact ⟨chunk.length, hoff, le_rfl, acceptTurn_direct hcarries hoff (by omega)⟩
  · exact acceptTurn_pending hcarries hrest hused hoff hfuel

theorem accept_frames (hcarries : Carries buffer rest) (hrest : headOf v2 rest = .ok none)
    (hfuel : rest.length + chunk.length < fuel) :
    Alike Carries (accept fuel v2 buffer chunk) (frames v2 (rest ++ chunk)) := by
  have hloop : ∀ (turns off : ℕ) (buffer : PktBuffer) (rest : Bytes), Carries buffer rest →
      headOf v2 rest = .ok none → off ≤ chunk.length → chunk.length - off < turns →
      rest.length + (chunk.length - off) < fuel →
        Alike Carries (Generator.loop (acceptTurn fuel chunk v2) turns (buffer, off))
          (frames v2 (rest ++ chunk.drop off)) := by
    intro turns
    induction turns with
    | zero => omega
    | succ turns ih =>
      intro off buffer rest hcarries hrest hoff hturns hfuel
      rw [Generator.loop]
      rcases Nat.lt_or_ge off chunk.length with hlt | hge
      · obtain ⟨stop, hbehind, hstop, hturn⟩ := acceptTurn_frames hcarries hrest hlt hfuel
        have hsplit : chunk.drop off = subarray chunk off stop ++ chunk.drop stop := by
          have hdrop : chunk.drop stop = (chunk.drop off).drop (stop - off) := by
            rw [drop_drop, Nat.add_sub_cancel' hbehind.le]
          rw [hdrop, subarray, take_append_drop]
        rw [hsplit, ← append_assoc, frames_append]
        refine (hturn.with_ends (frames_ends v2 _)).bind ?_
        rintro turn rest' ⟨⟨buffer', rfl, hcarries'⟩, -, hrest', hsuffix⟩
        have hlength := hsuffix.length_le
        rw [length_append, length_subarray off hstop] at hlength
        exact ih stop buffer' rest' hcarries' hrest' hstop (by omega) (by omega)
      · have hturn : acceptTurn fuel chunk v2 (buffer, off) = returned (.stop buffer) :=
          if_pos (Nat.not_lt.mpr hge)
        rw [hturn, drop_of_length_le hge, append_nil, frames_of_none hrest]
        exact .returned hcarries
  exact hloop fuel 0 buffer rest hcarries hrest (Nat.zero_le _) (by omega) hfuel

end

/-! ### Whole streams -/

/-- **Any number of chunks**: the decoder yields the frames of all their bytes. -/
theorem acceptAll_frames {v2 : Bool} {fuel : ℕ} {chunks : List Bytes} {buffer : PktBuffer}
    {rest : Bytes} (hcarries : Carries buffer rest) (hrest : headOf v2 rest = .ok none)
    (hfuel : rest.length + chunks.flatten.length < fuel) :
    Alike Carries (chunks.foldlM (accept fuel v2) buffer) (frames v2 (rest ++ chunks.flatten)) := by
  induction chunks generalizing buffer rest with
  | nil =>
    rw [flatten_nil, append_nil, frames_of_none hrest]
    exact .returned hcarries
  | cons chunk chunks ih =>
    rw [flatten_cons, length_append] at hfuel
    rw [foldlM_cons, flatten_cons, ← append_assoc, frames_append]
    refine ((accept_frames hcarries hrest (by omega)).with_ends (frames_ends v2 _)).bind ?_
    rintro buffer' rest' ⟨hcarries', -, hrest', hsuffix⟩
    have hlength := hsuffix.length_le
    rw [length_append] at hlength
    exact ih hcarries' hrest' (by omega)

def Source.bytes (source : Source) : Bytes := source.chunks.flatten

def Source.inOneChunk (source : Source) : Source := ⟨[source.bytes], source.failure⟩

/-- What the decoder does at the end of a source. -/
def finish (failure : Option Thrown) (rest : Bytes) : Generator PktLine Thrown Unit :=
  match failure with
  | some error => thrown error
  | none => if rest.length > 0 then thrown (.refusal (.pktTruncated rest.length)) else returned ()

theorem headOf_nil (v2 : Bool) : headOf v2 [] = .ok none := if_pos (by decide)

theorem decodePktStream_frames {v2 : Bool} {fuel : ℕ} {source : Source}
    (hfuel : source.bytes.length < fuel) :
    decodePktStream fuel v2 source = frames v2 source.bytes >>= finish source.failure := by
  have hall : Alike Carries (source.chunks.foldlM (accept fuel v2) .fresh)
      (frames v2 ([] ++ source.chunks.flatten)) :=
    acceptAll_frames Carries.fresh (headOf_nil v2) (by
      rw [length_nil, Nat.zero_add]
      exact hfuel)
  refine (hall.bind fun buffer rest hcarries => ?_).eq
  unfold finish
  rw [hcarries.used_eq]
  cases source.failure with
  | some error => exact .thrown error
  | none =>
    dsimp only
    split
    · exact .thrown _
    · exact .returned rfl

theorem decodePktStream_ends {v2 : Bool} {fuel : ℕ} {source : Source}
    (hfuel : source.bytes.length < fuel) : (decodePktStream fuel v2 source).ending ≠ none := by
  rw [decodePktStream_frames hfuel]
  induction source.bytes using frames.induct v2 with
  | case1 bytes error h =>
    rw [frames_of_error h]
    exact Option.some_ne_none _
  | case2 bytes h =>
    rw [frames_of_none h, returned_bind]
    unfold finish
    split
    · exact Option.some_ne_none _
    · split
      · exact Option.some_ne_none _
      · exact Option.some_ne_none _
  | case3 bytes packet size h ih =>
    rw [frames_of_some h]
    exact ih

/-! ### Encoded streams -/

def frameBytes (payload : Bytes) : Bytes :=
  lengthPrefix (payload.length + pktLengthBytes) ++ payload

/-- The byte of a hex digit. -/
def digitByte (value : ℕ) : UInt8 := UInt8.ofNat (Nat.digitChar value).toNat

theorem digitByte_spec : ∀ value < 16,
    String.utf8EncodeChar (Nat.digitChar value) = [digitByte value] ∧
      (digitByte value).toNat ≤ 0x7f ∧
      hexValue (Char.ofNat (digitByte value).toNat) = some value := by decide

theorem lengthPrefix_eq {length : ℕ} (h : length < 0x10000) :
    lengthPrefix length = [digitByte (length / 4096), digitByte (length / 256 % 16),
      digitByte (length / 16 % 16), digitByte (length % 16)] := by
  have hdigits : Nat.toDigits 16 (length + 0x10000) =
      ['1', Nat.digitChar (length / 4096), Nat.digitChar (length / 256 % 16),
        Nat.digitChar (length / 16 % 16), Nat.digitChar (length % 16)] := by
    rw [Nat.toDigits_of_base_le (by decide) (by omega),
      Nat.toDigits_of_base_le (by decide) (by omega),
      Nat.toDigits_of_base_le (by decide) (by omega),
      Nat.toDigits_of_base_le (by decide) (by omega), Nat.toDigits_of_lt_base (by omega)]
    have hone : (length + 0x10000) / 16 / 16 / 16 / 16 = 1 := by omega
    have hthird : (length + 0x10000) / 16 / 16 / 16 % 16 = length / 4096 := by omega
    have hsecond : (length + 0x10000) / 16 / 16 % 16 = length / 256 % 16 := by omega
    have hfirst : (length + 0x10000) / 16 % 16 = length / 16 % 16 := by omega
    have hzero : (length + 0x10000) % 16 = length % 16 := by omega
    rw [hone, hthird, hsecond, hfirst, hzero]
    rfl
  have hbyte : ∀ value < 16, String.utf8EncodeChar (Nat.digitChar value) = [digitByte value] :=
    fun value hvalue => (digitByte_spec value hvalue).1
  rw [lengthPrefix, hdigits]
  simp only [encode, length_cons, length_nil, drop_succ_cons, drop_zero, flatMap_cons, flatMap_nil]
  rw [hbyte _ (by omega), hbyte _ (by omega), hbyte _ (by omega), hbyte _ (by omega)]
  rfl

theorem length_lengthPrefix {length : ℕ} (h : length < 0x10000) :
    (lengthPrefix length).length = pktLengthBytes := by
  rw [lengthPrefix_eq h]
  rfl

/-- **A length is read back.** -/
theorem parseLength_lengthPrefix {length : ℕ} (h : length ≤ maxPktLineFrame) (rest : Bytes) :
    parseLength (lengthPrefix length ++ rest) 0 = .ok length := by
  have hlt : length < 0x10000 := by
    rw [maxPktLineFrame, maxPktLinePayload, pktLengthBytes] at h
    omega
  have hhigh := digitByte_spec (length / 4096) (by omega)
  have hthird := digitByte_spec (length / 256 % 16) (by omega)
  have hsecond := digitByte_spec (length / 16 % 16) (by omega)
  have hlow := digitByte_spec (length % 16) (by omega)
  have hwindow : subarray (lengthPrefix length ++ rest) 0 (0 + pktLengthBytes) =
      lengthPrefix length := by
    rw [subarray_append_of_le (by rw [length_lengthPrefix hlt, Nat.zero_add]), subarray,
      drop_zero, take_of_length_le (by rw [length_lengthPrefix hlt]; omega)]
  have hdecode : decode (lengthPrefix length) =
      (lengthPrefix length).map fun byte => Char.ofNat byte.toNat := by
    refine decode_ascii ?_
    rw [lengthPrefix_eq hlt]
    simp only [forall_mem_cons, not_mem_nil, false_implies, implies_true, and_true]
    exact ⟨hhigh.2.1, hthird.2.1, hsecond.2.1, hlow.2.1⟩
  have hvalue : parseHexLength ((lengthPrefix length).map fun byte => Char.ofNat byte.toNat) =
      length := by
    rw [lengthPrefix_eq hlt, parseHexLength]
    simp only [map_cons, map_nil, foldl_cons, foldl_nil, hhigh.2.2,
      hthird.2.2, hsecond.2.2, hlow.2.2, Option.getD_some]
    omega
  have hdigits : isHexLength ((lengthPrefix length).map fun byte => Char.ofNat byte.toNat) =
      true := by
    rw [lengthPrefix_eq hlt, isHexLength]
    simp only [map_cons, map_nil, all_cons, all_nil, hhigh.2.2,
      hthird.2.2, hsecond.2.2, hlow.2.2, Option.isSome_some, length_cons, length_nil]
    rfl
  unfold parseLength
  dsimp only
  rw [hwindow, hdecode, hvalue, if_neg (not_not_intro hdigits), if_neg (Nat.not_lt.mpr h)]

theorem headOf_of_parse {v2 : Bool} {bytes : Bytes} {length : ℕ} {decision : Decision}
    (hlong : ¬ bytes.length < pktLengthBytes) (hparse : parseLength bytes 0 = .ok length)
    (hdecision : classify length bytes.length v2 = .ok decision)
    (hdata : decision = .data length) :
    headOf v2 bytes = .ok (some (.data (subarray bytes pktLengthBytes length), length)) := by
  unfold headOf
  rw [if_neg hlong, hparse]
  refine bind_eq_ok.mpr ⟨length, rfl, bind_eq_ok.mpr ⟨decision, hdecision, ?_⟩⟩
  rw [hdata]
  rfl

theorem frames_frameBytes (v2 : Bool) {payload : Bytes}
    (h : payload.length ≤ maxPktLinePayload) (rest : Bytes) :
    frames v2 (frameBytes payload ++ rest) = yielded (.data payload) (frames v2 rest) := by
  have hle : payload.length + pktLengthBytes ≤ maxPktLineFrame := Nat.add_le_add_right h _
  have hlt : payload.length + pktLengthBytes < 0x10000 := by
    rw [maxPktLineFrame, maxPktLinePayload, pktLengthBytes] at hle
    rw [pktLengthBytes]
    omega
  have hwidth := length_lengthPrefix hlt
  have hlength : (frameBytes payload).length = payload.length + pktLengthBytes := by
    rw [frameBytes, length_append, hwidth, Nat.add_comm]
  have hparse : parseLength (frameBytes payload ++ rest) 0 =
      .ok (payload.length + pktLengthBytes) := by
    rw [frameBytes, append_assoc]
    exact parseLength_lengthPrefix hle _
  have hpayload : subarray (frameBytes payload ++ rest) pktLengthBytes
      (payload.length + pktLengthBytes) = payload := by
    have hbehind := subarray_append_left (lengthPrefix (payload.length + pktLengthBytes)) payload rest
    rwa [hwidth, Nat.add_comm pktLengthBytes, ← append_assoc] at hbehind
  have hfour : ¬ payload.length + pktLengthBytes < pktLengthBytes := by omega
  have hshort : ¬ (frameBytes payload ++ rest).length < pktLengthBytes := by
    rw [length_append, hlength]
    omega
  have hclassify : classify (payload.length + pktLengthBytes)
      (frameBytes payload ++ rest).length v2 = .ok (.data (payload.length + pktLengthBytes)) := by
    have hfits : ¬ (frameBytes payload ++ rest).length < payload.length + pktLengthBytes := by
      rw [length_append, hlength]
      omega
    rw [pktLengthBytes] at hfour hfits ⊢
    unfold classify
    rw [if_neg (by omega), if_neg (by omega), if_neg (by omega), pktLengthBytes, if_neg hfour,
      if_neg hfits]
  have hhead : headOf v2 (frameBytes payload ++ rest) =
      .ok (some (.data payload, payload.length + pktLengthBytes)) := by
    have hdata := headOf_of_parse hshort hparse hclassify rfl
    rwa [hpayload] at hdata
  rw [frames_of_some hhead, ← hlength, drop_left]

theorem frames_flushPkt (v2 : Bool) : frames v2 flushPkt = yielded .flush (returned []) := by
  have hhead : headOf v2 flushPkt = .ok (some (.flush, pktLengthBytes)) := by
    cases v2 with
    | false => rfl
    | true => rfl
  rw [frames_of_some hhead]
  exact congrArg _ (frames_of_none (headOf_nil v2))

/-- **The frames of an encoded stream** are its payloads and the flush. -/
theorem frames_encoded (v2 : Bool) {payloads : List Bytes}
    (h : ∀ payload ∈ payloads, payload.length ≤ maxPktLinePayload) :
    frames v2 (payloads.flatMap frameBytes ++ flushPkt) =
      payloads.foldr (fun payload rest => yielded (.data payload) rest)
        (yielded .flush (returned [])) := by
  induction payloads with
  | nil => exact frames_flushPkt v2
  | cons payload payloads ih =>
    rw [flatMap_cons, append_assoc, frames_frameBytes v2 (h _ mem_cons_self),
      ih (forall_mem_cons.mp h).2, foldr_cons]

section

variable {payloads : List Bytes}

theorem length_frameBytes {payload : Bytes} (h : payload.length ≤ maxPktLinePayload) :
    (frameBytes payload).length = payload.length + pktLengthBytes := by
  have hlt : payload.length + pktLengthBytes < 0x10000 := by
    rw [maxPktLinePayload] at h
    rw [pktLengthBytes]
    omega
  rw [frameBytes, length_append, length_lengthPrefix hlt, Nat.add_comm]

theorem writeFrame_eq {payload out : Bytes} {off : ℕ} (h : payload.length ≤ maxPktLinePayload)
    (hfits : off + (frameBytes payload).length ≤ out.length) :
    writeFrame (out, off) payload =
      .ok (overwrite out (frameBytes payload) off, off + (frameBytes payload).length) := by
  have hframe := length_frameBytes h
  have hstated : (lengthPrefix (payload.length + pktLengthBytes)).length = pktLengthBytes := by
    rw [frameBytes, length_append] at hframe
    omega
  have hlength : setBytes out (lengthPrefix (payload.length + pktLengthBytes)) off =
      .ok (overwrite out (lengthPrefix (payload.length + pktLengthBytes)) off) :=
    if_pos (by omega)
  have hfits' : off + (lengthPrefix (payload.length + pktLengthBytes)).length ≤ out.length := by
    omega
  have hpayload : setBytes (overwrite out (lengthPrefix (payload.length + pktLengthBytes)) off)
      payload (off + pktLengthBytes) = .ok (overwrite out (frameBytes payload) off) := by
    have hmerged := @overwrite_overwrite _ out _ payload off hfits'
    rw [hstated] at hmerged
    rw [setBytes, if_pos (by rw [length_overwrite hfits']; omega), hmerged, frameBytes]
  unfold writeFrame
  dsimp only
  rw [hlength]
  dsimp only [bind, Except.bind]
  rw [hpayload, hframe, Nat.add_comm payload.length, Nat.add_assoc]
  rfl

theorem writeFrames_eq (h : ∀ payload ∈ payloads, payload.length ≤ maxPktLinePayload)
    {out : Bytes} {off : ℕ} (hfits : off + (payloads.flatMap frameBytes).length ≤ out.length) :
    payloads.foldlM writeFrame (out, off) = .ok (overwrite out (payloads.flatMap frameBytes) off,
        off + (payloads.flatMap frameBytes).length) := by
  induction payloads generalizing out off with
  | nil =>
    have hnothing : overwrite out [] off = out := by
      rw [overwrite, append_nil, length_nil, Nat.add_zero, take_append_drop]
    rw [flatMap_nil, hnothing]
    rfl
  | cons payload payloads ih =>
    rw [flatMap_cons, length_append] at hfits
    have hfits' : off + (frameBytes payload).length ≤ out.length := by omega
    rw [foldlM_cons, writeFrame_eq (h _ mem_cons_self) hfits']
    dsimp only [bind, Except.bind]
    rw [ih (forall_mem_cons.mp h).2 (by
      rw [length_overwrite hfits']
      omega), overwrite_overwrite hfits', flatMap_cons, length_append, Nat.add_assoc]

theorem total_eq (h : ∀ payload ∈ payloads, payload.length ≤ maxPktLinePayload) (start : ℕ) :
    payloads.foldlM (fun total payload => do
        assertPayloadFits payload
        pure (total + (payload.length + pktLengthBytes))) start =
      (.ok (start + (payloads.flatMap frameBytes).length) : Except Thrown ℕ) := by
  induction payloads generalizing start with
  | nil => rfl
  | cons payload payloads ih =>
    have hfits := h _ mem_cons_self
    have hassert : assertPayloadFits payload = .ok () := if_neg (Nat.not_lt.mpr hfits)
    rw [foldlM_cons, hassert]
    dsimp only [bind, Except.bind, pure, Except.pure]
    refine (ih (forall_mem_cons.mp h).2 _).trans ?_
    rw [flatMap_cons, length_append, length_frameBytes hfits, Nat.add_assoc]

/-- **The encoder** writes the frames and then the trailer. -/
theorem concatPktLines_eq (h : ∀ payload ∈ payloads, payload.length ≤ maxPktLinePayload)
    (trailer : Bytes) :
    concatPktLines payloads trailer = .ok (payloads.flatMap frameBytes ++ trailer) := by
  obtain ⟨body, hbody⟩ : ∃ body, body = payloads.flatMap frameBytes := ⟨_, rfl⟩
  have hzeros : (replicate (trailer.length + body.length) (0 : UInt8)).length =
      trailer.length + body.length := length_replicate
  have hfits : 0 + body.length ≤
      (replicate (trailer.length + body.length) (0 : UInt8)).length := by omega
  unfold concatPktLines
  rw [total_eq h, ← hbody]
  dsimp only [bind, Except.bind]
  rw [writeFrames_eq h (by rwa [← hbody]), ← hbody]
  dsimp only
  rw [setBytes, if_pos (by rw [length_overwrite hfits]; omega), overwrite_overwrite hfits,
    overwrite_all (by rw [hzeros, length_append, Nat.add_comm])]

end

/-- **Packet lines in chunks.** However a stream is cut, the decoder yields the same packets and
ends in the same way. -/
theorem decodePktStream_chunks (v2 : Bool) :
    (∀ source fuel, source.bytes.length < fuel →
      decodePktStream fuel v2 source = decodePktStream fuel v2 source.inOneChunk ∧
        (decodePktStream fuel v2 source).ending ≠ none) ∧
    (∀ (chunks : List Bytes) (fuel : ℕ), chunks.flatten.length < fuel →
      Ends (fun buffer : PktBuffer => Incomplete (buffer.buf.take buffer.used))
        (chunks.foldlM (accept fuel v2) .fresh)) ∧
    ∀ payloads : List Bytes, (∀ payload ∈ payloads, payload.length ≤ maxPktLinePayload) →
      ∃ bytes, encodePktStream payloads = .ok bytes ∧
        ∀ chunks fuel, chunks.flatten = bytes → bytes.length < fuel →
          (decodePktStream fuel v2 ⟨chunks, none⟩).items = payloads.map .data ++ [.flush] ∧
            (decodePktStream fuel v2 ⟨chunks, none⟩).ending = some (.ok ()) := by
  refine ⟨fun source fuel hfuel => ?_, fun chunks fuel hfuel => ?_, fun payloads hpayloads => ?_⟩
  · have hbytes : source.inOneChunk.bytes = source.bytes := append_nil _
    refine ⟨?_, decodePktStream_ends hfuel⟩
    rw [decodePktStream_frames hfuel, decodePktStream_frames (by rwa [hbytes]), hbytes]
    rfl
  · have hall : Alike Carries (chunks.foldlM (accept fuel v2) .fresh)
        (frames v2 ([] ++ chunks.flatten)) :=
      acceptAll_frames Carries.fresh (headOf_nil v2) (by
        rw [length_nil, Nat.zero_add]
        exact hfuel)
    intro buffer hbuffer
    obtain ⟨rest, hcarries, hincomplete, -, -⟩ := hall.ends (frames_ends v2 _) buffer hbuffer
    rw [hcarries.held]
    exact hincomplete
  · refine ⟨_, concatPktLines_eq hpayloads flushPkt, fun chunks fuel hchunks hfuel => ?_⟩
    have hsource : (⟨chunks, none⟩ : Source).bytes = payloads.flatMap frameBytes ++ flushPkt :=
      hchunks
    have hrun : decodePktStream fuel v2 ⟨chunks, none⟩ =
        payloads.foldr (fun payload rest => yielded (.data payload) rest)
          (yielded .flush (returned [])) >>= finish none := by
      rw [decodePktStream_frames (by rwa [hsource]), hsource, frames_encoded v2 hpayloads]
    rw [hrun]
    clear hrun hsource hchunks hfuel hpayloads
    induction payloads with
    | nil => exact ⟨rfl, rfl⟩
    | cons payload payloads ih => exact ⟨congrArg (PktLine.data payload :: ·) ih.1, ih.2⟩

end Tsgit.Pkt
