import Oifs.PieceReader
import Oifs.SessionCalls

namespace Oifs

open LittleEndian

/-- `frame_codec`: the serializer and its inverse, each under a byte limit. -/
structure FrameCodec (α : Type) where
  encode : α → List UInt8
  serialize : Nat → α → Except String (List UInt8)
  deserialize : Nat → List UInt8 → Except String α

/-- What the codec documents: a message within the limit is serialized and read back. -/
structure FrameCodec.Lawful {α : Type} (C : FrameCodec α) : Prop where
  serialize_ok : ∀ limit x, (C.encode x).length ≤ limit → C.serialize limit x = .ok (C.encode x)
  deserialize_encode : ∀ x, C.deserialize (C.encode x).length (C.encode x) = .ok x

def frameReadChunk : Nat := 64 * 1024

/-- The pooled buffers of a thread. They are kept from one frame to the next. -/
structure FrameBufs where
  write : List UInt8
  read : List UInt8
  chunk : List UInt8

def eofError : IoError := ⟨.unexpectedEof, "failed to fill whole buffer"⟩

def frameLimitError : IoError := ⟨.invalidData, "Message frame exceeds size limit"⟩

section Framing

variable {α : Type} (C : FrameCodec α)

def writeFramed (x : α) (bufs : FrameBufs) (out : List UInt8) :
    Except IoError Unit × FrameBufs × List UInt8 :=
  match C.serialize maxFrameBytes x with
  | .error text => (.error ⟨.invalidData, text⟩, { bufs with write := List.replicate 4 0 }, out)
  | .ok payload =>
    let buf := List.replicate 4 0 ++ payload
    let payloadLen := buf.length - 4
    if 2 ^ 32 ≤ payloadLen then (.error frameLimitError, { bufs with write := buf }, out)
    else
      let len := UInt32.ofNat payloadLen
      if !frameLenIsValid len.toNat then (.error frameLimitError, { bufs with write := buf }, out)
      else
        let buf := u32 len ++ buf.drop 4
        (.ok (), { bufs with write := buf }, out ++ buf)

/-- Where the payload loop of `read_framed` ends. -/
structure PayloadRead where
  error : Option IoError
  buf : List UInt8
  chunk : List UInt8
  rest : List (Delivery UInt8 IoError)

/-- `stage.resize(FRAME_READ_CHUNK, 0)` where the stage is shorter. -/
def growStage (stage : List UInt8) : List UInt8 :=
  if stage.length < frameReadChunk then stage ++ List.replicate (frameReadChunk - stage.length) 0
  else stage

theorem growStage_pos (stage : List UInt8) : 0 < (growStage stage).length := by
  unfold growStage
  split
  next hshort =>
    rw [List.length_append, List.length_replicate]
    simp only [frameReadChunk] at *
    omega
  next hlong =>
    simp only [frameReadChunk] at hlong
    omega

/-- The payload loop of `read_framed`: a stage is filled, then appended to the buffer. -/
def readPayload (remaining : Nat) (buf chunk : List UInt8) (ds : List (Delivery UInt8 IoError)) :
    PayloadRead :=
  if _h : remaining = 0 then ⟨none, buf, chunk, ds⟩
  else
    let stage := growStage chunk
    let taken := min remaining stage.length
    let filled := Delivery.fill eofError taken ds
    let stage := filled.got ++ stage.drop filled.got.length
    match filled.error with
    | some e => ⟨some e, buf, stage, filled.rest⟩
    | none => readPayload (remaining - taken) (buf ++ stage.take taken) stage filled.rest
termination_by remaining
decreasing_by
  have hpos := growStage_pos chunk
  omega

def readFramed (bufs : FrameBufs) (ds : List (Delivery UInt8 IoError)) :
    Except IoError α × FrameBufs × List (Delivery UInt8 IoError) :=
  let head := Delivery.fill eofError 4 ds
  match head.error with
  | some e => (.error e, bufs, head.rest)
  | none =>
    let len := (readU32 head.got).toNat
    if !frameLenIsValid len then (.error frameLimitError, bufs, head.rest)
    else
      let payload := readPayload len [] bufs.chunk head.rest
      let bufs := { bufs with read := payload.buf, chunk := payload.chunk }
      match payload.error with
      | some e => (.error e, bufs, payload.rest)
      | none =>
        match C.deserialize payload.buf.length payload.buf with
        | .error text => (.error ⟨.invalidData, text⟩, bufs, payload.rest)
        | .ok x => (.ok x, bufs, payload.rest)

def writeAllFramed : List α → FrameBufs → List UInt8 → Except IoError Unit × FrameBufs × List UInt8
  | [], bufs, out => (.ok (), bufs, out)
  | x :: xs, bufs, out =>
    match writeFramed C x bufs out with
    | (.ok (), bufs, out) => writeAllFramed xs bufs out
    | failed => failed

def readAllFramed : Nat → FrameBufs → List (Delivery UInt8 IoError) →
    Except IoError (List α) × FrameBufs × List (Delivery UInt8 IoError)
  | 0, bufs, ds => (.ok [], bufs, ds)
  | count + 1, bufs, ds =>
    match readFramed C bufs ds with
    | (.error e, bufs, ds) => (.error e, bufs, ds)
    | (.ok x, bufs, ds) =>
      match readAllFramed count bufs ds with
      | (.error e, bufs, ds) => (.error e, bufs, ds)
      | (.ok xs, bufs, ds) => (.ok (x :: xs), bufs, ds)

section Stage

variable {remaining taken : Nat} {chunk got : List UInt8} {ds rest : List (Delivery UInt8 IoError)}

theorem readPayload_stage (buf : List UInt8) (hne : remaining ≠ 0)
    (htaken : min remaining (growStage chunk).length = taken)
    (hfill : Delivery.fill eofError taken ds = ⟨got, none, rest⟩) :
    readPayload remaining buf chunk ds =
      readPayload (remaining - taken) (buf ++ (got ++ (growStage chunk).drop got.length).take taken)
        (got ++ (growStage chunk).drop got.length) rest := by
  rw [readPayload, dif_neg hne]
  simp only [htaken, hfill]

theorem readPayload_failed {e : IoError} (buf : List UInt8) (hne : remaining ≠ 0)
    (htaken : min remaining (growStage chunk).length = taken)
    (hfill : Delivery.fill eofError taken ds = ⟨got, some e, rest⟩) :
    readPayload remaining buf chunk ds =
      ⟨some e, buf, got ++ (growStage chunk).drop got.length, rest⟩ := by
  rw [readPayload, dif_neg hne]
  simp only [htaken, hfill]

end Stage

theorem readPayload_takes (remaining : Nat) (buf chunk : List UInt8)
    (ds : List (Delivery UInt8 IoError)) :
    ∃ got, Delivery.pending ds = got ++ Delivery.pending (readPayload remaining buf chunk ds).rest ∧
      got.length ≤ remaining := by
  induction remaining using Nat.strongRecOn generalizing buf chunk ds with
  | ind remaining ih =>
    by_cases hne : remaining = 0
    · rw [readPayload, dif_pos hne]
      exact ⟨[], rfl, Nat.zero_le _⟩
    · have hpos := growStage_pos chunk
      obtain ⟨taken, htaken⟩ : ∃ taken, min remaining (growStage chunk).length = taken := ⟨_, rfl⟩
      obtain ⟨htakes, hle, -⟩ := Delivery.fill_takes eofError taken ds
      cases hfill : Delivery.fill eofError taken ds with
      | mk got error rest =>
        simp only [hfill] at htakes hle
        cases error with
        | some e =>
          rw [readPayload_failed buf hne htaken hfill]
          exact ⟨got, htakes, by omega⟩
        | none =>
          rw [readPayload_stage buf hne htaken hfill]
          obtain ⟨more, hmore, hmorele⟩ := ih (remaining - taken) (by omega)
            (buf ++ (got ++ (growStage chunk).drop got.length).take taken)
            (got ++ (growStage chunk).drop got.length) rest
          refine ⟨got ++ more, ?_, ?_⟩
          · rw [htakes, hmore, List.append_assoc]
          · rw [List.length_append]
            omega

theorem readPayload_steady {payload ys : List UInt8} (buf chunk : List UInt8)
    {ds : List (Delivery UInt8 IoError)} (hds : Delivery.Steady ds)
    (hpending : Delivery.pending ds = payload ++ ys) :
    ∃ chunk' rest, readPayload payload.length buf chunk ds = ⟨none, buf ++ payload, chunk', rest⟩ ∧
      Delivery.pending rest = ys ∧ Delivery.Steady rest := by
  generalize hlen : payload.length = remaining
  induction remaining using Nat.strongRecOn generalizing payload buf chunk ds with
  | ind remaining ih =>
    by_cases hne : remaining = 0
    · obtain rfl : payload = [] := List.eq_nil_of_length_eq_zero (hlen.trans hne)
      rw [readPayload, dif_pos hne, List.append_nil]
      exact ⟨chunk, ds, rfl, hpending, hds⟩
    · have hpos := growStage_pos chunk
      -- one stage: the first `taken` bytes of the payload
      obtain ⟨taken, htaken⟩ : ∃ taken, min remaining (growStage chunk).length = taken := ⟨_, rfl⟩
      have hsplit : (payload.take taken).length = taken := List.length_take_of_le (by omega)
      obtain ⟨rest, hfill, hrest, hsteady⟩ := Delivery.fill_eq eofError hds
        (hpending.trans (by rw [← List.append_assoc, List.take_append_drop] :
          payload ++ ys = payload.take taken ++ (payload.drop taken ++ ys)))
      rw [hsplit] at hfill
      obtain ⟨chunk', rest', hloop, hys, hrest'⟩ := ih (remaining - taken) (by omega)
        (buf ++ payload.take taken) (payload.take taken ++ (growStage chunk).drop taken) hsteady hrest
        (by rw [List.length_drop, hlen])
      refine ⟨chunk', rest', ?_, hys, hrest'⟩
      rw [readPayload_stage buf hne htaken hfill, hsplit, List.take_left' hsplit, hloop,
        List.append_assoc, List.take_append_drop]

def announcedLen (bytes : List UInt8) : Nat := (readU32 (bytes.take 4)).toNat

theorem readFramed_takes (bufs : FrameBufs) (ds : List (Delivery UInt8 IoError)) :
    ∃ got, Delivery.pending ds = got ++ Delivery.pending (readFramed C bufs ds).2.2 ∧
      if maxFrameBytes < announcedLen (Delivery.pending ds) then got.length ≤ 4
      else got.length ≤ 4 + announcedLen (Delivery.pending ds) := by
  obtain ⟨htakes, hle, hfull⟩ := Delivery.fill_takes eofError 4 ds
  unfold readFramed
  cases hfill : Delivery.fill eofError 4 ds with
  | mk head error rest =>
    simp only [hfill] at htakes hle hfull
    cases error with
    | some e =>
      refine ⟨head, htakes, ?_⟩
      split <;> omega
    | none =>
      -- the four bytes that were read are those that announce the length
      have hannounced : announcedLen (Delivery.pending ds) = (readU32 head).toNat := by
        rw [announcedLen, htakes, List.take_left' (hfull rfl)]
      dsimp only
      rw [hannounced, frameLenIsValid]
      by_cases hlimit : maxFrameBytes < (readU32 head).toNat
      · rw [if_pos (by simpa using hlimit)]
        simp only [if_pos hlimit]
        exact ⟨head, htakes, hle⟩
      · rw [if_neg (by simpa using hlimit)]
        simp only [if_neg hlimit]
        obtain ⟨got, hgot, hgotle⟩ := readPayload_takes (readU32 head).toNat [] bufs.chunk rest
        have hrest : ∀ x : Except IoError α × FrameBufs × List (Delivery UInt8 IoError),
            x.2.2 = (readPayload (readU32 head).toNat [] bufs.chunk rest).rest →
            ∃ got, Delivery.pending ds = got ++ Delivery.pending x.2.2 ∧
              got.length ≤ 4 + (readU32 head).toNat := by
          intro x hx
          refine ⟨head ++ got, ?_, ?_⟩
          · rw [htakes, hgot, hx, List.append_assoc]
          · rw [List.length_append]
            omega
        apply hrest
        split
        · rfl
        · split <;> rfl

theorem frameLen_toNat {n : Nat} (h : n ≤ maxFrameBytes) : (UInt32.ofNat n).toNat = n := by
  refine UInt32.toNat_ofNat_of_lt' (Nat.lt_of_le_of_lt h ?_)
  decide

section Lawful

variable {C} (hC : C.Lawful)
include hC

theorem writeFramed_ok {x : α} (hx : (C.encode x).length ≤ maxFrameBytes) (bufs : FrameBufs)
    (out : List UInt8) :
    ∃ bufs', writeFramed C x bufs out =
      (.ok (), bufs', out ++ (u32 (UInt32.ofNat (C.encode x).length) ++ C.encode x)) := by
  have hlen : (List.replicate 4 (0 : UInt8) ++ C.encode x).length - 4 = (C.encode x).length := by
    rw [List.length_append, List.length_replicate, Nat.add_sub_cancel_left]
  have hlt : ¬2 ^ 32 ≤ (C.encode x).length := by
    simp only [maxFrameBytes] at hx
    omega
  have hnat := frameLen_toNat hx
  have hvalid : frameLenIsValid (C.encode x).length = true := decide_eq_true hx
  rw [writeFramed, hC.serialize_ok _ x hx]
  simp only [hlen, if_neg hlt, hnat, hvalid, Bool.not_true, Bool.false_eq_true, if_false,
    List.drop_left' List.length_replicate]
  exact ⟨_, rfl⟩

theorem readFramed_ok {x : α} (hx : (C.encode x).length ≤ maxFrameBytes) (bufs : FrameBufs)
    {ds : List (Delivery UInt8 IoError)} {ys : List UInt8} (hds : Delivery.Steady ds)
    (hpending : Delivery.pending ds =
      u32 (UInt32.ofNat (C.encode x).length) ++ (C.encode x ++ ys)) :
    ∃ bufs' rest, readFramed C bufs ds = (.ok x, bufs', rest) ∧ Delivery.pending rest = ys ∧
      Delivery.Steady rest := by
  have hnat := frameLen_toNat hx
  have hvalid : frameLenIsValid (C.encode x).length = true := decide_eq_true hx
  obtain ⟨rest, hhead, hrest, hsteady⟩ := Delivery.fill_eq eofError hds hpending
  obtain ⟨chunk', rest', hloop, hys, hsteady'⟩ := readPayload_steady [] bufs.chunk hsteady hrest
  rw [u32_length] at hhead
  refine ⟨{ bufs with read := C.encode x, chunk := chunk' }, rest', ?_, hys, hsteady'⟩
  simp only [readFramed, hhead, readU32_u32, hnat, hvalid, Bool.not_true, Bool.false_eq_true, if_false,
    hloop, List.nil_append, hC.deserialize_encode]

def frameBytes (C : FrameCodec α) (xs : List α) : List UInt8 :=
  xs.flatMap fun x => u32 (UInt32.ofNat (C.encode x).length) ++ C.encode x

theorem writeAllFramed_ok {xs : List α} (hxs : ∀ x ∈ xs, (C.encode x).length ≤ maxFrameBytes)
    (bufs : FrameBufs) (out : List UInt8) :
    ∃ bufs', writeAllFramed C xs bufs out = (.ok (), bufs', out ++ frameBytes C xs) := by
  induction xs generalizing bufs out with
  | nil => exact ⟨bufs, by rw [frameBytes, List.flatMap_nil, List.append_nil]; rfl⟩
  | cons x xs ih =>
    obtain ⟨bufs₁, hfirst⟩ := writeFramed_ok hC (hxs x (by simp)) bufs out
    obtain ⟨bufs₂, hrest⟩ := ih (fun y hy => hxs y (by simp [hy])) bufs₁
      (out ++ (u32 (UInt32.ofNat (C.encode x).length) ++ C.encode x))
    refine ⟨bufs₂, ?_⟩
    rw [writeAllFramed, hfirst]
    dsimp only
    rw [hrest, frameBytes, frameBytes, List.flatMap_cons, List.append_assoc]

theorem readAllFramed_ok {xs : List α} (hxs : ∀ x ∈ xs, (C.encode x).length ≤ maxFrameBytes)
    (bufs : FrameBufs) {ds : List (Delivery UInt8 IoError)} {ys : List UInt8}
    (hds : Delivery.Steady ds) (hpending : Delivery.pending ds = frameBytes C xs ++ ys) :
    ∃ bufs' rest, readAllFramed C xs.length bufs ds = (.ok xs, bufs', rest) ∧
      Delivery.pending rest = ys ∧ Delivery.Steady rest := by
  induction xs generalizing bufs ds with
  | nil => exact ⟨bufs, ds, rfl, hpending, hds⟩
  | cons x xs ih =>
    rw [frameBytes, List.flatMap_cons, List.append_assoc, List.append_assoc] at hpending
    obtain ⟨bufs₁, ds₁, hfirst, hpending₁, hds₁⟩ := readFramed_ok hC (hxs x (by simp)) bufs hds hpending
    obtain ⟨bufs₂, rest, hrest, hys, hsteady⟩ := ih (fun y hy => hxs y (by simp [hy])) bufs₁ hds₁ hpending₁
    refine ⟨bufs₂, rest, ?_, hys, hsteady⟩
    rw [List.length_cons, readAllFramed, hfirst]
    dsimp only
    rw [hrest]

/-- What is written is read back, however the stream is split, and no read goes past its own frame. -/
theorem framed_stream {xs : List α} (hxs : ∀ x ∈ xs, (C.encode x).length ≤ maxFrameBytes) :
    (∃ bytes, (∀ bufs out, ∃ bufs', writeAllFramed C xs bufs out = (.ok (), bufs', out ++ bytes)) ∧
      ∀ bufs ds ys, Delivery.Steady ds → Delivery.pending ds = bytes ++ ys →
        ∃ bufs' rest, readAllFramed C xs.length bufs ds = (.ok xs, bufs', rest) ∧
          Delivery.pending rest = ys) ∧
    ∀ bufs (ds : List (Delivery UInt8 IoError)),
      ∃ got, Delivery.pending ds = got ++ Delivery.pending (readFramed C bufs ds).2.2 ∧
        if maxFrameBytes < announcedLen (Delivery.pending ds) then got.length ≤ 4
        else got.length ≤ 4 + announcedLen (Delivery.pending ds) := by
  refine ⟨⟨frameBytes C xs, writeAllFramed_ok hC hxs, ?_⟩, readFramed_takes C⟩
  intro bufs ds ys hds hpending
  obtain ⟨bufs', rest, hread, hys, -⟩ := readAllFramed_ok hC hxs bufs hds hpending
  exact ⟨bufs', rest, hread, hys⟩

end Lawful

end Framing

def byteCodec : FrameCodec UInt8 where
  encode b := [b]
  serialize limit b := if 1 ≤ limit then .ok [b] else .error "the size limit has been reached"
  deserialize _ bytes := match bytes with
    | b :: _ => .ok b
    | [] => .error "unexpected end of input"

theorem byteCodec_lawful : byteCodec.Lawful where
  serialize_ok _ _ hle := if_pos hle
  deserialize_encode _ := rfl

theorem framed_stream_bytes :
    (∃ bytes, (∀ bufs out, ∃ bufs', writeAllFramed byteCodec [7, 8] bufs out =
        (.ok (), bufs', out ++ bytes)) ∧
      ∀ bufs ds ys, Delivery.Steady ds → Delivery.pending ds = bytes ++ ys →
        ∃ bufs' rest, readAllFramed byteCodec 2 bufs ds = (.ok [7, 8], bufs', rest) ∧
          Delivery.pending rest = ys) ∧
    ∀ bufs (ds : List (Delivery UInt8 IoError)),
      ∃ got, Delivery.pending ds = got ++ Delivery.pending (readFramed byteCodec bufs ds).2.2 ∧
        if maxFrameBytes < announcedLen (Delivery.pending ds) then got.length ≤ 4
        else got.length ≤ 4 + announcedLen (Delivery.pending ds) := by
  have hfit : ∀ x ∈ [(7 : UInt8), 8], (byteCodec.encode x).length ≤ maxFrameBytes :=
    fun _ _ => (by decide : 1 ≤ maxFrameBytes)
  exact framed_stream byteCodec_lawful hfit

end Oifs
