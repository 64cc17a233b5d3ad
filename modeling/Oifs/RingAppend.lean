import Oifs.RingRecovery

namespace Oifs

open CircularLog

namespace JournalRing

variable {r : JournalRing} {rs : RunSort} {ops : List MetadataOp} {seq : UInt64}
  {items : List (Transaction × Nat)}

def frameLen (rs : RunSort) (r : JournalRing) (ops : List MetadataOp) : Nat :=
  (encodeFrame rs (r.state.txSeq + 1) ops).length

/-- An accepted append keeps the ring readable: a byte stays free, and it wraps only onto the tail
or past all that is older. -/
def AppendFits (rs : RunSort) (r : JournalRing) (ops : List MetadataOp) : Prop :=
  let len := r.frameLen rs ops
  len ≤ r.ringBytes → FrameFits rs ops ∧
    if (r.wrap len).used + len > r.ringBytes then len < r.ringBytes
    else (r.wrap len).used + len < r.ringBytes ∧
      (r.state.head + len > r.ringBytes → r.state.tail = 0)

/-- The append gives up the frames before it: it wraps, or it would overwrite the oldest. -/
def Restarts (rs : RunSort) (r : JournalRing) (ops : List MetadataOp) : Prop :=
  r.state.head + r.frameLen rs ops > r.ringBytes ∨
    (r.wrap (r.frameLen rs ops)).used + r.frameLen rs ops > r.ringBytes

instance (rs : RunSort) (r : JournalRing) (ops : List MetadataOp) : Decidable (r.Restarts rs ops) :=
  inferInstanceAs (Decidable (_ ∨ _))

theorem used_eq (hring : r.ringBytes < 2 ^ 63) (hh : r.state.head < r.ringBytes)
    (ht : r.state.tail < r.ringBytes) :
    r.used = (r.state.head + r.ringBytes - r.state.tail) % r.ringBytes := by
  unfold used
  congr 1
  omega

theorem frameFits_of_frameLen (h : r.frameLen rs ops < 2 ^ 32) : FrameFits rs ops := by
  rw [frameLen, encodeFrame_length] at h
  unfold FrameFits
  omega

theorem appendFits_of_room
    (hlen : r.frameLen rs ops < 2 ^ 32) (hend : r.state.head + r.frameLen rs ops ≤ r.ringBytes)
    (hroom : r.used + r.frameLen rs ops < r.ringBytes) : r.AppendFits rs ops := by
  intro _
  have hw : r.wrap (r.frameLen rs ops) = r := if_neg (Nat.not_lt.mpr hend)
  rw [hw, if_neg (Nat.not_lt.mpr (Nat.le_of_lt hroom))]
  exact ⟨frameFits_of_frameLen hlen, hroom, fun h => absurd h (Nat.not_lt.mpr hend)⟩

theorem wrap_frame (r : JournalRing) (len : Nat) :
    (r.wrap len).blockSize = r.blockSize ∧ (r.wrap len).ringBytes = r.ringBytes ∧
      (r.wrap len).region = r.region := by
  unfold wrap
  split <;> exact ⟨rfl, rfl, rfl⟩

theorem place_overwrites {len : Nat} (h : (r.wrap len).used + len > r.ringBytes) :
    r.place len = (r.wrap len).setTail (r.wrap len).state.head :=
  if_pos (by rw [(r.wrap_frame len).2.1]; exact h)

theorem place_keeps {len : Nat} (h : ¬(r.wrap len).used + len > r.ringBytes) :
    r.place len = r.wrap len :=
  if_neg (by rw [(r.wrap_frame len).2.1]; exact h)

theorem place_frame (r : JournalRing) (len : Nat) :
    (r.place len).blockSize = r.blockSize ∧ (r.place len).ringBytes = r.ringBytes ∧
      (r.place len).region = r.region := by
  by_cases h : (r.wrap len).used + len > r.ringBytes
  · rw [place_overwrites h]
    exact r.wrap_frame len
  · rw [place_keeps h]
    exact r.wrap_frame len

theorem place_cases (hring : r.ringBytes < 2 ^ 63)
    (hl : Live r.frameAt r.ringBytes r.state.tail r.state.head items)
    (hle : r.frameLen rs ops ≤ r.ringBytes) (hfit : r.AppendFits rs ops) :
    (¬r.Restarts rs ops ∧ r.place (r.frameLen rs ops) = r ∧
      r.state.head + r.frameLen rs ops ≤ r.ringBytes ∧
      total items + r.frameLen rs ops < r.ringBytes) ∨ (r.Restarts rs ops ∧
      (r.place (r.frameLen rs ops)).state.tail = (r.place (r.frameLen rs ops)).state.head ∧
      (r.place (r.frameLen rs ops)).state.head + r.frameLen rs ops ≤ r.ringBytes ∧
      r.frameLen rs ops < r.ringBytes) := by
  obtain ⟨-, hroom⟩ := hfit hle
  unfold Restarts
  generalize r.frameLen rs ops = len at hle hroom ⊢
  have htail := hl.tail_lt
  have hhead := hl.head_lt
  split at hroom
  next hover =>
    rw [place_overwrites hover]
    refine Or.inr ⟨Or.inr hover, rfl, ?_, hroom⟩
    change (r.wrap len).state.head + len ≤ r.ringBytes
    unfold wrap
    split
    next => exact (Nat.zero_add len).symm ▸ hle
    next h => exact Nat.not_lt.mp h
  next hover =>
    rw [place_keeps hover]
    by_cases hwrap : r.state.head + len > r.ringBytes
    · -- the frame wraps onto the tail
      rw [show r.wrap len = r.setHead 0 from if_pos hwrap]
      exact Or.inr ⟨Or.inl hwrap, hroom.2 hwrap, (Nat.zero_add len).symm ▸ hle, by omega⟩
    · have hw : r.wrap len = r := if_neg hwrap
      refine Or.inl ⟨not_or.mpr ⟨hwrap, hover⟩, hw, by omega, ?_⟩
      rw [hw, used_eq hring hhead htail, hl.dist_eq] at hroom
      exact hroom.1

theorem append_ok {r r' : JournalRing} (h : r.append rs ops = .ok (seq, r')) :
    r.frameLen rs ops ≤ r.ringBytes ∧ seq = r.state.txSeq + 1 ∧
      r' = ((r.place (r.frameLen rs ops)).store seq (encodeFrame rs seq ops)).persist := by
  unfold append at h
  dsimp only at h
  split at h
  next => cases h
  next hle =>
    cases h
    exact ⟨Nat.not_lt.mp hle, rfl, rfl⟩

theorem append_eq (rs : RunSort) (r : JournalRing) (ops : List MetadataOp)
    (hle : r.frameLen rs ops ≤ r.ringBytes) :
    r.append rs ops = .ok (r.state.txSeq + 1, ((r.place (r.frameLen rs ops)).store
      (r.state.txSeq + 1) (encodeFrame rs (r.state.txSeq + 1) ops)).persist) :=
  if_neg (Nat.not_lt.mpr hle)

theorem persist_byte {i : Nat} (h : journalHeaderLen ≤ i) :
    r.persist.region.byte i = r.region.byte i := by
  unfold persist
  split
  next => exact ByteStore.write_byte_out (Or.inr (by simpa using h))
  next => rfl

theorem persist_read {start n : Nat} (h : journalHeaderLen ≤ start) :
    r.persist.region.read start n = r.region.read start n := by
  apply ByteStore.read_congr
  intro i hi _
  exact persist_byte (by omega)

theorem place_of_room {len : Nat} (hend : r.state.head + len ≤ r.ringBytes)
    (hroom : r.used + len ≤ r.ringBytes) : r.place len = r := by
  have hw : r.wrap len = r := if_neg (Nat.not_lt.mpr hend)
  rw [place_keeps (by rw [hw]; omega), hw]

theorem append_store (rs : RunSort) (r : JournalRing) (ops : List MetadataOp)
    (hend : r.state.head + r.frameLen rs ops ≤ r.ringBytes)
    (hroom : r.used + r.frameLen rs ops ≤ r.ringBytes) :
    r.append rs ops = .ok (r.state.txSeq + 1, (r.store (r.state.txSeq + 1)
      (encodeFrame rs (r.state.txSeq + 1) ops)).persist) := by
  have happ := append_eq rs r ops (by omega)
  rwa [place_of_room hend hroom] at happ

theorem store_formatted (hf : r.Formatted) (txSeq : UInt64)
    (frame : List UInt8) : (r.store txSeq frame).persist.Formatted := by
  apply persist_formatted
  · rw [store_blockSize]
    exact hf.header_le
  · rw [store_ringBytes, store_blockSize]
    exact hf.ring_eq
  · rw [store_blockSize, store_ringBytes, store_region, ByteStore.write_len]
    exact hf.fits

theorem append_plain (rs : RunSort) (r : JournalRing) (ops : List MetadataOp)
    (hend : r.state.head + r.frameLen rs ops ≤ r.ringBytes)
    (hroom : r.used + r.frameLen rs ops ≤ r.ringBytes) :
    ∃ r', r.append rs ops = .ok (r.state.txSeq + 1, r') ∧ r'.blockSize = r.blockSize ∧
      r'.ringBytes = r.ringBytes ∧ r'.state.tail = r.state.tail ∧
      r'.state.head = (r.state.head + r.frameLen rs ops) % r.ringBytes ∧
      ∀ i, r.blockSize + r.state.head + r.frameLen rs ops ≤ i → journalHeaderLen ≤ i →
        r'.region.byte i = r.region.byte i := by
  refine ⟨_, append_store rs r ops hend hroom, ?_⟩
  refine ⟨by rw [persist_blockSize, store_blockSize], by rw [persist_ringBytes, store_ringBytes],
    by rw [persist_state, store_tail], by rw [persist_state, store_head]; rfl, ?_⟩
  intro i hi hheader
  rw [persist_byte hheader, store_region]
  exact ByteStore.write_byte_out (Or.inr hi)

/-- An append adds its frame to the live ones or starts the ring anew. -/
theorem append_live {r r' : JournalRing} (hf : r.Formatted)
    (hl : Live r.frameAt r.ringBytes r.state.tail r.state.head items)
    (hfit : r.AppendFits rs ops) (h : r.append rs ops = .ok (seq, r')) :
    r'.Formatted ∧ r'.ringBytes = r.ringBytes ∧
      ((¬r.Restarts rs ops ∧ r'.state.tail = r.state.tail ∧
        Live r'.frameAt r'.ringBytes r'.state.tail r'.state.head
          (items ++ [(⟨seq, frameOps rs ops⟩, r.frameLen rs ops)])) ∨
      (r.Restarts rs ops ∧ Live r'.frameAt r'.ringBytes r'.state.tail r'.state.head
        [(⟨seq, frameOps rs ops⟩, r.frameLen rs ops)])) := by
  have hring := hf.ring_lt
  obtain ⟨hle, hseq, rfl⟩ := append_ok h
  have hlen : (encodeFrame rs seq ops).length = r.frameLen rs ops := by rw [hseq]; rfl
  have hcases := place_cases hring hl hle hfit
  obtain ⟨hbs, hrb, hregion⟩ := r.place_frame (r.frameLen rs ops)
  generalize r.place (r.frameLen rs ops) = p at *
  have hpos : 0 < r.frameLen rs ops := by
    rw [← hlen, encodeFrame_length]
    omega
  have hbs' := (p.store_blockSize seq (encodeFrame rs seq ops)).trans hbs
  have hrb' := (p.store_ringBytes seq (encodeFrame rs seq ops)).trans hrb
  have hregion' := p.store_region seq (encodeFrame rs seq ops)
  rw [hbs, hregion] at hregion'
  have htail' := p.store_tail seq (encodeFrame rs seq ops)
  have hhead' := p.store_head seq (encodeFrame rs seq ops)
  rw [hrb, hlen] at hhead'
  generalize p.store seq (encodeFrame rs seq ops) = w at *
  have hheader : journalHeaderLen ≤ w.blockSize := hbs' ▸ hf.header_le
  have hkeeps := write_keeps hbs' hrb' hregion'
  rw [hlen] at hkeeps
  have hstored : p.state.head + r.frameLen rs ops ≤ r.ringBytes →
      w.frameAt p.state.head = some (⟨seq, frameOps rs ops⟩, r.frameLen rs ops) := by
    intro hend
    rw [← hbs'] at hregion'
    rw [frameAt_stored (hfit hle).1 hregion' (by rw [hlen, hrb']; exact hend), hlen]
  refine ⟨persist_formatted hheader (by rw [hrb', hbs']; exact hf.ring_eq)
    (by rw [hbs', hrb', hregion', ByteStore.write_len]; exact hf.fits),
    by rw [persist_ringBytes, hrb'], ?_⟩
  rw [frameAt_persist hheader, persist_state, persist_ringBytes, htail', hhead', hrb']
  obtain ⟨hkeep, rfl, hend, hroom⟩ | ⟨hre, htl, hend, hlt⟩ := hcases
  · exact Or.inl ⟨hkeep, rfl, hl.push hkeeps (hstored hend) hpos hend hroom⟩
  · rw [htl]
    exact Or.inr ⟨hre, Live.restart (hstored hend) hpos hend hlt⟩

theorem setTail_formatted (hf : r.Formatted) (target : Nat) :
    (r.setTail target).persist.Formatted ∧ (r.setTail target).persist.frameAt = r.frameAt :=
  ⟨persist_formatted hf.header_le hf.ring_eq hf.fits, frameAt_persist hf.header_le⟩

theorem checkpointTo_eq {cursor : Nat} (hh : r.state.head < r.ringBytes)
    (ht : r.state.tail < r.ringBytes) (hc : cursor < r.ringBytes) :
    r.checkpointTo cursor = if cursor = r.state.tail then r
      else if (r.state.head + r.ringBytes - cursor) % r.ringBytes ≤
        (r.state.head + r.ringBytes - r.state.tail) % r.ringBytes then (r.setTail cursor).persist
      else r := by
  simp only [checkpointTo, Nat.ne_zero_of_lt hh, if_false, Nat.mod_eq_of_lt hh, Nat.mod_eq_of_lt ht,
    Nat.mod_eq_of_lt hc]

theorem checkpoint_live (hf : r.Formatted)
    (hl : Live r.frameAt r.ringBytes r.state.tail r.state.head items) :
    r.checkpoint.Formatted ∧ r.checkpoint.ringBytes = r.ringBytes ∧
      r.checkpoint.frameAt = r.frameAt ∧ r.checkpoint.state.head = r.state.head ∧
      Live r.checkpoint.frameAt r.ringBytes r.checkpoint.state.tail r.checkpoint.state.head [] := by
  have hhead := hl.head_lt
  rw [checkpoint, checkpointTo_eq hhead hl.tail_lt hhead]
  split
  next heq =>
    refine ⟨hf, rfl, rfl, rfl, ?_⟩
    rw [heq]
    exact Live.empty hl.tail_lt
  next =>
    rw [if_pos (by rw [Nat.add_sub_cancel_left, Nat.mod_self]; exact Nat.zero_le _)]
    obtain ⟨hform, hframe⟩ := setTail_formatted hf r.state.head
    refine ⟨hform, persist_ringBytes _, hframe, by rw [persist_state]; rfl, ?_⟩
    rw [hframe, persist_state]
    exact Live.empty hhead

theorem frameLen_slice (rs : RunSort) (r : JournalRing) (blockId : UInt64) (offset : UInt32)
    (data : List UInt8) :
    r.frameLen rs [.writeBlockSlice blockId offset data] = 41 + data.length := by
  have hops : frameOps rs [.writeBlockSlice blockId offset data] =
      [.writeBlockSlice blockId offset data] := rfl
  rw [frameLen, encodeFrame_length, hops, encodeOps, List.flatMap_singleton,
    MetadataOp.encode_length, MetadataOp.encodedSize, txHeaderLen]
  omega

theorem place_gap {len : Nat} (hring : r.ringBytes < 2 ^ 63)
    (ht : r.state.tail < r.ringBytes) (hwrap : r.state.head + len > r.ringBytes)
    (hroom : len ≤ r.state.tail) : r.place len = r.setHead 0 := by
  have hw : r.wrap len = r.setHead 0 := if_pos hwrap
  have hused : (r.setHead 0).used = (0 + r.ringBytes - r.state.tail) % r.ringBytes :=
    used_eq (show (r.setHead 0).ringBytes < 2 ^ 63 from hring) (Nat.zero_lt_of_lt ht) ht
  have hle := Nat.mod_le (0 + r.ringBytes - r.state.tail) r.ringBytes
  rw [← hw, place_keeps (by rw [hw, hused]; omega)]

theorem append_gap {r r' : JournalRing} (hf : r.Formatted) (ht : r.state.tail < r.ringBytes)
    (hwrap : r.state.head + r.frameLen rs ops > r.ringBytes)
    (hroom : r.frameLen rs ops ≤ r.state.tail) (hgap : r.frameAt r.state.tail = none)
    (h : r.append rs ops = .ok (seq, r')) :
    r'.Formatted ∧ r'.state.head < 2 ^ 64 ∧ r'.state.tail < 2 ^ 64 ∧ r'.handed = [] := by
  have hring := hf.ring_lt
  obtain ⟨-, hseq, rfl⟩ := append_ok h
  have hlen : (encodeFrame rs seq ops).length = r.frameLen rs ops := by rw [hseq]; rfl
  rw [place_gap hring ht hwrap hroom]
  have hbs : ((r.setHead 0).store seq (encodeFrame rs seq ops)).blockSize = r.blockSize := rfl
  have hrb : ((r.setHead 0).store seq (encodeFrame rs seq ops)).ringBytes = r.ringBytes := rfl
  have htl : ((r.setHead 0).store seq (encodeFrame rs seq ops)).state.tail = r.state.tail := rfl
  have hhd : ((r.setHead 0).store seq (encodeFrame rs seq ops)).state.head < r.ringBytes :=
    Nat.mod_lt _ (Nat.zero_lt_of_lt ht)
  have hregion : ((r.setHead 0).store seq (encodeFrame rs seq ops)).region =
      r.region.write (r.blockSize + 0) (encodeFrame rs seq ops) := rfl
  generalize (r.setHead 0).store seq (encodeFrame rs seq ops) = w at *
  have hheader : journalHeaderLen ≤ w.blockSize := hbs ▸ hf.header_le
  refine ⟨persist_formatted hheader (by rw [hrb, hbs]; exact hf.ring_eq)
    (by rw [hbs, hrb, hregion, ByteStore.write_len]; exact hf.fits),
    by rw [persist_state]; omega, by rw [persist_state]; omega, handed_of_gap ?_⟩
  rw [frameAt_persist hheader, persist_state, persist_ringBytes, htl, hrb, Nat.mod_eq_of_lt ht,
    frameAt, hbs, hrb, hregion, ByteStore.read_write_disjoint (by rw [hlen]; omega)]
  exact hgap

theorem append_full {r r' : JournalRing} (hf : r.Formatted)
    (hl : Live r.frameAt r.ringBytes r.state.tail r.state.head items)
    (hend : r.state.head + r.frameLen rs ops ≤ r.ringBytes)
    (hfull : total items + r.frameLen rs ops = r.ringBytes) (h : r.append rs ops = .ok (seq, r')) :
    r'.Formatted ∧ r'.state.head = r'.state.tail := by
  have hring := hf.ring_lt
  obtain ⟨-, hseq, rfl⟩ := append_ok h
  have hlen : (encodeFrame rs seq ops).length = r.frameLen rs ops := by rw [hseq]; rfl
  have hused := (used_eq hring hl.head_lt hl.tail_lt).trans hl.dist_eq
  rw [place_of_room hend (by rw [hused]; omega)]
  have htl := r.store_tail seq (encodeFrame rs seq ops)
  have hhd := r.store_head seq (encodeFrame rs seq ops)
  refine ⟨store_formatted hf seq (encodeFrame rs seq ops), ?_⟩
  rw [persist_state, htl, hhd, hlen, hl.head_eq, Nat.mod_add_mod, Nat.add_assoc, hfull,
    Nat.add_mod_right, Nat.mod_eq_of_lt hl.tail_lt]

end JournalRing

end Oifs
