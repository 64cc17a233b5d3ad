import Oifs.JournalRing

namespace Oifs

open CircularLog

namespace JournalRing

variable {r : JournalRing}

def handed (r : JournalRing) : List Transaction :=
  if r.ringBytes = 0 then []
  else walk r.frameAt r.ringBytes (r.state.head % r.ringBytes) (r.state.tail % r.ringBytes) 0

theorem recoverLoop_eq {σ : Type} (r : JournalRing) (apply : σ → MetadataOp → Except JournalError σ)
    (target cursor traversed replayed : Nat) (s : σ) (hc : cursor < r.ringBytes) :
    r.recoverLoop apply target cursor traversed replayed s =
      (((walk r.frameAt r.ringBytes target cursor traversed).flatMap Transaction.ops).foldlM apply
        s).map fun s' =>
          (s', replayed + (walk r.frameAt r.ringBytes target cursor traversed).length) := by
  fun_induction recoverLoop r apply target cursor traversed replayed s with
  | case1 cursor traversed replayed s hgo hout => omega
  | case2 cursor traversed replayed s hgo hin hnone =>
    rw [walk, if_pos hgo, hnone]
    rfl
  | case3 cursor traversed replayed s hgo hin tx hsome =>
    rw [walk, if_pos hgo, hsome]
    rfl
  | case4 cursor traversed replayed s hgo hin tx total hsome hpos e herr =>
    rw [walk, if_pos hgo, hsome]
    simp [hpos, herr, Except.map, bind, Except.bind]
  | case5 cursor traversed replayed s hgo hin tx total hsome hpos s' hok ih =>
    rw [ih (Nat.mod_lt _ (by omega)), walk.eq_def _ _ _ cursor, if_pos hgo, hsome]
    simp [hpos, hok, bind, Except.bind, Nat.add_assoc, Nat.add_comm 1]
  | case6 cursor traversed replayed s hstop =>
    rw [walk, if_neg hstop]
    rfl

theorem recover_eq {σ : Type} (r : JournalRing) (apply : σ → MetadataOp → Except JournalError σ)
    (s : σ) : r.recover apply s = ((r.handed.flatMap Transaction.ops).foldlM apply s).map
      fun s' => (s', r.markCleanShutdown, r.handed.length) := by
  unfold recover handed
  split
  next => rfl
  next hpos =>
    rw [recoverLoop_eq r apply _ _ _ _ _ (Nat.mod_lt _ (Nat.pos_of_ne_zero hpos))]
    cases ((walk r.frameAt r.ringBytes (r.state.head % r.ringBytes) (r.state.tail % r.ringBytes)
      0).flatMap Transaction.ops).foldlM apply s with
    | error e => rfl
    | ok s' => simp [Except.map]

theorem foldlM_accept (ops : List MetadataOp) :
    ops.foldlM (fun _ _ => .ok ()) () = (.ok () : Except JournalError Unit) := by
  induction ops with
  | nil => rfl
  | cons op ops ih => exact ih

theorem recover_accept (r : JournalRing) :
    r.recover (fun _ _ => .ok ()) () = .ok ((), r.markCleanShutdown, r.handed.length) := by
  rw [recover_eq, foldlM_accept]
  rfl

structure Formatted (r : JournalRing) : Prop where
  header_le : journalHeaderLen ≤ r.blockSize
  ring_eq : r.ringBytes = journalRingBytes r.blockSize
  fits : r.blockSize + r.ringBytes ≤ r.region.len
  stored : r.region.read 0 journalHeaderLen = r.state.encode

theorem Formatted.ring_lt (hf : r.Formatted) : r.ringBytes < 2 ^ 63 := by
  have hfits := hf.fits
  have hlen := r.region.len_lt
  omega

theorem attach_of_formatted (hf : r.Formatted) (hh : r.state.head < 2 ^ 64)
    (ht : r.state.tail < 2 ^ 64) :
    attach r.region r.blockSize = .ok { r with lastWrite := none } := by
  have hheader := hf.header_le
  have hfits := hf.fits
  have hlen := r.region.len_lt
  have hread : r.region.read 0 r.blockSize = r.state.encode ++
      r.region.read (0 + journalHeaderLen) (r.blockSize - journalHeaderLen) := by
    rw [← hf.stored, ← ByteStore.read_add, Nat.add_sub_cancel' hheader]
  rw [attach, if_neg (by omega), hread, JournalState.decode_encode _ hh ht]
  dsimp only
  rw [← hf.ring_eq, if_neg (by omega), if_neg (by omega)]

theorem reopen_live {items : List (Transaction × Nat)} (hf : r.Formatted)
    (hl : Live r.frameAt r.ringBytes r.state.tail r.state.head items) :
    ∃ reopened, attach r.region r.blockSize = .ok reopened ∧
      reopened.handed = items.map Prod.fst := by
  have hfits := hf.fits
  have hlen := r.region.len_lt
  have hh := hl.head_lt
  have ht := hl.tail_lt
  refine ⟨_, attach_of_formatted hf (by omega) (by omega), ?_⟩
  rw [handed, if_neg (Nat.ne_zero_of_lt ht)]
  dsimp only
  rw [Nat.mod_eq_of_lt hh, Nat.mod_eq_of_lt ht]
  exact hl.walk_eq

theorem reopen_zero (hf : r.Formatted) (hzero : r.ringBytes = 0)
    (hh : r.state.head = 0) (ht : r.state.tail = 0) :
    ∃ reopened, attach r.region r.blockSize = .ok reopened ∧ reopened.handed = [] :=
  ⟨_, attach_of_formatted hf (by omega) (by omega), if_pos hzero⟩

theorem create_formatted {region : ByteStore} {blockSize : Nat}
    (h : create region blockSize = .ok r) :
    r.Formatted ∧ r.state = ⟨0, 0, 0, false⟩ ∧ r.blockSize = blockSize := by
  unfold create at h
  dsimp only at h
  split at h
  next => cases h
  next =>
    split at h
    next => cases h
    next hfits =>
      split at h
      next => cases h
      next hheader =>
        cases h
        refine ⟨⟨Nat.not_lt.mp hheader, rfl, Nat.not_lt.mp hfits, ?_⟩, rfl, rfl⟩
        rw [← JournalState.encode_length ⟨0, 0, 0, false⟩]
        exact ByteStore.read_write_self _ _ _

theorem frameAt_persist (h : journalHeaderLen ≤ r.blockSize) :
    r.persist.frameAt = r.frameAt := by
  funext off
  rw [persist, if_pos h]
  simp only [frameAt]
  rw [ByteStore.read_write_disjoint (by simp; omega)]

theorem persist_formatted (hheader : journalHeaderLen ≤ r.blockSize)
    (hring : r.ringBytes = journalRingBytes r.blockSize)
    (hfits : r.blockSize + r.ringBytes ≤ r.region.len) : r.persist.Formatted := by
  rw [persist, if_pos hheader]
  refine ⟨hheader, hring, hfits, ?_⟩
  rw [← JournalState.encode_length r.state]
  exact ByteStore.read_write_self _ _ _

theorem frameAt_congr {r r' : JournalRing} {p n : Nat} {tx : Transaction}
    (hbs : r'.blockSize = r.blockSize) (hring : r'.ringBytes = r.ringBytes)
    (hread : r'.region.read (r.blockSize + p) n = r.region.read (r.blockSize + p) n)
    (hp : r.frameAt p = some (tx, n)) : r'.frameAt p = some (tx, n) := by
  have htotal := decodeFrame_total hp
  rw [ByteStore.read_length] at htotal
  unfold frameAt at hp ⊢
  rw [hbs, hring]
  have hsplit : ∀ s : ByteStore, s.read (r.blockSize + p) (r.ringBytes - p) =
      s.read (r.blockSize + p) n ++ s.read (r.blockSize + p + n) (r.ringBytes - p - n) := by
    intro s
    rw [← ByteStore.read_add, Nat.add_sub_cancel' htotal.2]
  rw [hsplit] at hp ⊢
  rw [hread]
  have hn : (r.region.read (r.blockSize + p) n).length = n := ByteStore.read_length _ _ _
  have hcongr := decodeFrame_append_congr (r'.region.read (r.blockSize + p + n)
    (r.ringBytes - p - n)) (hp.trans (by rw [hn]))
  rwa [hn] at hcongr

theorem write_keeps {r r' : JournalRing} {w : Nat} {data : List UInt8}
    (hbs : r'.blockSize = r.blockSize) (hring : r'.ringBytes = r.ringBytes)
    (hregion : r'.region = r.region.write (r.blockSize + w) data) :
    Keeps r.frameAt r'.frameAt w data.length := by
  intro p tx n hp hapart
  apply frameAt_congr hbs hring ?_ hp
  rw [hregion, ByteStore.read_write_disjoint (by omega)]

theorem frameAt_stored {rs : RunSort} {w : Nat} {txSeq : UInt64}
    {ops : List MetadataOp} {region : ByteStore} (hfit : FrameFits rs ops)
    (hregion : r.region = region.write (r.blockSize + w) (encodeFrame rs txSeq ops))
    (hend : w + (encodeFrame rs txSeq ops).length ≤ r.ringBytes) :
    r.frameAt w = some (⟨txSeq, frameOps rs ops⟩, (encodeFrame rs txSeq ops).length) := by
  have hsplit : r.ringBytes - w = (encodeFrame rs txSeq ops).length +
      (r.ringBytes - w - (encodeFrame rs txSeq ops).length) := by omega
  rw [frameAt, hregion, hsplit, ByteStore.read_add, ByteStore.read_write_self]
  exact decodeFrame_encodeFrame _ hfit

theorem frameAt_of_zero {p : Nat}
    (h : ∀ i, r.blockSize + p ≤ i → i < r.blockSize + p + 4 → r.region.byte i = 0) :
    r.frameAt p = none := by
  apply decodeFrame_of_zero
  intro b hb
  rw [ByteStore.read, ← List.map_take, List.take_range] at hb
  obtain ⟨i, hi, rfl⟩ := List.mem_map.mp hb
  have hlt := List.mem_range.mp hi
  exact h _ (by omega) (by omega)

theorem handed_of_empty (h : r.state.head = r.state.tail) : r.handed = [] := by
  unfold handed
  split
  next => rfl
  next => rw [h, walk, if_neg (by simp)]

theorem handed_of_gap (h : r.frameAt (r.state.tail % r.ringBytes) = none) :
    r.handed = [] := by
  unfold handed
  split
  next => rfl
  next =>
    rw [walk, h]
    split <;> rfl

end JournalRing

end Oifs
