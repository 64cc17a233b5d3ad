import Oifs.RingRuns

namespace Oifs

open CircularLog LittleEndian

namespace JournalRing

variable {r : JournalRing}

def framesFrom (rs : RunSort) : UInt64 → List (List MetadataOp) → List (Transaction × Nat)
  | _, [] => []
  | seq, ops :: txs =>
    (⟨seq + 1, frameOps rs ops⟩, (encodeFrame rs (seq + 1) ops).length) :: framesFrom rs (seq + 1) txs

def appendAll (rs : RunSort) (r : JournalRing) (txs : List (List MetadataOp)) :
    Except JournalError JournalRing :=
  txs.foldlM (fun r ops => (r.append rs ops).map Prod.snd) r

theorem appendAll_cons {rs : RunSort} {r r₁ : JournalRing} {seq : UInt64} {ops : List MetadataOp}
    {txs : List (List MetadataOp)} (h : r.append rs ops = .ok (seq, r₁)) :
    r.appendAll rs (ops :: txs) = r₁.appendAll rs txs := by
  simp [appendAll, h, Except.map, bind, Except.bind]

/-- Transactions that fit together are all live, in order. -/
theorem appendAll_live {rs : RunSort} {txs : List (List MetadataOp)}
    {items : List (Transaction × Nat)} (hf : r.Formatted) (hfit : ∀ ops ∈ txs, FrameFits rs ops)
    (htail : r.state.tail = 0) (hl : Live r.frameAt r.ringBytes r.state.tail r.state.head items)
    (hsum : total items + total (framesFrom rs r.state.txSeq txs) < r.ringBytes) :
    ∃ r', r.appendAll rs txs = .ok r' ∧ r'.Formatted ∧ r'.blockSize = r.blockSize ∧
      r'.ringBytes = r.ringBytes ∧ r'.state.tail = 0 ∧
      Live r'.frameAt r'.ringBytes r'.state.tail r'.state.head
        (items ++ framesFrom rs r.state.txSeq txs) := by
  induction txs generalizing r items with
  | nil => exact ⟨r, rfl, hf, rfl, rfl, htail, by rwa [framesFrom, List.append_nil]⟩
  | cons ops txs ih =>
    rw [framesFrom, total_cons] at hsum
    dsimp only at hsum
    have hring := hf.ring_lt
    have hhead : r.state.head = total items := by
      rw [hl.head_eq, htail, Nat.zero_add, Nat.mod_eq_of_lt hl.total_lt]
    have hlen : r.frameLen rs ops = (encodeFrame rs (r.state.txSeq + 1) ops).length := rfl
    have hend : r.state.head + r.frameLen rs ops ≤ r.ringBytes := by omega
    have hroom : r.used + r.frameLen rs ops < r.ringBytes := by
      rw [used_eq hring hl.head_lt hl.tail_lt, hl.dist_eq]
      omega
    have hw : r.wrap (r.frameLen rs ops) = r := if_neg (Nat.not_lt.mpr hend)
    have hfits : r.AppendFits rs ops := by
      intro _
      rw [hw, if_neg (Nat.not_lt.mpr (Nat.le_of_lt hroom))]
      exact ⟨hfit ops List.mem_cons_self, hroom, fun h => absurd h (Nat.not_lt.mpr hend)⟩
    have hres : ¬r.Restarts rs ops := by
      rintro (h | h)
      · omega
      · rw [hw] at h
        omega
    have happ := append_store rs r ops hend (Nat.le_of_lt hroom)
    obtain ⟨hf₁, hrb₁, ⟨-, htail₁, hl₁⟩ | ⟨hres', -⟩⟩ := append_live hf hl hfits happ
    · have hseq : (r.store (r.state.txSeq + 1)
          (encodeFrame rs (r.state.txSeq + 1) ops)).persist.state.txSeq = r.state.txSeq + 1 := by
        rw [persist_state]
        rfl
      have hbs : (r.store (r.state.txSeq + 1)
          (encodeFrame rs (r.state.txSeq + 1) ops)).persist.blockSize = r.blockSize := by
        rw [persist_blockSize, store_blockSize]
      generalize (r.store (r.state.txSeq + 1)
        (encodeFrame rs (r.state.txSeq + 1) ops)).persist = r₁ at *
      obtain ⟨r', hrun, hf', hbs', hrb', htail', hl'⟩ := ih hf₁
        (fun o ho => hfit o (List.mem_cons_of_mem _ ho)) (htail₁.trans htail) hl₁ (by
          rw [total_append, total_cons, total_nil, hseq, hrb₁]
          dsimp only
          omega)
      refine ⟨r', (appendAll_cons happ).trans hrun, hf', hbs'.trans hbs, hrb'.trans hrb₁, htail', ?_⟩
      rw [hseq, List.append_assoc] at hl'
      exact hl'
    · exact absurd hres' hres

def RecoversExactly (region : ByteStore) (blockSize : Nat) (txs : List Transaction) : Prop :=
  ∃ reopened, attach region blockSize = .ok reopened ∧
    ∀ (σ : Type) (apply : σ → MetadataOp → Except JournalError σ) (s : σ),
      reopened.recover apply s = ((txs.flatMap Transaction.ops).foldlM apply s).map
        fun s' => (s', reopened.markCleanShutdown, txs.length)

/-- The same region with the bytes of the ring replaced from offset `p` on. -/
structure TornAt (r : JournalRing) (p : Nat) (torn : ByteStore) : Prop where
  len_eq : torn.len = r.region.len
  before : ∀ i, i < r.blockSize + p → torn.byte i = r.region.byte i

theorem TornAt.formatted {p : Nat} {torn : ByteStore} (ht : TornAt r p torn)
    (hf : r.Formatted) : Formatted { r with region := torn } := by
  have hheader := hf.header_le
  refine ⟨hf.header_le, hf.ring_eq, ht.len_eq ▸ hf.fits, ?_⟩
  have hsame : torn.read 0 journalHeaderLen = r.region.read 0 journalHeaderLen := by
    apply ByteStore.read_congr
    intro i _ hi
    exact ht.before i (by omega)
  exact hsame.trans hf.stored

theorem TornAt.keeps {p : Nat} {torn : ByteStore} (ht : TornAt r p torn)
    (q : Nat) (tx : Transaction) (n : Nat) (hq : r.frameAt q = some (tx, n)) (hn : q + n ≤ p) :
    frameAt { r with region := torn } q = some (tx, n) := by
  refine frameAt_congr (r := r) rfl rfl ?_ hq
  apply ByteStore.read_congr
  intro i _ hi
  exact ht.before i (by omega)

theorem Live.recoversExactly_of_torn {before after : List (Transaction × Nat)}
    {item : Transaction × Nat} {p : Nat} {torn : ByteStore} (hf : r.Formatted)
    (htail : r.state.tail = 0)
    (hl : Live r.frameAt r.ringBytes r.state.tail r.state.head (before ++ item :: after))
    (hlo : total before ≤ p) (hhi : p < total before + item.2) (ht : TornAt r p torn)
    (hnone : frameAt { r with region := torn } (total before) = none) :
    RecoversExactly torn r.blockSize (before.map Prod.fst) := by
  have hlt := hl.total_lt
  rw [total_append, total_cons] at hlt
  have hfits := hf.fits
  have hregion := r.region.len_lt
  have hhead : r.state.head = total before + (item.2 + total after) := by
    rw [hl.head_eq, htail, total_append, total_cons, Nat.zero_add, Nat.mod_eq_of_lt hlt]
  refine ⟨_, attach_of_formatted (ht.formatted hf) (show r.state.head < 2 ^ 64 by omega)
    (show r.state.tail < 2 ^ 64 by omega), fun σ apply s => ?_⟩
  have hchain := ((chain_append hl.tail_lt _ _).mp hl.chain).1
  rw [htail] at hchain
  have hkept : Chain (frameAt { r with region := torn }) r.ringBytes 0 before :=
    chain_below (show p < r.ringBytes by omega) ht.keeps hchain (by omega)
  have hwalk : walk (frameAt { r with region := torn }) r.ringBytes
      ((0 + total before + (item.2 + total after)) % r.ringBytes) 0 0 = before.map Prod.fst := by
    apply walk_torn (show 0 < r.ringBytes by omega) hkept
    · rw [Nat.zero_add, Nat.mod_eq_of_lt (by omega)]
      exact hnone
    · omega
    · omega
  have hhanded : handed { r with region := torn, lastWrite := none } = before.map Prod.fst := by
    rw [handed, if_neg (show r.ringBytes ≠ 0 by omega)]
    dsimp only
    rw [hhead, htail, Nat.zero_mod]
    rw [Nat.zero_add] at hwalk
    exact hwalk
  rw [recover_eq, hhanded, List.length_map]

/-- After appends that leave a byte free, a torn frame ends the replay: those in front of it are
replayed. -/
theorem torn_frame_ends_replay {rs : RunSort} {region : ByteStore} {blockSize : Nat}
    {r : JournalRing} {txs : List (List MetadataOp)} (hc : create region blockSize = .ok r)
    (hfit : ∀ ops ∈ txs, FrameFits rs ops)
    (hsum : total (framesFrom rs 0 txs) < r.ringBytes) :
    ∃ r', r.appendAll rs txs = .ok r' ∧ ∀ before item after p torn,
      framesFrom rs 0 txs = before ++ item :: after → total before ≤ p →
      p < total before + item.2 → TornAt r' p torn →
      frameAt { r' with region := torn } (total before) = none →
      RecoversExactly torn blockSize (before.map Prod.fst) := by
  obtain ⟨hf, hstate, hbs⟩ := create_formatted hc
  have hl : Live r.frameAt r.ringBytes r.state.tail r.state.head [] := by
    rw [hstate]
    exact Live.empty (show 0 < r.ringBytes by omega)
  obtain ⟨r', hrun, hf', hbs', -, htail', hl'⟩ := appendAll_live hf hfit (by rw [hstate]) hl
    (by rw [hstate, total_nil, Nat.zero_add]; exact hsum)
  rw [hstate, List.nil_append] at hl'
  refine ⟨r', hrun, ?_⟩
  intro before item after p torn hsplit hlo hhi ht hnone
  rw [hsplit] at hl'
  rw [← hbs, ← hbs']
  exact Live.recoversExactly_of_torn hf' htail' hl' hlo hhi ht hnone

theorem frameOps_sliceOf (rs : RunSort) (n : Nat) :
    frameOps rs (RingRun.sliceOf n) = RingRun.sliceOf n := rfl

theorem framesFrom_slice (rs : RunSort) (seq : UInt64) (n : Nat) (txs : List (List MetadataOp)) :
    framesFrom rs seq (RingRun.sliceOf n :: txs) =
      (⟨seq + 1, RingRun.sliceOf n⟩, 41 + n) :: framesFrom rs (seq + 1) txs := by
  rw [framesFrom, encodeFrame_length]
  rw [frameOps_sliceOf, RingRun.sliceOf, encodeOps, List.flatMap_singleton, MetadataOp.encode_length,
    MetadataOp.encodedSize, txHeaderLen, List.length_replicate]
  congr 2
  omega

def blankFrom (s : ByteStore) (start : Nat) : ByteStore :=
  { s with byte := fun i => if i < start then s.byte i else 0 }

theorem blankFrom_byte {s : ByteStore} {start i : Nat} (h : start ≤ i) :
    (blankFrom s start).byte i = 0 :=
  if_neg (Nat.not_lt.mpr h)

theorem tornAt_blankFrom (r : JournalRing) (p : Nat) :
    TornAt r p (blankFrom r.region (r.blockSize + p)) :=
  ⟨rfl, fun _ hi => if_pos hi⟩

theorem frameAt_blankFrom (r : JournalRing) (p : Nat) :
    frameAt { r with region := blankFrom r.region (r.blockSize + p) } p = none := by
  apply frameAt_of_zero
  intro i hi _
  exact blankFrom_byte hi

/-- Two transactions of which the second is torn at its first byte. -/
theorem torn_frame_ends_replay_second : ∃ r r', create RingRun.blankRegion 4096 = .ok r ∧
    r.appendAll RunSort.stable [RingRun.sliceOf 9, RingRun.sliceOf 59] = .ok r' ∧
    RecoversExactly (blankFrom r'.region (r'.blockSize + 50)) 4096 [⟨1, RingRun.sliceOf 9⟩] := by
  obtain ⟨r, hc, -, -, hrb, -⟩ := RingRun.create_blank
  have hframes : framesFrom RunSort.stable 0 [RingRun.sliceOf 9, RingRun.sliceOf 59] =
      [(⟨1, RingRun.sliceOf 9⟩, 50)] ++ (⟨2, RingRun.sliceOf 59⟩, 100) :: [] := by
    rw [framesFrom_slice, framesFrom_slice]
    rfl
  have hfit : ∀ ops ∈ [RingRun.sliceOf 9, RingRun.sliceOf 59], FrameFits RunSort.stable ops := by
    simp only [List.mem_cons, List.not_mem_nil, or_false, forall_eq_or_imp, forall_eq, FrameFits]
    decide
  obtain ⟨r', hrun, hall⟩ := torn_frame_ends_replay hc hfit (by rw [hframes, hrb]; decide)
  exact ⟨r, r', hc, hrun, hall _ _ _ 50 _ hframes (by decide) (by decide)
    (tornAt_blankFrom r' 50) (frameAt_blankFrom r' 50)⟩

/-- A frame whose payload is 4 GiB longer than its length field says is not found again. -/
theorem decodeFrame_oversized (rs : RunSort) (seq : UInt64) (rest : List UInt8) {k : Nat}
    (hk : 4 + k = 2 ^ 32) :
    decodeFrame (encodeFrame rs seq (RingRun.sliceOf (4 + k)) ++ rest) = none := by
  have hpay : encodeOps (RingRun.sliceOf (4 + k)) = (opWriteBlockSlice :: (u64 40 ++ (u32 0 ++
      u32 (UInt32.ofNat (4 + k))))) ++ (List.replicate 4 0 ++ List.replicate k 0) := by
    rw [RingRun.sliceOf, encodeOps, List.flatMap_singleton, MetadataOp.encode,
      List.length_replicate, List.replicate_append_replicate]
    simp only [List.cons_append, List.append_assoc]
  have hlen : (encodeOps (RingRun.sliceOf (4 + k))).length = 2 ^ 32 + 17 := by
    rw [hpay]
    simp only [List.length_append, List.length_cons, u64_length, u32_length, List.length_replicate]
    omega
  have hfield : UInt32.ofNat (2 ^ 32 + 17) = 17 := by decide
  obtain ⟨crc, hframe⟩ : ∃ crc, encodeFrame rs seq (RingRun.sliceOf (4 + k)) ++ rest =
      (u32 txMagic ++ (u64 seq ++ (u32 17 ++ (u32 crc ++ (opWriteBlockSlice :: (u64 40 ++ (u32 0 ++
        u32 (UInt32.ofNat (4 + k))))))))) ++
      (List.replicate 4 0 ++ (List.replicate k 0 ++ (u32 txCommitMarker ++ rest))) := by
    rw [encodeFrame, frameOps_sliceOf, hlen, hfield]
    generalize crcFrameChecksum seq 17 (encodeOps (RingRun.sliceOf (4 + k))) = crc
    refine ⟨crc, ?_⟩
    rw [hpay]
    simp only [List.append_assoc]
  apply decodeFrame_of_marker (show _ = 17 from ?_)
  · rw [hframe, bytesAt_append (by simp [txHeaderLen]) (by simp), readU32, decode_replicate_zero]
    decide
  · rw [hframe]
    rfl

theorem RecoversExactly.length_eq {region : ByteStore} {blockSize : Nat} {txs : List Transaction}
    (h : RecoversExactly region blockSize txs)
    (hopen : attach region blockSize = .ok r) : r.handed.length = txs.length := by
  obtain ⟨reopened, hopen', hall⟩ := h
  cases hopen.symm.trans hopen'
  have hcount := hall Unit (fun _ _ => .ok ()) ()
  rw [recover_accept, foldlM_accept] at hcount
  simp only [Except.map, Except.ok.injEq, Prod.mk.injEq, true_and] at hcount
  exact hcount

/-- On a ring of 8 GiB the first of two frames has more than 4 GiB of payload: when the second is
torn nothing is replayed. -/
theorem oversized_frame_lost : ∃ r r' before item torn,
    create ⟨33 * 2 ^ 28, fun _ => 0, by decide⟩ (2 ^ 28) = .ok r ∧
    r.appendAll RunSort.stable [RingRun.sliceOf (4 + 4294967292), RingRun.sliceOf 59] = .ok r' ∧
    framesFrom RunSort.stable 0 [RingRun.sliceOf (4 + 4294967292), RingRun.sliceOf 59] =
      before ++ item :: [] ∧
    total (before ++ item :: []) < r.ringBytes ∧ TornAt r' (total before) torn ∧
    frameAt { r' with region := torn } (total before) = none ∧
    ¬RecoversExactly torn (2 ^ 28) (before.map Prod.fst) := by
  obtain ⟨r, hc⟩ : ∃ r, create ⟨33 * 2 ^ 28, fun _ => 0, by decide⟩ (2 ^ 28) = .ok r := ⟨_, rfl⟩
  obtain ⟨hf, hstate, hbs⟩ := create_formatted hc
  have hrb : r.ringBytes = 8589934592 := by
    rw [hf.ring_eq, hbs]
    rfl
  have hlen₁ : r.frameLen RunSort.stable (RingRun.sliceOf (4 + 4294967292)) = 4294967337 :=
    RingRun.frameLen_sliceOf _ _ _
  have hused : r.used = 0 := by
    rw [used, hstate, hrb]
    rfl
  have h₁ := append_store RunSort.stable r (RingRun.sliceOf (4 + 4294967292))
    (by rw [hstate, hlen₁, hrb]; decide) (by rw [hused, hlen₁, hrb]; decide)
  have hseq : r.state.txSeq + 1 = 1 := by rw [hstate]; rfl
  have hhead : r.state.head = 0 := by rw [hstate]
  have htail : r.state.tail = 0 := by rw [hstate]
  rw [frameLen, hseq] at hlen₁
  rw [hseq] at h₁
  have hgone := fun rest => decodeFrame_oversized RunSort.stable 1 rest
    (show 4 + 4294967292 = 2 ^ 32 from rfl)
  generalize encodeFrame RunSort.stable 1 (RingRun.sliceOf (4 + 4294967292)) = f at hlen₁ h₁ hgone
  -- the ring after the first append
  have hread₁ : (r.store 1 f).persist.region.read (2 ^ 28) 4294967337 = f := by
    rw [persist_read (by decide), store_region, hhead, hbs, ← hlen₁]
    exact ByteStore.read_write_self _ _ _
  have hf₁ := store_formatted hf 1 f
  have hbs₁ : (r.store 1 f).persist.blockSize = 2 ^ 28 := by rw [persist_blockSize, store_blockSize, hbs]
  have hrb₁ : (r.store 1 f).persist.ringBytes = 8589934592 := by rw [persist_ringBytes, store_ringBytes, hrb]
  have hhead₁ : (r.store 1 f).persist.state.head = 4294967337 := by
    rw [persist_state, store_head, hhead, hlen₁, hrb]
  have htail₁ : (r.store 1 f).persist.state.tail = 0 := by rw [persist_state, store_tail, htail]
  generalize (r.store 1 f).persist = r₁ at *
  have hlen₂ : r₁.frameLen RunSort.stable (RingRun.sliceOf 59) = 100 :=
    RingRun.frameLen_sliceOf _ _ _
  have hused₁ : r₁.used = 4294967337 := by
    rw [used, hhead₁, htail₁, hrb₁]
    rfl
  have h₂ := append_store RunSort.stable r₁ (RingRun.sliceOf 59)
    (by rw [hhead₁, hlen₂, hrb₁]; decide) (by rw [hused₁, hlen₂, hrb₁]; decide)
  generalize encodeFrame RunSort.stable (r₁.state.txSeq + 1) (RingRun.sliceOf 59) = g at h₂
  -- and after the second, with everything from its frame on zeroed
  have hread₂ : (r₁.store (r₁.state.txSeq + 1) g).persist.region.read (2 ^ 28) 4294967337 = f := by
    rw [persist_read (by decide), store_region, hhead₁, hbs₁,
      ByteStore.read_write_disjoint (Or.inl (Nat.le_refl _)), hread₁]
  have hf₂ := store_formatted hf₁ (r₁.state.txSeq + 1) g
  have hbs₂ : (r₁.store (r₁.state.txSeq + 1) g).persist.blockSize = 2 ^ 28 := by
    rw [persist_blockSize, store_blockSize, hbs₁]
  have hrb₂ : (r₁.store (r₁.state.txSeq + 1) g).persist.ringBytes = 8589934592 := by
    rw [persist_ringBytes, store_ringBytes, hrb₁]
  have hhead₂ : (r₁.store (r₁.state.txSeq + 1) g).persist.state.head < 8589934592 := by
    rw [persist_state, store_head, hrb₁]
    exact Nat.mod_lt _ (by decide)
  have htail₂ : (r₁.store (r₁.state.txSeq + 1) g).persist.state.tail = 0 := by
    rw [persist_state, store_tail, htail₁]
  have hrun : r.appendAll RunSort.stable [RingRun.sliceOf (4 + 4294967292), RingRun.sliceOf 59] =
      .ok (r₁.store (r₁.state.txSeq + 1) g).persist := (appendAll_cons h₁).trans (appendAll_cons h₂)
  generalize (r₁.store (r₁.state.txSeq + 1) g).persist = r₂ at *
  have ht := tornAt_blankFrom r₂ 4294967337
  have hnone := frameAt_blankFrom r₂ 4294967337
  generalize blankFrom r₂.region (r₂.blockSize + 4294967337) = torn at *
  have hfirst : frameAt { r₂ with region := torn } 0 = none := by
    have hread : torn.read (2 ^ 28) 4294967337 = f := by
      rw [← hread₂]
      apply ByteStore.read_congr
      intro i _ hi
      exact ht.before i (by rw [hbs₂]; exact hi)
    unfold frameAt
    dsimp only
    rw [hbs₂, hrb₂, show 8589934592 - 0 = 4294967337 + 4294967255 from rfl, ByteStore.read_add,
      Nat.add_zero, hread]
    exact hgone _
  refine ⟨r, r₂, [(⟨1, RingRun.sliceOf (4 + 4294967292)⟩, 4294967337)],
    (⟨2, RingRun.sliceOf 59⟩, 100), torn, hc, hrun, ?_, by rw [hrb]; decide, ht, hnone, ?_⟩
  · rw [framesFrom_slice, framesFrom_slice]
    rfl
  · intro hrec
    rw [← hbs₂] at hrec
    have hopen := attach_of_formatted (ht.formatted hf₂) (show r₂.state.head < 2 ^ 64 by omega)
      (show r₂.state.tail < 2 ^ 64 by omega)
    have hlen := hrec.length_eq hopen
    rw [handed_of_gap] at hlen
    · exact absurd hlen (by decide)
    · dsimp only
      rw [htail₂, Nat.zero_mod]
      exact hfirst

def pendingLoop (r : JournalRing) (head : Nat) : Nat → Nat → Nat → Option Nat
  | 0, _, _ => none
  | fuel + 1, cursor, count =>
    if cursor = head then some count
    else
      match r.frameAt cursor with
      | some (_, total) => pendingLoop r head fuel ((cursor + total) % r.ringBytes) (count + 1)
      | none => some count

def pendingTransactions (r : JournalRing) (fuel : Nat) : Option Nat :=
  if r.ringBytes = 0 then some 0
  else r.pendingLoop (r.state.head % r.ringBytes) fuel (r.state.tail % r.ringBytes) 0

/-- `pending_transactions` returns, and with the number of transactions that `recover` replays when
no operation is refused. -/
def PendingAgrees (r : JournalRing) : Prop :=
  ∃ fuel n, r.pendingTransactions fuel = some n ∧
    r.recover (fun _ _ => .ok ()) () = .ok ((), r.markCleanShutdown, n)

/-- The frames from the tail on go once round the ring past the head, and one more follows. -/
def Laps (r : JournalRing) : Prop :=
  ∃ items item, Path r.frameAt r.ringBytes (r.state.head % r.ringBytes)
    (r.state.tail % r.ringBytes) (items ++ [item]) ∧ r.ringBytes ≤ total items

theorem frameAt_pos {p n : Nat} {tx : Transaction} (h : r.frameAt p = some (tx, n)) : 0 < n := by
  have htotal := (decodeFrame_total h).1
  omega

theorem pendingLoop_eq_walk {head cursor traversed count : Nat}
    (hlap : ∀ items item, Path r.frameAt r.ringBytes head cursor (items ++ [item]) →
      traversed + total items < r.ringBytes) :
    ∃ fuel, r.pendingLoop head fuel cursor count =
      some (count + (walk r.frameAt r.ringBytes head cursor traversed).length) := by
  by_cases hhead : cursor = head
  · refine ⟨1, ?_⟩
    rw [walk, if_neg (by simp [hhead]), pendingLoop, if_pos hhead]
    rfl
  · cases hframe : r.frameAt cursor with
    | none =>
      refine ⟨1, ?_⟩
      rw [walk, pendingLoop, if_neg hhead, hframe]
      simp
    | some found =>
      obtain ⟨tx, n⟩ := found
      have hn := frameAt_pos hframe
      have hgo : traversed < r.ringBytes := hlap [] (tx, n) ⟨hhead, hframe, hn, trivial⟩
      have hnext : ∀ items item,
          Path r.frameAt r.ringBytes head ((cursor + n) % r.ringBytes) (items ++ [item]) →
          traversed + n + total items < r.ringBytes := by
        intro items item hpath
        have hlt := hlap ((tx, n) :: items) item ⟨hhead, hframe, hn, hpath⟩
        rw [total_cons] at hlt
        dsimp only at hlt
        omega
      obtain ⟨fuel, hfuel⟩ : ∃ fuel, r.pendingLoop head fuel ((cursor + n) % r.ringBytes)
          (count + 1) = some (count + 1 + (walk r.frameAt r.ringBytes head
            ((cursor + n) % r.ringBytes) (traversed + n)).length) := pendingLoop_eq_walk hnext
      refine ⟨fuel + 1, ?_⟩
      rw [walk, if_pos ⟨hhead, hgo⟩, pendingLoop, if_neg hhead, hframe]
      simp only [Nat.ne_of_gt hn, if_false, List.length_cons]
      rw [hfuel]
      congr 1
      omega
termination_by r.ringBytes - traversed

theorem pendingLoop_count_le {head fuel cursor count n : Nat}
    (h : r.pendingLoop head fuel cursor count = some n) : count ≤ n := by
  induction fuel generalizing cursor count with
  | zero => cases h
  | succ fuel ih =>
    rw [pendingLoop] at h
    split at h
    next => exact Nat.le_of_eq (Option.some.inj h)
    next =>
      split at h
      next => exact Nat.le_of_succ_le (ih h)
      next => exact Nat.le_of_eq (Option.some.inj h)

theorem walk_lt_pendingLoop {head fuel cursor traversed count n : Nat}
    {items : List (Transaction × Nat)} {item : Transaction × Nat}
    (hpath : Path r.frameAt r.ringBytes head cursor (items ++ [item]))
    (hlap : r.ringBytes ≤ traversed + total items)
    (h : r.pendingLoop head fuel cursor count = some n) :
    count + (walk r.frameAt r.ringBytes head cursor traversed).length < n := by
  induction items generalizing fuel cursor traversed count with
  | nil =>
    obtain ⟨hhead, hframe, -⟩ := hpath
    cases fuel with
    | zero => cases h
    | succ fuel =>
      rw [pendingLoop, if_neg hhead, hframe] at h
      rw [walk, if_neg (by simp at hlap; omega)]
      exact pendingLoop_count_le h
  | cons first items ih =>
    obtain ⟨hhead, hframe, hn, hrest⟩ := hpath
    cases fuel with
    | zero => cases h
    | succ fuel =>
      rw [pendingLoop, if_neg hhead, hframe] at h
      rw [total_cons] at hlap
      rw [walk]
      split
      next =>
        rw [hframe]
        simp only [Nat.ne_of_gt hn, if_false, List.length_cons]
        have hlt := ih hrest (show r.ringBytes ≤ traversed + first.2 + total items by omega) h
        omega
      next => exact pendingLoop_count_le h

/-- `pending_transactions` counts what `recover` replays exactly if no frame follows a whole lap
round the ring. -/
theorem pendingAgrees_iff (r : JournalRing) : r.PendingAgrees ↔ ¬r.Laps := by
  rcases Nat.eq_zero_or_pos r.ringBytes with hzero | hpos
  · have hagree : r.PendingAgrees := by
      refine ⟨0, 0, by rw [pendingTransactions, if_pos hzero], ?_⟩
      rw [recover_accept, handed, if_pos hzero]
      rfl
    refine iff_of_true hagree ?_
    rintro ⟨items, item, hpath, -⟩
    obtain ⟨first, rest, hsplit⟩ := List.exists_cons_of_ne_nil
      (show items ++ [item] ≠ [] by simp)
    rw [hsplit] at hpath
    have htotal := (decodeFrame_total hpath.2.1)
    rw [ByteStore.read_length, hzero] at htotal
    omega
  · have hhanded : r.handed = walk r.frameAt r.ringBytes (r.state.head % r.ringBytes)
        (r.state.tail % r.ringBytes) 0 := if_neg (Nat.ne_of_gt hpos)
    constructor
    · rintro ⟨fuel, n, hpend, hrec⟩ ⟨items, item, hpath, hlap⟩
      rw [recover_accept] at hrec
      simp only [Except.ok.injEq, Prod.mk.injEq, true_and] at hrec
      rw [pendingTransactions, if_neg (Nat.ne_of_gt hpos)] at hpend
      have hlt := walk_lt_pendingLoop hpath (show r.ringBytes ≤ 0 + total items by omega) hpend
      rw [← hhanded] at hlt
      omega
    · intro hlaps
      have hstay : ∀ items item, Path r.frameAt r.ringBytes (r.state.head % r.ringBytes)
          (r.state.tail % r.ringBytes) (items ++ [item]) → 0 + total items < r.ringBytes := by
        intro items item hpath
        by_contra hge
        exact hlaps ⟨items, item, hpath, by omega⟩
      obtain ⟨fuel, hfuel⟩ : ∃ fuel, r.pendingLoop (r.state.head % r.ringBytes) fuel
          (r.state.tail % r.ringBytes) 0 = some (0 + (walk r.frameAt r.ringBytes
            (r.state.head % r.ringBytes) (r.state.tail % r.ringBytes) 0).length) :=
        pendingLoop_eq_walk hstay
      rw [← hhanded, Nat.zero_add] at hfuel
      refine ⟨fuel, r.handed.length, ?_, recover_accept r⟩
      rw [pendingTransactions, if_neg (Nat.ne_of_gt hpos), hfuel]

theorem pendingLoop_none {head cursor : Nat} {tx : Transaction}
    (hhead : cursor ≠ head) (hcursor : cursor < r.ringBytes)
    (hframe : r.frameAt cursor = some (tx, r.ringBytes)) (fuel count : Nat) :
    r.pendingLoop head fuel cursor count = none := by
  induction fuel generalizing count with
  | zero => rfl
  | succ fuel ih =>
    rw [pendingLoop, if_neg hhead, hframe]
    dsimp only
    rw [Nat.add_mod_right, Nat.mod_eq_of_lt hcursor]
    exact ih (count + 1)

theorem exists_full_ring : ∃ (r : JournalRing) (tx : Transaction), r.Formatted ∧ r.blockSize = 4096 ∧ r.ringBytes = 131072 ∧
    r.state.head = 1 ∧ r.state.tail = 0 ∧ r.frameAt 0 = some (tx, r.ringBytes) := by
  obtain ⟨r, -, hf, hbs, hrb, hstate, -⟩ := RingRun.create_blank
  obtain ⟨n, hn⟩ : ∃ n, 41 + n = 131072 := ⟨131031, rfl⟩
  have hhead : r.state.head = 0 := by rw [hstate]
  have hslice := RingRun.frameLen_sliceOf RunSort.stable r n
  have hfit : FrameFits RunSort.stable (RingRun.sliceOf n) :=
    frameFits_of_frameLen (r := r) (by rw [hslice, hn]; decide)
  rw [frameLen, hn] at hslice
  generalize r.state.txSeq + 1 = seq at hslice
  let w := (r.store seq (encodeFrame RunSort.stable seq (RingRun.sliceOf n))).setHead 1
  have hregion : w.region = r.region.write (w.blockSize + 0)
      (encodeFrame RunSort.stable seq (RingRun.sliceOf n)) :=
    (r.store_region seq _).trans (by rw [hhead]; rfl)
  have hframe : w.frameAt 0 = some (⟨seq, RingRun.sliceOf n⟩, r.ringBytes) := by
    rw [frameAt_stored hfit hregion (show _ ≤ r.ringBytes by rw [hslice, hrb]), hslice, hrb,
      frameOps_sliceOf]
  refine ⟨w.persist, ⟨seq, RingRun.sliceOf n⟩, persist_formatted hf.header_le hf.ring_eq hf.fits,
    ?_, ?_, ?_, ?_, ?_⟩
  · rw [persist_blockSize]
    exact hbs
  · rw [persist_ringBytes]
    exact hrb
  · rw [persist_state]
    rfl
  · rw [persist_state]
    change r.state.tail = 0
    rw [hstate]
  · rw [frameAt_persist (show journalHeaderLen ≤ w.blockSize from hf.header_le),
      persist_ringBytes]
    exact hframe

theorem full_ring_stuck {tx : Transaction} (hrb : r.ringBytes = 131072)
    (hhead : r.state.head = 1) (htail : r.state.tail = 0)
    (hframe : r.frameAt 0 = some (tx, r.ringBytes)) :
    r.handed = [tx] ∧ ∀ fuel, r.pendingTransactions fuel = none := by
  have hpos : r.ringBytes ≠ 0 := by omega
  constructor
  · rw [handed, if_neg hpos, hhead, htail, Nat.zero_mod, Nat.mod_eq_of_lt (by omega), walk,
      if_pos (by omega), hframe]
    dsimp only
    rw [if_neg hpos, Nat.zero_add, walk, if_neg (by omega)]
  · intro fuel
    rw [pendingTransactions, if_neg hpos, hhead, htail, Nat.zero_mod, Nat.mod_eq_of_lt (by omega)]
    exact pendingLoop_none (by decide) (by omega) hframe fuel 0

/-- On such a ring `recover` replays one transaction and `pending_transactions` never returns. -/
theorem pending_never_returns : ∃ region r, attach region 4096 = .ok r ∧
    r.recover (fun _ _ => .ok ()) () = .ok ((), r.markCleanShutdown, 1) ∧
    ∀ fuel, r.pendingTransactions fuel = none := by
  obtain ⟨r, tx, hf, hbs, hrb, hhead, htail, hframe⟩ := exists_full_ring
  have hopen := attach_of_formatted hf (by omega) (by omega)
  obtain ⟨hone, hstuck⟩ : handed { r with lastWrite := none } = [tx] ∧
      ∀ fuel, pendingTransactions { r with lastWrite := none } fuel = none :=
    full_ring_stuck hrb hhead htail hframe
  refine ⟨r.region, { r with lastWrite := none }, ?_, ?_, hstuck⟩
  · rw [← hbs]
    exact hopen
  · rw [recover_accept, hone]
    rfl

end JournalRing

end Oifs
