import Oifs.RingRuns

namespace Oifs

open CircularLog

namespace JournalRing

/-- Going round from the tail, the cursor comes after it and no later than the head. -/
def CursorInside (r : JournalRing) (cursor : Nat) : Prop :=
  cursor ≠ r.state.tail ∧
    (cursor + r.ringBytes - r.state.tail) % r.ringBytes ≤
      (r.state.head + r.ringBytes - r.state.tail) % r.ringBytes

theorem checkpointTo_boundary {r : JournalRing} {pre post : List (Transaction × Nat)} {cursor : Nat}
    (hf : r.Formatted) (hl : Live r.frameAt r.ringBytes r.state.tail r.state.head (pre ++ post))
    (hc : cursor = (r.state.tail + total pre) % r.ringBytes) :
    (r.checkpointTo cursor).Formatted ∧ (r.checkpointTo cursor).ringBytes = r.ringBytes ∧
      Live (r.checkpointTo cursor).frameAt r.ringBytes (r.checkpointTo cursor).state.tail
        (r.checkpointTo cursor).state.head post := by
  have hl' := hl.advance
  rw [← hc] at hl'
  rw [checkpointTo_eq hl.head_lt hl.tail_lt hl'.tail_lt]
  split
  next heq =>
    rw [heq] at hl'
    exact ⟨hf, rfl, hl'⟩
  next =>
    rw [if_pos (by rw [hl.dist_eq, hl'.dist_eq, total_append]; omega)]
    obtain ⟨hform, hframe⟩ := setTail_formatted hf cursor
    refine ⟨hform, persist_ringBytes _, ?_⟩
    rw [hframe, persist_state]
    exact hl'

theorem not_restarts {rs : RunSort} {r : JournalRing} {ops : List MetadataOp}
    (hend : r.state.head + r.frameLen rs ops ≤ r.ringBytes)
    (hroom : r.used + r.frameLen rs ops ≤ r.ringBytes) : ¬r.Restarts rs ops := by
  have hw : r.wrap (r.frameLen rs ops) = r := if_neg (Nat.not_lt.mpr hend)
  rw [Restarts, hw]
  omega

theorem checkpointTo_outside {r : JournalRing} {items : List (Transaction × Nat)} {cursor : Nat}
    (hl : Live r.frameAt r.ringBytes r.state.tail r.state.head items) (hlt : cursor < r.ringBytes)
    (hout : ¬r.CursorInside cursor) : r.checkpointTo cursor = r := by
  rw [checkpointTo_eq hl.head_lt hl.tail_lt hlt]
  split
  next => rfl
  next hne =>
    rw [if_neg]
    intro hle
    rw [hl.dist_eq, hl.dist_le_iff hlt] at hle
    exact hout ⟨hne, by rw [hl.dist_eq]; exact hle⟩

/-- A cursor where no frame starts becomes the tail all the same, and the walk hands over nothing.
-/
theorem checkpointTo_lost {r : JournalRing} {cursor : Nat} (hf : r.Formatted)
    (hh : r.state.head < r.ringBytes) (ht : r.state.tail < r.ringBytes) (hc : cursor < r.ringBytes)
    (hne : cursor ≠ r.state.tail)
    (hle : (r.state.head + r.ringBytes - cursor) % r.ringBytes ≤
      (r.state.head + r.ringBytes - r.state.tail) % r.ringBytes)
    (hnone : r.frameAt cursor = none) :
    (r.checkpointTo cursor).state.tail = cursor ∧
      (r.checkpointTo cursor).state.head = r.state.head ∧
      (r.checkpointTo cursor).frameAt cursor = none ∧
      ∃ reopened, attach (r.checkpointTo cursor).region (r.checkpointTo cursor).blockSize =
        .ok reopened ∧ reopened.handed = [] := by
  have hring := hf.ring_lt
  rw [checkpointTo_eq hh ht hc, if_neg hne, if_pos hle]
  obtain ⟨hform, hframe⟩ := setTail_formatted hf cursor
  have htail : (r.setTail cursor).persist.state.tail = cursor := by rw [persist_state]; rfl
  have hhead : (r.setTail cursor).persist.state.head = r.state.head := by rw [persist_state]; rfl
  have hrb : (r.setTail cursor).persist.ringBytes = r.ringBytes := persist_ringBytes _
  have hgap : (r.setTail cursor).persist.handed = [] :=
    handed_of_gap (by rw [htail, hrb, Nat.mod_eq_of_lt hc, hframe]; exact hnone)
  exact ⟨htail, hhead, by rw [hframe]; exact hnone, _,
    attach_of_formatted hform (by rw [hhead]; omega) (by rw [htail]; omega), hgap⟩

end JournalRing

/-- `flush` between reading the head and `checkpoint_to`: the ring, what was appended and kept
since, and whether frames were given up. -/
structure FlushWindow where
  ring : JournalRing
  appended : List Transaction
  kept : List Transaction
  restarted : Bool

namespace FlushWindow

variable {r : JournalRing} {rs : RunSort} {ops : List MetadataOp} {cursor : Nat}

def start (ring : JournalRing) : FlushWindow := ⟨ring, [], [], false⟩

def step (rs : RunSort) (w : FlushWindow) (ops : List MetadataOp) : FlushWindow :=
  match w.ring.append rs ops with
  | .error _ => w
  | .ok (seq, ring) =>
    let tx : Transaction := ⟨seq, frameOps rs ops⟩
    if w.ring.Restarts rs ops then ⟨ring, w.appended ++ [tx], [tx], true⟩
    else ⟨ring, w.appended ++ [tx], w.kept ++ [tx], w.restarted⟩

theorem step_keeps (w : FlushWindow) {seq : UInt64}
    {ring : JournalRing} (h : w.ring.append rs ops = .ok (seq, ring))
    (hkeep : ¬w.ring.Restarts rs ops) :
    w.step rs ops = ⟨ring, w.appended ++ [⟨seq, frameOps rs ops⟩],
      w.kept ++ [⟨seq, frameOps rs ops⟩], w.restarted⟩ := by
  simp only [step, h, if_neg hkeep]

theorem step_restarts (w : FlushWindow) {seq : UInt64}
    {ring : JournalRing} (h : w.ring.append rs ops = .ok (seq, ring))
    (hre : w.ring.Restarts rs ops) :
    w.step rs ops = ⟨ring, w.appended ++ [⟨seq, frameOps rs ops⟩], [⟨seq, frameOps rs ops⟩], true⟩ := by
  simp only [step, h, if_pos hre]

def run (rs : RunSort) (w : FlushWindow) (batches : List (List MetadataOp)) : FlushWindow :=
  batches.foldl (step rs) w

def Fits (rs : RunSort) : FlushWindow → List (List MetadataOp) → Prop
  | _, [] => True
  | w, ops :: batches => w.ring.AppendFits rs ops ∧ Fits rs (w.step rs ops) batches

/-- What the appends keep, for the head that the flush has read. -/
structure Inv (cursor : Nat) (w : FlushWindow) : Prop where
  formatted : w.ring.Formatted
  same : w.restarted = false → w.kept = w.appended
  tracked : (w.ring.ringBytes = 0 ∧ w.ring.state.head = 0 ∧ w.ring.state.tail = 0 ∧ w.kept = []) ∨
    (w.restarted = false ∧ ∃ pre post, Live w.ring.frameAt w.ring.ringBytes w.ring.state.tail
      w.ring.state.head (pre ++ post) ∧
      cursor = (w.ring.state.tail + total pre) % w.ring.ringBytes ∧ post.map Prod.fst = w.kept) ∨
    (w.restarted = true ∧ cursor < w.ring.ringBytes ∧ ∃ items, Live w.ring.frameAt w.ring.ringBytes
      w.ring.state.tail w.ring.state.head items ∧ items.map Prod.fst = w.kept)

theorem inv_start {st : RingRun} (hi : st.Inv) : Inv st.ring.state.head (start st.ring) := by
  refine ⟨hi.formatted, fun _ => rfl, ?_⟩
  obtain ⟨hzero, hhead, htail, -⟩ | ⟨dropped, items, hl, -⟩ := hi.tracked
  · exact Or.inl ⟨hzero, hhead, htail, rfl⟩
  · exact Or.inr (Or.inl ⟨rfl, items, [], by rw [List.append_nil]; exact hl, hl.head_eq, rfl⟩)

theorem inv_step {w : FlushWindow}
    (hi : Inv cursor w) (hfit : w.ring.AppendFits rs ops) : Inv cursor (w.step rs ops) := by
  cases hok : w.ring.append rs ops with
  | error e =>
    simp only [step, hok]
    exact hi
  | ok out =>
    obtain ⟨seq, ring⟩ := out
    simp only [step, hok]
    obtain ⟨hzero, -⟩ | ⟨hfresh, pre, post, hl, hc, hpost⟩ | ⟨hre, hc, items, hl, hitems⟩ :=
      hi.tracked
    · have hle := (JournalRing.append_ok hok).1
      rw [hzero, JournalRing.frameLen, encodeFrame_length] at hle
      omega
    · obtain ⟨hf, hrb, ⟨hn, ht, hl'⟩ | ⟨hr, hl'⟩⟩ := JournalRing.append_live hi.formatted hl hfit hok
      · rw [if_neg hn]
        rw [List.append_assoc] at hl'
        exact ⟨hf, fun h => by rw [hi.same h], Or.inr (Or.inl ⟨hfresh, pre, _, hl',
          by rw [hc, ht, hrb], by simp [hpost]⟩)⟩
      · rw [if_pos hr]
        have hlt : cursor < ring.ringBytes := by
          rw [hrb, hc]
          exact Nat.mod_lt _ (Nat.zero_lt_of_lt hl.tail_lt)
        exact ⟨hf, (by simp), Or.inr (Or.inr ⟨rfl, hlt, _, hl', rfl⟩)⟩
    · obtain ⟨hf, hrb, ⟨hn, -, hl'⟩ | ⟨hr, hl'⟩⟩ := JournalRing.append_live hi.formatted hl hfit hok
      · rw [if_neg hn]
        exact ⟨hf, fun h => by rw [hi.same h], Or.inr (Or.inr ⟨hre, hrb ▸ hc, _, hl',
          by simp [hitems]⟩)⟩
      · rw [if_pos hr]
        exact ⟨hf, (by simp), Or.inr (Or.inr ⟨rfl, hrb ▸ hc, _, hl', rfl⟩)⟩

theorem inv_run {batches : List (List MetadataOp)} {w : FlushWindow}
    (hi : Inv cursor w) (hfit : Fits rs w batches) : Inv cursor (run rs w batches) := by
  induction batches generalizing w with
  | nil => exact hi
  | cons ops batches ih => exact ih (inv_step hi hfit.1) hfit.2

/-- The frame walk from the tail hands over exactly `txs`, and the tail starts a frame or equals the
head. -/
def Reaches (r : JournalRing) (txs : List Transaction) : Prop :=
  (r.state.tail = r.state.head ∨ ∃ tx n, r.frameAt r.state.tail = some (tx, n) ∧ tx ∈ txs) ∧
    ∃ reopened, JournalRing.attach r.region r.blockSize = .ok reopened ∧ reopened.handed = txs

theorem reaches_of_live {items : List (Transaction × Nat)} (hf : r.Formatted)
    (hl : Live r.frameAt r.ringBytes r.state.tail r.state.head items) :
    Reaches r (items.map Prod.fst) := by
  refine ⟨?_, JournalRing.reopen_live hf hl⟩
  cases items with
  | nil =>
    have heq := hl.head_eq
    rw [total_nil, Nat.add_zero, Nat.mod_eq_of_lt hl.tail_lt] at heq
    exact Or.inl heq.symm
  | cons item items => exact Or.inr ⟨item.1, item.2, hl.chain.1, by simp⟩

/-- After `checkpoint_to` every kept transaction appended since is reached from the tail, unless
frames were given up and the head has passed the old cursor. -/
theorem checkpointTo_reaches {rs : RunSort} {region : ByteStore} {blockSize : Nat} {r : JournalRing}
    {calls : List RingCall} {batches : List (List MetadataOp)} {before : RingRun} {w : FlushWindow}
    (hc : JournalRing.create region blockSize = .ok r) (hcalls : RingRun.Fits rs ⟨r, []⟩ calls)
    (hbefore : before = RingRun.run rs ⟨r, []⟩ calls) (hfit : Fits rs (start before.ring) batches)
    (hw : w = run rs (start before.ring) batches)
    (hcursor : w.restarted = true → ¬w.ring.CursorInside before.ring.state.head) :
    Reaches (w.ring.checkpointTo before.ring.state.head) w.kept ∧
      (w.restarted = false → w.kept = w.appended) := by
  have hi : Inv before.ring.state.head w := by
    rw [hw]
    exact inv_run (inv_start (hbefore ▸ RingRun.inv_run (RingRun.inv_create hc) hcalls)) hfit
  refine ⟨?_, hi.same⟩
  obtain ⟨hzero, hhead, htail, hkept⟩ | ⟨-, pre, post, hl, hc, hpost⟩ |
    ⟨hre, hlt, items, hl, hitems⟩ := hi.tracked
  · have hsame : w.ring.checkpointTo before.ring.state.head = w.ring := if_pos hzero
    rw [hsame, hkept]
    exact ⟨Or.inl (htail.trans hhead.symm),
      JournalRing.reopen_zero hi.formatted hzero hhead htail⟩
  · obtain ⟨hf, hrb, hl'⟩ := JournalRing.checkpointTo_boundary hi.formatted hl hc
    rw [← hpost]
    exact reaches_of_live hf (hrb ▸ hl')
  · rw [JournalRing.checkpointTo_outside hl hlt (hcursor hre), ← hitems]
    exact reaches_of_live hi.formatted hl

theorem checkpointTo_reaches_blank : ∃ r w, JournalRing.create RingRun.blankRegion 4096 = .ok r ∧
    w = run RunSort.stable (start r) [RingRun.sliceOf 100] ∧ w.restarted = false ∧
    Reaches (w.ring.checkpointTo r.state.head) w.appended := by
  obtain ⟨r, hc, -, -, hrb, hstate, hused, -⟩ := RingRun.create_blank
  have hfit : r.AppendFits RunSort.stable (RingRun.sliceOf 100) :=
    RingRun.empty_fits hused (by decide) (by rw [hstate, hrb]; decide) (by rw [hrb]; decide)
  have hkeep : ¬r.Restarts RunSort.stable (RingRun.sliceOf 100) :=
    JournalRing.not_restarts (by rw [hstate, RingRun.frameLen_sliceOf, hrb]; decide)
      (by rw [hused, RingRun.frameLen_sliceOf, hrb]; decide)
  obtain ⟨r₁, h₁, -⟩ := r.append_plain RunSort.stable (RingRun.sliceOf 100)
    (by rw [hstate, RingRun.frameLen_sliceOf, hrb]; decide)
    (by rw [hused, RingRun.frameLen_sliceOf, hrb]; decide)
  have hfresh : (run RunSort.stable (start r) [RingRun.sliceOf 100]).restarted = false := by
    rw [run, List.foldl_cons, List.foldl_nil, step_keeps (start r) h₁ hkeep]
    rfl
  have hcalls : RingRun.Fits RunSort.stable ⟨r, []⟩ [] := trivial
  have hfits : Fits RunSort.stable (start r) [RingRun.sliceOf 100] := ⟨hfit, trivial⟩
  obtain ⟨hreach, hsame⟩ := checkpointTo_reaches hc hcalls rfl hfits rfl
    fun h => absurd (hfresh.symm.trans h) (by decide)
  exact ⟨r, _, hc, rfl, hfresh, hsame hfresh ▸ hreach⟩

theorem append_over_start (rs : RunSort) (r : JournalRing) (ops : List MetadataOp)
    (hring : r.ringBytes < 2 ^ 63) (ht : r.state.tail < r.ringBytes)
    (hwrap : r.state.head + r.frameLen rs ops > r.ringBytes) (hpos : 0 < r.state.tail)
    (hover : r.state.tail < r.frameLen rs ops) (hlt : r.frameLen rs ops < r.ringBytes) :
    r.Restarts rs ops ∧ (FrameFits rs ops → r.AppendFits rs ops) ∧
    ∃ r', r.append rs ops = .ok (r.state.txSeq + 1, r') ∧ r'.blockSize = r.blockSize ∧
      r'.state.tail = 0 ∧ r'.state.head = r.frameLen rs ops ∧
      ∀ i, journalHeaderLen ≤ i →
        r'.region.byte i =
          (r.region.write r.blockSize (encodeFrame rs (r.state.txSeq + 1) ops)).byte i := by
  have hw : r.wrap (r.frameLen rs ops) = r.setHead 0 := if_pos hwrap
  have hused : (r.setHead 0).used = (0 + r.ringBytes - r.state.tail) % r.ringBytes :=
    JournalRing.used_eq (show (r.setHead 0).ringBytes < 2 ^ 63 from hring) (Nat.zero_lt_of_lt ht) ht
  rw [Nat.mod_eq_of_lt (by omega)] at hused
  have hmore : (r.wrap (r.frameLen rs ops)).used + r.frameLen rs ops > r.ringBytes := by
    rw [hw, hused]
    omega
  refine ⟨Or.inl hwrap, fun hframe _ => ⟨hframe, by rw [if_pos hmore]; exact hlt⟩, _,
    r.append_eq rs ops (Nat.le_of_lt hlt), ?_⟩
  rw [JournalRing.place_overwrites hmore, hw]
  refine ⟨by rw [JournalRing.persist_blockSize, JournalRing.store_blockSize]; rfl,
    by rw [JournalRing.persist_state, JournalRing.store_tail]; rfl, ?_, ?_⟩
  · rw [JournalRing.persist_state, JournalRing.store_head]
    change (0 + r.frameLen rs ops) % r.ringBytes = _
    rw [Nat.zero_add, Nat.mod_eq_of_lt hlt]
  · intro i hi
    rw [JournalRing.persist_byte hi, JournalRing.store_region]
    rfl

theorem sliceOf_frame_zero (rs : RunSort) (seq : UInt64) {n i : Nat} (hi : 37 ≤ i)
    (hlt : i < 37 + n) (hlen : i < (encodeFrame rs seq (RingRun.sliceOf n)).length) :
    (encodeFrame rs seq (RingRun.sliceOf n))[i] = 0 := by
  obtain ⟨k, rfl⟩ := Nat.exists_eq_add_of_le hi
  have hdrop : (encodeFrame rs seq (RingRun.sliceOf n)).drop 37 =
      List.replicate n 0 ++ LittleEndian.u32 txCommitMarker := by
    have hops : frameOps rs (RingRun.sliceOf n) = RingRun.sliceOf n := rfl
    dsimp only [encodeFrame]
    rw [hops, RingRun.sliceOf, encodeOps, List.flatMap_singleton]
    rfl
  have hget : (encodeFrame rs seq (RingRun.sliceOf n))[37 + k]? = some 0 := by
    rw [← List.getElem?_drop, hdrop,
      List.getElem?_append_left (by rw [List.length_replicate]; omega), List.getElem?_replicate, if_pos (by omega)]
  rw [List.getElem?_eq_getElem hlen] at hget
  exact Option.some.inj hget

/-- The flush reads head 100; the second of two later frames starts the ring afresh and covers that
byte. The tail moves into its middle, and neither transaction is reached. -/
theorem overtaken_cursor_loses : ∃ r before w, JournalRing.create RingRun.blankRegion 4096 = .ok r ∧
    before = RingRun.run RunSort.stable ⟨r, []⟩ [.append (RingRun.sliceOf 59), .checkpoint] ∧
    w = run RunSort.stable (start before.ring) [RingRun.sliceOf 69959, RingRun.sliceOf 69959] ∧
    Fits RunSort.stable (start before.ring) [RingRun.sliceOf 69959, RingRun.sliceOf 69959] ∧
    w.appended.length = 2 ∧
    (w.ring.checkpointTo before.ring.state.head).state.tail ≠
      (w.ring.checkpointTo before.ring.state.head).state.head ∧
    (w.ring.checkpointTo before.ring.state.head).frameAt
      (w.ring.checkpointTo before.ring.state.head).state.tail = none ∧
    ∃ reopened, JournalRing.attach (w.ring.checkpointTo before.ring.state.head).region
      (w.ring.checkpointTo before.ring.state.head).blockSize = .ok reopened ∧
      reopened.handed = [] := by
  obtain ⟨r, hc, hf, -, hrb, hstate, hused, hlive, hzero⟩ := RingRun.create_blank
  obtain ⟨st, hrun, -, hf₁, hrb₁, hl₁, hhead₁, htail₁, -⟩ := RingRun.append_checkpoint
    RunSort.stable hf hstate hused hlive hzero (by decide : 41 + 59 < 2 ^ 32) (by rw [hrb]; decide)
  rw [hrb] at hrb₁
  have hlen : ∀ ring : JournalRing, ring.frameLen RunSort.stable (RingRun.sliceOf 69959) = 70000 :=
    fun ring => RingRun.frameLen_sliceOf _ ring _
  have hused₁ : st.ring.used = 0 := by
    rw [JournalRing.used, hhead₁, htail₁, hrb₁]
    rfl
  obtain ⟨r₂, h₂, hbs₂, hrb₂, htail₂, hhead₂, -⟩ := st.ring.append_plain RunSort.stable
    (RingRun.sliceOf 69959) (by rw [hhead₁, hlen, hrb₁]; decide)
    (by rw [hused₁, hlen, hrb₁]; decide)
  have hfit₂ : st.ring.AppendFits RunSort.stable (RingRun.sliceOf 69959) :=
    RingRun.empty_fits hused₁ (by decide) (by rw [hhead₁, hrb₁]; decide) (by rw [hrb₁]; decide)
  have hkeep : ¬st.ring.Restarts RunSort.stable (RingRun.sliceOf 69959) :=
    JournalRing.not_restarts (by rw [hhead₁, hlen, hrb₁]; decide)
      (by rw [hused₁, hlen, hrb₁]; decide)
  rw [htail₁] at htail₂
  rw [hhead₁, hlen, hrb₁] at hhead₂
  rw [hrb₁] at hrb₂
  obtain ⟨hf₂, items, hl₂⟩ : r₂.Formatted ∧ ∃ items,
      Live r₂.frameAt r₂.ringBytes r₂.state.tail r₂.state.head items := by
    nth_rewrite 1 [← htail₁] at hl₁
    rw [← hhead₁] at hl₁
    obtain ⟨hf₂, -, ⟨-, -, hl₂⟩ | ⟨-, hl₂⟩⟩ := JournalRing.append_live hf₁ hl₁ hfit₂ h₂
    · exact ⟨hf₂, _, hl₂⟩
    · exact ⟨hf₂, _, hl₂⟩
  obtain ⟨hre, hfit₃, r₃, h₃, hbs₃, htail₃, hhead₃, hbyte₃⟩ := append_over_start
    RunSort.stable r₂ (RingRun.sliceOf 69959) (by rw [hrb₂]; decide)
    (by rw [htail₂, hrb₂]; decide) (by rw [hhead₂, hlen, hrb₂]; decide) (by rw [htail₂]; decide)
    (by rw [htail₂, hlen]; decide) (by rw [hlen, hrb₂]; decide)
  have hfit₃ := hfit₃ (JournalRing.frameFits_of_frameLen (r := r₂) (by rw [hlen]; decide))
  obtain ⟨hf₃, hrb₃, -⟩ := JournalRing.append_live hf₂ hl₂ hfit₃ h₃
  rw [hrb₂] at hrb₃
  rw [hlen] at hhead₃
  have hnone : r₃.frameAt 100 = none := by
    apply JournalRing.frameAt_of_zero
    intro i hi hlt
    have hheader := hf₂.header_le
    rw [hbs₃] at hi hlt
    obtain ⟨k, rfl⟩ := Nat.exists_eq_add_of_le (show r₂.blockSize ≤ i by omega)
    have hk : k < r₂.frameLen RunSort.stable (RingRun.sliceOf 69959) := by
      rw [hlen]
      omega
    rw [hbyte₃ _ (by omega), ByteStore.write_byte_in hk]
    exact sliceOf_frame_zero _ _ (by omega) (by omega) hk
  obtain ⟨htail₄, hhead₄, hnone₄, hopen⟩ := JournalRing.checkpointTo_lost hf₃
    (by rw [hhead₃, hrb₃]; decide) (by rw [htail₃, hrb₃]; decide)
    (by rw [hrb₃]; decide : 100 < r₃.ringBytes) (by rw [htail₃]; decide)
    (by rw [hhead₃, htail₃, hrb₃]; decide) hnone
  have hw : (run RunSort.stable (start st.ring)
        [RingRun.sliceOf 69959, RingRun.sliceOf 69959]).ring = r₃ ∧
      (run RunSort.stable (start st.ring)
        [RingRun.sliceOf 69959, RingRun.sliceOf 69959]).appended.length = 2 := by
    rw [run, List.foldl_cons, List.foldl_cons, List.foldl_nil, step_keeps (start st.ring) h₂ hkeep,
      step_restarts ⟨r₂, _, _, _⟩ h₃ hre]
    exact ⟨rfl, rfl⟩
  have hfits : Fits RunSort.stable (start st.ring)
      [RingRun.sliceOf 69959, RingRun.sliceOf 69959] := by
    refine ⟨hfit₂, ?_, trivial⟩
    rw [step_keeps (start st.ring) h₂ hkeep]
    exact hfit₃
  refine ⟨r, st, _, hc, hrun.symm, rfl, hfits, hw.2, ?_⟩
  rw [hw.1, hhead₁, htail₄, hhead₄, hhead₃]
  exact ⟨by decide, hnone₄, hopen⟩

end FlushWindow

end Oifs
