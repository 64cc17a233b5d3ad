import Oifs.RingAppend

namespace Oifs

open CircularLog

inductive RingCall where
  | append (ops : List MetadataOp)
  | checkpoint

/-- A ring in use, with the transactions appended since the last checkpoint. -/
structure RingRun where
  ring : JournalRing
  since : List Transaction

namespace RingRun

variable {rs : RunSort} {st : RingRun}

def step (rs : RunSort) (st : RingRun) : RingCall → RingRun
  | .append ops =>
    match st.ring.append rs ops with
    | .error _ => st
    | .ok (seq, ring) => ⟨ring, st.since ++ [⟨seq, frameOps rs ops⟩]⟩
  | .checkpoint => ⟨st.ring.checkpoint, []⟩

def run (rs : RunSort) (st : RingRun) (calls : List RingCall) : RingRun := calls.foldl (step rs) st

def Fits (rs : RunSort) : RingRun → List RingCall → Prop
  | _, [] => True
  | st, .append ops :: calls => st.ring.AppendFits rs ops ∧ Fits rs (st.step rs (.append ops)) calls
  | st, .checkpoint :: calls => Fits rs (st.step rs .checkpoint) calls

/-- Recovery replays a run of the transactions since the last checkpoint, in order and up to the
newest. -/
def RecoversLatest (st : RingRun) : Prop :=
  ∃ reopened dropped recovered,
    JournalRing.attach st.ring.region st.ring.blockSize = .ok reopened ∧
    st.since = dropped ++ recovered ∧ (st.since ≠ [] → recovered ≠ []) ∧
    ∀ (σ : Type) (apply : σ → MetadataOp → Except JournalError σ) (s : σ),
      reopened.recover apply s = ((recovered.flatMap Transaction.ops).foldlM apply s).map
        fun s' => (s', reopened.markCleanShutdown, recovered.length)

/-- What the steps keep. A ring of no bytes takes no transaction. -/
structure Inv (st : RingRun) : Prop where
  formatted : st.ring.Formatted
  tracked : (st.ring.ringBytes = 0 ∧ st.ring.state.head = 0 ∧ st.ring.state.tail = 0 ∧
      st.since = []) ∨
    ∃ dropped items, Live st.ring.frameAt st.ring.ringBytes st.ring.state.tail st.ring.state.head
      items ∧ st.since = dropped ++ items.map Prod.fst ∧ (st.since ≠ [] → items ≠ [])

theorem inv_create {region : ByteStore} {blockSize : Nat} {r : JournalRing}
    (h : JournalRing.create region blockSize = .ok r) : Inv ⟨r, []⟩ := by
  obtain ⟨hf, hstate, -⟩ := JournalRing.create_formatted h
  refine ⟨hf, ?_⟩
  rw [hstate]
  rcases Nat.eq_zero_or_pos r.ringBytes with hzero | hpos
  · exact Or.inl ⟨hzero, rfl, rfl, rfl⟩
  · exact Or.inr ⟨[], [], Live.empty hpos, rfl, fun h => absurd rfl h⟩

theorem inv_append {ops : List MetadataOp} (hi : st.Inv)
    (hfit : st.ring.AppendFits rs ops) : (st.step rs (.append ops)).Inv := by
  cases hok : st.ring.append rs ops with
  | error e =>
    simp only [step, hok]
    exact hi
  | ok out =>
    obtain ⟨seq, ring⟩ := out
    simp only [step, hok]
    obtain ⟨hzero, -⟩ | ⟨dropped, items, hl, hsince, -⟩ := hi.tracked
    · have hle := (JournalRing.append_ok hok).1
      rw [hzero, JournalRing.frameLen, encodeFrame_length] at hle
      omega
    · obtain ⟨hf, -, ⟨-, -, hl'⟩ | ⟨-, hl'⟩⟩ := JournalRing.append_live hi.formatted hl hfit hok
      · exact ⟨hf, Or.inr ⟨dropped, _, hl', by simp [hsince], by simp⟩⟩
      · exact ⟨hf, Or.inr ⟨dropped ++ items.map Prod.fst, _, hl', by simp [hsince], by simp⟩⟩

theorem inv_checkpoint (hi : st.Inv) :
    (st.step rs .checkpoint).Inv := by
  obtain ⟨hzero, hhead, htail, -⟩ | ⟨dropped, items, hl, -⟩ := hi.tracked
  · have hsame : st.ring.checkpoint = st.ring := by
      rw [JournalRing.checkpoint, JournalRing.checkpointTo, if_pos hzero]
    simp only [step, hsame]
    exact ⟨hi.formatted, Or.inl ⟨hzero, hhead, htail, rfl⟩⟩
  · obtain ⟨hf, hrb, -, -, hl'⟩ := JournalRing.checkpoint_live hi.formatted hl
    rw [← hrb] at hl'
    exact ⟨hf, Or.inr ⟨[], [], hl', rfl, fun h => absurd rfl h⟩⟩

theorem inv_run {calls : List RingCall} (hi : st.Inv)
    (hfit : Fits rs st calls) : (run rs st calls).Inv := by
  induction calls generalizing st with
  | nil => exact hi
  | cons call calls ih =>
    cases call with
    | append ops => exact ih (inv_append hi hfit.1) hfit.2
    | checkpoint => exact ih (inv_checkpoint hi) hfit

theorem recoversLatest_of_inv (hi : st.Inv) : st.RecoversLatest := by
  obtain ⟨hzero, hhead, htail, hsince⟩ | ⟨dropped, items, hl, hsince, hne⟩ := hi.tracked
  · obtain ⟨reopened, hopen, hhanded⟩ := JournalRing.reopen_zero hi.formatted hzero hhead htail
    refine ⟨reopened, [], [], hopen, hsince, fun h => absurd hsince h, fun σ apply s => ?_⟩
    rw [JournalRing.recover_eq, hhanded]
  · obtain ⟨reopened, hopen, hhanded⟩ := JournalRing.reopen_live hi.formatted hl
    refine ⟨reopened, dropped, items.map Prod.fst, hopen, hsince, fun h => ?_, fun σ apply s => ?_⟩
    · simpa using hne h
    · rw [JournalRing.recover_eq, hhanded]

theorem fits_take {calls : List RingCall} (h : Fits rs st calls)
    (k : Nat) : Fits rs st (calls.take k) := by
  induction calls generalizing st k with
  | nil => simpa using h
  | cons call calls ih =>
    cases k with
    | zero => trivial
    | succ k =>
      cases call with
      | append ops => exact ⟨h.1, ih h.2 k⟩
      | checkpoint => exact ih (show Fits rs (st.step rs .checkpoint) calls from h) k

/-- In a run whose appends all fit, recovery replays the newest transactions since the last
checkpoint. -/
theorem run_recoversLatest {rs : RunSort} {region : ByteStore} {blockSize : Nat} {r : JournalRing}
    {calls : List RingCall} (hc : JournalRing.create region blockSize = .ok r)
    (hfit : Fits rs ⟨r, []⟩ calls) (k : Nat) : (run rs ⟨r, []⟩ (calls.take k)).RecoversLatest :=
  recoversLatest_of_inv (inv_run (inv_create hc) (fits_take hfit k))

theorem not_recoversLatest {reopened : JournalRing}
    (hopen : JournalRing.attach st.ring.region st.ring.blockSize = .ok reopened)
    (hnone : reopened.handed = []) (hne : st.since ≠ []) : ¬st.RecoversLatest := by
  rintro ⟨reopened', dropped, recovered, hopen', hsince, hrec, hall⟩
  cases hopen.symm.trans hopen'
  have hcount := hall Unit (fun _ _ => .ok ()) ()
  rw [JournalRing.recover_accept, hnone, JournalRing.foldlM_accept] at hcount
  simp only [Except.map, Except.ok.injEq, Prod.mk.injEq, true_and, List.length_nil] at hcount
  exact hrec hne (List.length_eq_zero_iff.mp hcount.symm)

def blankRegion : ByteStore := ⟨135168, fun _ => 0, by decide⟩

theorem create_blank : ∃ r, JournalRing.create blankRegion 4096 = .ok r ∧ r.Formatted ∧
    r.blockSize = 4096 ∧ r.ringBytes = 131072 ∧ r.state = ⟨0, 0, 0, false⟩ ∧ r.used = 0 ∧
    Live r.frameAt r.ringBytes r.state.tail r.state.head [] ∧
    ∀ i, 40 ≤ i → r.region.byte i = 0 := by
  obtain ⟨r, hc⟩ : ∃ r, JournalRing.create blankRegion 4096 = .ok r := ⟨_, rfl⟩
  obtain ⟨hf, hstate, hbs⟩ := JournalRing.create_formatted hc
  have hrb : r.ringBytes = 131072 := by
    rw [hf.ring_eq, hbs]
    rfl
  refine ⟨r, hc, hf, hbs, hrb, hstate, ?_, ?_, ?_⟩
  · rw [JournalRing.used, hstate, hrb]
    rfl
  · rw [hstate, hrb]
    exact Live.empty (by decide)
  · intro i hi
    cases hc
    rw [ByteStore.write_byte_out (Or.inr (by simpa [journalHeaderLen] using hi))]
    change (if i < 135168 then (0 : UInt8) else 0) = 0
    split <;> rfl

def sliceOf (n : Nat) : List MetadataOp := [.writeBlockSlice 40 0 (List.replicate n 0)]

theorem frameLen_sliceOf (rs : RunSort) (r : JournalRing) (n : Nat) :
    r.frameLen rs (sliceOf n) = 41 + n := by
  rw [sliceOf, JournalRing.frameLen_slice, List.length_replicate]

theorem empty_fits {r : JournalRing} {n : Nat} (hused : r.used = 0)
    (hlen : 41 + n < 2 ^ 32) (hend : r.state.head + (41 + n) ≤ r.ringBytes)
    (hroom : 41 + n < r.ringBytes) : r.AppendFits rs (sliceOf n) := by
  apply JournalRing.appendFits_of_room <;> rw [frameLen_sliceOf]
  · exact hlen
  · exact hend
  · rw [hused]
    omega

theorem step_append (st : RingRun) {ops : List MetadataOp} {seq : UInt64}
    {ring : JournalRing} (h : st.ring.append rs ops = .ok (seq, ring)) :
    st.step rs (.append ops) = ⟨ring, st.since ++ [⟨seq, frameOps rs ops⟩]⟩ := by
  simp only [step, h]

theorem append_checkpoint (rs : RunSort) {r : JournalRing} {n : Nat} (hf : r.Formatted)
    (hstate : r.state = ⟨0, 0, 0, false⟩) (hused : r.used = 0)
    (hlive : Live r.frameAt r.ringBytes r.state.tail r.state.head [])
    (hzero : ∀ i, 40 ≤ i → r.region.byte i = 0) (hlen : 41 + n < 2 ^ 32)
    (hroom : 41 + n < r.ringBytes) :
    ∃ st, run rs ⟨r, []⟩ [.append (sliceOf n), .checkpoint] = st ∧ st.since = [] ∧
      st.ring.Formatted ∧ st.ring.ringBytes = r.ringBytes ∧
      Live st.ring.frameAt st.ring.ringBytes (41 + n) (41 + n) [] ∧
      st.ring.state.head = 41 + n ∧ st.ring.state.tail = 41 + n ∧
      st.ring.frameAt (41 + n) = none := by
  have hhead : r.state.head = 0 := by rw [hstate]
  obtain ⟨r₁, h₁, hbs₁, hrb₁, -, hhead₁, hbyte₁⟩ := r.append_plain rs (sliceOf n)
    (by rw [hhead, frameLen_sliceOf]; omega) (by rw [hused, frameLen_sliceOf]; omega)
  rw [hhead, frameLen_sliceOf] at hbyte₁
  rw [hhead, frameLen_sliceOf, Nat.zero_add, Nat.mod_eq_of_lt hroom] at hhead₁
  obtain ⟨hf₁, items, hl₁⟩ : r₁.Formatted ∧ ∃ items,
      Live r₁.frameAt r₁.ringBytes r₁.state.tail r₁.state.head items := by
    obtain ⟨hf₁, -, ⟨-, -, hl₁⟩ | ⟨-, hl₁⟩⟩ := JournalRing.append_live hf hlive
      (empty_fits hused hlen (by rw [hhead]; omega) hroom) h₁
    · exact ⟨hf₁, _, hl₁⟩
    · exact ⟨hf₁, _, hl₁⟩
  obtain ⟨hf₂, hrb₂, hframe₂, hhead₂, hl₂⟩ := JournalRing.checkpoint_live hf₁ hl₁
  have htail₂ := hl₂.head_eq
  rw [total_nil, Nat.add_zero, Nat.mod_eq_of_lt hl₂.tail_lt] at htail₂
  rw [hhead₁] at hhead₂
  rw [hhead₂] at htail₂
  have hrun : run rs ⟨r, []⟩ [.append (sliceOf n), .checkpoint] = ⟨r₁.checkpoint, []⟩ := by
    rw [run, List.foldl_cons, List.foldl_cons, List.foldl_nil, step_append ⟨r, []⟩ h₁]
    rfl
  refine ⟨_, hrun, rfl, hf₂, hrb₂.trans hrb₁, ?_, hhead₂, htail₂.symm, ?_⟩
  · exact Live.empty (by rw [hrb₂, hrb₁]; exact hroom)
  · rw [hframe₂]
    apply JournalRing.frameAt_of_zero
    intro i hi _
    have hheader := hf.header_le
    rw [hbs₁] at hi
    rw [hbyte₁ i (by omega) (by omega)]
    exact hzero i (by simp only [journalHeaderLen] at hheader; omega)

/-- An append, a checkpoint, and an append behind the first frame. -/
theorem run_recoversLatest_checkpointed : ∃ r, JournalRing.create blankRegion 4096 = .ok r ∧
    Fits RunSort.stable ⟨r, []⟩ [.append (sliceOf 99959), .checkpoint, .append (sliceOf 9959)] ∧
    (run RunSort.stable ⟨r, []⟩
      [.append (sliceOf 99959), .checkpoint, .append (sliceOf 9959)]).RecoversLatest := by
  obtain ⟨r, hc, hf, -, hrb, hstate, hused, hlive, hzero⟩ := create_blank
  obtain ⟨st, hrun, -, -, hrb', -, hhead, htail, -⟩ := append_checkpoint RunSort.stable hf hstate hused
    hlive hzero (n := 99959) (by decide) (by rw [hrb]; decide)
  have hfirst : r.AppendFits RunSort.stable (sliceOf 99959) :=
    empty_fits hused (by decide) (by rw [hstate, hrb]; decide) (by rw [hrb]; decide)
  have hused' : st.ring.used = 0 := by simp [JournalRing.used, hhead, htail, hrb', hrb]
  have hsecond : st.ring.AppendFits RunSort.stable (sliceOf 9959) :=
    empty_fits hused' (by decide) (by rw [hhead, hrb', hrb]; decide) (by rw [hrb', hrb]; decide)
  rw [← hrun] at hsecond
  have hfits : Fits RunSort.stable ⟨r, []⟩
      [.append (sliceOf 99959), .checkpoint, .append (sliceOf 9959)] := ⟨hfirst, hsecond, trivial⟩
  exact ⟨r, hc, hfits, run_recoversLatest hc hfits 3⟩

/-- After a checkpoint at byte 100,000 a frame of 50,000 bytes wraps and is lost; so is a frame of
exactly the ring size. -/
theorem wrapped_append_lost : ∃ r, JournalRing.create blankRegion 4096 = .ok r ∧
    ¬(run RunSort.stable ⟨r, []⟩ [.append (sliceOf 99959), .checkpoint,
      .append (sliceOf 49959)]).RecoversLatest ∧
    ¬(run RunSort.stable ⟨r, []⟩ [.append (sliceOf 131031)]).RecoversLatest := by
  obtain ⟨r, hc, hf, -, hrb, hstate, hused, hlive, hzero⟩ := create_blank
  refine ⟨r, hc, ?_, ?_⟩
  · obtain ⟨st, hrun, -, hf₁, hrb₁, -, hhead, htail, hgap⟩ := append_checkpoint
      RunSort.stable hf hstate hused hlive hzero (by decide : 41 + 99959 < 2 ^ 32) (by rw [hrb]; decide)
    have hlen : st.ring.frameLen RunSort.stable (sliceOf 49959) = 50000 := frameLen_sliceOf _ _ _
    obtain ⟨seq, r₂, h₂⟩ : ∃ seq r₂,
        st.ring.append RunSort.stable (sliceOf 49959) = .ok (seq, r₂) :=
      ⟨_, _, st.ring.append_eq RunSort.stable (sliceOf 49959) (by rw [hlen, hrb₁, hrb]; decide)⟩
    obtain ⟨hf₂, hhd₂, htl₂, hnone⟩ := JournalRing.append_gap hf₁
      (by rw [htail, hrb₁, hrb]; decide) (by rw [hlen, hhead, hrb₁, hrb]; decide)
      (by rw [hlen, htail]; decide) (by rw [htail]; exact hgap) h₂
    rw [run, List.foldl_cons, List.foldl_cons, List.foldl_nil] at hrun
    rw [run, List.foldl_cons, List.foldl_cons, List.foldl_cons, List.foldl_nil, hrun,
      step_append st h₂]
    exact not_recoversLatest (JournalRing.attach_of_formatted hf₂ hhd₂ htl₂) hnone (by simp)
  · obtain ⟨r₁, h₁, -, -, htail₁, -, -⟩ := r.append_plain RunSort.stable (sliceOf 131031)
      (by rw [hstate, frameLen_sliceOf, hrb]) (by rw [hused, frameLen_sliceOf, hrb])
    obtain ⟨hf₁, heq⟩ := JournalRing.append_full hf hlive (by rw [hstate, frameLen_sliceOf, hrb])
      (by rw [frameLen_sliceOf, hrb, total_nil]) h₁
    rw [hstate] at htail₁
    rw [run, List.foldl_cons, List.foldl_nil, step_append ⟨r, []⟩ h₁]
    exact not_recoversLatest (JournalRing.attach_of_formatted hf₁ (by rw [heq, htail₁]; decide)
      (by rw [htail₁]; decide)) (JournalRing.handed_of_empty heq) (by simp)

end RingRun

end Oifs
