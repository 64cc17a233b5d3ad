import Oifs.IoEngine

namespace Oifs

/-! Filling buffers. -/

section Fill

variable {buf data : List UInt8} {off : Nat}

theorem copyFromSlice_length (h : off + data.length ≤ buf.length) :
    (copyFromSlice buf off data).length = buf.length := by
  simp only [copyFromSlice, List.length_append, List.length_take, List.length_drop]
  omega

theorem copyFromSlice_getElem? (h : off + data.length ≤ buf.length) (j : Nat) :
    (copyFromSlice buf off data)[j]? =
      if off ≤ j ∧ j < off + data.length then data[j - off]? else buf[j]? := by
  unfold copyFromSlice
  have htake : (buf.take off).length = off := List.length_take_of_le (by omega)
  by_cases hlow : j < off
  · rw [if_neg (by omega), List.append_assoc, List.getElem?_append_left (by omega),
      List.getElem?_take_of_lt hlow]
  · by_cases hhigh : j < off + data.length
    · rw [if_pos (by omega), List.append_assoc, List.getElem?_append_right (by omega), htake,
        List.getElem?_append_left (by omega)]
    · rw [if_neg (by omega), List.getElem?_append_right (by rw [List.length_append]; omega),
        List.length_append, htake, List.getElem?_drop]
      congr 1
      omega

theorem copyFromSlice_behind (buf : List UInt8) (off : Nat) (data more : List UInt8)
    (h : off + data.length + more.length ≤ buf.length) :
    copyFromSlice (copyFromSlice buf off data) (off + data.length) more =
      copyFromSlice buf off (data ++ more) := by
  have hfirst : (copyFromSlice buf off data).length = buf.length := copyFromSlice_length (by omega)
  apply List.ext_getElem?
  intro j
  rw [copyFromSlice_getElem? (by omega), copyFromSlice_getElem? (by omega),
    copyFromSlice_getElem? (by rw [List.length_append]; omega), List.length_append]
  by_cases hmore : off + data.length ≤ j ∧ j < off + data.length + more.length
  · rw [if_pos hmore, if_pos (by omega), List.getElem?_append_right (by omega)]
    congr 1
    omega
  · rw [if_neg hmore]
    by_cases hdata : off ≤ j ∧ j < off + data.length
    · rw [if_pos hdata, if_pos (by omega), List.getElem?_append_left (by omega)]
    · rw [if_neg hdata, if_neg (by omega)]

theorem copyFromSlice_comm {more : List UInt8} {off' : Nat} (hapart : off + data.length ≤ off')
    (h : off' + more.length ≤ buf.length) :
    copyFromSlice (copyFromSlice buf off' more) off data =
      copyFromSlice (copyFromSlice buf off data) off' more := by
  have hfirst : (copyFromSlice buf off data).length = buf.length := copyFromSlice_length (by omega)
  have hsecond : (copyFromSlice buf off' more).length = buf.length := copyFromSlice_length h
  apply List.ext_getElem?
  intro j
  rw [copyFromSlice_getElem? (by omega), copyFromSlice_getElem? (by omega),
    copyFromSlice_getElem? (by omega), copyFromSlice_getElem? (by omega)]
  by_cases hin : off ≤ j ∧ j < off + data.length
  · rw [if_pos hin, if_neg (by omega), if_pos hin]
  · rw [if_neg hin, if_neg hin]

end Fill

section Extents

variable {v : Volume} {buf : List UInt8} {l : List ReadExtent} {imageLen : Nat}

@[simp] theorem imageBytes_length (v : Volume) (off len : Nat) :
    (v.imageBytes off len).length = len := by
  simp [Volume.imageBytes]

theorem imageBytes_add (v : Volume) (off m n : Nat) :
    v.imageBytes off (m + n) = v.imageBytes off m ++ v.imageBytes (off + m) n := by
  simp [Volume.imageBytes, List.range_add, Nat.add_assoc]

theorem imageBytes_block (blk : Nat) {i len : Nat} (h : i + len ≤ blockSize) :
    v.imageBytes (blk * blockSize + i) len = (List.range len).map fun k => v.block blk (i + k) := by
  apply List.map_congr_left
  intro k hk
  have hlt := List.mem_range.mp hk
  have hb : blockSize = 4096 := rfl
  rw [show (blk * blockSize + i + k) / blockSize = blk by rw [hb] at h ⊢; omega,
    show (blk * blockSize + i + k) % blockSize = i + k by rw [hb] at h ⊢; omega]

/-- The extents lie in the first `bound` bytes of the buffer and in the image. -/
def Within (bound imageLen : Nat) (l : List ReadExtent) : Prop :=
  ∀ e ∈ l, e.bufOffset + e.len ≤ bound ∧ e.diskOffset + e.len ≤ imageLen

theorem Within.mono {a b : Nat} (h : Within a imageLen l) (hle : a ≤ b) : Within b imageLen l :=
  fun e he => ⟨(h e he).1.trans hle, (h e he).2⟩

theorem Within.tail {bound : Nat} {e : ReadExtent} (h : Within bound imageLen (e :: l)) :
    Within bound imageLen l := fun e' he' => h e' (List.mem_cons_of_mem e he')

theorem fillExtents_length (h : Within buf.length imageLen l) :
    (fillExtents v.imageBytes l buf).length = buf.length := by
  induction l generalizing buf with
  | nil => rfl
  | cons e l ih =>
    have hcopy : (copyExtent v.imageBytes buf e).length = buf.length :=
      copyFromSlice_length (by rw [imageBytes_length]; exact (h e List.mem_cons_self).1)
    have hrest := h.tail
    rw [← hcopy] at hrest
    exact (ih hrest).trans hcopy

theorem fillExtents_append (l l' : List ReadExtent) (buf : List UInt8) :
    fillExtents v.imageBytes (l ++ l') buf =
      fillExtents v.imageBytes l' (fillExtents v.imageBytes l buf) := List.foldl_append

theorem fillExtents_push {d b n : Nat} (h : Within buf.length imageLen l) (hb : b + n ≤ buf.length) :
    fillExtents v.imageBytes (ExtentList.push l d b n) buf =
      copyFromSlice (fillExtents v.imageBytes l buf) b (v.imageBytes d n) := by
  unfold ExtentList.push
  split
  next hzero => simp [hzero, Volume.imageBytes, copyFromSlice]
  next =>
    split
    next => exact fillExtents_append l _ buf
    next last hlast =>
      split
      next hmerge =>
        obtain ⟨hdisk, hbuf, -⟩ := hmerge
        have hsplit : l = l.dropLast ++ [last] := (List.dropLast_append_getLast? last hlast).symm
        have hfront : Within buf.length imageLen l.dropLast := fun e he =>
          h e (List.mem_of_mem_dropLast he)
        have hfill : fillExtents v.imageBytes l buf = copyFromSlice
            (fillExtents v.imageBytes l.dropLast buf) last.bufOffset
            (v.imageBytes last.diskOffset last.len) := by
          conv => lhs; rw [hsplit, fillExtents_append]
          rfl
        rw [fillExtents_append, hfill, ← hdisk, ← hbuf]
        have hbehind := copyFromSlice_behind (fillExtents v.imageBytes l.dropLast buf)
          last.bufOffset (v.imageBytes last.diskOffset last.len) (v.imageBytes (last.diskOffset + last.len) n)
          (by rw [fillExtents_length hfront, imageBytes_length, imageBytes_length]; omega)
        rw [imageBytes_length, ← imageBytes_add] at hbehind
        exact hbehind.symm
      next => exact fillExtents_append l _ buf

theorem Within.push {d b n bound : Nat} (h : Within bound imageLen l) (hb : b + n ≤ bound)
    (hd : d + n ≤ imageLen) : Within bound imageLen (ExtentList.push l d b n) := by
  unfold ExtentList.push
  have happend : Within bound imageLen (l ++ [⟨d, b, n⟩]) := by
    intro e he
    rcases List.mem_append.mp he with he | he
    · exact h e he
    · rw [List.mem_singleton.mp he]
      exact ⟨hb, hd⟩
  split
  next => exact h
  next =>
    split
    next => exact happend
    next last hlast =>
      split
      next hmerge =>
        intro e he
        rcases List.mem_append.mp he with he | he
        · exact h e (List.mem_of_mem_dropLast he)
        · rw [List.mem_singleton.mp he]
          dsimp only
          omega
      next => exact happend

theorem fillExtents_congr {fetch : Nat → Nat → List UInt8}
    (h : ∀ e ∈ l, fetch e.diskOffset e.len = v.imageBytes e.diskOffset e.len) :
    fillExtents fetch l buf = fillExtents v.imageBytes l buf := by
  induction l generalizing buf with
  | nil => rfl
  | cons e l ih =>
    have hhead : copyExtent fetch buf e = copyExtent v.imageBytes buf e :=
      congrArg (copyFromSlice buf e.bufOffset) (h e List.mem_cons_self)
    change fillExtents fetch l (copyExtent fetch buf e) = _
    rw [hhead]
    exact ih fun e' he' => h e' (List.mem_cons_of_mem e he')

theorem fillExtents_splitFrom {e : ReadExtent} {done : Nat} (hdone : done ≤ e.len)
    (h : e.bufOffset + e.len ≤ buf.length) :
    fillExtents v.imageBytes (IoEngine.splitFrom e done) buf =
      copyFromSlice buf (e.bufOffset + done) (v.imageBytes (e.diskOffset + done) (e.len - done)) := by
  fun_induction IoEngine.splitFrom e done generalizing buf
  case case1 done hlt len ih =>
    have hpos : 0 < IoEngine.maxOpBytes := by decide
    have hlen : len = min (e.len - done) IoEngine.maxOpBytes := rfl
    clear_value len
    have hcopy : (copyFromSlice buf (e.bufOffset + done)
        (v.imageBytes (e.diskOffset + done) len)).length = buf.length :=
      copyFromSlice_length (by rw [imageBytes_length]; omega)
    have hrest := ih (by omega) (show _ ≤ (copyFromSlice buf (e.bufOffset + done)
      (v.imageBytes (e.diskOffset + done) len)).length by rw [hcopy]; exact h)
    have hbehind := copyFromSlice_behind buf (e.bufOffset + done)
      (v.imageBytes (e.diskOffset + done) len)
      (v.imageBytes (e.diskOffset + done + len) (e.len - (done + len)))
      (by rw [imageBytes_length, imageBytes_length]; omega)
    rw [imageBytes_length, ← imageBytes_add] at hbehind
    rw [show e.len - done = len + (e.len - (done + len)) by omega, ← hbehind]
    rw [← Nat.add_assoc, ← Nat.add_assoc] at hrest
    exact hrest
  case case2 done hge =>
    rw [show e.len - done = 0 by omega]
    simp [fillExtents, Volume.imageBytes, copyFromSlice]

theorem fillExtents_transfers (h : Within buf.length imageLen l) :
    fillExtents v.imageBytes (IoEngine.transfers l) buf = fillExtents v.imageBytes l buf := by
  induction l generalizing buf with
  | nil => rfl
  | cons e l ih =>
    have he := (h e List.mem_cons_self).1
    have hcopy : (copyExtent v.imageBytes buf e).length = buf.length :=
      copyFromSlice_length (by rw [imageBytes_length]; exact he)
    have hrest := h.tail
    rw [← hcopy] at hrest
    rw [IoEngine.transfers, List.flatMap_cons, fillExtents_append,
      fillExtents_splitFrom (Nat.zero_le _) he]
    exact ih hrest

theorem mem_splitFrom {e t : ReadExtent} {done : Nat} (ht : t ∈ IoEngine.splitFrom e done) :
    t.diskOffset + t.len ≤ e.diskOffset + e.len := by
  fun_induction IoEngine.splitFrom e done
  case case1 done hlt len ih =>
    rcases List.mem_cons.mp ht with rfl | ht
    · have hlen : len ≤ e.len - done := Nat.min_le_left _ _
      dsimp only
      omega
    · exact ih ht
  case case2 => cases ht

end Extents

namespace IoEngine

variable {E : IoEngine} {v : Volume}

def Fits (imageLen : Nat) (targets : List ReadTarget) : Prop :=
  ∀ t ∈ targets, Within t.buf.length imageLen t.extents

theorem forM_ok {α : Type} {f : α → Except DiskError Unit} {l : List α}
    (h : ∀ a ∈ l, f a = .ok ()) : l.forM f = .ok () := by
  induction l with
  | nil => rfl
  | cons a l ih =>
    change (f a >>= fun _ => l.forM f) = .ok ()
    rw [h a List.mem_cons_self]
    exact ih fun b hb => h b (List.mem_cons_of_mem a hb)

variable {targets : List ReadTarget}

theorem validate_ok {imageLen : Nat} (h : Fits imageLen targets) :
    validate targets imageLen = .ok () := by
  apply forM_ok
  intro t ht
  apply forM_ok
  intro e he
  obtain ⟨hbuf, hdisk⟩ := h t ht e he
  exact if_pos (by simp [inRange, hbuf, hdisk])

theorem preadExtents_delivers {readExactAt : Nat → Nat → Except DiskError (List UInt8)}
    {l : List ReadExtent} (buf : List UInt8)
    (h : ∀ e ∈ l, readExactAt e.diskOffset e.len = .ok (v.imageBytes e.diskOffset e.len)) :
    preadExtents readExactAt l buf = (.ok (), fillExtents v.imageBytes l buf) := by
  induction l generalizing buf with
  | nil => rfl
  | cons e l ih =>
    rw [preadExtents, h e List.mem_cons_self]
    exact ih _ fun e' he' => h e' (List.mem_cons_of_mem e he')

theorem readPread_delivers {readExactAt : Nat → Nat → Except DiskError (List UInt8)}
    (h : ∀ t ∈ targets, ∀ e ∈ t.extents,
      readExactAt e.diskOffset e.len = .ok (v.imageBytes e.diskOffset e.len)) :
    readPread readExactAt targets =
      (.ok (), targets.map fun t => fillExtents v.imageBytes t.extents t.buf) := by
  induction targets with
  | nil => rfl
  | cons t ts ih =>
    rw [readPread, preadExtents_delivers t.buf (h t List.mem_cons_self)]
    dsimp only
    rw [ih fun t' ht' => h t' (List.mem_cons_of_mem t ht')]
    rfl

theorem ringRead_delivers {run : List ReadOp → Except DiskError (ReadOp → List UInt8)}
    {imageLen : Nat} (hfits : Fits imageLen targets)
    (h : ∀ ops : List ReadOp, (∀ op ∈ ops, op.off + op.len ≤ imageLen) →
      ∃ data, run ops = .ok data ∧ ∀ op ∈ ops, data op = v.imageBytes op.off op.len) :
    ringRead run targets =
      (.ok (), targets.map fun t => fillExtents v.imageBytes t.extents t.buf) := by
  have hops : ∀ op ∈ (targets.flatMap fun t => transfers t.extents).map
      fun e => (⟨e.diskOffset, e.len⟩ : ReadOp), op.off + op.len ≤ imageLen := by
    intro op hop
    obtain ⟨e, he, rfl⟩ := List.mem_map.mp hop
    obtain ⟨t, ht, he⟩ := List.mem_flatMap.mp he
    obtain ⟨x, hx, he⟩ := List.mem_flatMap.mp he
    exact (mem_splitFrom he).trans (hfits t ht x hx).2
  obtain ⟨data, hrun, hdata⟩ := h _ hops
  unfold ringRead
  dsimp only
  split
  next hempty =>
    congr 1
    apply List.map_congr_left
    intro t ht
    have hnone : transfers t.extents = [] := by
      rw [List.eq_nil_iff_forall_not_mem]
      intro e he
      have hmem : e ∈ targets.flatMap fun t => transfers t.extents := List.mem_flatMap.mpr ⟨t, ht, he⟩
      rw [List.isEmpty_iff.mp hempty] at hmem
      cases hmem
    rw [← fillExtents_transfers (hfits t ht), hnone]
    rfl
  next =>
    rw [hrun]
    dsimp only
    congr 1
    apply List.map_congr_left
    intro t ht
    rw [← fillExtents_transfers (hfits t ht)]
    apply fillExtents_congr
    intro e he
    exact hdata ⟨e.diskOffset, e.len⟩
      (List.mem_map.mpr ⟨e, List.mem_flatMap.mpr ⟨t, ht, he⟩, rfl⟩)

theorem read_delivers (h : E.Coherent v) (hfits : Fits E.imageLen targets) : E.read v targets =
      (.ok (), targets.map fun t => fillExtents v.imageBytes t.extents t.buf) := by
  unfold read
  rw [validate_ok hfits]
  dsimp only
  split
  next => rfl
  next readExactAt heff =>
    exact readPread_delivers fun t ht e he => h.pread readExactAt heff _ _ (hfits t ht e he).2
  next run heff => exact ringRead_delivers hfits (h.ioUring run heff)

theorem readOne_delivers (h : E.Coherent v) {buf : List UInt8} {extents : List ReadExtent}
    (hfits : Within buf.length E.imageLen extents) :
    E.readOne v buf extents = (.ok (), fillExtents v.imageBytes extents buf) := by
  have hone : Fits E.imageLen [⟨buf, extents⟩] := by
    intro t ht
    rw [List.mem_singleton.mp ht]
    exact hfits
  unfold readOne
  rw [read_delivers h hone]
  rfl

end IoEngine

end Oifs
