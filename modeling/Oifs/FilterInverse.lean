import Oifs.Filters

namespace Oifs

open LittleEndian

namespace Filters

theorem encode_decode {w : Nat} {l : List UInt8} (h : l.length = w) : encode w (decode l) = l := by
  induction l generalizing w with
  | nil =>
    subst h
    rfl
  | cons b bs ih =>
    obtain ⟨n, rfl⟩ : ∃ n, w = n + 1 := ⟨bs.length, h.symm⟩
    have hb : b.toNat < 256 := b.toNat_lt
    have hhead : UInt8.ofNat (b.toNat + 256 * decode bs) = b := by
      apply UInt8.toNat_inj.mp
      rw [UInt8.toNat_ofNat']
      omega
    have htail : (b.toNat + 256 * decode bs) / 256 = decode bs := by omega
    rw [decode, encode, hhead, htail, ih (Nat.succ.inj h)]

theorem copyFromSlice_append {a b b' c : List UInt8} {off : Nat} (ha : a.length = off)
    (hb : b.length = b'.length) : copyFromSlice (a ++ (b ++ c)) off b' = a ++ (b' ++ c) := by
  rw [copyFromSlice, List.take_left' ha, List.append_assoc, ← List.drop_drop, List.drop_left' ha,
    List.drop_left' hb]

section Words

variable {w : Nat}

variable {words : List Nat}

theorem flatMap_encode_length (words : List Nat) : (words.flatMap (encode w)).length = words.length * w := by
  induction words with
  | nil => simp
  | cons x words ih => rw [List.flatMap_cons, List.length_append, encode_length, ih, List.length_cons]; ring

theorem flatMap_encode_split {i : Nat} (hi : i < words.length) :
    words.flatMap (encode w) = (words.take i).flatMap (encode w) ++
      (encode w words[i] ++ (words.drop (i + 1)).flatMap (encode w)) := by
  conv => lhs; rw [← List.take_append_drop i words, List.drop_eq_getElem_cons hi]
  rw [List.flatMap_append, List.flatMap_cons]

theorem take_flatMap_length {i : Nat} (hi : i < words.length) :
    ((words.take i).flatMap (encode w)).length = i * w := by
  rw [flatMap_encode_length, List.length_take_of_le (Nat.le_of_lt hi)]

theorem wordAt_flatMap {i : Nat} (hi : i < words.length) (rest : List UInt8) :
    wordAt w (words.flatMap (encode w) ++ rest) i = words.getD i 0 % 256 ^ w := by
  rw [wordAt, flatMap_encode_split hi, List.append_assoc, List.append_assoc,
    bytesAt_append (take_flatMap_length hi) (encode_length w _), decode_encode]
  simp [hi]

theorem setWord_flatMap {i : Nat} (hi : i < words.length) (x : Nat) (rest : List UInt8) :
    setWord w (words.flatMap (encode w) ++ rest) i x = (words.set i x).flatMap (encode w) ++ rest := by
  have htake := take_flatMap_length (w := w) hi
  have hset : (words.set i x).flatMap (encode w) = (words.take i).flatMap (encode w) ++
      (encode w x ++ (words.drop (i + 1)).flatMap (encode w)) := by
    rw [List.set_eq_take_append_cons_drop, if_pos hi, List.flatMap_append, List.flatMap_cons]
  rw [setWord, hset, flatMap_encode_split hi, List.append_assoc, List.append_assoc,
    copyFromSlice_append htake (by rw [encode_length, encode_length]), List.append_assoc, List.append_assoc]

theorem typedSlice_bytes {data : List UInt8} {n : Nat} (h : n * w ≤ data.length) :
    (typedSlice w n data).flatMap (encode w) = data.take (n * w) := by
  induction n with
  | zero => simp [typedSlice]
  | succ n ih =>
    rw [Nat.succ_mul] at h ⊢
    have hword : (bytesAt data (n * w) w).length = w := by
      rw [bytesAt, List.length_take, List.length_drop]
      omega
    have hih := ih (by omega)
    rw [typedSlice] at hih
    rw [typedSlice, List.range_succ, List.map_append, List.flatMap_append, hih, List.map_singleton,
      List.flatMap_singleton, wordAt, encode_decode hword, List.take_add, bytesAt]

def Fits (w : Nat) (words : List Nat) : Prop := ∀ x ∈ words, x < 256 ^ w

theorem Fits.getD (h : Fits w words) (i : Nat) : words.getD i 0 < 256 ^ w := by
  by_cases hi : i < words.length
  · simpa [List.getD_eq_getElem?_getD, hi] using h _ (List.getElem_mem hi)
  · simp [List.getD_eq_getElem?_getD, Nat.not_lt.mp hi]

theorem Fits.set (h : Fits w words) (i : Nat) {x : Nat} (hx : x < 256 ^ w) :
    Fits w (words.set i x) := by
  intro y hy
  rcases List.mem_or_eq_of_mem_set hy with hmem | rfl
  · exact h y hmem
  · exact hx

theorem typedSlice_fits {data : List UInt8} {n : Nat} (h : n * w ≤ data.length) :
    Fits w (typedSlice w n data) := by
  intro x hx
  obtain ⟨i, hi, rfl⟩ := List.mem_map.mp hx
  have hlt := decode_lt (bytesAt data (i * w) w)
  have hle : (i + 1) * w ≤ n * w := Nat.mul_le_mul_right w (List.mem_range.mp hi)
  rwa [bytesAt, List.length_take_of_le (by rw [List.length_drop]; rw [Nat.succ_mul] at hle; omega)] at hlt

theorem typedSlice_flatMap (h : Fits w words) (rest : List UInt8) :
    typedSlice w words.length (words.flatMap (encode w) ++ rest) = words := by
  apply List.ext_getElem
  · simp [typedSlice]
  · intro i hi hi'
    simp only [typedSlice, List.getElem_map, List.getElem_range]
    rw [wordAt_flatMap hi', Nat.mod_eq_of_lt (h.getD i)]
    simp [hi']

section Loop

variable {step : Nat → Nat → Nat} (hstep : ∀ cur prev, cur < 256 ^ w → step cur prev < 256 ^ w)

theorem wordLoop_length (indices words : List Nat) :
    (wordLoop step indices words).length = words.length := by
  induction indices generalizing words with
  | nil => rfl
  | cons i indices ih => exact (ih _).trans (List.length_set ..)

include hstep

theorem wordLoop_fits (indices : List Nat) (h : Fits w words) :
    Fits w (wordLoop step indices words) := by
  induction indices generalizing words with
  | nil => exact h
  | cons i indices ih => exact ih (h.set i (hstep _ _ (h.getD i)))

theorem byteLoop_flatMap {indices : List Nat} (hfits : Fits w words)
    (hindices : ∀ i ∈ indices, i < words.length) (rest : List UInt8) :
    byteLoop w step indices (words.flatMap (encode w) ++ rest) =
      (wordLoop step indices words).flatMap (encode w) ++ rest := by
  induction indices generalizing words with
  | nil => rfl
  | cons i indices ih =>
    have hi : i < words.length := hindices i (by simp)
    have hnext : ∀ j ∈ indices,
        j < (words.set i (step (words.getD i 0) (words.getD (i - 1) 0))).length := by
      intro j hj
      rw [List.length_set]
      exact hindices j (by simp [hj])
    rw [byteLoop, List.foldl_cons, wordAt_flatMap hi, wordAt_flatMap (Nat.lt_of_le_of_lt (Nat.sub_le i 1) hi),
      Nat.mod_eq_of_lt (hfits.getD i), Nat.mod_eq_of_lt (hfits.getD (i - 1)), setWord_flatMap hi]
    exact ih (hfits.set i (hstep _ _ (hfits.getD i))) hnext

theorem inPlaceLoop_eq (aligned : Bool) {n : Nat} {indices : List Nat} {data : List UInt8}
    (hn : n * w ≤ data.length) (hindices : ∀ i ∈ indices, i < n) :
    inPlaceLoop aligned w n step indices data =
      (wordLoop step indices (typedSlice w n data)).flatMap (encode w) ++ data.drop (n * w) := by
  have hlen : (typedSlice w n data).length = n := by simp [typedSlice]
  unfold inPlaceLoop
  cases aligned with
  | true => rw [if_pos rfl, writeBack, wordLoop_length, hlen]
  | false =>
    have hsplit : data = (typedSlice w n data).flatMap (encode w) ++ data.drop (n * w) := by
      rw [typedSlice_bytes hn, List.take_append_drop]
    have hloop := byteLoop_flatMap hstep (typedSlice_fits hn) (hlen.symm ▸ hindices) (data.drop (n * w))
    rw [← hsplit] at hloop
    simpa using hloop

end Loop

theorem wrappingSub_lt (cur prev : Nat) : wrappingSub w cur prev < 256 ^ w :=
  Nat.mod_lt _ (Nat.pow_pos (by decide))

theorem wrappingAdd_lt (cur prev : Nat) : wrappingAdd w cur prev < 256 ^ w :=
  Nat.mod_lt _ (Nat.pow_pos (by decide))

theorem wrappingAdd_wrappingSub {cur prev : Nat} (hcur : cur < 256 ^ w) (hprev : prev < 256 ^ w) :
    wrappingAdd w (wrappingSub w cur prev) prev = cur := by
  rw [wrappingAdd, wrappingSub, Nat.add_mod_mod]
  generalize 256 ^ w = m at *
  rw [show prev + (cur + (m - prev)) = cur + m by omega, Nat.add_mod_right, Nat.mod_eq_of_lt hcur]

theorem wordLoop_undo (h : Fits w words) :
    wordLoop (wrappingAdd w) (List.range' 1 (words.length - 1))
      (wordLoop (wrappingSub w) (List.range' 1 (words.length - 1)).reverse words) = words := by
  obtain ⟨n, hn⟩ : ∃ n, words.length = n := ⟨_, rfl⟩
  rw [hn]
  have hundo := InPlace.foldl_undo (P := fun ws : List Nat => ws.length = n ∧ Fits w ws)
    (f := fun ws i => ws.set i (wrappingSub w (ws.getD i 0) (ws.getD (i - 1) 0)))
    (g := fun ws i => ws.set i (wrappingAdd w (ws.getD i 0) (ws.getD (i - 1) 0)))
    (l := (List.range' 1 (n - 1)).reverse) ?_ ?_ (s := words) ⟨hn, h⟩
  · rw [List.reverse_reverse] at hundo
    exact hundo
  · rintro ws ⟨hlen, hfits⟩ i -
    exact ⟨(List.length_set ..).trans hlen, hfits.set i (wrappingSub_lt _ _)⟩
  · rintro ws ⟨hlen, hfits⟩ i hi
    rw [List.mem_reverse, List.mem_range'_1] at hi
    have hlt : i < ws.length := by omega
    have hne : i ≠ i - 1 := by omega
    have hcur : (ws.set i (wrappingSub w (ws.getD i 0) (ws.getD (i - 1) 0))).getD i 0 =
        wrappingSub w (ws.getD i 0) (ws.getD (i - 1) 0) := by
      simp [List.getD_eq_getElem?_getD, hlt]
    have hprev : (ws.set i (wrappingSub w (ws.getD i 0) (ws.getD (i - 1) 0))).getD (i - 1) 0 =
        ws.getD (i - 1) 0 := by
      simp only [List.getD_eq_getElem?_getD, List.getElem?_set_ne hne]
    simp only [hcur, hprev, wrappingAdd_wrappingSub (hfits.getD i) (hfits.getD (i - 1)), List.set_set]
    simp [List.getD_eq_getElem?_getD, hlt]

end Words

def deltaWidth (typesize : Nat) : Bool := typesize = 1 ∨ typesize = 2 ∨ typesize = 4 ∨ typesize = 8

section Delta

variable {step : Nat → Nat → Nat → Nat} {order : List Nat → List Nat}

theorem deltaInPlace_eq (hstep : ∀ w cur prev, step w cur prev < 256 ^ w)
    (horder : ∀ l i, i ∈ order l → i ∈ l) (aligned : Bool) {data : List UInt8} {typesize : Nat}
    (hwidth : deltaWidth typesize = true) (hmany : 1 < data.length / typesize) :
    deltaInPlace step order aligned data typesize =
      (wordLoop (step typesize) (order (List.range' 1 (data.length / typesize - 1)))
        (typedSlice typesize (data.length / typesize) data)).flatMap (encode typesize) ++
        data.drop (data.length / typesize * typesize) := by
  have hn : data.length / typesize * typesize ≤ data.length := Nat.div_mul_le_self _ _
  have hindices : ∀ i ∈ order (List.range' 1 (data.length / typesize - 1)), i < data.length / typesize := by
    intro i hi
    have hmem := List.mem_range'_1.mp (horder _ i hi)
    omega
  have hzero : typesize ≠ 0 := by
    rintro rfl
    exact absurd hwidth (by decide)
  rw [deltaInPlace, if_neg hzero, if_neg (Nat.not_le.mpr hmany)]
  by_cases hone : typesize = 1
  · subst hone
    rw [if_pos rfl]
    exact inPlaceLoop_eq (fun cur prev _ => hstep 1 cur prev) false hn hindices
  · have hwide : typesize = 2 ∨ typesize = 4 ∨ typesize = 8 :=
      (of_decide_eq_true hwidth).resolve_left hone
    rw [if_neg hone, if_pos hwide]
    exact inPlaceLoop_eq (fun cur prev _ => hstep typesize cur prev) aligned hn hindices

theorem deltaInPlace_idle (aligned : Bool) {data : List UInt8} {typesize : Nat}
    (h : deltaWidth typesize = false ∨ data.length / typesize ≤ 1) :
    deltaInPlace step order aligned data typesize = data := by
  unfold deltaInPlace
  split
  next => rfl
  next =>
    dsimp only
    split
    next => rfl
    next hmany =>
      have hwidth := of_decide_eq_false (h.resolve_right hmany)
      rw [if_neg (fun hone => hwidth (Or.inl hone)), if_neg (fun hwide => hwidth (Or.inr hwide))]

end Delta

/-- Both code paths of the delta filter undo each other. -/
theorem deltaDecode_deltaEncode (aligned aligned' : Bool) (data : List UInt8) (typesize : Nat) :
    (deltaEncodeInplace aligned data typesize).length = data.length ∧
      deltaDecodeInplace aligned' (deltaEncodeInplace aligned data typesize) typesize = data := by
  by_cases hidle : deltaWidth typesize = false ∨ data.length / typesize ≤ 1
  · rw [deltaEncodeInplace, deltaInPlace_idle aligned hidle]
    exact ⟨rfl, deltaInPlace_idle aligned' hidle⟩
  · rw [not_or, Bool.not_eq_false, Nat.not_le] at hidle
    obtain ⟨hwidth, hmany⟩ := hidle
    have hn : data.length / typesize * typesize ≤ data.length := Nat.div_mul_le_self _ _
    obtain ⟨words, hwords⟩ : ∃ words, typedSlice typesize (data.length / typesize) data = words := ⟨_, rfl⟩
    have hcount : words.length = data.length / typesize := by
      rw [← hwords]
      simp [typedSlice]
    have hfits : Fits typesize words := hwords ▸ typedSlice_fits hn
    have hencode : deltaEncodeInplace aligned data typesize = _ := deltaInPlace_eq
      (fun w => wrappingSub_lt (w := w)) (fun l i hi => List.mem_reverse.mp hi) aligned hwidth hmany
    rw [hwords] at hencode
    -- the encoded bytes are the differences, and the bytes behind the last whole element
    obtain ⟨diffs, hdiffs⟩ : ∃ diffs, wordLoop (wrappingSub typesize)
      (List.range' 1 (data.length / typesize - 1)).reverse words = diffs := ⟨_, rfl⟩
    rw [hdiffs] at hencode
    have hdiffsCount : diffs.length = data.length / typesize := by
      rw [← hdiffs, wordLoop_length, hcount]
    have hdiffsFits : Fits typesize diffs :=
      hdiffs ▸ wordLoop_fits (fun cur prev _ => wrappingSub_lt cur prev) _ hfits
    have hdiffsBytes : (diffs.flatMap (encode typesize)).length = data.length / typesize * typesize := by
      rw [flatMap_encode_length, hdiffsCount]
    have hlen : (deltaEncodeInplace aligned data typesize).length = data.length := by
      rw [hencode, List.length_append, hdiffsBytes, List.length_drop]
      omega
    have hdecode : deltaDecodeInplace aligned' (deltaEncodeInplace aligned data typesize) typesize = _ :=
      deltaInPlace_eq (fun w => wrappingAdd_lt (w := w)) (fun l i hi => hi) aligned' hwidth
        (hlen.symm ▸ hmany)
    refine ⟨hlen, ?_⟩
    have hread := typedSlice_flatMap hdiffsFits (data.drop (data.length / typesize * typesize))
    have hundo := wordLoop_undo hfits
    rw [hcount, hdiffs] at hundo
    rw [hdiffsCount] at hread
    rw [hdecode, hlen, hencode, hread, List.drop_left' hdiffsBytes, hundo, ← hwords,
      typedSlice_bytes hn, List.take_append_drop]

section Shuffle

/-- A permutation of the byte positions of `n` whole elements. -/
structure Positions (n typesize : Nat) (index : Nat → Nat → Nat) : Prop where
  lt : ∀ i j, i < n → j < typesize → index i j < n * typesize
  inj : ∀ i j i' j', i < n → j < typesize → i' < n → j' < typesize → index i j = index i' j' →
    i = i' ∧ j = j'

theorem elementIndex_positions (n typesize : Nat) : Positions n typesize (elementIndex n typesize) where
  lt i j hi hj := by
    have hle : (i + 1) * typesize ≤ n * typesize := Nat.mul_le_mul_right _ hi
    rw [Nat.succ_mul] at hle
    rw [elementIndex]
    omega
  inj i j i' j' _ hj _ hj' h := by
    rw [elementIndex, elementIndex] at h
    have hdiv : i = i' := by
      have hleft : (i * typesize + j) / typesize = i := by
        rw [Nat.mul_comm, Nat.mul_add_div (by omega), Nat.div_eq_of_lt hj, Nat.add_zero]
      have hright : (i' * typesize + j') / typesize = i' := by
        rw [Nat.mul_comm, Nat.mul_add_div (by omega), Nat.div_eq_of_lt hj', Nat.add_zero]
      rw [← hleft, h, hright]
    subst hdiv
    exact ⟨rfl, by omega⟩

theorem planeIndex_positions (n typesize : Nat) : Positions n typesize (planeIndex n typesize) where
  lt i j hi hj := by
    have hlt := (elementIndex_positions typesize n).lt j i hj hi
    rwa [elementIndex, Nat.mul_comm typesize n] at hlt
  inj i j i' j' hi hj hi' hj' h := by
    have hinj := (elementIndex_positions typesize n).inj j i j' i' hj hi hj' hi' h
    exact ⟨hinj.2, hinj.1⟩

variable {data : List UInt8} {typesize : Nat} (target source : Nat → Nat → Nat → Nat → Nat)

theorem shuffleWith_eq (hactive : ¬(typesize ≤ 1 ∨ data.isEmpty)) :
    shuffleWith target source data typesize =
      (InPlace.scatter (shuffleAssignments data (data.length / typesize) typesize
        (target (data.length / typesize) typesize) (source (data.length / typesize) typesize))
        (List.replicate data.length 0)).take (data.length / typesize * typesize) ++
      data.drop (data.length / typesize * typesize) := by
  have hn : data.length / typesize * typesize ≤ data.length := Nat.div_mul_le_self _ _
  rw [shuffleWith, if_neg hactive]
  dsimp only
  generalize hout : InPlace.scatter (shuffleAssignments data (data.length / typesize) typesize
    (target (data.length / typesize) typesize) (source (data.length / typesize) typesize))
    (List.replicate data.length 0) = out
  have hlen : out.length = data.length := by rw [← hout, InPlace.scatter_length, List.length_replicate]
  split
  next =>
    have hend : out.drop (data.length / typesize * typesize +
        (data.drop (data.length / typesize * typesize)).length) = [] := by
      apply List.drop_eq_nil_of_le
      rw [List.length_drop]
      omega
    rw [copyFromSlice, hend, List.append_nil]
  next htail =>
    rw [List.drop_eq_nil_of_le (Nat.not_lt.mp htail), List.append_nil,
      List.take_of_length_le (by omega)]

theorem shuffleWith_length : (shuffleWith target source data typesize).length = data.length := by
  by_cases hactive : typesize ≤ 1 ∨ data.isEmpty
  · rw [shuffleWith, if_pos hactive]
  · have hn : data.length / typesize * typesize ≤ data.length := Nat.div_mul_le_self _ _
    rw [shuffleWith_eq _ _ hactive, List.length_append, List.length_take, InPlace.scatter_length,
      List.length_replicate, List.length_drop]
    omega

theorem shuffleWith_tail (hactive : ¬(typesize ≤ 1 ∨ data.isEmpty)) {k : Nat}
    (hk : data.length / typesize * typesize ≤ k) :
    (shuffleWith target source data typesize)[k]? = data[k]? := by
  have hn : data.length / typesize * typesize ≤ data.length := Nat.div_mul_le_self _ _
  have hlen : ∀ out : List UInt8, out.length = data.length →
      (out.take (data.length / typesize * typesize)).length = data.length / typesize * typesize :=
    fun out hout => List.length_take_of_le (by omega)
  rw [shuffleWith_eq _ _ hactive, List.getElem?_append_right, hlen, List.getElem?_drop,
    Nat.add_sub_cancel' hk]
  · rw [InPlace.scatter_length, List.length_replicate]
  · rw [hlen]
    · exact hk
    · rw [InPlace.scatter_length, List.length_replicate]

theorem shuffleWith_element (hactive : ¬(typesize ≤ 1 ∨ data.isEmpty))
    (htarget : Positions (data.length / typesize) typesize (target (data.length / typesize) typesize))
    (hsource : Positions (data.length / typesize) typesize (source (data.length / typesize) typesize))
    {i j : Nat} (hi : i < data.length / typesize) (hj : j < typesize) :
    (shuffleWith target source data typesize)[target (data.length / typesize) typesize i j]? =
      data[source (data.length / typesize) typesize i j]? := by
  have hn : data.length / typesize * typesize ≤ data.length := Nat.div_mul_le_self _ _
  have hto := htarget.lt i j hi hj
  have hfrom := Nat.lt_of_lt_of_le (hsource.lt i j hi hj) hn
  rw [shuffleWith_eq _ _ hactive, List.getElem?_append_left, List.getElem?_take, if_pos hto,
    InPlace.scatter_assigned]
  · exact (List.getElem?_eq_getElem hfrom).symm
  · rw [shuffleAssignments, List.mem_flatMap]
    refine ⟨i, List.mem_range.mpr hi, List.mem_map.mpr ⟨j, List.mem_range.mpr hj, ?_⟩⟩
    simp [List.getD_eq_getElem?_getD, hfrom]
  · intro a ha heq
    rw [shuffleAssignments, List.mem_flatMap] at ha
    obtain ⟨i', hi', ha⟩ := ha
    obtain ⟨j', hj', rfl⟩ := List.mem_map.mp ha
    obtain ⟨rfl, rfl⟩ := htarget.inj i' j' i j (List.mem_range.mp hi') (List.mem_range.mp hj') hi hj heq
    simp [List.getD_eq_getElem?_getD, hfrom]
  · rw [List.length_replicate]
    omega
  · rw [List.length_take, InPlace.scatter_length, List.length_replicate]
    omega

theorem shuffleWith_undo (h : ∀ n typesize, Positions n typesize (target n typesize))
    (hback : ∀ n typesize, Positions n typesize (source n typesize))
    (honto : ∀ n typesize k, k < n * typesize → ∃ i j, i < n ∧ j < typesize ∧ source n typesize i j = k) :
    shuffleWith source target (shuffleWith target source data typesize) typesize = data := by
  by_cases hactive : typesize ≤ 1 ∨ data.isEmpty
  · rw [shuffleWith, shuffleWith, if_pos hactive, if_pos hactive]
  · obtain ⟨shuffled, hshuffled⟩ : ∃ shuffled, shuffleWith target source data typesize = shuffled := ⟨_, rfl⟩
    have hlen : shuffled.length = data.length := hshuffled ▸ shuffleWith_length _ _
    have hactive' : ¬(typesize ≤ 1 ∨ shuffled.isEmpty) := by
      rwa [List.isEmpty_iff_length_eq_zero, hlen, ← List.isEmpty_iff_length_eq_zero]
    rw [hshuffled]
    apply List.ext_getElem?
    intro k
    by_cases hk : k < data.length / typesize * typesize
    · obtain ⟨i, j, hi, hj, rfl⟩ := honto _ _ k hk
      have hthere := shuffleWith_element target source hactive (h _ _) (hback _ _) hi hj
      have hhome := shuffleWith_element source target hactive' (hback _ _) (h _ _) (hlen.symm ▸ hi) hj
      rw [hlen] at hhome
      rw [hhome, ← hshuffled, hthere]
    · have hthere := shuffleWith_tail target source hactive (Nat.not_lt.mp hk)
      rw [shuffleWith_tail _ _ hactive' (hlen.symm ▸ Nat.not_lt.mp hk), ← hshuffled, hthere]

end Shuffle

theorem shuffleDecode_shuffleEncode (data : List UInt8) (typesize : Nat) :
    shuffleDecode (shuffleEncode data typesize) typesize = data := by
  refine shuffleWith_undo planeIndex elementIndex planeIndex_positions elementIndex_positions ?_
  intro n typesize k hk
  have hpos : 0 < typesize := Nat.pos_of_ne_zero fun hzero => by simp [hzero] at hk
  refine ⟨k / typesize, k % typesize, (Nat.div_lt_iff_lt_mul hpos).mpr hk, Nat.mod_lt k hpos, ?_⟩
  rw [elementIndex, Nat.mul_comm]
  exact Nat.div_add_mod k typesize

section Transpose

def swapBits (mask : BitVec 64) (d : Nat) (x : BitVec 64) : BitVec 64 :=
  x ^^^ ((x ^^^ (x >>> d)) &&& mask) ^^^ (((x ^^^ (x >>> d)) &&& mask) <<< d)

theorem swapBits_linear (mask : BitVec 64) (d : Nat) : XorLinear (swapBits mask d) := by
  have hpart : XorLinear fun x : BitVec 64 => (x ^^^ (x >>> d)) &&& mask :=
    (XorLinear.and_const mask).comp (XorLinear.id.xor (XorLinear.ushiftRight d))
  exact (XorLinear.id.xor hpart).xor ((XorLinear.shiftLeft d).comp hpart)

def transposeBits (x : BitVec 64) : BitVec 64 :=
  swapBits 0x00000000F0F0F0F0#64 28
    (swapBits 0x0000CCCC0000CCCC#64 14 (swapBits 0x00AA00AA00AA00AA#64 7 x))

theorem transposeBits_linear : XorLinear transposeBits :=
  (swapBits_linear _ 28).comp ((swapBits_linear _ 14).comp (swapBits_linear _ 7))

theorem transposeBits_transposeBits (x : BitVec 64) : transposeBits (transposeBits x) = x := by
  refine XorLinear.ext_twoPow (transposeBits_linear.comp transposeBits_linear) XorLinear.id ?_ x
  decide +kernel

theorem transpose8x8_eq (x : UInt64) : (transpose8x8 x).toBitVec = transposeBits x.toBitVec := by
  unfold transpose8x8
  split
  next hsame =>
    rcases hsame with rfl | rfl
    · exact transposeBits_linear.map_zero.symm
    · decide
  next => rfl

theorem transpose8x8_transpose8x8 (x : UInt64) : transpose8x8 (transpose8x8 x) = x := by
  apply UInt64.toBitVec_inj.mp
  rw [transpose8x8_eq, transpose8x8_eq, transposeBits_transposeBits]

theorem transposeBlock_length (src : List UInt8) : (transposeBlock src).length = 8 := u64_length _

theorem transposeBlock_transposeBlock {src : List UInt8} (h : src.length = 8) :
    transposeBlock (transposeBlock src) = src := by
  have hlt : decode src < UInt64.size := by
    have := decode_lt src
    rwa [h] at this
  rw [transposeBlock, transposeBlock, readU64_u64, transpose8x8_transpose8x8, u64, readU64,
    UInt64.toNat_ofNat_of_lt' hlt, encode_decode h]

theorem transposeBlocks_append {a b : List UInt8} (ha : a.length = 8) (hb : b.length = 8)
    (c : List UInt8) : transposeBlocks (a ++ (b ++ c)) =
      transposeBlock a ++ (transposeBlock b ++ transposeBlocks c) := by
  have hlen : 16 ≤ (a ++ (b ++ c)).length := by
    rw [List.length_append, List.length_append]
    omega
  have hfirst : bytesAt (a ++ (b ++ c)) 0 8 = a := List.take_left' ha
  rw [transposeBlocks, dif_pos hlen, hfirst, bytesAt_append ha hb, List.append_assoc,
    show 16 = 8 + 8 from rfl, ← List.drop_drop, List.drop_left' ha, List.drop_left' hb]

theorem transposeBlocks_undo (blocks : Nat) {src : List UInt8} (h : src.length = blocks * 8) :
    (transposeBlocks src).length = src.length ∧ transposeBlocks (transposeBlocks src) = src := by
  induction blocks using Nat.strongRecOn generalizing src with
  | ind blocks ih =>
    by_cases hlong : 16 ≤ src.length
    · -- two blocks and the rest
      obtain ⟨a, b, c, rfl, ha, hb⟩ : ∃ a b c, src = a ++ (b ++ c) ∧ a.length = 8 ∧ b.length = 8 := by
        refine ⟨src.take 8, (src.drop 8).take 8, (src.drop 8).drop 8, ?_, ?_, ?_⟩
        · rw [List.take_append_drop, List.take_append_drop]
        · exact List.length_take_of_le (by omega)
        · exact List.length_take_of_le (by rw [List.length_drop]; omega)
      rw [List.length_append, List.length_append] at h hlong
      obtain ⟨hclen, hc⟩ := ih (blocks - 2) (by omega)
        (show c.length = (blocks - 2) * 8 by omega)
      rw [transposeBlocks_append ha hb]
      refine ⟨?_, ?_⟩
      · simp only [List.length_append, transposeBlock_length, hclen]
        omega
      · rw [transposeBlocks_append (transposeBlock_length a) (transposeBlock_length b),
          transposeBlock_transposeBlock ha, transposeBlock_transposeBlock hb, hc]
    · by_cases hone : src.length = 8
      · have hblock : ∀ block : List UInt8, block.length = 8 → transposeBlocks block = transposeBlock block := by
          intro block hblock
          rw [transposeBlocks, dif_neg (by omega), if_pos hblock]
        rw [hblock src hone, hblock _ (transposeBlock_length src), transposeBlock_length]
        exact ⟨hone.symm, transposeBlock_transposeBlock hone⟩
      · obtain rfl : src = [] := List.eq_nil_of_length_eq_zero (by omega)
        have hnil : transposeBlocks [] = [] := by rw [transposeBlocks]; rfl
        rw [hnil]
        exact ⟨rfl, hnil⟩

theorem transposeBytes_undo (data : List UInt8) :
    (transposeBytes data).length = data.length ∧ transposeBytes (transposeBytes data) = data := by
  have hn : data.length / 8 * 8 ≤ data.length := Nat.div_mul_le_self _ _
  have hblocks : (data.take (data.length / 8 * 8)).length = data.length / 8 * 8 := List.length_take_of_le hn
  obtain ⟨hlen, hundo⟩ := transposeBlocks_undo _ hblocks
  rw [hblocks] at hlen
  have hwhole : (transposeBytes data).length = data.length := by
    rw [transposeBytes, List.length_append, hlen, List.length_drop]
    omega
  refine ⟨hwhole, ?_⟩
  rw [transposeBytes, hwhole, transposeBytes, List.take_left' hlen, List.drop_left' hlen, hundo, List.take_append_drop]

end Transpose

theorem bitshuffleDecode_bitshuffleEncode (data : List UInt8) (typesize : Nat) :
    (bitshuffleEncode data typesize).length = data.length ∧
      bitshuffleDecode (bitshuffleEncode data typesize) typesize = data := by
  by_cases hidle : data.isEmpty ∨ typesize = 0
  · rw [bitshuffleEncode, if_pos hidle, bitshuffleDecode, if_pos hidle]
    exact ⟨rfl, rfl⟩
  · obtain ⟨hlen, hundo⟩ := transposeBytes_undo (shuffleEncode data typesize)
    have hwhole : (transposeBytes (shuffleEncode data typesize)).length = data.length :=
      hlen.trans (shuffleWith_length _ _)
    have hbusy : ¬((transposeBytes (shuffleEncode data typesize)).isEmpty ∨ typesize = 0) := by
      rwa [List.isEmpty_iff_length_eq_zero, hwhole, ← List.isEmpty_iff_length_eq_zero]
    rw [bitshuffleEncode, if_neg hidle, bitshuffleDecode, if_neg hbusy, hundo,
      shuffleDecode_shuffleEncode]
    exact ⟨hwhole, rfl⟩

end Filters

namespace FilterPipeline

open Filters

def Lossless (p : FilterPipeline) : Prop :=
  ∀ f ∈ p.filters, f = .delta ∨ f = .byteShuffle ∨ f = .bitShuffle

theorem unapplyFilter_applyFilter {f : FilterType} (h : f = .delta ∨ f = .byteShuffle ∨ f = .bitShuffle)
    (aligned aligned' : Bool) (typesize : Nat) (data : List UInt8) :
    (applyFilter aligned typesize data f).length = data.length ∧
      unapplyFilter aligned' typesize (applyFilter aligned typesize data f) f = data := by
  rcases h with rfl | rfl | rfl
  · exact deltaDecode_deltaEncode aligned aligned' data typesize
  · exact ⟨shuffleWith_length _ _, shuffleDecode_shuffleEncode data typesize⟩
  · exact bitshuffleDecode_bitshuffleEncode data typesize

theorem foldl_unapply_apply (aligned aligned' : Nat → Bool) (typesize : Nat) {filters : List FilterType}
    (h : ∀ f ∈ filters, f = .delta ∨ f = .byteShuffle ∨ f = .bitShuffle) (k m : Nat) (data : List UInt8) :
    ((filters.zipIdx k).foldl (fun cur f => applyFilter (aligned f.2) typesize cur f.1) data).length =
        data.length ∧
      (filters.reverse.zipIdx m).foldl (fun cur f => unapplyFilter (aligned' f.2) typesize cur f.1)
        ((filters.zipIdx k).foldl (fun cur f => applyFilter (aligned f.2) typesize cur f.1) data) = data := by
  induction filters generalizing k data with
  | nil => exact ⟨rfl, rfl⟩
  | cons f filters ih =>
    obtain ⟨hlen, hundo⟩ := unapplyFilter_applyFilter (h f (by simp)) (aligned k)
      (aligned' (m + filters.length)) typesize data
    obtain ⟨hrestLen, hrest⟩ := ih (fun g hg => h g (by simp [hg])) (k + 1)
      (applyFilter (aligned k) typesize data f)
    rw [List.zipIdx_cons, List.foldl_cons, List.reverse_cons, List.zipIdx_append, List.foldl_append, hrest,
      List.length_reverse]
    exact ⟨hrestLen.trans hlen, hundo⟩

/-- Undoing a lossless pipeline gives back the bytes, on whichever code path each filter runs. -/
theorem unapply_apply {p : FilterPipeline} (h : p.Lossless) (aligned aligned' : Nat → Bool)
    (data : List UInt8) :
    (p.apply aligned data).length = data.length ∧ p.unapply aligned' (p.apply aligned data) = data :=
  foldl_unapply_apply aligned aligned' p.typesize.toNat h 0 0 data

theorem unapply_apply_chain : (FilterPipeline.mk 4 [.delta, .bitShuffle, .byteShuffle]).Lossless ∧
    ((FilterPipeline.mk 4 [.delta, .bitShuffle, .byteShuffle]).apply (fun _ => true)
      [1, 2, 3, 4, 5, 6, 7, 8, 9]).length = 9 ∧
    (FilterPipeline.mk 4 [.delta, .bitShuffle, .byteShuffle]).unapply (fun _ => false)
      ((FilterPipeline.mk 4 [.delta, .bitShuffle, .byteShuffle]).apply (fun _ => true)
        [1, 2, 3, 4, 5, 6, 7, 8, 9]) = [1, 2, 3, 4, 5, 6, 7, 8, 9] := by
  have hlossless : (FilterPipeline.mk 4 [.delta, .bitShuffle, .byteShuffle]).Lossless := by
    unfold Lossless
    decide
  exact ⟨hlossless, unapply_apply hlossless _ _ _⟩

end FilterPipeline

theorem FilterConfig.toPipeline_lossless (c : FilterConfig) : c.toPipeline.Lossless := by
  intro f hf
  simp only [toPipeline, List.mem_append, List.mem_ite_nil_right, List.mem_singleton] at hf
  rcases hf with (⟨-, rfl⟩ | ⟨-, rfl⟩) | ⟨-, rfl⟩
  · exact Or.inl rfl
  · exact Or.inr (Or.inl rfl)
  · exact Or.inr (Or.inr rfl)

/-- The filters of the source obey the filter laws, wherever the allocator puts their buffers. -/
theorem Codec.Lawful.withPipelines {C : Codec} (h : C.Lawful)
    (aligned aligned' : FilterConfig → List UInt8 → Nat → Bool) :
    (C.withPipelines aligned aligned').Lawful where
  frame_ne_nil := h.frame_ne_nil
  stream := h.stream
  frame := h.frame
  decrypt := h.decrypt
  cipher_ne_nil := h.cipher_ne_nil
  filter {c d} _ := (FilterPipeline.unapply_apply c.toPipeline_lossless (aligned c d) _ d).2
  filter_length {c d} _ :=
    (FilterPipeline.unapply_apply c.toPipeline_lossless (aligned c d) (aligned' c d) d).1

end Oifs
