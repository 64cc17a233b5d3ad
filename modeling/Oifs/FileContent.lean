import Oifs.WritePath

namespace Oifs

open PointerForest

/-- A content with `data` at `offset`, zero-extended up to `offset` if it was shorter. -/
def splice (content : List UInt8) (offset : Nat) (data : List UInt8) : List UInt8 :=
  resize content offset ++ data ++ content.drop (offset + data.length)

theorem resize_length (l : List UInt8) (n : Nat) : (resize l n).length = n := by
  simp [resize]
  omega

theorem resize_of_le {l : List UInt8} {n : Nat} (h : n ≤ l.length) : resize l n = l.take n := by
  simp [resize, Nat.sub_eq_zero_of_le h]

theorem copyFromSlice_resize (l : List UInt8) (offset : Nat) (data : List UInt8) :
    copyFromSlice (if l.length < offset + data.length then resize l (offset + data.length) else l)
      offset data = splice l offset data := by
  unfold copyFromSlice splice
  by_cases h : l.length < offset + data.length
  · have htake : (resize l (offset + data.length)).take offset = resize l offset := by
      simp only [resize, List.take_append, List.take_take, List.length_take, List.take_replicate]
      congr 2
      · omega
      · omega
    have hdrop : (resize l (offset + data.length)).drop (offset + data.length) = [] :=
      List.drop_eq_nil_of_le (by rw [resize_length])
    rw [if_pos h, htake, hdrop, List.drop_eq_nil_of_le (by omega)]
  · rw [if_neg h, resize_of_le (by omega)]

theorem splice_map_range (f : Nat → UInt8) (n offset : Nat) (data : List UInt8) :
    splice ((List.range n).map f) offset data =
      (List.range (max n (offset + data.length))).map
        (patch (fun j => if j < n then f j else 0) offset data) := by
  apply List.ext_getElem
  · simp [splice, resize_length]
    omega
  · intro j hj hj'
    simp only [List.length_map, List.length_range] at hj'
    rw [List.getElem_map, List.getElem_range]
    by_cases hlow : j < offset
    · rw [patch_out (Or.inl hlow)]
      simp only [splice, resize]
      by_cases hn : j < n
      · rw [List.getElem_append_left (by simp; omega), List.getElem_append_left (by simp; omega),
          List.getElem_append_left (by simp; omega), if_pos hn]
        simp
      · rw [List.getElem_append_left (by simp; omega), List.getElem_append_left (by simp; omega),
          List.getElem_append_right (by simp; omega), if_neg hn]
        simp
    · by_cases hhigh : j < offset + data.length
      · obtain ⟨k, rfl⟩ := Nat.exists_eq_add_of_le (Nat.not_lt.mp hlow)
        have hk : k < data.length := by omega
        rw [patch_in hk]
        simp only [splice]
        rw [List.getElem_append_left (by simp [resize_length]; omega),
          List.getElem_append_right (by simp [resize_length])]
        simp [resize_length]
      · rw [patch_out (Or.inr (by omega)), if_pos (by omega)]
        simp only [splice]
        rw [List.getElem_append_right (by simp [resize_length]; omega)]
        simp only [List.length_append, resize_length, List.getElem_drop, List.getElem_map,
          List.getElem_range]
        congr 1
        omega

namespace Files

def single (id : Nat) (i : Inode) : Files where
  has j := j == id
  inode := Function.update (fun _ => Inode.new .file) id i

@[simp] theorem single_has (id : Nat) (i : Inode) : (single id i).has id = true := by simp [single]

@[simp] theorem single_inode (id : Nat) (i : Inode) : (single id i).inode id = i := by
  simp [single]

@[simp] theorem single_set (id : Nat) (i j : Inode) : (single id i).set id j = single id j := by
  simp [single, set]

end Files

theorem resolve_single (v : Volume) (id : Nat) (i : Inode) (idx : Nat) :
    v.resolveLogicalBlockId i idx =
      ((leafPlace id idx).map (v.cells (Files.single id i)).get).getD 0 := by
  have heq := resolveLogicalBlockId_eq (v := v) (Files.single_has id i) idx
  rwa [Files.single_inode] at heq

theorem cells_single_root (v : Volume) (id s : Nat) (i : Inode) :
    (v.cells (Files.single id i)).get ⟨(id, s), []⟩ = i.slot s := by
  rw [Cells.get_root, v.cells_root (Files.single_has id i), Files.single_inode]

theorem cells_single_cons (v : Volume) (id s k : Nat) (i : Inode) (q : List Nat) :
    (v.cells (Files.single id i)).get ⟨(id, s), k :: q⟩ =
      v.follow ((v.cells (Files.single id i)).get ⟨(id, s), q⟩) k := rfl

theorem resolve_leaf {v : Volume} {i : Inode} (id : Nat) {idx : Nat}
    (hne : v.resolveLogicalBlockId i idx ≠ 0) :
    ∃ l, leafPlace id idx = some l ∧
      (v.cells (Files.single id i)).get l = v.resolveLogicalBlockId i idx := by
  rw [resolve_single v id] at hne ⊢
  cases hl : leafPlace id idx with
  | none =>
    rw [hl] at hne
    exact absurd rfl hne
  | some l => exact ⟨l, rfl, rfl⟩

namespace Session

variable (S : Session)

def Encrypts (scheme id : Nat) (i : Inode) (plain raw : List UInt8) : Prop :=
  if i.encrypted = true then ∃ key, S.encryptionKey = some key ∧
    S.codec.encryptData plain key i.encryptionNonce (fileAadForScheme id scheme) = .ok raw
  else raw = plain

def Compresses (i : Inode) (filtered plain : List UInt8) : Prop :=
  if 0 < i.compressedSize then ∃ parts : List (List UInt8 × List UInt8), parts ≠ [] ∧
    (∀ p ∈ parts, ∃ level, S.codec.compressFrame p.1 level = .ok p.2) ∧
      filtered = parts.flatMap (·.1) ∧ plain = parts.flatMap (·.2)
  else plain = filtered

/-- The non-seekable representations: `raw` is what a file with the inode `i` stores for `content`. -/
structure Encodes (scheme id : Nat) (i : Inode) (raw content : List UInt8) : Prop where
  layers : ∃ plain, S.Encrypts scheme id i plain raw ∧
    S.Compresses i (S.codec.applyFilters content i.filter) plain
  length : raw.length = i.physicalSize
  size : 0 < i.compressedSize → i.size = content.length

theorem Encodes.nil_of_size {scheme id : Nat} {i : Inode} {raw content : List UInt8} {S : Session}
    (hC : S.codec.Lawful) (h : S.Encodes scheme id i raw content) (hsize : i.size = 0) :
    content = [] := by
  by_cases hcomp : 0 < i.compressedSize
  · have hlen := h.size hcomp
    exact List.length_eq_zero_iff.mp (by omega)
  · obtain ⟨plain, henc, hplain⟩ := h.layers
    have hraw : raw = [] := by
      rw [← List.length_eq_zero_iff, h.length, Inode.physicalSize, if_neg hcomp, hsize]
    rw [Compresses, if_neg hcomp] at hplain
    unfold Encrypts at henc
    split at henc
    next =>
      obtain ⟨key, -, hcipher⟩ := henc
      exact absurd hraw (hC.cipher_ne_nil hcipher)
    next =>
      rw [← List.length_eq_zero_iff, ← hC.applyFilters_length content i.filter, ← hplain, ← henc,
        hraw, List.length_nil]

theorem Encrypts.decrypt {scheme id : Nat} {i : Inode} {plain raw : List UInt8} {S : Session}
    (hC : S.codec.Lawful) (h : S.Encrypts scheme id i plain raw) :
    S.decryptPayload scheme id i raw = .ok plain := by
  unfold Encrypts at h
  unfold decryptPayload
  by_cases hencrypted : i.encrypted = true
  · rw [if_pos hencrypted] at h ⊢
    obtain ⟨key, hkey, hcipher⟩ := h
    rw [hkey]
    dsimp only
    rw [hC.decrypt hcipher]
  · rw [if_neg hencrypted] at h ⊢
    rw [h]

theorem Compresses.decompress {i : Inode} {filtered plain : List UInt8} {S : Session}
    (hC : S.codec.Lawful) (h : S.Compresses i filtered plain) (hmode : i.mode = .file)
    (hsize : 0 < i.compressedSize → i.size = filtered.length) :
    S.decompressPayload i plain = .ok filtered := by
  unfold Compresses at h
  unfold decompressPayload
  by_cases hpos : 0 < i.compressedSize
  · rw [if_pos hpos] at h
    obtain ⟨parts, hne, hparts, rfl, rfl⟩ := h
    have hlen := hsize hpos
    rw [if_pos ⟨hmode, hpos⟩, hC.stream parts hne hparts,
      List.take_of_length_le (by rw [← hlen, Inode.decodeLimit]; omega)]
  · rw [if_neg hpos] at h
    rw [if_neg fun hb => hpos hb.2, h]

theorem unfilterPayload_applyFilters {S : Session} (hC : S.codec.Lawful) (i : Inode)
    (content : List UInt8) :
    S.unfilterPayload i (S.codec.applyFilters content i.filter) = content := by
  unfold unfilterPayload
  by_cases hactive : i.filter.isActive = true
  · rw [if_pos hactive, hC.unapplyFilters_applyFilters]
  · rw [if_neg hactive, Codec.applyFilters, if_pos]
    simp [FilterConfig.isSupported, hactive]

theorem Encodes.decode {scheme id : Nat} {i : Inode} {raw content : List UInt8} {S : Session}
    (hC : S.codec.Lawful) (h : S.Encodes scheme id i raw content) (hmode : i.mode = .file) :
    S.decodePayload scheme id i raw = .ok content := by
  obtain ⟨plain, henc, hcomp⟩ := h.layers
  have hdecrypt := henc.decrypt hC
  have hdecode := hcomp.decompress hC hmode (by
    rw [hC.applyFilters_length]
    exact h.size)
  unfold decodePayload
  rw [hdecrypt]
  change (S.decompressPayload i plain >>= fun decoded => pure (S.unfilterPayload i decoded)) = _
  rw [hdecode]
  exact congrArg Except.ok (unfilterPayload_applyFilters hC i content)

end Session

end Oifs
