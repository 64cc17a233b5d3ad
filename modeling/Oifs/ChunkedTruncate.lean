import Oifs.ChunkedWrite

namespace Oifs

open PointerForest

namespace Session

variable {S : Session} {v v' : Volume} {id : Nat} {i : Inode} {c : Nat → UInt8}

def cut (c : Nat → UInt8) (n j : Nat) : UInt8 := if j < n then c j else 0

theorem cut_of_zero {n : Nat} (h : ∀ j, n ≤ j → c j = 0) : cut c n = c := by
  funext j
  unfold cut
  split
  next => rfl
  next hj => exact (h j (Nat.not_lt.mp hj)).symm

theorem cut_zero {n j : Nat} (h : n ≤ j) : cut c n j = 0 := by
  rw [cut, if_neg (Nat.not_lt.mpr h)]

theorem Holds.eq_nil_of_isEmpty {e : ChunkEntry} {d : List UInt8} (h : S.Holds v e d)
    (hempty : e.isEmpty = true) : d = [] := by
  have hne : ∀ {f : Nat}, e.flags = f → f ≠ ChunkEntry.flagEmpty → False := by
    intro f hf hpos
    rw [ChunkEntry.isEmpty_eq_false (by rw [hf]; exact hpos)] at hempty
    cases hempty
  cases h with
  | empty => rfl
  | raw _ hflag => exact (hne hflag (by decide)).elim
  | compressed _ _ _ hflag => exact (hne hflag (by decide)).elim

/-- Dropped chunks read as zeros, the others as before. -/
theorem dropChunks_chunks {idxs : List Nat} {i' : Inode} {g : Nat → Nat → UInt8}
    (hg : Good chunkExtent (Files.single id i) v) (hch : S.Chunks v i g)
    (h : dropChunks i idxs v = .ok i' v') :
    v.SameTables v' ∧ Good chunkExtent (Files.single id i') v' ∧ SameMeta i i' ∧
      S.Chunks v' i' fun idx k => if idx ∈ idxs then 0 else g idx k := by
  induction idxs generalizing v i g with
  | nil =>
    obtain ⟨rfl, rfl⟩ := DiskM.pure_ok.mp h
    refine ⟨Volume.SameTables.refl v, hg, SameMeta.refl i, ?_⟩
    simpa using hch
  | cons idx idxs ih =>
    rw [dropChunks] at h
    simp only [DiskM.bind_ok, DiskM.get_ok] at h
    obtain ⟨_, _, ⟨rfl, rfl⟩, i₁, v₁, hone, hrest⟩ := h
    -- one chunk, with an entry or without
    obtain ⟨htables, hg₁, hmeta, hch₁⟩ : v.SameTables v₁ ∧
        Good chunkExtent (Files.single id i₁) v₁ ∧ SameMeta i i₁ ∧
        S.Chunks v₁ i₁ (Function.update g idx fun _ => 0) := by
      by_cases hempty : ChunkEntry.isEmpty (v.resolveLogicalChunkEntry i idx) = true
      · rw [if_pos hempty] at hone
        obtain ⟨rfl, rfl⟩ := DiskM.pure_ok.mp hone
        refine ⟨Volume.SameTables.refl v, hg, SameMeta.refl i, fun idx' => ?_⟩
        obtain ⟨d, hd, hbytes⟩ := hch idx'
        by_cases hidx : idx' = idx
        · subst hidx
          refine ⟨d, hd, fun k _ => ?_⟩
          rw [Function.update_self, hd.eq_nil_of_isEmpty hempty]
          rfl
        · exact ⟨d, hd, fun k hk => by rw [Function.update_of_ne hidx, hbytes k hk]⟩
      · rw [if_neg hempty] at hone
        simp only [DiskM.bind_ok] at hone
        obtain ⟨_, w, hfree, hset⟩ := hone
        have hclear : Volume.clearLogicalChunkEntry i idx w = .ok i₁ v₁ := hset
        have hfalse : ChunkEntry.isEmpty (v.resolveLogicalChunkEntry i idx) = false := by
          simpa using hempty
        obtain ⟨l, hl, hr⟩ := relinks_of_drop hg (Files.single_has id i)
          (by rw [Files.single_inode]) hfalse hfree (by rw [Files.single_inode]; exact hclear)
        rw [Files.single_set] at hr
        exact ⟨hr.tables, hr.good, clearLogicalChunkEntry_sameMeta hclear,
          hch.relink hl hr (.empty rfl)⟩
    obtain ⟨htables', hg', hmeta', hch'⟩ := ih hg₁ hch₁ hrest
    refine ⟨htables.trans htables', hg', hmeta.trans hmeta', fun idx' => ?_⟩
    obtain ⟨d, hd, hbytes⟩ := hch' idx'
    refine ⟨d, hd, fun k hk => (hbytes k hk).trans ?_⟩
    by_cases hidx : idx' = idx
    · simp [hidx]
    · simp [hidx]

theorem shortenLastChunk_chunks {A : Ambient} {n idx validLen : Nat} {i' : Inode}
    {g : Nat → Nat → UInt8} (hC : S.codec.Lawful) (hkey : S.encryptionKey = none)
    (hv : ChunkImage v) (hplain : i.encrypted = false)
    (hg : Good chunkExtent (Files.single id i) v) (hch : S.Chunks v i g)
    (hidx : divCeil n chunkSize64k - 1 = idx) (hlen : n - idx * chunkSize64k = validLen)
    (hpos : 0 < validLen) (h : S.shortenLastChunk A id i n v = .ok i' v') :
    v.SameTables v' ∧ Good chunkExtent (Files.single id i') v' ∧ SameMeta i i' ∧
      S.Chunks v' i' (Function.update g idx fun k => if k < validLen then g idx k else 0) := by
  obtain ⟨d, hd, hbytes⟩ := hch idx
  unfold shortenLastChunk at h
  dsimp only at h
  rw [hidx, hlen] at h
  rw [DiskM.get_bind] at h
  split at h
  next hcond =>
    obtain ⟨hshort, hsome⟩ := hcond
    have hfalse : ChunkEntry.isEmpty (v.resolveLogicalChunkEntry i idx) = false := by
      simpa using hsome
    simp only [DiskM.bind_ok, DiskM.modify_ok, DiskM.pure_ok, liftExcept_ok] at h
    obtain ⟨data, _, ⟨hread, rfl⟩, p, _, ⟨hprep, rfl⟩, start, v₁, halloc, _, _, rfl, i₁, v₃, hset,
      _, _, hfree, rfl, rfl⟩ := h
    have hdata : data = resize d validLen :=
      Except.ok.inj (hread.symm.trans (hd.read hC hplain))
    have hp := prepareChunkPayload_ok hkey hprep
    have hdlen : data.length = validLen := by rw [hdata, resize_length]
    rw [List.take_of_length_le (Nat.le_of_eq hdlen)] at hp
    have hne : data ≠ [] := by
      rw [← List.length_pos_iff, hdlen]
      exact hpos
    have hle : data.length ≤ chunkSize64k := by omega
    have hsized := hp.sized hC hne hle
    have hend := hv.runInside hsized.blocks_pos start v₁ halloc
    have hstaged := staged_of_allocate p.payload hg hend.1 hsized.blocks_pos halloc
    obtain ⟨⟨l, hl, hr⟩, -⟩ := replaces_of_steps hg (Files.single_has id i) hend.1 hend.2
      hsized.blocks_pos hsized.blocks_lt hsized.flag_pos hsized.flag_lt hstaged (by rw [Files.single_inode]; exact hset)
      (by rw [Files.single_inode, hfalse, if_neg Bool.false_ne_true]; exact hfree)
    rw [Files.single_set] at hr
    have hrelink := hch.relink hl hr.toRelinks
      (hp.holds hle (placed_of_replaces hsized hg.sound hend hr))
    refine ⟨hr.tables, hr.good, setLogicalChunkEntry_sameMeta hset, ?_⟩
    have hsame : (fun k => data.getD k 0) = fun k => if k < validLen then g idx k else 0 := by
      funext k
      rw [hdata, resize_eq_map, getD_map_range]
      split
      next hk => exact hbytes k (by omega)
      next => rfl
    rw [← hsame]
    exact hrelink
  next hcond =>
    obtain ⟨rfl, rfl⟩ := DiskM.pure_ok.mp h
    refine ⟨Volume.SameTables.refl v, hg, SameMeta.refl i, fun idx' => ?_⟩
    by_cases heq : idx' = idx
    · subst heq
      refine ⟨d, hd, fun k hk => ?_⟩
      rw [Function.update_self]
      split
      next => exact hbytes k hk
      next hout =>
        -- the chunk is full, or there is nothing in it
        have hempty : ChunkEntry.isEmpty (v.resolveLogicalChunkEntry i idx') = true := by
          by_contra hsome
          exact hcond ⟨by omega, by simpa using hsome⟩
        rw [hd.eq_nil_of_isEmpty hempty]
        rfl
    · rw [Function.update_of_ne heq]
      exact hch idx'

theorem chunks_empty {g : Nat → Nat → UInt8} (hslots : ∀ s, i.slot s = 0)
    (hzero : ∀ idx k, g idx k = 0) : S.Chunks v i g := by
  intro idx
  refine ⟨[], .empty ?_, fun k _ => (hzero idx k).symm⟩
  rw [resolveLogicalChunkEntry_empty v idx hslots]
  rfl

theorem cut_chunks {size n idx k : Nat} (hzero : ∀ j, size ≤ j → c j = 0) (hn : 0 < n)
    (hk : k < chunkSize64k) :
    Function.update (fun idx k => if idx ∈ List.range' (divCeil n chunkSize64k)
        (divCeil size chunkSize64k - divCeil n chunkSize64k) then 0 else c (idx * chunkSize64k + k))
      (divCeil n chunkSize64k - 1) (fun k =>
        if k < n - (divCeil n chunkSize64k - 1) * chunkSize64k then
          if divCeil n chunkSize64k - 1 ∈ List.range' (divCeil n chunkSize64k)
            (divCeil size chunkSize64k - divCeil n chunkSize64k) then 0
          else c ((divCeil n chunkSize64k - 1) * chunkSize64k + k)
        else 0) idx k = cut c n (idx * chunkSize64k + k) := by
  have hsize : chunkSize64k = 65536 := rfl
  simp only [List.mem_range'_1]
  unfold cut divCeil
  rw [hsize] at hk ⊢
  by_cases hidx : idx = (n + 65536 - 1) / 65536 - 1
  · subst hidx
    rw [Function.update_self]
    split
    next hlt => rw [if_neg (by omega), if_pos (by omega)]
    next hge => rw [if_neg (by omega)]
  · rw [Function.update_of_ne hidx]
    split
    next hdropped => rw [if_neg (by omega)]
    next hkept =>
      split
      next => rfl
      next hout => exact hzero _ (by omega)

/-- Truncation cuts the bytes of a chunked file. -/
theorem ChunkedFile.truncateChunked {A : Ambient} {n : Nat} (hC : S.codec.Lawful)
    (hkey : S.encryptionKey = none) (h : S.ChunkedFile v id i c) (hseek : i.isSeekable = true)
    (hne : n ≠ i.size) (ht : S.truncateChunked64k A id n v = .ok () v') :
    ∃ i', i'.size = n ∧ S.ChunkedFile v' id i' (cut c n) := by
  unfold truncateChunked64k at ht
  simp only [DiskM.bind_ok, DiskM.get_ok, liftExcept_ok] at ht
  obtain ⟨_, _, ⟨rfl, rfl⟩, i₀, _, ⟨hi, rfl⟩, ht⟩ := ht
  rw [h.record] at hi
  cases hi
  rw [if_neg (Ne.symm hne)] at ht
  by_cases hgrow : n > i.size
  · rw [if_pos hgrow] at ht
    refine ⟨{ i with size := n, modifiedAt := A.now }, rfl, ?_⟩
    rw [cut_of_zero fun j hj => h.zero j (by omega)]
    exact of_store h.image h.journal h.good h.chunks (fun _ => rfl) h.mode h.plain (Or.inl hseek)
      (fun _ _ _ => rfl) (fun j hj => h.zero j (hgrow.le.trans hj)) ht
  · rw [if_neg hgrow] at ht
    simp only [DiskM.bind_ok] at ht
    obtain ⟨i₁, v₁, hdrop, ht⟩ := ht
    obtain ⟨htables, hg₁, hmeta, hch₁⟩ := dropChunks_chunks h.good h.chunks hdrop
    have hmeta' : i₁ = _ := hmeta
    have hplain : i₁.encrypted = false := by
      rw [hmeta']
      exact h.plain
    have hmode : i₁.mode = .file := by
      rw [hmeta']
      exact h.mode
    have hseek' : i₁.isSeekable = true := by
      rw [hmeta']
      exact hseek
    have himage := h.image.congr htables.superblock
    have hjournal : v₁.superblock.hasJournalLayout = false := by rw [htables.superblock, h.journal]
    by_cases hzero : n = 0
    · rw [if_pos hzero] at ht
      generalize hi₂ : ({ i₁ with
          blocks := fun _ => 0, tripleIndirect := 0, compressedSize := 0, size := 0
          modifiedAt := A.now } : Inode) = i₂ at ht
      have hslots : ∀ s, i₂.slot s = 0 := by
        intro s
        rw [← hi₂]
        simp [Inode.slot]
      refine ⟨i₂, by rw [← hi₂, hzero], ?_⟩
      refine of_store himage hjournal (good_empty chunkExtent_zero hg₁.sound hslots)
        (chunks_empty (g := fun _ _ => 0) hslots fun _ _ => rfl) (fun _ => rfl) ?_ ?_ (Or.inl ?_)
        (fun _ _ _ => (cut_zero (by omega)).symm) (fun j _ => cut_zero (by omega)) ht
      · rw [← hi₂]
        exact hmode
      · rw [← hi₂]
        exact hplain
      · rw [← hi₂]
        exact hseek'
    · rw [if_neg hzero] at ht
      simp only [DiskM.bind_ok, DiskM.get_ok] at ht
      obtain ⟨i₂, v₂, hshort, _, _, ⟨rfl, rfl⟩, ht⟩ := ht
      have hpos : 0 < n - (divCeil n chunkSize64k - 1) * chunkSize64k := by
        have hsize : chunkSize64k = 65536 := rfl
        unfold divCeil
        rw [hsize]
        omega
      obtain ⟨htables₂, hg₂, hmeta₂, hch₂⟩ :=
        shortenLastChunk_chunks hC hkey himage hplain hg₁ hch₁ rfl rfl hpos hshort
      have hmeta₂' : i₂ = _ := hmeta₂
      refine ⟨{ i₂ with
          compressedSize := totalPhysicalBytes v₂ i₂ (divCeil n chunkSize64k), size := n
          modifiedAt := A.now }, rfl, ?_⟩
      refine of_store (himage.congr htables₂.superblock)
        (by rw [htables₂.superblock, hjournal]) hg₂ hch₂ (fun _ => rfl) ?_ ?_ (Or.inl ?_)
        (fun idx k hk => cut_chunks h.zero (Nat.pos_of_ne_zero hzero) hk)
        (fun j hj => cut_zero hj) ht
      · rw [hmeta₂']
        exact hmode
      · rw [hmeta₂']
        exact hplain
      · rw [hmeta₂']
        exact hseek'

section NoBlocks

variable (hslots : ∀ s, i.slot s = 0)

include hslots

theorem zeroSlack_empty (idx size : Nat) : v.zeroSlack i idx size = v := by
  have hblk : v.resolveLogicalBlockId i idx = 0 := resolveLogicalChunkEntry_empty v idx hslots
  unfold Volume.zeroSlack
  simp [hblk]

theorem clearBlockPtrs_empty (idxs : List Nat) : Volume.clearBlockPtrs i idxs v = .ok (i, []) v := by
  induction idxs with
  | nil => exact DiskM.pure_ok.mpr ⟨rfl, rfl⟩
  | cons idx idxs ih =>
    have hblk : v.resolveLogicalBlockId i idx = 0 := resolveLogicalChunkEntry_empty v idx hslots
    rw [Volume.clearBlockPtrs, DiskM.bind_ok]
    refine ⟨v, v, DiskM.get_ok.mpr ⟨rfl, rfl⟩, ?_⟩
    simp only [hblk, ne_eq, not_true_eq_false, if_false]
    exact ih

theorem pruneUnusedIndirectBlocks_empty (needed : Nat) :
    Volume.pruneUnusedIndirectBlocks i needed v = .ok (i, []) v := by
  have hlow : Volume.pruneLowTiers i needed v = .ok (i, []) v := by
    unfold Volume.pruneLowTiers
    simp only [hslots, ne_eq, not_true_eq_false, and_false, if_false, if_true]
    exact DiskM.bind_ok.mpr ⟨v, v, DiskM.get_ok.mpr ⟨rfl, rfl⟩, DiskM.pure_ok.mpr ⟨rfl, rfl⟩⟩
  unfold Volume.pruneUnusedIndirectBlocks
  refine DiskM.bind_ok.mpr ⟨_, _, hlow, DiskM.bind_ok.mpr ⟨v, v, DiskM.get_ok.mpr ⟨rfl, rfl⟩, ?_⟩⟩
  simp only [hslots, ne_eq, not_true_eq_false, and_false, if_false]
  exact DiskM.pure_ok.mpr ⟨rfl, rfl⟩

theorem readAtRawLoop_empty (curr rest : Nat) :
    readAtRawLoop v i curr rest = List.replicate rest 0 := by
  induction rest using Nat.strong_induction_on generalizing curr with
  | _ rest ih =>
    rw [readAtRawLoop]
    split
    next hzero => rw [hzero, List.replicate_zero]
    next hpos =>
      have hblk : v.resolveLogicalBlockId i (curr / blockSize) = 0 :=
        resolveLogicalChunkEntry_empty v _ hslots
      have hmod := mod_blockSize_lt curr
      dsimp only
      rw [hblk, if_neg (by simp), ih _ (by omega), List.replicate_append_replicate]
      congr 1
      omega

theorem truncateRaw_empty {A : Ambient} {n : Nat}
    (ht : (if n > i.size then expandRaw A id i n else shrinkRaw A id i n) v = .ok () v') :
    Volume.writeInodeInternal id { i with size := n, modifiedAt := A.now } v = .ok () v' := by
  split at ht
  next =>
    unfold expandRaw at ht
    split at ht
    next =>
      simp only [DiskM.bind_ok, DiskM.modify_ok] at ht
      obtain ⟨_, _, rfl, ht⟩ := ht
      rwa [zeroSlack_empty hslots] at ht
    next => exact ht
  next =>
    obtain ⟨j, freed, w₁, j', pruned, w₂, hclear, hprune, hwrite⟩ := shrinkRaw_ok ht
    rw [zeroSlack_empty hslots, ite_self, clearBlockPtrs_empty hslots] at hclear
    cases hclear
    rw [pruneUnusedIndirectBlocks_empty hslots] at hprune
    cases hprune
    exact hwrite

end NoBlocks

theorem ChunkedFile.truncate {A : Ambient} {n : Nat} (hC : S.codec.Lawful)
    (hkey : S.encryptionKey = none) (h : S.ChunkedFile v id i c)
    (ht : S.truncateInternal A id n v = .ok () v') :
    ∃ i', i'.size = n ∧ S.ChunkedFile v' id i' (cut c n) := by
  unfold truncateInternal at ht
  simp only [DiskM.bind_ok, DiskM.get_ok, liftExcept_ok] at ht
  obtain ⟨_, _, ⟨rfl, rfl⟩, i₀, _, ⟨hi, rfl⟩, _, _, ⟨-, rfl⟩, ht⟩ := ht
  rw [h.record] at hi
  cases hi
  by_cases hsize : n = i.size
  · rw [if_pos hsize, DiskM.pure_ok] at ht
    obtain ⟨-, rfl⟩ := ht
    refine ⟨i, hsize.symm, ?_⟩
    rw [cut_of_zero fun j hj => h.zero j (hsize ▸ hj)]
    exact h
  rw [if_neg hsize, h.journal, if_neg Bool.false_ne_true] at ht
  by_cases hseek : i.isSeekable = true
  · rw [if_pos hseek] at ht
    exact h.truncateChunked hC hkey hseek hsize ht
  · rw [if_neg hseek] at ht
    obtain ⟨hslots, hcomp, hfilter⟩ := h.kind.resolve_left hseek
    rw [if_neg (by simp [hcomp, hfilter, h.plain])] at ht
    refine ⟨{ i with size := n, modifiedAt := A.now }, rfl, ?_⟩
    have hzero := h.zero_of_slots hslots
    refine of_store h.image h.journal h.good h.chunks (fun _ => rfl) h.mode h.plain
      (Or.inr ⟨hslots, hcomp, hfilter⟩) (fun idx k _ => ?_) (fun j hj => cut_zero hj)
      (truncateRaw_empty hslots ht)
    unfold cut
    split
    next => rfl
    next => exact hzero _

theorem ChunkedFile.readAt {offset len : Nat} (hC : S.codec.Lawful) (h : S.ChunkedFile v id i c) :
    S.readAt v id offset len =
      .ok ((List.range (min len (i.size - offset))).map fun k => c (offset + k)) := by
  have hmode : requireFile i "Cannot read non-file inode" = .ok () := requireFile_ok.mpr h.mode
  unfold Session.readAt
  rw [except_bind_ok]
  refine ⟨i, h.record, except_bind_ok.mpr ⟨(), hmode, ?_⟩⟩
  by_cases hnone : offset ≥ i.size ∨ len = 0
  · have hmin : min len (i.size - offset) = 0 := by omega
    rw [if_pos hnone, hmin]
    rfl
  rw [if_neg hnone]
  dsimp only
  by_cases hseek : i.isSeekable = true
  · rw [if_pos hseek]
    unfold readAtChunked64k
    rw [if_neg hnone]
    exact readAtChunkedLoop_parts (h.view.parts hC) (by omega)
  · obtain ⟨hslots, hcomp, -⟩ := h.kind.resolve_left hseek
    rw [if_neg hseek, if_neg (by simp [hcomp, h.plain]), readAtRawLoop_empty hslots]
    refine congrArg Except.ok ?_
    refine (List.eq_replicate_iff.mpr ⟨by rw [List.length_map, List.length_range], ?_⟩).symm
    intro b hb
    obtain ⟨k, -, rfl⟩ := List.mem_map.mp hb
    exact h.zero_of_slots hslots _

end Session

end Oifs
