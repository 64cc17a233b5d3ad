import Oifs.DirectoryCalls
import Oifs.FsckSound
import Oifs.SparedBlocks

namespace Oifs

/-- An element of `file_meta_list`. -/
structure FileMeta where
  inodeId : Nat
  compMode : CompressionMode
  filterCfg : FilterConfig

namespace Inode

def compMode (inode : Inode) : CompressionMode :=
  if inode.isSeekable then .seekable chunkSize64k 0
  else if 0 < inode.compressedSize then .always
  else .never

/-- `cleared_inode`. -/
def cleared (inode : Inode) : Inode :=
  { inode with size := 0, compressedSize := 0, blocks := fun _ => 0, tripleIndirect := 0 }

end Inode

namespace Volume

def reopened (v : Volume) : Volume :=
  { v with freeBlockHint := v.superblock.dataBlockStart, freeInodeHint := 0 }

def bitmapInodes (v : Volume) : List Nat :=
  v.setBits v.superblock.inodeBitmapBlock 1 v.superblock.inodeCount v.inodeBit

/-- The second step: files with content are listed and their records emptied. -/
def collectInodes : List Nat → DiskM (List FileMeta × List Nat)
  | [] => return ([], [])
  | inodeId :: ids => do
    let v ← get
    match v.readInodeInternal inodeId with
    | .error _ => collectInodes ids
    | .ok inode =>
      if inode.mode = .directory then do
        let (files, blocks) ← collectInodes ids
        return (files, v.collectInodeBlocks inode ++ blocks)
      else if 0 < inode.size then do
        writeInodeInternal inodeId inode.cleared
        let (files, blocks) ← collectInodes ids
        return (⟨inodeId, inode.compMode, inode.filter⟩ :: files, blocks)
      else collectInodes ids

def resetDataBitmap (v : Volume) (directoryBlocks : List Nat) : Volume :=
  if v.superblock.dataBitmapBlock + v.superblock.dataBitmapBlocks ≤ v.mapBlocks then
    { v with dataBit := fun k =>
        if k < v.superblock.dataBitmapBlocks * bitmapBits then
          decide (v.superblock.dataBlockStart + k ∈ directoryBlocks)
        else v.dataBit k }
  else v

end Volume

namespace Session

/-- The fourth step: the files are read from the image in use and written to the copy. -/
def streamFiles (S : Session) (A : Nat → Ambient) (live : Volume) :
    List FileMeta → Nat → Nat → DiskM (Nat × Nat)
  | [], filesProcessed, bytesMoved => return (filesProcessed, bytesMoved)
  | m :: ms, filesProcessed, bytesMoved => do
    let data ← liftExcept (S.readData live m.inodeId)
    S.writeDataWithFilters (A m.inodeId) m.inodeId 0 data m.compMode m.filterCfg
    S.streamFiles A live ms (filesProcessed + 1) (bytesMoved + data.length)

def rebuild (S : Session) (A : Nat → Ambient) (live : Volume) : DiskM (Nat × Nat) := do
  let v ← get
  let (files, directoryBlocks) ← Volume.collectInodes v.bitmapInodes
  modify (·.resetDataBitmap directoryBlocks)
  S.streamFiles A live files 0 0

end Session

section Collection

variable {v v' : Volume}

theorem treeBlocks_congr (hm : v'.mapBlocks = v.mapBlocks) {seekable : Bool} {d limit b : Nat}
    (hb : ∀ x ∈ v.treeBlocks seekable d limit b, v'.block x = v.block x) :
    v'.treeBlocks seekable d limit b = v.treeBlocks seekable d limit b := by
  induction d generalizing limit b with
  | zero => rfl
  | succ d ih =>
    unfold Volume.treeBlocks at hb ⊢
    by_cases hzero : b = 0
    · rw [if_pos hzero, if_pos hzero]
    · rw [if_neg hzero] at hb
      rw [if_neg hzero, if_neg hzero, hm]
      split
      next hmap =>
        rw [if_pos hmap] at hb
        refine congrArg (b :: ·) (List.flatMap_congr fun k hk => ?_)
        rw [Volume.readBlockPtr_congr hm (hb b List.mem_cons_self)]
        exact ih fun x hx => hb x (List.mem_cons_of_mem b (List.mem_flatMap.mpr ⟨k, hk, hx⟩))
      next => rfl

theorem collectInodeBlocks_congr (hm : v'.mapBlocks = v.mapBlocks) {i : Inode}
    (hb : ∀ x ∈ v.collectInodeBlocks i, v'.block x = v.block x) :
    v'.collectInodeBlocks i = v.collectInodeBlocks i := by
  unfold Volume.collectInodeBlocks at hb ⊢
  simp only [List.mem_append] at hb
  dsimp only
  rw [treeBlocks_congr hm fun x hx => hb x (.inl (.inl (.inr hx))),
    treeBlocks_congr hm fun x hx => hb x (.inl (.inr hx)), treeBlocks_congr hm fun x hx => hb x (.inr hx)]

structure Collected (v : Volume) (ids : List Nat) (files : List FileMeta) (blocks : List Nat)
    (v' : Volume) : Prop where
  same : v' = { v with inode := v'.inode }
  kept : ∀ j, j ∉ files.map (·.inodeId) → v'.inode j = v.inode j
  listed : ∀ m ∈ files, ∃ i, v.readInodeInternal m.inodeId = .ok i ∧ i.mode = .file ∧ 0 < i.size ∧
    m = ⟨m.inodeId, i.compMode, i.filter⟩ ∧ v'.readInodeInternal m.inodeId = .ok i.cleared
  among : (files.map (·.inodeId)).Sublist ids
  files : ∀ id ∈ ids, ∀ i, v.readInodeInternal id = .ok i → i.mode = .file → 0 < i.size →
    id ∈ files.map (·.inodeId)
  directories : ∀ id ∈ ids, ∀ i, v.readInodeInternal id = .ok i → i.mode = .directory →
    v.collectInodeBlocks i ⊆ blocks

variable {blocks : List Nat} {files : List FileMeta} {ids : List Nat}

theorem Collected.skip {id : Nat} (h : Collected v ids files blocks v')
    (hskip : ∀ i, v.readInodeInternal id = .ok i → i.mode = .file ∧ i.size = 0) :
    Collected v (id :: ids) files blocks v' where
  same := h.same
  kept := h.kept
  listed := h.listed
  among := h.among.cons id
  files j hj i hread hmode hsize := by
    rcases List.mem_cons.mp hj with rfl | hj
    · have hzero := (hskip i hread).2
      omega
    · exact h.files j hj i hread hmode hsize
  directories j hj i hread hmode := by
    rcases List.mem_cons.mp hj with rfl | hj
    · rw [(hskip i hread).1] at hmode
      cases hmode
    · exact h.directories j hj i hread hmode

theorem Collected.directory {id : Nat}
    {i : Inode} (h : Collected v ids files blocks v') (hread : v.readInodeInternal id = .ok i)
    (hmode : i.mode = .directory) :
    Collected v (id :: ids) files (v.collectInodeBlocks i ++ blocks) v' where
  same := h.same
  kept := h.kept
  listed := h.listed
  among := h.among.cons id
  files j hj i' hread' hmode' hsize := by
    rcases List.mem_cons.mp hj with rfl | hj
    · rw [hread] at hread'
      cases hread'
      rw [hmode] at hmode'
      cases hmode'
    · exact h.files j hj i' hread' hmode' hsize
  directories j hj i' hread' hmode' := by
    rcases List.mem_cons.mp hj with rfl | hj
    · rw [hread] at hread'
      cases hread'
      exact List.subset_append_left _ _
    · exact List.Subset.trans (h.directories j hj i' hread' hmode') (List.subset_append_right _ _)

theorem Collected.file {id : Nat}
    {i : Inode} {w : Volume} (hnew : id ∉ ids) (hread : v.readInodeInternal id = .ok i)
    (hmode : i.mode = .file) (hsize : 0 < i.size)
    (hw : w = { v with inode := Function.update v.inode id (.ok i.cleared) })
    (hcleared : w.readInodeInternal id = .ok i.cleared) (h : Collected w ids files blocks v') :
    Collected v (id :: ids) (⟨id, i.compMode, i.filter⟩ :: files) blocks v' := by
  have hother : ∀ j, j ≠ id → w.inode j = v.inode j := by
    intro j hj
    rw [hw]
    exact Function.update_of_ne hj _ _
  have hsame : ∀ j, j ≠ id → w.readInodeInternal j = v.readInodeInternal j := by
    intro j hj
    unfold Volume.readInodeInternal
    rw [hother j hj, hw]
  have hne : ∀ {j}, j ∈ ids → j ≠ id := by
    rintro j hj rfl
    exact hnew hj
  have hout : id ∉ files.map (·.inodeId) := fun hin => hnew (h.among.subset hin)
  have hkept : v'.readInodeInternal id = w.readInodeInternal id := by
    unfold Volume.readInodeInternal
    rw [h.kept id hout, h.same]
  refine ⟨?_, ?_, ?_, h.among.cons_cons id, ?_, ?_⟩
  · rw [h.same, hw]
  · intro j hj
    rw [List.map_cons, List.mem_cons, not_or] at hj
    rw [h.kept j hj.2, hother j hj.1]
  · intro m hm
    rcases List.mem_cons.mp hm with rfl | hm
    · exact ⟨i, hread, hmode, hsize, rfl, hkept.trans hcleared⟩
    · obtain ⟨i', hread', rest⟩ := h.listed m hm
      refine ⟨i', ?_, rest⟩
      rwa [hsame _ (hne (h.among.subset (List.mem_map_of_mem hm)))] at hread'
  · intro j hj i' hread' hmode' hsize'
    rcases List.mem_cons.mp hj with rfl | hj
    · exact List.mem_cons_self
    · rw [← hsame j (hne hj)] at hread'
      exact List.mem_cons_of_mem _ (h.files j hj i' hread' hmode' hsize')
  · intro j hj i' hread' hmode'
    rcases List.mem_cons.mp hj with rfl | hj
    · rw [hread] at hread'
      cases hread'
      rw [hmode] at hmode'
      cases hmode'
    · rw [← hsame j (hne hj)] at hread'
      have hblocks := h.directories j hj i' hread' hmode'
      have hsameBlocks : w.collectInodeBlocks i' = v.collectInodeBlocks i' :=
        collectInodeBlocks_congr (by rw [hw]) fun x _ => by rw [hw]
      rwa [hsameBlocks] at hblocks

end Collection

section Directories

variable {v w : Volume} {id : Nat} {i : Inode}

end Directories

namespace Session

section Streaming

variable {S : Session} {A : Nat → Ambient} {live v v' : Volume} {id : Nat} {i : Inode}
  {data : List UInt8}

/-- The writes that fill the files of the list with what they hold in the image in use. -/
def Streams (S : Session) (A : Nat → Ambient) (live : Volume) (files : List FileMeta)
    (calls : List FirstWrite) : Prop :=
  List.Forall₂ (fun m c => c = ⟨m.inodeId, A m.inodeId, c.data, m.compMode, m.filterCfg⟩ ∧
    S.readData live m.inodeId = .ok c.data) files calls

variable {files : List FileMeta}

theorem Streams.ids {calls : List FirstWrite}
    (h : S.Streams A live files calls) : calls.map (·.id) = files.map (·.inodeId) := by
  induction h with
  | nil => rfl
  | cons hc _ ih => rw [List.map_cons, List.map_cons, ih, hc.1]

theorem Streams.mem {calls : List FirstWrite}
    (h : S.Streams A live files calls) {c : FirstWrite} (hc : c ∈ calls) : ∃ m ∈ files,
      c = ⟨m.inodeId, A m.inodeId, c.data, m.compMode, m.filterCfg⟩ ∧
        S.readData live m.inodeId = .ok c.data := by
  induction h with
  | nil => exact absurd hc List.not_mem_nil
  | cons hhead _ ih =>
    rcases List.mem_cons.mp hc with rfl | hc
    · exact ⟨_, List.mem_cons_self, hhead⟩
    · obtain ⟨m, hm, hrest⟩ := ih hc
      exact ⟨m, List.mem_cons_of_mem _ hm, hrest⟩

end Streaming

section Content

variable {S : Session} {A : Nat → Ambient} {v w : Volume}

/-- The same inodes are in use; directories have the same entries and files the same bytes. -/
structure SameContent (S : Session) (v w : Volume) : Prop where
  superblock : w.superblock = v.superblock
  mapBlocks : w.mapBlocks = v.mapBlocks
  allocated : ∀ id, w.InodeAllocated id ↔ v.InodeAllocated id
  kind : ∀ id, v.InodeAllocated id →
    (w.readInodeInternal id).map Inode.mode = (v.readInodeInternal id).map Inode.mode
  entries : ∀ id i, v.InodeAllocated id → v.readInodeInternal id = .ok i → i.mode = .directory →
    ∃ i', w.readInodeInternal id = .ok i' ∧ w.listing i' = v.listing i
  data : ∀ id i, v.InodeAllocated id → v.readInodeInternal id = .ok i → i.mode = .file →
    S.readData w id = S.readData v id

theorem SameContent.refl (S : Session) (v : Volume) : S.SameContent v v where
  superblock := rfl
  mapBlocks := rfl
  allocated _ := Iff.rfl
  kind _ _ := rfl
  entries _ i _ hread _ := ⟨i, hread, rfl⟩
  data _ _ _ _ _ := rfl

theorem SameContent.mode {id : Nat} {i i' : Inode} (h : S.SameContent v w) (ha : v.InodeAllocated id)
    (hi : v.readInodeInternal id = .ok i) (hi' : w.readInodeInternal id = .ok i') :
    i'.mode = i.mode := by
  have hkind := h.kind id ha
  rw [hi, hi'] at hkind
  exact Except.ok.inj hkind

theorem SameContent.trans {u : Volume} (h : S.SameContent v w) (h' : S.SameContent w u) :
    S.SameContent v u where
  superblock := h'.superblock.trans h.superblock
  mapBlocks := h'.mapBlocks.trans h.mapBlocks
  allocated id := (h'.allocated id).trans (h.allocated id)
  kind id ha := (h'.kind id ((h.allocated id).mpr ha)).trans (h.kind id ha)
  entries id i ha hi hmode := by
    obtain ⟨i₁, hi₁, hlist₁⟩ := h.entries id i ha hi hmode
    obtain ⟨i₂, hi₂, hlist₂⟩ := h'.entries id i₁ ((h.allocated id).mpr ha) hi₁
      ((h.mode ha hi hi₁).trans hmode)
    exact ⟨i₂, hi₂, hlist₂.trans hlist₁⟩
  data id i ha hi hmode := by
    have hkind := h.kind id ha
    rw [hi] at hkind
    cases hi₁ : w.readInodeInternal id with
    | error e =>
      rw [hi₁] at hkind
      cases hkind
    | ok i₁ =>
      exact (h'.data id i₁ ((h.allocated id).mpr ha) hi₁ ((h.mode ha hi hi₁).trans hmode)).trans
        (h.data id i ha hi hmode)

/-- An image that differs in free blocks, in the log and in the hints only. -/
structure SameImage (v w : Volume) : Prop where
  superblock : w.superblock = v.superblock
  mapBlocks : w.mapBlocks = v.mapBlocks
  inodeBit : w.inodeBit = v.inodeBit
  inode : w.inode = v.inode
  marked : ∀ b, w.marked b = v.marked b
  block : ∀ b, v.marked b = true → w.block b = v.block b

theorem SameImage.refl (v : Volume) : SameImage v v := ⟨rfl, rfl, rfl, rfl, fun _ => rfl, fun _ _ => rfl⟩

theorem SameImage.reopened (h : SameImage v w) : SameImage v w.reopened :=
  ⟨h.superblock, h.mapBlocks, h.inodeBit, h.inode, h.marked, h.block⟩

theorem SameImage.record (h : SameImage v w) (id : Nat) :
    w.readInodeInternal id = v.readInodeInternal id := by
  unfold Volume.readInodeInternal
  rw [h.superblock, h.inode]

end Content

end Session

end Oifs
