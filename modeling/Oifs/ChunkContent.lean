import Oifs.ChunkTree
import Oifs.Truncate
import Oifs.WriteStages

namespace Oifs

open PointerForest

theorem resize_eq_map (l : List UInt8) (n : Nat) :
    resize l n = (List.range n).map fun k => l.getD k 0 := by
  apply List.ext_getElem
  · rw [resize_length, List.length_map, List.length_range]
  · intro k hk _
    rw [resize_length] at hk
    rw [List.getElem_map, List.getElem_range]
    by_cases hlt : k < l.length
    · simp [resize, hlt, hk]
    · simp [resize, List.getElem_append, hlt]

theorem getD_map_range (f : Nat → UInt8) (n k : Nat) :
    ((List.range n).map f).getD k 0 = if k < n then f k else 0 := by
  by_cases hk : k < n
  · simp [hk]
  · simp [hk]

theorem resize_resize {l : List UInt8} {m n : Nat} (h : l.length ≤ m ∨ n ≤ m) :
    resize (resize l m) n = resize l n := by
  rw [resize_eq_map, resize_eq_map l n]
  refine List.map_congr_left fun k hk => ?_
  have hkn := List.mem_range.mp hk
  rw [resize_eq_map, getD_map_range]
  by_cases hkm : k < m
  · rw [if_pos hkm]
  · have hlen : l.length ≤ k := by omega
    rw [if_neg hkm]
    simp [hlen]

theorem resize_length_self (l : List UInt8) : resize l l.length = l := by
  simp [resize]

/-- The blocks of an entry hold `p`, followed by zeros. -/
structure Stored (v : Volume) (e : ChunkEntry) (p : List UInt8) : Prop where
  fits : p.length ≤ e.blockCount * blockSize
  mapped : e.startBlock + e.blockCount ≤ v.mapBlocks
  bytes : ∀ k, k < e.blockCount * blockSize →
    v.block (e.startBlock + k / blockSize) (k % blockSize) = p.getD k 0

theorem Stored.chunkSlice {v : Volume} {e : ChunkEntry} {p : List UInt8} {n : Nat}
    (h : Stored v e p) (hn : n ≤ e.blockCount * blockSize) :
    Session.chunkSlice v e n = .ok (resize p n) := by
  have hblocks : divCeil n blockSize ≤ e.blockCount := by
    unfold divCeil blockSize at *
    omega
  have hmapped := h.mapped
  unfold Session.chunkSlice Volume.extentBytes
  rw [if_pos (by omega), resize_eq_map]
  refine congrArg Except.ok (List.map_congr_left fun k hk => ?_)
  have hkn := List.mem_range.mp hk
  exact h.bytes k (by omega)

theorem Stored.congr {v v' : Volume} {e : ChunkEntry} {p : List UInt8} (h : Stored v e p)
    (hmap : v'.mapBlocks = v.mapBlocks)
    (hblock : ∀ b, e.startBlock ≤ b → b < e.startBlock + e.blockCount → v'.block b = v.block b) :
    Stored v' e p := by
  refine ⟨h.fits, hmap ▸ h.mapped, fun k hk => ?_⟩
  have hdiv : k / blockSize < e.blockCount := Nat.div_lt_of_lt_mul (by rwa [Nat.mul_comm] at hk)
  rw [hblock _ (Nat.le_add_right ..) (Nat.add_lt_add_left hdiv _)]
  exact h.bytes k hk

/-- A payload that fits the fields of an entry. -/
structure PreparedChunkPayload.Sized (p : PreparedChunkPayload) : Prop where
  blocks : p.blocksNeeded = divCeil p.payload.length blockSize
  blocks_pos : 0 < p.blocksNeeded
  blocks_lt : p.blocksNeeded < 2 ^ 8
  flag_pos : 0 < p.flag
  flag_lt : p.flag < 2 ^ 8

theorem PreparedChunkPayload.Sized.of_length {p : PreparedChunkPayload}
    (hblocks : p.blocksNeeded = divCeil p.payload.length blockSize) (hpos : 0 < p.payload.length)
    (hlen : p.payload.length ≤ 65536 + 40)
    (hflag : p.flag = ChunkEntry.flagRaw ∨ p.flag = ChunkEntry.flagCompressed) : p.Sized := by
  have hcount := hblocks
  unfold divCeil blockSize at hcount
  refine ⟨hblocks, by omega, by omega, ?_, ?_⟩
  · rcases hflag with hflag | hflag <;> rw [hflag] <;> decide
  · rcases hflag with hflag | hflag <;> rw [hflag] <;> decide

/-- The entry was made for the payload, and its blocks hold it. -/
structure Placed (v : Volume) (e : ChunkEntry) (p : PreparedChunkPayload) : Prop where
  sized : p.Sized
  entry : ∃ start, start < 2 ^ 32 ∧ e = ChunkEntry.new start p.blocksNeeded p.flag p.compLen
  stored : Stored v e p.payload

/-- A property of an entry that depends on the superblock and on the blocks of the entry only. -/
def LocalTo (P : Volume → ChunkEntry → Prop) : Prop :=
  ∀ {v v' : Volume} {e : ChunkEntry} {r : Nat × Nat}, P v e → v'.superblock = v.superblock →
    v'.mapBlocks = v.mapBlocks → (∀ b ∈ chunkExtent r e, v'.block b = v.block b) → P v' e

def Entries (v : Volume) (i : Inode) (P : Nat → Volume → ChunkEntry → Prop) : Prop :=
  ∀ idx, P idx v (v.resolveLogicalChunkEntry i idx)

namespace Session

variable {S : Session} {v v' : Volume}
  {p : PreparedChunkPayload} {l : Place (Nat × Nat)} {d : List UInt8} {i i' : Inode}
  {e : ChunkEntry}

/-- The entry of a chunk stands for the bytes `d`. -/
inductive Holds (S : Session) (v : Volume) (e : ChunkEntry) : List UInt8 → Prop
  | empty (hempty : e.isEmpty = true) : Holds S v e []
  | raw (d : List UInt8) (hflag : e.flags = ChunkEntry.flagRaw) (hstored : Stored v e d) :
    Holds S v e d
  | compressed (d frame : List UInt8) (level : Int) (hflag : e.flags = ChunkEntry.flagCompressed)
    (hframe : S.codec.compressFrame d level = .ok frame) (hlen : frame.length = e.compressedLen)
    (hcap : d.length ≤ chunkSize64k) (hstored : Stored v e frame) : Holds S v e d

theorem Holds.congr {r : Nat × Nat} (h : S.Holds v e d)
    (hmap : v'.mapBlocks = v.mapBlocks) (hblock : ∀ b ∈ chunkExtent r e, v'.block b = v.block b) :
    S.Holds v' e d := by
  cases h with
  | empty hempty => exact .empty hempty
  | raw _ hflag hstored =>
    have hne : e.isEmpty = false := ChunkEntry.isEmpty_eq_false (by rw [hflag]; decide)
    exact .raw d hflag (hstored.congr hmap fun b hlo hhi => hblock b ⟨hne, hlo, hhi⟩)
  | compressed _ frame level hflag hframe hlen hcap hstored =>
    have hne : e.isEmpty = false := ChunkEntry.isEmpty_eq_false (by rw [hflag]; decide)
    exact .compressed d frame level hflag hframe hlen hcap
      (hstored.congr hmap fun b hlo hhi => hblock b ⟨hne, hlo, hhi⟩)

theorem Holds.read {id idx validLen : Nat} {inode : Inode} (hC : S.codec.Lawful)
    (hplain : inode.encrypted = false) (h : S.Holds v (v.resolveLogicalChunkEntry inode idx) d) :
    S.readSingleChunkDecompressed v id inode idx validLen = .ok (resize d validLen) := by
  unfold readSingleChunkDecompressed
  generalize v.resolveLogicalChunkEntry inode idx = e at h
  dsimp only
  rw [hplain]
  cases h with
  | empty hempty =>
    rw [if_pos hempty]
    exact congrArg Except.ok (by simp [resize])
  | raw _ hflag hstored =>
    have hne : e.isEmpty = false := ChunkEntry.isEmpty_eq_false (by rw [hflag]; decide)
    rw [hne, if_neg Bool.false_ne_true, if_pos hflag]
    simp only [Bool.false_eq_true, if_false]
    rw [hstored.chunkSlice (Nat.min_le_right ..)]
    have hfits := hstored.fits
    have hsame : resize (resize d (min validLen (e.blockCount * blockSize))) validLen =
        resize d validLen := resize_resize (by omega)
    exact congrArg Except.ok hsame
  | compressed _ frame level hflag hframe hlen hcap hstored =>
    have hne : e.isEmpty = false := ChunkEntry.isEmpty_eq_false (by rw [hflag]; decide)
    have hraw : e.flags ≠ ChunkEntry.flagRaw := by rw [hflag]; decide
    have hmin : min e.compressedLen (e.blockCount * blockSize) = frame.length := by
      have hfits := hstored.fits
      omega
    rw [hne, if_neg Bool.false_ne_true, if_neg hraw, if_pos hflag, hmin,
      hstored.chunkSlice hstored.fits, resize_length_self]
    simp only [Bool.false_eq_true, if_false]
    have hdecode := hC.frame hframe hcap
    change (S.codec.decompressFrame frame chunkSize64k >>= fun result =>
      Except.ok (resize result validLen)) = _
    rw [hdecode]
    rfl

/-- The payload of a chunk with the bytes `d`, without a key. -/
structure Prepared (S : Session) (idx : Nat) (d : List UInt8) (p : PreparedChunkPayload) : Prop where
  chunkIdx : p.chunkIdx = idx
  blocks : p.blocksNeeded = divCeil p.payload.length blockSize
  payload : (p.flag = ChunkEntry.flagRaw ∧ p.payload = d) ∨
    (p.flag = ChunkEntry.flagCompressed ∧ p.compLen = p.payload.length ∧
      p.payload.length < 65536 ∧ ∃ level, S.codec.compressFrame d level = .ok p.payload)

theorem prepareChunkPayload_ok {buf : List UInt8} {validLen : Nat} {level : Int}
    {draw : Nat → Nat → Nonce} {ctx : ChunkAadContext} (hkey : S.encryptionKey = none)
    (h : S.prepareChunkPayload buf validLen level draw ctx = .ok p) :
    S.Prepared ctx.chunkIdx (buf.take validLen) p := by
  unfold prepareChunkPayload at h
  obtain ⟨frame, hframe, h⟩ := except_bind_ok.mp h
  rw [hkey] at h
  dsimp only at h
  split at h
  next hsmall =>
    cases h
    exact ⟨rfl, rfl, Or.inr ⟨rfl, rfl, hsmall.2, _, hframe⟩⟩
  next =>
    cases h
    exact ⟨rfl, rfl, Or.inl ⟨rfl, rfl⟩⟩

theorem Prepared.sized {idx : Nat}
    (hC : S.codec.Lawful) (h : S.Prepared idx d p) (hne : d ≠ []) (hlen : d.length ≤ chunkSize64k) :
    p.Sized := by
  have hpayload : 0 < p.payload.length ∧ p.payload.length ≤ 65536 := by
    rcases h.payload with ⟨-, hraw⟩ | ⟨-, -, hlt, level, hframe⟩
    · rw [hraw]
      exact ⟨List.length_pos_iff.mpr hne, hlen⟩
    · exact ⟨List.length_pos_iff.mpr (hC.frame_ne_nil hframe), by omega⟩
  exact .of_length h.blocks hpayload.1 (by omega) (h.payload.imp (·.1) (·.1))

theorem Prepared.holds {idx : Nat}
    (h : S.Prepared idx d p) (hlen : d.length ≤ chunkSize64k) (hplaced : Placed v e p) :
    S.Holds v e d := by
  obtain ⟨hp, ⟨start, hstart, rfl⟩, hstored⟩ := hplaced
  rcases h.payload with ⟨hflag, hraw⟩ | ⟨hflag, hcomp, hlt, level, hframe⟩
  · rw [hraw] at hstored
    exact .raw d (by rw [ChunkEntry.flags_new hstart hp.flag_lt, hflag]) hstored
  · refine .compressed d p.payload level ?_ hframe ?_ hlen hstored
    · rw [ChunkEntry.flags_new hstart hp.flag_lt, hflag]
    · rw [hcomp, ChunkEntry.compressedLen_new hstart hlt]

def Chunks (S : Session) (v : Volume) (i : Inode) (g : Nat → Nat → UInt8) : Prop :=
  ∀ idx, ∃ d, S.Holds v (v.resolveLogicalChunkEntry i idx) d ∧
    ∀ k, k < chunkSize64k → d.getD k 0 = g idx k

theorem resolveLogicalChunkEntry_single {id idx : Nat} {i : Inode} (v : Volume)
    (hl : leafPlace id idx = some l) :
    v.resolveLogicalChunkEntry i idx = (v.cells (Files.single id i)).get l := by
  rw [Volume.resolveLogicalChunkEntry, resolve_single v id, hl]
  rfl

theorem resolveLogicalChunkEntry_none {id idx : Nat} {i : Inode} (v : Volume)
    (hl : leafPlace id idx = none) : v.resolveLogicalChunkEntry i idx = 0 := by
  rw [Volume.resolveLogicalChunkEntry, resolve_single v id, hl]
  rfl

theorem Entries.relink {id idx e : Nat}
    {P : Nat → Volume → ChunkEntry → Prop} {Q : Volume → ChunkEntry → Prop}
    (hP : ∀ idx, LocalTo (P idx)) (h : Entries v i P) (hl : leafPlace id idx = some l)
    (hr : Relinks l e (Files.single id i) v (Files.single id i') v') (he : Q v' e) :
    Entries v' i' (Function.update P idx Q) := by
  intro idx'
  by_cases hidx : idx' = idx
  · subst hidx
    obtain ⟨hvalid, hleaf, -, -⟩ := leafPlace_valid hl
    rw [Function.update_self, resolveLogicalChunkEntry_single v' hl, hr.leaf l hvalid hleaf, if_pos rfl]
    exact he
  · have hold := h idx'
    rw [Function.update_of_ne hidx]
    cases hl' : leafPlace id idx' with
    | none =>
      rw [resolveLogicalChunkEntry_none v hl'] at hold
      rw [resolveLogicalChunkEntry_none v' hl']
      refine hP idx' (r := (0, 0)) hold hr.tables.superblock hr.tables.mapBlocks fun b hb => ?_
      rw [chunkExtent_zero] at hb
      exact hb.elim
    | some l' =>
      obtain ⟨hvalid, hleaf, -, -⟩ := leafPlace_valid hl'
      have hne : l' ≠ l := by
        rintro rfl
        exact hidx (leafPlace_inj hl' hl).2
      rw [resolveLogicalChunkEntry_single v hl'] at hold
      rw [resolveLogicalChunkEntry_single v' hl', hr.leaf l' hvalid hleaf, if_neg hne]
      refine hP idx' (r := l'.root) hold hr.tables.superblock hr.tables.mapBlocks fun b hb => ?_
      exact hr.others l' hvalid hleaf b ((mem_claims_leaf (hvalid.leaf hleaf)).mpr hb)

/-- The entry stands for the bytes `f`. -/
def HoldsBytes (S : Session) (f : Nat → UInt8) (v : Volume) (e : ChunkEntry) : Prop :=
  ∃ d, S.Holds v e d ∧ ∀ k, k < chunkSize64k → d.getD k 0 = f k

theorem holdsBytes_local (f : Nat → UInt8) : LocalTo (S.HoldsBytes f) := by
  rintro _ _ _ _ ⟨d, hd, hbytes⟩ - hmap hblock
  exact ⟨d, hd.congr hmap hblock, hbytes⟩

theorem Chunks.relink {id idx e : Nat} {g : Nat → Nat → UInt8} (h : S.Chunks v i g)
    (hl : leafPlace id idx = some l)
    (hr : Relinks l e (Files.single id i) v (Files.single id i') v') (hd : S.Holds v' e d) :
    S.Chunks v' i' (Function.update g idx fun k => d.getD k 0) := by
  have hentries := Entries.relink (P := fun idx => S.HoldsBytes (g idx))
    (Q := S.HoldsBytes fun k => d.getD k 0) (fun idx => holdsBytes_local _) h hl hr
    ⟨d, hd, fun _ _ => rfl⟩
  intro idx'
  have hone := hentries idx'
  by_cases hidx : idx' = idx
  · subst hidx
    rw [Function.update_self] at hone ⊢
    exact hone
  · rw [Function.update_of_ne hidx] at hone ⊢
    exact hone

/-- An image on which the entries of chunks can name every block that the allocator hands out. -/
structure ChunkImage (v : Volume) : Prop where
  whole : v.WholeBitmap
  narrow : v.superblock.dataBlockStart + bitmapBits ≤ 2 ^ 32

theorem ChunkImage.congr (h : ChunkImage v) (hsb : v'.superblock = v.superblock) :
    ChunkImage v' := by
  refine ⟨?_, ?_⟩
  · unfold Volume.WholeBitmap
    rw [hsb]
    exact h.whole
  · rw [hsb]
    exact h.narrow

theorem ChunkImage.runInside (h : ChunkImage v) {count : Nat} (hcount : 0 < count) :
    v.RunInside count := by
  intro n w halloc
  have hbits := (Volume.allocateContiguousBlocksInternal_ok hcount halloc).bits
  exact ⟨hbits.trans h.whole, hbits.trans h.narrow⟩

/-- Every run that the chunks are given, one after the other, ends inside the image. -/
def RunsInside : List PreparedChunkPayload → Inode → Int → Volume → Prop
  | [], _, _, _ => True
  | p :: ps, i, delta, v => v.RunInside p.blocksNeeded ∧
    ∀ r w, w.superblock = v.superblock → commitChunk i delta p v = .ok r w → RunsInside ps r.1 r.2 w

theorem ChunkImage.runsInside (h : ChunkImage v) {ps : List PreparedChunkPayload}
    (hps : ∀ p ∈ ps, 0 < p.blocksNeeded) (i : Inode) (delta : Int) : RunsInside ps i delta v := by
  induction ps generalizing i delta v with
  | nil => trivial
  | cons p ps ih =>
    exact ⟨h.runInside (hps p List.mem_cons_self), fun r w hsb _ =>
      ih (h.congr hsb) (fun q hq => hps q (List.mem_cons_of_mem p hq)) r.1 r.2⟩

theorem commitChunk_steps {id : Nat} {delta delta' : Int}
    (hin : v.RunInside p.blocksNeeded) (hpos : 0 < p.blocksNeeded)
    (hg : Good chunkExtent (Files.single id i) v)
    (h : commitChunk i delta p v = .ok (i', delta') v') :
    ∃ start v₂ v₃, (start + p.blocksNeeded ≤ v.superblock.blockCount ∧
        start + p.blocksNeeded ≤ 2 ^ 32) ∧ Staged (Files.single id i) v start p.blocksNeeded p.payload v₂ ∧
      Volume.setLogicalChunkEntry ((Files.single id i).inode id) p.chunkIdx
        (ChunkEntry.new start p.blocksNeeded p.flag p.compLen) v₂ = .ok i' v₃ ∧
      (if ChunkEntry.isEmpty (v.resolveLogicalChunkEntry ((Files.single id i).inode id) p.chunkIdx)
        then v' = v₃ else Volume.freeContiguousBlocksInternal
          (ChunkEntry.startBlock
            (v.resolveLogicalChunkEntry ((Files.single id i).inode id) p.chunkIdx))
          (ChunkEntry.blockCount
            (v.resolveLogicalChunkEntry ((Files.single id i).inode id) p.chunkIdx)) v₃ =
              .ok () v') := by
  unfold commitChunk at h
  simp only [DiskM.bind_ok, DiskM.get_ok, DiskM.modify_ok] at h
  obtain ⟨start, v₁, halloc, _, _, rfl, _, _, ⟨rfl, rfl⟩, i₁, v₃, hset, h⟩ := h
  have hend := hin start v₁ halloc
  have hstaged := staged_of_allocate p.payload hg hend.1 hpos halloc
  have hresolve := hstaged.resolve (Files.single_has id i) p.chunkIdx
  rw [Files.single_inode] at hresolve ⊢
  -- the old entry, found behind the new payload, is the one of the start
  rw [hresolve] at h
  by_cases hempty : ChunkEntry.isEmpty (v.resolveLogicalChunkEntry i p.chunkIdx) = true
  · simp only [hempty, Bool.not_true, Bool.false_eq_true, if_false, DiskM.pure_ok,
      Prod.mk.injEq] at h
    obtain ⟨⟨rfl, -⟩, rfl⟩ := h
    exact ⟨start, _, v₃, hend, hstaged, hset, by rw [if_pos hempty]⟩
  · simp only [hempty, Bool.not_false, if_true, DiskM.bind_ok, DiskM.pure_ok, Prod.mk.injEq] at h
    obtain ⟨_, _, hfree, ⟨rfl, -⟩, rfl⟩ := h
    exact ⟨start, _, v₃, hend, hstaged, hset, by rw [if_neg hempty]; exact hfree⟩

theorem placed_of_replaces {start : Nat} {F F' : Files} (hp : p.Sized) (hs : v.Sound)
    (hend : start + p.blocksNeeded ≤ v.superblock.blockCount ∧ start + p.blocksNeeded ≤ 2 ^ 32)
    (hr : Replaces l start p.blocksNeeded p.payload
      (ChunkEntry.new start p.blocksNeeded p.flag p.compLen) F v F' v') :
    Placed v' (ChunkEntry.new start p.blocksNeeded p.flag p.compLen) p := by
  have hle := hs.count_le
  have hmap := hr.tables.mapBlocks
  have hpos := hp.blocks_pos
  have hstart : start < 2 ^ 32 := by omega
  refine ⟨hp, ⟨start, hstart, rfl⟩, ?_, ?_, fun k hk => ?_⟩
  · have hblocks := hp.blocks
    rw [ChunkEntry.blockCount_new hstart hp.blocks_lt]
    unfold divCeil blockSize at *
    omega
  · rw [ChunkEntry.startBlock_new hstart, ChunkEntry.blockCount_new hstart hp.blocks_lt, hmap]
    omega
  · rw [ChunkEntry.blockCount_new hstart hp.blocks_lt] at hk
    rw [ChunkEntry.startBlock_new hstart]
    have hdiv : k / blockSize < p.blocksNeeded :=
      Nat.div_lt_of_lt_mul (by rwa [Nat.mul_comm] at hk)
    have hbyte := hr.stored (k / blockSize) (k % blockSize) hdiv
      (Nat.mod_lt k (by decide))
    rwa [Nat.mul_comm, Nat.div_add_mod] at hbyte

theorem commitChunk_entries {id : Nat} {delta delta' : Int} {P : Nat → Volume → ChunkEntry → Prop}
    {Q : Volume → ChunkEntry → Prop} (hin : v.RunInside p.blocksNeeded) (hp : p.Sized)
    (hg : Good chunkExtent (Files.single id i) v) (hP : ∀ idx, LocalTo (P idx))
    (hentries : Entries v i P) (hQ : ∀ w e, w.superblock = v.superblock → Placed w e p → Q w e)
    (h : commitChunk i delta p v = .ok (i', delta') v') :
    v.SameTables v' ∧ Good chunkExtent (Files.single id i') v' ∧
      Entries v' i' (Function.update P p.chunkIdx Q) ∧
      SparesRest (Files.single id i) v (Files.single id i') v' := by
  obtain ⟨start, v₂, v₃, hend, hstaged, hset, hfree⟩ := commitChunk_steps hin hp.blocks_pos hg h
  obtain ⟨⟨l, hl, hr⟩, hspares⟩ := replaces_of_steps hg (Files.single_has id i) hend.1 hend.2
    hp.blocks_pos hp.blocks_lt hp.flag_pos hp.flag_lt hstaged hset hfree
  rw [Files.single_set] at hr hspares
  exact ⟨hr.tables, hr.good, Entries.relink hP hentries hl hr.toRelinks
    (hQ _ _ hr.tables.superblock (placed_of_replaces hp hg.sound hend hr)), hspares⟩

theorem ite_mem_update {β : Type} (P Q : Nat → β) (idx : Nat) (idxs : List Nat) :
    (fun j => if j ∈ idxs then Q j else Function.update P idx (Q idx) j) =
      fun j => if j ∈ idx :: idxs then Q j else P j := by
  funext j
  by_cases hj : j = idx
  · subst hj
    simp
  · simp [hj]

theorem commitChunks_entries {id : Nat} {delta delta' : Int} {idxs : List Nat}
    {ps : List PreparedChunkPayload} {P Q : Nat → Volume → ChunkEntry → Prop} {sb : SuperBlock}
    (hsb : v.superblock = sb) (hin : RunsInside ps i delta v)
    (hps : List.Forall₂ (fun idx p => p.chunkIdx = idx ∧ p.Sized ∧
      ∀ w e, w.superblock = sb → Placed w e p → Q idx w e) idxs ps)
    (hg : Good chunkExtent (Files.single id i) v) (hP : ∀ idx, LocalTo (P idx))
    (hQ : ∀ idx, LocalTo (Q idx)) (hentries : Entries v i P)
    (h : commitChunks i delta ps v = .ok (i', delta') v') :
    v.SameTables v' ∧ Good chunkExtent (Files.single id i') v' ∧
      Entries v' i' (fun idx => if idx ∈ idxs then Q idx else P idx) ∧
      SparesRest (Files.single id i) v (Files.single id i') v' := by
  induction hps generalizing v i delta P with
  | nil =>
    obtain ⟨hpair, rfl⟩ := DiskM.pure_ok.mp h
    cases hpair
    simp only [List.not_mem_nil, if_false]
    exact ⟨Volume.SameTables.refl v, hg, hentries, fun b hmark hb => ⟨hmark, rfl, hb⟩⟩
  | @cons idx p idxs _ hone hps ih =>
    obtain ⟨hidx, hp, hplaced⟩ := hone
    rw [commitChunks] at h
    simp only [DiskM.bind_ok] at h
    obtain ⟨⟨i₁, delta₁⟩, v₁, hfirst, hrest⟩ := h
    obtain ⟨htables, hg₁, hentries₁, hspares₁⟩ :=
      commitChunk_entries hin.1 hp hg hP hentries (hsb ▸ hplaced) hfirst
    rw [hidx] at hentries₁
    have hP₁ : ∀ j, LocalTo (Function.update P idx (Q idx) j) := by
      intro j
      by_cases hj : j = idx
      · subst hj
        rw [Function.update_self]
        exact hQ j
      · rw [Function.update_of_ne hj]
        exact hP j
    obtain ⟨htables', hg', hentries', hspares'⟩ := ih (htables.superblock.trans hsb)
      (hin.2 _ _ htables.superblock hfirst) hg₁ hP₁ hentries₁ hrest
    rw [ite_mem_update] at hentries'
    refine ⟨htables.trans htables', hg', hentries', fun b hmark hb => ?_⟩
    obtain ⟨hmark₁, hblock₁, hb₁⟩ := hspares₁ b hmark hb
    obtain ⟨hmark', hblock', hb'⟩ := hspares' b hmark₁ hb₁
    exact ⟨hmark', hblock'.trans hblock₁, hb'⟩

end Session

end Oifs
