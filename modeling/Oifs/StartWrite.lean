import Oifs.WriteSplice

namespace Oifs

/-- What a write leaves of a whole file; `base` are the bytes under the new ones. -/
structure Stores (v : Volume) (id : Nat) (i : Inode) (plan : WritePlan) (effective : FilterConfig)
    (base : Nat → UInt8) (v' : Volume) (i' : Inode) : Prop where
  record : v'.readInodeInternal id = .ok i'
  superblock : v'.superblock = v.superblock
  raw : ∀ n, n ≤ max plan.newCompressedSize plan.newSize →
    v'.rawData i' n = (List.range n).map (patch base plan.physOff plan.buffer)
  mode : i'.mode = i.mode
  flags : i'.flags = i.flags
  size : i'.size = plan.newSize
  compressedSize : i'.compressedSize = plan.newCompressedSize
  encrypted : i'.encrypted = (plan.encryptionNonce.isSome || i.encrypted)
  nonce : i'.encryptionNonce = plan.encryptionNonce.getD i.encryptionNonce
  filter : i'.filter = if plan.case.rewritesFilterMetadata then effective else i.filter

theorem Session.Rewritten.stores {v v' : Volume} {id : Nat} {i i' : Inode} {plan : WritePlan}
    {effective : FilterConfig} (h : Session.Rewritten v id i plan effective v' i') :
    Stores v id i plan effective (if plan.case.freesPreviousBlocks then fun _ => 0 else v.payload i)
      v' i' where
  record := h.record
  superblock := h.tables
  raw n _ := by
    have hraw := rawData_eq h.good (Files.single_has id i') n
    rwa [Files.single_inode, h.payload] at hraw
  mode := h.mode
  flags := h.flags
  size := h.size
  compressedSize := h.compressedSize
  encrypted := h.encrypted
  nonce := h.nonce
  filter := h.filter

namespace Session

variable {S : Session} {i : Inode}

/-- The two plans of a write at the start of the file. -/
inductive StartPlan (S : Session) (i : Inode) (data : List UInt8) (mode : CompressionMode)
    (config : FilterConfig) (nonce : Nonce) (aad : List UInt8) : WritePlan → Prop
  | raw (h : S.payloadIsTransformed i config = false) (hshort : data.length < i.size) :
    StartPlan S i data mode config nonce aad ⟨.raw, 0, data, max i.size data.length, 0, none⟩
  | full {payload : FullOverwritePayload}
      (h : i.size ≤ data.length ∨ S.payloadIsTransformed i config = true)
      (hbuild : S.buildFullOverwriteBufferPure data mode (effectiveFilter i config) nonce aad =
        .ok payload) :
    StartPlan S i data mode config nonce aad
      ⟨.fullOverwrite, 0, payload.buffer,
        if payload.isCompressed then data.length
        else if payload.encryptionNonce.isSome || (effectiveFilter i config).isActive then
          payload.buffer.length
        else max i.size payload.buffer.length,
        if payload.isCompressed then payload.buffer.length else 0, payload.encryptionNonce⟩

theorem planWritePrepared_start {data : List UInt8} {mode : CompressionMode} {config : FilterConfig}
    {existing : Option (List UInt8)} {nonce : Nonce} {aad : List UInt8} {plan : WritePlan}
    (h : S.planWritePrepared i 0 data mode config existing nonce aad = .ok plan) :
    StartPlan S i data mode config nonce aad plan := by
  unfold planWritePrepared at h
  dsimp only at h
  by_cases hfull : S.isFullOverwrite i 0 data config = true
  · rw [if_pos hfull] at h
    obtain ⟨payload, hbuild, h⟩ := except_bind_ok.mp h
    cases h
    refine .full ?_ hbuild
    simp only [isFullOverwrite, decide_true, Bool.true_and, Bool.or_eq_true, decide_eq_true_eq] at hfull
    rcases hfull with (hzero | hlong) | htrans
    · exact Or.inl (by omega)
    · exact Or.inl hlong
    · exact Or.inr htrans
  · rw [if_neg hfull] at h
    simp only [isFullOverwrite, decide_true, Bool.true_and, Bool.or_eq_true, decide_eq_true_eq,
      not_or, Bool.not_eq_true] at hfull
    obtain ⟨⟨-, hshort⟩, htrans⟩ := hfull
    rw [htrans, if_neg Bool.false_ne_true, Nat.zero_add] at h
    cases h
    exact .raw htrans (by omega)

end Session

section Read

variable {S : Session} {v v' : Volume} {id : Nat} {i i' : Inode} {plan : WritePlan}
  {effective : FilterConfig} {base : Nat → UInt8}

theorem Stores.read {raw content : List UInt8} (hC : S.codec.Lawful)
    (hs : Stores v id i plan effective base v' i') (hmode : i.mode = .file)
    (hwhole : i.isSeekable = false) (hraw : v'.rawData i' i'.physicalSize = raw)
    (henc : S.Encodes v.superblock.encryptionVersion id i' raw content) :
    S.readData v' id = .ok content := by
  unfold Session.readData
  rw [hs.record]
  rw [← hs.superblock] at henc
  exact Session.readDataInternal_of_raw hC (hs.mode.trans hmode)
    ((Session.isSeekable_of_flags hs.flags).trans hwhole) hraw henc

theorem Stores.read_full {data : List UInt8} {mode : CompressionMode} {nonce : Nonce}
    {payload : FullOverwritePayload} (hC : S.codec.Lawful)
    (hbuild : S.buildFullOverwriteBufferPure data mode effective nonce
      (fileAadForScheme id v.superblock.encryptionVersion) = .ok payload)
    (hs : Stores v id i ⟨.fullOverwrite, 0, payload.buffer,
      if payload.isCompressed then data.length else payload.buffer.length,
      if payload.isCompressed then payload.buffer.length else 0, payload.encryptionNonce⟩
      effective base v' i') (hmode : i.mode = .file) (hwhole : i.isSeekable = false)
    (hkey : S.encryptionKey = none → i.encrypted = false) : S.readData v' id = .ok data := by
  have henc : i'.encrypted = payload.encryptionNonce.isSome := by
    rw [hs.encrypted]
    obtain ⟨final, -, hlayer⟩ := Session.build_ok hbuild
    rcases hlayer with ⟨key, -, -, hn⟩ | ⟨hnone, -, hn⟩
    · simp [hn]
    · simp [hn, hkey hnone]
  have hencodes := Session.build_encodes (i := i') hC hbuild hs.filter henc
    (fun n hn => by rw [hs.nonce]; simp [hn]) hs.compressedSize hs.size
  refine hs.read hC hmode hwhole ?_ hencodes
  have hlen := hencodes.length
  rw [← hlen, hs.raw]
  · have hmap := Session.map_range_patch base 0 payload.buffer
    rw [Nat.zero_add] at hmap
    exact hmap
  · dsimp only
    split <;> omega

end Read

end Oifs
