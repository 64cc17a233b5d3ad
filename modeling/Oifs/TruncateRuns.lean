import Oifs.JournaledTruncate

namespace Oifs

def CleanAt (v : Volume) (id n : Nat) : Prop :=
  ∀ i, v.readInodeInternal id = .ok i → i.size < n → GrowsClean v i n

/-- A sequence of successful truncations of one file, each clean in the state that it meets. -/
inductive CleanTruncates (S : Session) (id : Nat) : Volume → List Nat → Volume → Prop
  | nil (v : Volume) : CleanTruncates S id v [] v
  | cons {v v₁ v' : Volume} {A : Ambient} {n : Nat} {ns : List Nat} (clean : CleanAt v id n)
    (step : S.truncateInternal A id n v = .ok () v₁) (rest : CleanTruncates S id v₁ ns v') :
    CleanTruncates S id v (n :: ns) v'

section Runs

variable {S : Session} {J : Journal} {chunked rebuild : Ambient → Nat → Nat → DiskM Unit}
  {A : Ambient} {v v' : Volume} {id n : Nat} {i : Inode}

theorem RawFile.reads_iff (h : RawFile v id i) (S : Session) (content : List UInt8) :
    S.Reads v id content ↔ v.content i = content := by
  have hreads := h.reads S
  constructor
  · intro hc
    exact Except.ok.inj (hreads.1.symm.trans hc.1)
  · rintro rfl
    exact hreads

theorem truncate_reads_iff (h : RawFile v id i) (hmount : v.Mountable)
    (hrun : (S.onJournal J chunked rebuild).truncateInternal A id n v = .ok () v') :
    ∃ i', RawFile v' id i' ∧ v'.Mountable ∧
      (v'.content i' = resize (v.content i) n ↔ CleanAt v id n) := by
  obtain ⟨i', hres⟩ := truncateInternal_resized h hmount hrun
  refine ⟨i', hres.file, ?_, hres.content_iff.trans ?_⟩
  · rwa [Volume.Mountable, hres.superblock, hres.mapBlocks]
  · refine ⟨fun hclean i₀ hi₀ => ?_, fun hclean => hclean i h.record⟩
    rw [h.record] at hi₀
    cases hi₀
    exact hclean

theorem CleanTruncates.content {ns : List Nat} (h : RawFile v id i) (hmount : v.Mountable)
    (hrun : CleanTruncates (S.onJournal J chunked rebuild) id v ns v') :
    ∃ i', RawFile v' id i' ∧ v'.Mountable ∧ v'.content i' = ns.foldl resize (v.content i) := by
  induction hrun generalizing i with
  | nil v => exact ⟨i, h, hmount, rfl⟩
  | cons clean step rest ih =>
    obtain ⟨i₁, h₁, hmount₁, hiff⟩ := truncate_reads_iff h hmount step
    obtain ⟨i', h', hmount', hcontent⟩ := ih h₁ hmount₁
    refine ⟨i', h', hmount', ?_⟩
    rw [hcontent, hiff.mpr clean, List.foldl_cons]

/-- After any clean truncations of a raw file a successful truncation leaves the resized content for
both read calls exactly if it is clean itself. -/
theorem truncates_resize_content {ns : List Nat} {v₁ : Volume} {content : List UInt8}
    (h : RawFile v id i) (hmount : v.Mountable) (hread : S.readData v id = .ok content)
    (hbefore : CleanTruncates (S.onJournal J chunked rebuild) id v ns v₁)
    (hrun : (S.onJournal J chunked rebuild).truncateInternal A id n v₁ = .ok () v') :
    S.Reads v' id (resize (ns.foldl resize content) n) ↔ CleanAt v₁ id n := by
  have hold : v.content i = content := Except.ok.inj ((h.reads S).1.symm.trans hread)
  obtain ⟨i₁, h₁, hmount₁, hcontent⟩ := hbefore.content h hmount
  obtain ⟨i', h', -, hiff⟩ := truncate_reads_iff h₁ hmount₁ hrun
  rw [h'.reads_iff, ← hold, ← hcontent]
  exact hiff

end Runs

def zeroSlots : Journal := ⟨false, RunSort.stable, fun _ _ _ => .ok ⟨List.replicate 256 0, List.length_replicate⟩⟩

def unsupported : Ambient → Nat → Nat → DiskM Unit := fun _ _ _ => throw (.io "unsupported")

def journalSession : Session := (clearSession none).onJournal zeroSlots unsupported unsupported

theorem tailVolume_rawFile : RawFile Session.tailVolume 0 Session.tailInode :=
  ⟨rfl, rfl, rfl, rfl, rfl, rfl, Session.tailVolume_stored.good⟩

theorem tailVolume_cleanAt : CleanAt Session.tailVolume 0 5 := by
  rintro i hi -
  cases hi
  refine ⟨fun hwhole => absurd hwhole (by decide), fun k hk hbehind => ?_⟩
  have hend : divCeil Session.tailInode.size blockSize * blockSize = 4096 := by decide
  omega

/-- The byte of the file, and zeros, through a growth and a cut. -/
theorem tailVolume_truncates : ∃ v₁ v', CleanTruncates journalSession 0 Session.tailVolume [5] v₁ ∧
    journalSession.truncateInternal Session.epoch 0 2 v₁ = .ok () v' ∧
      (clearSession none).Reads v' 0 [1, 0] := by
  have hboth : (clearSession none).readsAfter (do
      journalSession.truncateInternal Session.epoch 0 5
      journalSession.truncateInternal Session.epoch 0 2) Session.tailVolume 0 = some [1, 0] := by
    decide +kernel
  obtain ⟨v', hrun, -⟩ := Session.readsAfter_some hboth
  obtain ⟨_, v₁, hgrow, hcut⟩ := DiskM.bind_ok.mp hrun
  have hmount : Session.tailVolume.Mountable := ⟨24 * blockSize, by decide, by decide⟩
  have hclean : CleanAt v₁ 0 2 := by
    obtain ⟨i₁, hres⟩ := truncateInternal_resized tailVolume_rawFile hmount hgrow
    intro i hi hlt
    rw [hres.file.record] at hi
    cases hi
    rw [hres.size] at hlt
    omega
  have hbefore : CleanTruncates journalSession 0 Session.tailVolume [5] v₁ :=
    .cons tailVolume_cleanAt hgrow (.nil v₁)
  refine ⟨v₁, v', hbefore, hcut, ?_⟩
  have hread : (clearSession none).readData Session.tailVolume 0 = .ok [1] := by decide +kernel
  exact (truncates_resize_content tailVolume_rawFile hmount hread hbefore hcut).mpr hclean

def fullBlock (journaled : Bool) : Volume :=
  let start := if journaled then 37 else 4
  let image := Session.tinyVolume { Inode.new .file with
    size := blockSize, blocks := fun k => if k.val = 0 then start else 0 } fun _ => 0
  { image with
    superblock := { image.superblock with
      blockCount := start + 20, inodeTableBlock := start - 1, dataBlockStart := start }
    mapBlocks := start + 20
    block := fun b k => if b = start then 7
      else if b = journalHeaderBlock then (JournalState.encode ⟨0, 0, 0, false⟩)[k]?.getD 0 else 0 }

def firstByte (v : Volume) (n : Nat) : Option (List UInt8 × List UInt8) :=
  match (clearSession none).readAt v 0 0 1,
    journalSession.truncateInternal Session.epoch 0 n v with
  | .ok before, .ok _ v' => ((clearSession none).readAt v' 0 0 1).toOption.map (before, ·)
  | _, _ => none

/-- One byte more, and the whole block that the file had is zeroed. -/
theorem growth_from_whole_block_loses_content :
    firstByte (fullBlock false) (blockSize + 1) = some ([7], [0]) ∧
    (fullBlock true).superblock.hasJournalLayout = true ∧
      firstByte (fullBlock true) (blockSize + 1) = some ([7], [0]) := by
  decide +kernel

end Oifs
