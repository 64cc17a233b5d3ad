import Oifs.DirectoryOps
import Oifs.SessionCalls

namespace Oifs

def InodeFormatError.display : InodeFormatError → String
  | .truncated got => s!"Inode slot is truncated: {got} bytes, need 256"
  | .unknownFileType tag => s!"Unknown inode file-type tag: {tag}"
  | .legacy => "Legacy (v1) inode record is malformed"

def JournalError.display : JournalError → String
  | .badMagic => "Journal header magic mismatch (not a journaled image)"
  | .regionTooSmall needed available =>
    s!"Journal region too small: need {needed} bytes, have {available}"
  | .transactionTooLarge len ring => s!"Transaction of {len} bytes exceeds the {ring} byte journal ring"
  | .blockOutOfRange blockId => s!"Journal op targets out-of-range block {blockId}"
  | .panicked => "panicked"

/-- The `Display` text of a `DiskManagerError`. -/
def DiskError.display : DiskError → String
  | .io text | .alreadyExists text => "IO error: " ++ text
  | .journal e => "Journal error: " ++ e.display
  | .inodeFormat e => "Inode format error: " ++ e.display
  | .inodeDecode e => "IO error: Inode decode failed: " ++ e.display
  | .corruptedSuperblock text => "Corrupted superblock layout or invalid bounds: " ++ text
  | .invalidMagic => "Invalid magic number"
  | .noSpace => "Allocator error: No space left"
  | .passwordRequired => "Password required to access encrypted filesystem"
  | .decryptionFailed => "Decryption failed - check password"

def DiskError.toManager : DiskError → ManagerError
  | .alreadyExists text => ⟨(DiskError.alreadyExists text).display, true⟩
  | e => ⟨e.display, false⟩

def forSession {α : Type} (x : MountM α) : EStateM ManagerError Mounted α := fun m =>
  match x m with
  | .ok a m => .ok a m
  | .error e m => .error e.toManager m

def diskManager (S : DirSession) (A : Ambient) : Manager Mounted Unit where
  session := S.toSession
  image := Mounted.volume
  display := DiskError.display
  createFile parent name := forSession (S.createFile A.now parent name)
  createDirectory parent name := forSession (S.createDirectory A.now parent name)
  lookup parent name := forSession (S.lookup parent name)
  writeDataWithFilters id offset data mode config :=
    forSession (onVolume (S.writeDataWithFilters A id offset data mode config))
  deleteFile parent name := forSession (S.deleteFile A.now parent name)
  truncate id newSize := forSession (onVolume (S.truncateInternal A id newSize))
  resolvePath path := forSession (S.resolvePath path)
  resolveParent path := forSession (S.resolveParent path)
  listDir id := forSession (S.listDir id)
  flush := pure ()
  report _ := pure ()

end Oifs
