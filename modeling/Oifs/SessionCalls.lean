import Oifs.Ipc

namespace Oifs

/-- What the sessions read of a `DiskManagerError`. -/
structure ManagerError where
  text : String
  alreadyExists : Bool

/-- A disk manager over states `σ`. Its reads are those of the image. -/
structure Manager (σ ρ : Type) where
  session : Session
  image : σ → Volume
  display : DiskError → String
  createFile : Nat → String → EStateM ManagerError σ Nat
  createDirectory : Nat → String → EStateM ManagerError σ Nat
  lookup : Nat → String → EStateM ManagerError σ Nat
  writeDataWithFilters : Nat → Nat → List UInt8 → CompressionMode → FilterConfig →
    EStateM ManagerError σ Unit
  deleteFile : Nat → String → EStateM ManagerError σ Unit
  truncate : Nat → Nat → EStateM ManagerError σ Unit
  resolvePath : String → EStateM ManagerError σ Nat
  resolveParent : String → EStateM ManagerError σ (Nat × String)
  listDir : Nat → EStateM ManagerError σ (List DirectoryEntry)
  flush : EStateM ManagerError σ Unit
  /-- The requests that are answered with a report. -/
  report : IpcRequest → EStateM ManagerError σ ρ

namespace Manager

variable {σ ρ : Type} (M : Manager σ ρ)

def read {α : Type} (f : Volume → Except DiskError α) : EStateM ManagerError σ α := fun s =>
  match f (M.image s) with
  | .ok a => .ok a s
  | .error e => .error ⟨M.display e, false⟩ s

def readInode (id : Nat) : EStateM ManagerError σ Inode := M.read (·.readInodeInternal id)

def readData (id : Nat) : EStateM ManagerError σ (List UInt8) := M.read (M.session.readData · id)

def readAt (id offset len : Nat) : EStateM ManagerError σ (List UInt8) :=
  M.read (M.session.readAt · id offset len)

def handleRequest : IpcRequest → EStateM ManagerError σ (IpcResponseData ρ)
  | .ping => return .pong
  | .authChallenge .. | .authResponse .. =>
    throw ⟨"IO error: Unexpected authentication request", false⟩
  | .createFile parent name => return .inodeId (← M.createFile parent name)
  | .createDirectory parent name => return .inodeId (← M.createDirectory parent name)
  | .lookup parent name => return .inodeId (← M.lookup parent name)
  | .readData id => return .data (← M.readData id)
  | .readAt id offset len => do
    let inode ← M.readInode id
    let available := inode.size - offset
    let allocLen := min (min len available) (128 * 1024 * 1024)
    if 0 < allocLen then return .data (← M.readAt id offset allocLen)
    else return .data []
  | .writeData id offset data mode config => do
    M.writeDataWithFilters id offset data mode config
    return .unit
  | .deleteFile parent name => do
    M.deleteFile parent name
    return .unit
  | .truncate id newSize => do
    M.truncate id newSize
    return .unit
  | .resolvePath path => return .inodeId (← M.resolvePath path)
  | .resolveParent path => do
    let (parent, name) ← M.resolveParent path
    return .resolveParent parent name
  | .readInode id => return .inode (← M.readInode id)
  | .listDir id => return .directoryEntries (← M.listDir id)
  | .flush => do
    M.flush
    return .unit
  | req => return .report (← M.report req)

end Manager

/-- The kinds of I/O errors that `is_connection_error` tells apart. -/
inductive IoErrorKind where
  | brokenPipe
  | connectionReset
  | connectionAborted
  | unexpectedEof
  | notConnected
  | invalidData
  | other
  deriving DecidableEq

structure IoError where
  kind : IoErrorKind
  text : String

/-- `str::contains`. -/
def containsText (text part : String) : Bool := decide (part.toList <:+: text.toList)

def isConnectionText (text : String) : Bool :=
  containsText text "Broken pipe" || containsText text "Connection reset" ||
    containsText text "failed to fill whole buffer" || containsText text "Connection refused"

def IoError.isConnectionError (e : IoError) : Bool :=
  match e.kind with
  | .brokenPipe | .connectionReset | .connectionAborted | .unexpectedEof | .notConnected => true
  | _ => isConnectionText e.text

/-- `MAX_FRAME_BYTES`. -/
def maxFrameBytes : Nat := 128 * 1024 * 1024

def frameLenIsValid (len : Nat) : Bool := len ≤ maxFrameBytes

/-- The fixed-width encoding: a text is preceded by its length in eight bytes. -/
def textLen (s : String) : Nat := 8 + s.utf8ByteSize

def CompressionMode.wireLen : CompressionMode → Nat
  | .stream _ => 4 + 4
  | .seekable .. => 4 + 4 + 4
  | _ => 4

def IpcRequest.wireLen : IpcRequest → Nat
  | .ping | .getSuperblock | .flush | .analyzeFragmentation | .verifyIntegrity | .migrate => 4
  | .authChallenge .. => 4 + authNonceLen + 1
  | .authResponse clientMac => 4 + clientMac.length
  | .createFile _ name | .createDirectory _ name | .lookup _ name | .deleteFile _ name =>
    4 + 8 + textLen name
  | .readData _ | .readInode _ | .listDir _ | .getBlockCopy _ => 4 + 8
  | .readAt .. => 4 + 8 + 8 + 8
  | .writeData _ _ data mode _ => 4 + 8 + 8 + (8 + data.length) + mode.wireLen + 4
  | .resolvePath path | .resolveParent path => 4 + textLen path
  | .defragment source _ output =>
    4 + textLen source + 4 + 1 + match output with
      | some path => textLen path
      | none => 0
  | .truncate .. => 4 + 8 + 8

def inodeWireLen : Nat := 4 + 4 * 8 + 12 * 8 + 1 + 24 + 4 + 8 + 4

def IpcResponseData.wireLen {ρ : Type} (reportLen : ρ → Nat) : IpcResponseData ρ → Nat
  | .pong | .unit => 4
  | .inodeId _ => 4 + 8
  | .data bytes => 4 + (8 + bytes.length)
  | .resolveParent _ name => 4 + 8 + textLen name
  | .inode _ => 4 + inodeWireLen
  | .directoryEntries entries => 4 + 8 + (entries.map fun e => 8 + 8 + textLen e.name).sum
  | .report r => 4 + reportLen r
  | .authChallenge .. => 4 + authNonceLen + 16 + 1
  | .authVerify serverMac => 4 + serverMac.length

def IpcResponse.wireLen {ρ : Type} (reportLen : ρ → Nat) : IpcResponse ρ → Nat
  | .success data => 4 + data.wireLen reportLen
  | .error text => 4 + textLen text

inductive SessionError where
  | diskManager (e : ManagerError)
  | remote (text : String)
  | unexpectedResponse

/-- One frame exchange goes through, or the client sees `err`, before or after the master has
executed it. -/
inductive Transport where
  | intact
  | lost (executed : Bool) (err : IoError)

/-- The result of `open_with_mode` after a connection error. -/
inductive Reopened where
  | failed
  | direct
  | remote
  deriving DecidableEq

/-- What the surroundings do in one round of the retry loop. -/
structure Attempt where
  transport : Transport
  reopened : Reopened

/-- An image under the masters that serve it, and the fallback of one client. -/
structure ClientWorld (σ : Type) where
  image : σ
  fallback : Bool
  /-- The requests that masters, or the fallback, have executed for this client, newest first. -/
  executed : List IpcRequest

namespace Manager

variable {σ ρ : Type} (M : Manager σ ρ) (reportLen : ρ → Nat)

def execute (req : IpcRequest) (w : ClientWorld σ) :
    Except ManagerError (IpcResponseData ρ) × ClientWorld σ :=
  match M.handleRequest req w.image with
  | .ok data s => (.ok data, { w with image := s, executed := req :: w.executed })
  | .error e s => (.error e, { w with image := s, executed := req :: w.executed })

/-- `IpcClient::send` to an authenticated connection. A reply that is too long closes the
connection. -/
def send (req : IpcRequest) (w : ClientWorld σ) :
    Transport → Except IoError (IpcResponseData ρ) × ClientWorld σ
  | .lost false err => (.error err, w)
  | .lost true err => (.error err, (M.execute req w).2)
  | .intact =>
    if !frameLenIsValid req.wireLen then
      (.error ⟨.invalidData, "Message frame exceeds size limit"⟩, w)
    else
      match M.execute req w with
      | (.ok data, w) =>
        if frameLenIsValid ((IpcResponse.success data).wireLen reportLen) then (.ok data, w)
        else (.error ⟨.unexpectedEof, "failed to fill whole buffer"⟩, w)
      | (.error e, w) =>
        if frameLenIsValid ((IpcResponse.error (ρ := ρ) e.text).wireLen reportLen) then
          (.error ⟨.other, e.text⟩, w)
        else (.error ⟨.unexpectedEof, "failed to fill whole buffer"⟩, w)

/-- The retry loop of `send_request`, with `rounds` rounds left of its five. -/
def retryLoop (req : IpcRequest) (script : Nat → Attempt) :
    Nat → ClientWorld σ → Except SessionError (IpcResponseData ρ) × ClientWorld σ
  | 0, w => (.error (.remote "Max retry attempts exceeded"), w)
  | rounds + 1, w =>
    match M.send reportLen req w (script (4 - rounds)).transport with
    | (.ok data, w) => (.ok data, w)
    | (.error err, w) =>
      if err.isConnectionError then
        if rounds = 0 then (.error (.remote err.text), w)
        else
          match (script (4 - rounds)).reopened with
          | .failed | .remote => retryLoop req script rounds w
          | .direct =>
            match M.execute req { w with fallback := true } with
            | (.ok data, w) => (.ok data, w)
            | (.error e, w) => (.error (.diskManager e), w)
      else (.error (.remote err.text), w)

def sendRequest (req : IpcRequest) (script : Nat → Attempt) (w : ClientWorld σ) :
    Except SessionError (IpcResponseData ρ) × ClientWorld σ :=
  if w.fallback then
    match M.execute req w with
    | (.ok data, w) => (.ok data, w)
    | (.error e, w) => (.error (.diskManager e), w)
  else M.retryLoop reportLen req script 5 w

end Manager

/-- The calls of a session that one request carries. -/
inductive SimpleCall where
  | createFile (parentInodeId : Nat) (name : String)
  | createDirectory (parentInodeId : Nat) (name : String)
  | lookup (parentInodeId : Nat) (name : String)
  | readData (inodeId : Nat)
  | readAt (inodeId fileOffset len : Nat)
  | writeDataWithFilters (inodeId fileOffset : Nat) (data : List UInt8)
      (compressionMode : CompressionMode) (filterConfig : FilterConfig)
  | deleteFile (parentInodeId : Nat) (name : String)
  | truncate (inodeId newSize : Nat)
  | resolvePath (path : String)
  | resolveParent (path : String)
  | readInode (inodeId : Nat)
  | listDir (dirInodeId : Nat)

inductive CallValue where
  | id (n : Nat)
  | bytes (data : List UInt8)
  | unit
  | parent (id : Nat) (name : String)
  | inode (inode : Inode)
  | entries (entries : List DirectoryEntry)

namespace SimpleCall

variable {σ ρ : Type}

def direct (M : Manager σ ρ) : SimpleCall → EStateM ManagerError σ CallValue
  | .createFile parent name => return .id (← M.createFile parent name)
  | .createDirectory parent name => return .id (← M.createDirectory parent name)
  | .lookup parent name => return .id (← M.lookup parent name)
  | .readData id => return .bytes (← M.readData id)
  | .readAt id offset len => return .bytes (← M.readAt id offset len)
  | .writeDataWithFilters id offset data mode config => do
    M.writeDataWithFilters id offset data mode config
    return .unit
  | .deleteFile parent name => do
    M.deleteFile parent name
    return .unit
  | .truncate id newSize => do
    M.truncate id newSize
    return .unit
  | .resolvePath path => return .id (← M.resolvePath path)
  | .resolveParent path => do
    let (parent, name) ← M.resolveParent path
    return .parent parent name
  | .readInode id => return .inode (← M.readInode id)
  | .listDir id => return .entries (← M.listDir id)

def request : SimpleCall → IpcRequest
  | .createFile parent name => .createFile parent name
  | .createDirectory parent name => .createDirectory parent name
  | .lookup parent name => .lookup parent name
  | .readData id => .readData id
  | .readAt id offset len => .readAt id offset len
  | .writeDataWithFilters id offset data mode config => .writeData id offset data mode config
  | .deleteFile parent name => .deleteFile parent name
  | .truncate id newSize => .truncate id newSize
  | .resolvePath path => .resolvePath path
  | .resolveParent path => .resolveParent path
  | .readInode id => .readInode id
  | .listDir id => .listDir id

def decode : SimpleCall → IpcResponseData ρ → Except SessionError CallValue
  | .createFile .., .inodeId id | .createDirectory .., .inodeId id | .lookup .., .inodeId id
  | .resolvePath _, .inodeId id => .ok (.id id)
  | .readData _, .data bytes => .ok (.bytes bytes)
  | .readAt _ _ len, .data bytes => .ok (.bytes (bytes.take (min bytes.length len)))
  | .writeDataWithFilters .., .unit | .deleteFile .., .unit | .truncate .., .unit => .ok .unit
  | .resolveParent _, .resolveParent parent name => .ok (.parent parent name)
  | .readInode _, .inode inode => .ok (.inode inode)
  | .listDir _, .directoryEntries entries => .ok (.entries entries)
  | _, _ => .error .unexpectedResponse

def isMutating : SimpleCall → Bool
  | .createFile .. | .createDirectory .. | .writeDataWithFilters .. | .deleteFile ..
  | .truncate .. => true
  | _ => false

def remote (M : Manager σ ρ) (reportLen : ρ → Nat) (c : SimpleCall) (script : Nat → Attempt)
    (w : ClientWorld σ) : Except SessionError CallValue × ClientWorld σ :=
  match M.sendRequest reportLen c.request script w with
  | (.ok data, w) => (c.decode data, w)
  | (.error e, w) => (.error e, w)

end SimpleCall

end Oifs
