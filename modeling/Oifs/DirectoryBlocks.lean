import Oifs.StoredNames

namespace Oifs

open LittleEndian

def findNameLoop (f : Nat → UInt8) (target : List UInt8) : Nat → Nat → Option Nat
  | 0, _ => none
  | fuel + 1, off =>
    match recordEnd f off with
    | none => none
    | some next =>
      if recordName f off = target then some (recordInode f off)
      else findNameLoop f target fuel next

def findEntryInBlock (f : Nat → UInt8) (name : String) : Option Nat :=
  findNameLoop f (nameBytes name) blockSize 0

/-- An entry as the callers make it: a valid name with its hash, and an inode number of 64 bits. -/
structure DirectoryEntry.Proper (e : DirectoryEntry) : Prop where
  name : validateFilename e.name = .ok ()
  hash : e.hash = hashFilename e.name
  inode : e.inode < 2 ^ 64

/-- From `off` on the block holds the records of the entries, one behind the other, and then zeros. -/
inductive HoldsFrom (f : Nat → UInt8) : Nat → List DirectoryEntry → Prop
  | rest {off : Nat} (hle : off ≤ blockSize) (hzero : ∀ k, off ≤ k → k < blockSize → f k = 0) :
      HoldsFrom f off []
  | record {off : Nat} {e : DirectoryEntry} {es : List DirectoryEntry} (hproper : e.Proper)
      (hbytes : bytesOf f off e.bytes.length = e.bytes)
      (hmore : HoldsFrom f (off + e.bytes.length) es) : HoldsFrom f off (e :: es)

def recordsLength (es : List DirectoryEntry) : Nat := (es.map (·.bytes.length)).sum

@[simp] theorem recordsLength_nil : recordsLength [] = 0 := rfl

@[simp] theorem recordsLength_cons (e : DirectoryEntry) (es : List DirectoryEntry) :
    recordsLength (e :: es) = e.bytes.length + recordsLength es := rfl

@[simp] theorem recordsLength_append (es es' : List DirectoryEntry) :
    recordsLength (es ++ es') = recordsLength es + recordsLength es' := by
  simp [recordsLength]

section Bytes

variable {f g : Nat → UInt8} {off n : Nat}

@[simp] theorem bytesOf_length (f : Nat → UInt8) (off n : Nat) : (bytesOf f off n).length = n := by
  simp [bytesOf]

theorem bytesOf_add (f : Nat → UInt8) (off m n : Nat) :
    bytesOf f off (m + n) = bytesOf f off m ++ bytesOf f (off + m) n := by
  simp [bytesOf, List.range_add, Nat.add_assoc]

theorem bytesOf_congr (h : ∀ k, off ≤ k → k < off + n → f k = g k) :
    bytesOf f off n = bytesOf g off n := by
  apply List.map_congr_left
  intro k hk
  have hlt := List.mem_range.mp hk
  exact h _ (by omega) (by omega)

theorem bytesOf_patch (f : Nat → UInt8) (off : Nat) (data : List UInt8) :
    bytesOf (patch f off data) off data.length = data := by
  apply List.ext_getElem
  · simp
  · intro k hk hk'
    simp only [bytesOf, List.getElem_map, List.getElem_range]
    exact patch_in hk'

theorem decode_bytesOf_zero (h : ∀ k, off ≤ k → k < off + n → f k = 0) :
    decode (bytesOf f off n) = 0 := by
  have hbytes : bytesOf f off n = bytesOf (fun _ => 0) off n := bytesOf_congr h
  rw [hbytes]
  simp [bytesOf]

end Bytes

section Record

theorem hashFilename_lt (name : String) : hashFilename name < 2 ^ 64 := UInt64.toNat_lt _

variable {e : DirectoryEntry} {f : Nat → UInt8} {off : Nat}

theorem DirectoryEntry.bytes_length (e : DirectoryEntry) :
    e.bytes.length = recordHeader + (nameBytes e.name).length := by
  simp only [bytes, List.length_append, encode_length, recordHeader]

theorem DirectoryEntry.Proper.name_length (h : e.Proper) :
    0 < (nameBytes e.name).length ∧ (nameBytes e.name).length ≤ maxFilenameLen := by
  obtain ⟨hspecial, hlen⟩ := validateFilename_proper h.name
  refine ⟨List.length_pos_iff.mpr fun hnil => hspecial (Or.inl ?_), hlen⟩
  have hempty : e.name = "" := nameBytes_injective hnil
  rw [hempty]
  rfl

structure ReadsRecord (e : DirectoryEntry) (f : Nat → UInt8) (off : Nat) : Prop where
  inode : recordInode f off = e.inode
  hash : recordHash f off = e.hash
  len : recordLen f off = (nameBytes e.name).length
  name : recordName f off = nameBytes e.name

theorem DirectoryEntry.Proper.reads (h : e.Proper)
    (hbytes : bytesOf f off e.bytes.length = e.bytes) : ReadsRecord e f off := by
  obtain ⟨hpos, hmax⟩ := h.name_length
  have hhash : e.hash < 2 ^ 64 := h.hash ▸ hashFilename_lt _
  -- the record field by field
  have hfields : bytesOf f off (8 + 8 + 2 + (nameBytes e.name).length) = e.bytes := by
    rw [← hbytes, e.bytes_length]
    rfl
  rw [bytesOf_add, bytesOf_add, bytesOf_add, DirectoryEntry.bytes] at hfields
  obtain ⟨hhead, hname⟩ := List.append_inj hfields (by simp)
  obtain ⟨hids, hlen⟩ := List.append_inj hhead (by simp)
  obtain ⟨hinode, hhashes⟩ := List.append_inj hids (by simp)
  have hlength : recordLen f off = (nameBytes e.name).length := by
    rw [recordLen, show off + 16 = off + (8 + 8) from rfl, hlen, decode_encode]
    exact Nat.mod_eq_of_lt (by rw [maxFilenameLen] at hmax; omega)
  refine ⟨?_, ?_, hlength, ?_⟩
  · rw [recordInode, hinode, decode_encode]
    exact Nat.mod_eq_of_lt h.inode
  · rw [recordHash, hhashes, decode_encode]
    exact Nat.mod_eq_of_lt hhash
  · rw [recordName, hlength]
    exact hname

end Record

namespace HoldsFrom

variable {f g : Nat → UInt8} {off : Nat} {e : DirectoryEntry} {es : List DirectoryEntry}

theorem end_le (h : HoldsFrom f off es) : off + recordsLength es ≤ blockSize := by
  induction h with
  | rest hle _ => exact hle
  | record _ _ _ ih =>
    rw [recordsLength_cons]
    omega

theorem proper (h : HoldsFrom f off es) : ∀ e ∈ es, e.Proper := by
  induction h with
  | rest => simp
  | record hproper _ _ ih => exact List.forall_mem_cons.mpr ⟨hproper, ih⟩

theorem length_le (h : HoldsFrom f off es) : es.length ≤ blockSize := by
  have hshort : es.length ≤ recordsLength es := by
    clear h
    induction es with
    | nil => exact Nat.le_refl 0
    | cons e es ih =>
      rw [recordsLength_cons, List.length_cons, e.bytes_length, recordHeader]
      omega
  have hend := h.end_le
  omega

theorem zero_behind (h : HoldsFrom f off es) :
    ∀ k, off + recordsLength es ≤ k → k < blockSize → f k = 0 := by
  induction h with
  | rest _ hzero => exact hzero
  | record _ _ _ ih =>
    intro k hle hlt
    rw [recordsLength_cons] at hle
    exact ih k (by omega) hlt

theorem recordLen_rest (hzero : ∀ k, off ≤ k → k < blockSize → f k = 0)
    (hroom : off + recordHeader ≤ blockSize) : recordLen f off = 0 := by
  apply decode_bytesOf_zero
  intro k hk hlt
  rw [recordHeader] at hroom
  exact hzero k (by omega) (by omega)

theorem recordEnd_rest (hzero : ∀ k, off ≤ k → k < blockSize → f k = 0) : recordEnd f off = none :=
  if_neg fun ⟨hroom, hlen, _⟩ => hlen (recordLen_rest hzero hroom)

theorem recordEnd_record (hproper : e.Proper) (hbytes : bytesOf f off e.bytes.length = e.bytes)
    (hend : off + e.bytes.length ≤ blockSize) : recordEnd f off = some (off + e.bytes.length) := by
  have hlen := (hproper.reads hbytes).len
  have hpos := hproper.name_length.1
  rw [e.bytes_length] at hend ⊢
  rw [recordEnd, hlen, if_pos ⟨by omega, by omega, by omega⟩, Nat.add_assoc]

theorem decodeRecord_record (hproper : e.Proper)
    (hbytes : bytesOf f off e.bytes.length = e.bytes) : decodeRecord f off = .ok e := by
  have hreads := hproper.reads hbytes
  rw [decodeRecord, hreads.name, fromUTF8_nameBytes]
  dsimp only
  rw [hproper.name, hreads.inode, hreads.hash]

theorem hash_test_iff (hproper : e.Proper) (hbytes : bytesOf f off e.bytes.length = e.bytes)
    {name : String} {hash : Nat} (hhash : hash = 0 ∨ hash = hashFilename name) :
    ((recordHash f off = 0 ∨ hash = 0 ∨ recordHash f off = hash) ∧
      recordName f off = nameBytes name) ↔ e.name = name := by
  have hreads := hproper.reads hbytes
  rw [hreads.hash, hreads.name]
  constructor
  · rintro ⟨-, hname⟩
    exact nameBytes_injective hname
  · rintro rfl
    refine ⟨Or.inr ?_, rfl⟩
    rcases hhash with hzero | hhash
    · exact Or.inl hzero
    · exact Or.inr (hproper.hash.trans hhash.symm)

section Scanners

variable {fuel : Nat}

theorem findInsertLoop_eq (h : HoldsFrom f off es) (hfuel : es.length ≤ fuel) :
    findInsertLoop f fuel off = off + recordsLength es := by
  induction h generalizing fuel with
  | rest _ hzero =>
    cases fuel with
    | zero => rfl
    | succ fuel => simp [findInsertLoop, recordEnd_rest hzero]
  | @record off e es hproper hbytes hmore ih =>
    obtain ⟨fuel, rfl⟩ : ∃ n, fuel = n + 1 := Nat.exists_eq_succ_of_ne_zero (by simp at hfuel; omega)
    have hend := hmore.end_le
    rw [findInsertLoop, recordEnd_record hproper hbytes (by omega)]
    dsimp only
    rw [ih (by simpa using hfuel), recordsLength_cons, Nat.add_assoc]

theorem iterLoop_eq (h : HoldsFrom f off es) (hfuel : es.length ≤ fuel) :
    iterLoop f fuel off = es.map .ok := by
  induction h generalizing fuel with
  | @rest off _ hzero =>
    cases fuel with
    | zero => rfl
    | succ fuel =>
      refine if_pos ?_
      by_cases hroom : off + recordHeader ≤ blockSize
      · exact Or.inr (recordLen_rest hzero hroom)
      · exact Or.inl (Nat.not_le.mp hroom)
  | @record off e es hproper hbytes hmore ih =>
    obtain ⟨fuel, rfl⟩ : ∃ n, fuel = n + 1 := Nat.exists_eq_succ_of_ne_zero (by simp at hfuel; omega)
    have hend := hmore.end_le
    have hmax := hproper.name_length
    have hmore := @ih fuel (by simpa using hfuel)
    rw [e.bytes_length] at hend hmore
    rw [iterLoop, (hproper.reads hbytes).len, if_neg (by omega), if_neg (by omega), if_neg (by omega),
      decodeRecord_record hproper hbytes, Nat.add_assoc, hmore, List.map_cons]

theorem findEntryLoop_eq (h : HoldsFrom f off es) (hfuel : es.length ≤ fuel) {name : String}
    {hash : Nat} (hhash : hash = 0 ∨ hash = hashFilename name) :
    findEntryLoop f (nameBytes name) hash fuel off = (es.find? (·.name = name)).map (·.inode) := by
  induction h generalizing fuel with
  | rest _ hzero =>
    cases fuel with
    | zero => rfl
    | succ fuel => simp [findEntryLoop, recordEnd_rest hzero]
  | @record off e es hproper hbytes hmore ih =>
    obtain ⟨fuel, rfl⟩ : ∃ n, fuel = n + 1 := Nat.exists_eq_succ_of_ne_zero (by simp at hfuel; omega)
    have hend := hmore.end_le
    rw [findEntryLoop, recordEnd_record hproper hbytes (by omega)]
    simp only [hash_test_iff hproper hbytes hhash, @ih fuel (by simpa using hfuel)]
    by_cases hname : e.name = name
    · rw [if_pos hname, List.find?_cons_of_pos (by simpa using hname), (hproper.reads hbytes).inode]
      rfl
    · rw [if_neg hname, List.find?_cons_of_neg (by simpa using hname)]

end Scanners

end HoldsFrom

theorem findNameLoop_eq (f : Nat → UInt8) (target : List UInt8) (fuel off : Nat) :
    findNameLoop f target fuel off = findEntryLoop f target 0 fuel off := by
  induction fuel generalizing off with
  | zero => rfl
  | succ fuel ih =>
    rw [findNameLoop, findEntryLoop]
    cases recordEnd f off with
    | none => rfl
    | some next => simp [ih]

/-- The scanners over a whole block all see the same entries. -/
structure ScansAs (f : Nat → UInt8) (es : List DirectoryEntry) : Prop where
  items : directoryItems f = es.map .ok
  offset : findInsertOffsetInBlock f = recordsLength es
  filtered : ∀ name, findEntryInBlockWithHash f name (hashFilename name) =
    (es.find? (·.name = name)).map (·.inode)
  unfiltered : ∀ name, findEntryInBlock f name = (es.find? (·.name = name)).map (·.inode)

theorem HoldsFrom.scans {f : Nat → UInt8} {es : List DirectoryEntry} (h : HoldsFrom f 0 es) :
    ScansAs f es where
  items := h.iterLoop_eq h.length_le
  offset := (h.findInsertLoop_eq h.length_le).trans (Nat.zero_add _)
  filtered _ := h.findEntryLoop_eq h.length_le (Or.inr rfl)
  unfiltered _ := (findNameLoop_eq ..).trans (h.findEntryLoop_eq h.length_le (Or.inl rfl))

theorem collectItems_ok (es : List DirectoryEntry) : collectItems (es.map .ok) = .ok es := by
  induction es with
  | nil => rfl
  | cons e es ih => rw [List.map_cons, collectItems, ih]

section Stores

variable {f : Nat → UInt8} {off : Nat} {e : DirectoryEntry} {es : List DirectoryEntry}

theorem holdsFrom_zero : HoldsFrom (fun _ => 0) 0 [] := .rest (Nat.zero_le _) fun _ _ _ => rfl

theorem HoldsFrom.append (h : HoldsFrom f off es) (hproper : e.Proper)
    (hend : off + recordsLength es + e.bytes.length ≤ blockSize) :
    HoldsFrom (patch f (off + recordsLength es) e.bytes) off (es ++ [e]) := by
  induction h with
  | rest hle hzero =>
    rw [recordsLength_nil, Nat.add_zero] at hend ⊢
    refine .record hproper (bytesOf_patch ..) (.rest hend fun k hk hlt => ?_)
    rw [patch_out (Or.inr hk)]
    exact hzero k (by omega) hlt
  | @record off e' es hproper' hbytes hmore ih =>
    rw [recordsLength_cons, ← Nat.add_assoc] at hend ⊢
    refine .record hproper' ?_ (ih hend)
    refine (bytesOf_congr fun k hk hlt => ?_).trans hbytes
    exact patch_out (Or.inl (by omega))

theorem serializeInto_eq (hproper : e.Proper) (hend : off + e.bytes.length ≤ blockSize) :
    serializeInto e f off = (patch f off e.bytes, .ok (off + e.bytes.length)) := by
  rw [serializeInto, hproper.name]
  dsimp only
  rw [if_pos hend, List.take_of_length_le (by omega)]

theorem serializeAll_holds {new : List DirectoryEntry} (h : HoldsFrom f 0 es)
    (hproper : ∀ e ∈ new, e.Proper) (hend : recordsLength es + recordsLength new ≤ blockSize) :
    ∃ g next, serializeAll new f (recordsLength es) = (g, .ok next) ∧ HoldsFrom g 0 (es ++ new) := by
  induction new generalizing f es with
  | nil => exact ⟨f, _, rfl, by simpa using h⟩
  | cons e new ih =>
    obtain ⟨hp, hps⟩ := List.forall_mem_cons.mp hproper
    have hsum : recordsLength (es ++ [e]) = recordsLength es + e.bytes.length := by simp
    rw [recordsLength_cons] at hend
    have happend := h.append hp (by omega)
    rw [Nat.zero_add] at happend
    obtain ⟨g, next, hrun, hholds⟩ := ih happend hps (by omega)
    refine ⟨g, next, ?_, by simpa using hholds⟩
    rw [serializeAll, serializeInto_eq hp (by omega), ← hsum]
    exact hrun

theorem recordsLength_filter_le (es : List DirectoryEntry) (keep : DirectoryEntry → Bool) :
    recordsLength (es.filter keep) ≤ recordsLength es := by
  induction es with
  | nil => exact Nat.le_refl 0
  | cons e es ih =>
    rw [List.filter_cons]
    split
    next => simpa using ih
    next =>
      rw [recordsLength_cons]
      omega

end Stores

end Oifs
