import Mathlib.Data.List.AList
import Oifs.Bytes
import Oifs.SuperBlock
import Oifs.Relocation

namespace Oifs

/-! The block moves of `defragment_inplace_on`: the blocks of an image are permuted in place, chains
from their free end and cycles with one block put aside. -/

open Relocation

abbrev BlockMap := AList fun _ : Nat => Nat

/-- The order in which a hash map hands out its entries. -/
structure HashOrder where
  iter : BlockMap → List (Σ _ : Nat, Nat)
  perm : ∀ m, (iter m).Perm m.entries

theorem HashOrder.lookup_head (o : HashOrder) {m : BlockMap} {s d : Nat}
    {rest : List (Σ _ : Nat, Nat)} (h : o.iter m = ⟨s, d⟩ :: rest) : m.lookup s = some d := by
  apply AList.mem_lookup_iff.mpr
  apply (o.perm m).mem_iff.mp
  rw [h]
  exact List.mem_cons_self

namespace BlockMoves

def block (image : ByteStore) (b : Nat) : List UInt8 := image.read (b * blockSize) blockSize

/-- `mmap[off..off + BLOCK_SIZE]` read; past the end of the image it panics. -/
def readBlock (image : ByteStore) (b : Nat) : Option (List UInt8) :=
  if b * blockSize + blockSize ≤ image.len then some (block image b) else none

def writeBlock (image : ByteStore) (b : Nat) (data : List UInt8) : Option ByteStore :=
  if b * blockSize + blockSize ≤ image.len then some (image.write (b * blockSize) data) else none

def copyBlock (image : ByteStore) (src dst : Nat) : Option ByteStore :=
  (readBlock image src).bind (writeBlock image dst)

structure Moving where
  image : ByteStore
  pending : BlockMap
  /-- The pending moves by their targets. -/
  incoming : BlockMap

theorem erase_shorter {m : BlockMap} {k v : Nat} (h : m.lookup k = some v) :
    (m.erase k).keys.length < m.keys.length := by
  have hmem : k ∈ m.keys := by
    rw [← AList.mem_keys, ← AList.lookup_isSome, h]
    rfl
  rw [AList.keys_erase, List.length_erase_of_mem hmem]
  have hpos := List.length_pos_of_mem hmem
  omega

/-- The inner loop: a cycle is followed backwards from its leader. -/
def followCycle (leader : Nat) (m : Moving) (currDest : Nat) : Option (Moving × Nat) :=
  match _h : m.incoming.lookup currDest with
  | none => some (m, currDest)
  | some currSrc =>
    if currSrc = leader then some (m, currDest)
    else
      (copyBlock m.image currSrc currDest).bind fun image =>
        followCycle leader
          ⟨image, m.pending.erase currSrc, m.incoming.erase currDest⟩ currSrc
termination_by m.incoming.keys.length
decreasing_by exact erase_shorter _h

theorem followCycle_pending {leader c c' : Nat} {m m' : Moving}
    (h : followCycle leader m c = some (m', c')) :
    m'.pending.lookup leader = m.pending.lookup leader ∧
      m'.pending.keys.length ≤ m.pending.keys.length := by
  fun_induction followCycle leader m c with
  | case1 =>
    cases h
    exact ⟨rfl, Nat.le_refl _⟩
  | case2 =>
    cases h
    exact ⟨rfl, Nat.le_refl _⟩
  | case3 m c src hsrc hne ih =>
    obtain ⟨image, -, hrest⟩ := Option.bind_eq_some_iff.mp h
    obtain ⟨hlook, hlen⟩ := ih image hrest
    refine ⟨hlook.trans (AList.lookup_erase_ne fun heq => hne heq.symm), hlen.trans ?_⟩
    rw [AList.keys_erase]
    exact (List.erase_sublist).length_le

/-- The outer loop: a source whose target is free is moved, or else a cycle is turned with its
leader put aside. `freeTargets` has its top first. -/
def permute (o : HashOrder) (m : Moving) (freeTargets : List Nat) : Option ByteStore :=
  if m.pending.entries.isEmpty then some m.image
  else
    match freeTargets with
    | src :: rest =>
      match _h : m.pending.lookup src with
      | none => permute o m rest
      | some dst =>
        (copyBlock m.image src dst).bind fun image =>
          let incoming := m.incoming.erase dst
          permute o ⟨image, m.pending.erase src, incoming⟩
            (match incoming.lookup src with
              | some prevSrc => prevSrc :: rest
              | none => rest)
    | [] =>
      match _hl : o.iter m.pending with
      | [] => none
      | ⟨leader, _target⟩ :: _ =>
        (readBlock m.image leader).bind fun scratch =>
          match _hc : followCycle leader m leader with
          | none => none
          | some (m', currDest) =>
            (writeBlock m'.image currDest scratch).bind fun image =>
              permute o ⟨image, m'.pending.erase leader, m'.incoming.erase currDest⟩ []
termination_by 2 * m.pending.keys.length + freeTargets.length
decreasing_by
  · simp
  · have hless := erase_shorter _h
    split <;> simp only [List.length_cons] <;> omega
  · obtain ⟨hlook, hle⟩ := followCycle_pending _hc
    have hless := erase_shorter (hlook.trans (o.lookup_head _hl))
    simp only [List.length_nil]
    omega

def movesOf (oldToNew : BlockMap) : BlockMap :=
  ⟨oldToNew.entries.filter fun e => e.1 ≠ e.2, oldToNew.nodupKeys.sublist List.filter_sublist⟩

def permuteBlocks (o : HashOrder) (image : ByteStore) (oldToNew : BlockMap) : Option ByteStore :=
  let pending := movesOf oldToNew
  if pending.entries.isEmpty then some image
  else
    let incoming := (o.iter pending).foldl (fun m e => m.insert e.2 e.1) ∅
    let freeTargets := (o.iter pending).filterMap fun e =>
      if e.2 ∈ pending.keys then none else some e.1
    permute o ⟨image, pending, incoming⟩ freeTargets.reverse

/-! The contents of blocks. -/

def Covers (len b : Nat) : Prop := b * blockSize + blockSize ≤ len

theorem block_write {image : ByteStore} {d : Nat} {data : List UInt8}
    (hlen : data.length = blockSize) :
    block (image.write (d * blockSize) data) = Function.update (block image) d data := by
  funext b
  unfold block
  by_cases hb : b = d
  · rw [hb, Function.update_self, ← hlen]
    exact ByteStore.read_write_self ..
  · rw [Function.update_of_ne hb]
    apply ByteStore.read_write_disjoint
    rw [hlen]
    have hsplit : b + 1 ≤ d ∨ d + 1 ≤ b := by omega
    rcases hsplit with hlt | hgt
    · left
      have hmul := Nat.mul_le_mul_right blockSize hlt
      rwa [Nat.succ_mul] at hmul
    · right
      have hmul := Nat.mul_le_mul_right blockSize hgt
      rwa [Nat.succ_mul] at hmul

theorem writeBlock_covered {image : ByteStore} {d : Nat} {data : List UInt8}
    (hd : Covers image.len d) (hlen : data.length = blockSize) :
    ∃ image', writeBlock image d data = some image' ∧ image'.len = image.len ∧
      block image' = Function.update (block image) d data :=
  ⟨_, if_pos hd, rfl, block_write hlen⟩

theorem copyBlock_covered {image : ByteStore} {s d : Nat} (hs : Covers image.len s)
    (hd : Covers image.len d) : ∃ image', copyBlock image s d = some image' ∧
      image'.len = image.len ∧ block image' = Function.update (block image) d (block image s) := by
  have hread : readBlock image s = some (block image s) := if_pos hs
  unfold copyBlock
  rw [hread]
  exact writeBlock_covered hd (by simp [block])

/-! The maps as partial functions. -/

def targets (m : BlockMap) (s : Nat) : Option Nat := m.lookup s

theorem targets_erase (m : BlockMap) (k : Nat) : targets (m.erase k) = drop (targets m) k := by
  funext s
  unfold targets drop
  by_cases h : s = k
  · rw [h, Function.update_self]
    exact AList.lookup_erase k m
  · rw [Function.update_of_ne h]
    exact AList.lookup_erase_ne h

theorem targets_eq_some {m : BlockMap} {s d : Nat} : targets m s = some d ↔ ⟨s, d⟩ ∈ m.entries :=
  AList.mem_lookup_iff

theorem targets_finite (m : BlockMap) : {s | (targets m s).isSome}.Finite := by
  apply Set.Finite.subset (List.finite_toSet m.keys)
  intro s hs
  exact AList.mem_keys.mp (AList.lookup_isSome.mp hs)

def Inverse (pending incoming : BlockMap) : Prop :=
  ∀ s d, targets incoming d = some s ↔ targets pending s = some d

theorem Inverse.distinct {pending incoming : BlockMap} (h : Inverse pending incoming) :
    Distinct (targets pending) := by
  intro s s' d hs hs'
  exact Option.some.inj (((h s d).mpr hs).symm.trans ((h s' d).mpr hs'))

theorem Inverse.erase {pending incoming : BlockMap} {s d : Nat} (h : Inverse pending incoming)
    (hs : targets pending s = some d) : Inverse (pending.erase s) (incoming.erase d) := by
  intro s' d'
  rw [targets_erase, targets_erase, drop_eq_some, drop_eq_some, h s' d']
  constructor
  · rintro ⟨hne, hs'⟩
    refine ⟨?_, hs'⟩
    rintro rfl
    exact hne (Option.some.inj (hs'.symm.trans hs))
  · rintro ⟨hne, hs'⟩
    refine ⟨?_, hs'⟩
    rintro rfl
    exact hne (h.distinct s' s d' hs' hs)

/-! The loops. -/

section Loops

variable {moves : Nat → Option Nat} {start : Nat → List UInt8} {len : Nat} {saved : Option Nat}
  {m m' : Moving}

structure Midway (moves : Nat → Option Nat) (start : Nat → List UInt8) (len : Nat)
    (saved : Option Nat) (m : Moving) : Prop where
  contents : Relocated moves start (targets m.pending) saved (block m.image)
  inverse : Inverse m.pending m.incoming
  size : m.image.len = len

/-- Sources whose target is no pending source, and all of those. -/
structure FreeEnds (pending : Nat → Option Nat) (free : List Nat) : Prop where
  all : ∀ s d, pending s = some d → pending d = none → s ∈ free
  free : ∀ s, s ∈ free → ∀ d, pending s = some d → pending d = none

theorem Midway.copy (hmoves : Distinct moves)
    (hcov : ∀ s d, moves s = some d → Covers len s ∧ Covers len d)
    (h : Midway moves start len saved m) {s d : Nat} (hs : targets m.pending s = some d)
    (hsaved : saved ≠ some s) (hfree : targets m.pending d = none ∨ saved = some d) :
    ∃ image, copyBlock m.image s d = some image ∧
      Midway moves start len saved ⟨image, m.pending.erase s, m.incoming.erase d⟩ := by
  obtain ⟨hcs, hcd⟩ := hcov s d (h.contents.sub s d hs)
  rw [← h.size] at hcs hcd
  obtain ⟨image, hcopy, hlen, hblocks⟩ := copyBlock_covered hcs hcd
  refine ⟨image, hcopy, ?_, h.inverse.erase hs, hlen.trans h.size⟩
  rw [targets_erase, hblocks]
  exact h.contents.copy hmoves hs hsaved hfree

theorem followCycle_reaches (hmoves : Distinct moves)
    (hcov : ∀ s d, moves s = some d → Covers len s ∧ Covers len d) {leader c : Nat}
    (h : Midway moves start len (some leader) m) (hc : OnCycle (targets m.pending) leader c) :
    ∃ m' c', followCycle leader m c = some (m', c') ∧ Midway moves start len (some leader) m' ∧
      OnCycle (targets m'.pending) leader c' ∧ targets m'.pending leader = some c' := by
  fun_induction followCycle leader m c with
  | case1 m c hnone =>
    obtain ⟨p, hp⟩ := hc.enters
    have hin := (h.inverse p c).mpr hp
    rw [targets, hnone] at hin
    cases hin
  | case2 m c hin => exact ⟨m, c, rfl, h, hc, (h.inverse leader c).mp hin⟩
  | case3 m c src hin hne ih =>
    have hsrc := (h.inverse src c).mp hin
    have hsaved : some leader ≠ some src := fun heq => hne (Option.some.inj heq).symm
    have hfree : targets m.pending c = none ∨ some leader = some c :=
      hc.hole.elim (fun heq => .inr (congrArg some heq.symm)) .inl
    obtain ⟨image, hcopy, hnext⟩ := h.copy hmoves hcov hsrc hsaved hfree
    have hstep := hc.step h.inverse.distinct hsrc hne
    rw [← targets_erase] at hstep
    obtain ⟨m', c', hrun, hrest⟩ := ih image hnext hstep
    exact ⟨m', c', by rw [hcopy]; exact hrun, hrest⟩

theorem FreeEnds.tail {pending : Nat → Option Nat} {src : Nat} {rest : List Nat}
    (h : FreeEnds pending (src :: rest)) (hsrc : pending src = none) : FreeEnds pending rest where
  all s d hs hd := by
    rcases List.mem_cons.mp (h.all s d hs hd) with rfl | hmem
    · rw [hsrc] at hs
      cases hs
    · exact hmem
  free s hs := h.free s (List.mem_cons_of_mem src hs)

theorem FreeEnds.closed {pending : Nat → Option Nat} (h : FreeEnds pending []) :
    Closed pending := by
  intro s d hs
  by_contra hnone
  exact List.not_mem_nil (h.all s d hs (by simpa using hnone))

theorem FreeEnds.of_closed {pending : Nat → Option Nat} (h : Closed pending) :
    FreeEnds pending [] where
  all s d hs hd := by
    have hsome := h s d hs
    rw [hd] at hsome
    cases hsome
  free s hs := (List.not_mem_nil hs).elim

theorem FreeEnds.moved {pending incoming : BlockMap} {src dst : Nat} {rest : List Nat}
    (h : FreeEnds (targets pending) (src :: rest)) (hinv : Inverse pending incoming)
    (hsrc : targets pending src = some dst) :
    FreeEnds (targets (pending.erase src))
      (match (incoming.erase dst).lookup src with
        | some prev => prev :: rest
        | none => rest) := by
  have hinv' := hinv.erase hsrc
  rw [targets_erase]
  have hrest : ∀ s, s ∈ rest → ∀ d, drop (targets pending) src s = some d →
      drop (targets pending) src d = none := by
    intro s hs d hd
    have hd' := h.free s (List.mem_cons_of_mem src hs) d (drop_eq_some.mp hd).2
    exact drop_eq_none.mpr (.inr hd')
  have hall : ∀ s d, drop (targets pending) src s = some d →
      drop (targets pending) src d = none → s ∈ rest ∨ d = src := by
    intro s d hs hd
    obtain ⟨hne, hs⟩ := drop_eq_some.mp hs
    rcases drop_eq_none.mp hd with heq | hnone
    · exact .inr heq
    · rcases List.mem_cons.mp (h.all s d hs hnone) with heq | hmem
      · exact (hne heq).elim
      · exact .inl hmem
  split
  next prev hprev =>
    have hin := (hinv' prev src).mp hprev
    rw [targets_erase] at hin
    refine ⟨fun s d hs hd => ?_, fun s hs d hd => ?_⟩
    · rcases hall s d hs hd with hmem | rfl
      · exact List.mem_cons_of_mem prev hmem
      · have hs' := (hinv' s d).mpr (by rw [targets_erase]; exact hs)
        rw [Option.some.inj (hs'.symm.trans hprev)]
        exact List.mem_cons_self
    · rcases List.mem_cons.mp hs with rfl | hmem
      · rw [Option.some.inj (hd.symm.trans hin)]
        exact drop_eq_none.mpr (.inl rfl)
      · exact hrest s hmem d hd
  next hnone =>
    refine ⟨fun s d hs hd => ?_, hrest⟩
    rcases hall s d hs hd with hmem | rfl
    · exact hmem
    · have hs' := (hinv' s d).mpr (by rw [targets_erase]; exact hs)
      rw [targets, hnone] at hs'
      cases hs'

theorem Midway.turn (hmoves : Distinct moves)
    (hcov : ∀ s d, moves s = some d → Covers len s ∧ Covers len d)
    (h : Midway moves start len none m) (hclosed : Closed (targets m.pending)) {leader d : Nat}
    (hl : targets m.pending leader = some d) :
    readBlock m.image leader = some (start leader) ∧
    ∃ m' c image, followCycle leader m leader = some (m', c) ∧
      writeBlock m'.image c (start leader) = some image ∧
      Midway moves start len none ⟨image, m'.pending.erase leader, m'.incoming.erase c⟩ ∧
      Closed (targets (m'.pending.erase leader)) := by
  have hkept := h.contents.kept leader d hl (by simp)
  have hcl := (hcov leader d (h.contents.sub leader d hl)).1
  rw [← h.size] at hcl
  refine ⟨(if_pos hcl).trans (congrArg some hkept), ?_⟩
  have hcycle := OnCycle.start_cycle hclosed h.inverse.distinct (targets_finite m.pending)
    (L := leader) (by rw [hl]; rfl)
  have hsave : Midway moves start len (some leader) m :=
    ⟨h.contents.save leader, h.inverse, h.size⟩
  obtain ⟨m', c, hrun, hmid, hon, hback⟩ := followCycle_reaches hmoves hcov hsave hcycle
  have hcc := (hcov leader c (hmid.contents.sub leader c hback)).2
  rw [← hmid.size] at hcc
  have hlen : (start leader).length = blockSize := by
    rw [← hkept]
    simp [block]
  obtain ⟨image, hwrite, hsize, hblocks⟩ := writeBlock_covered hcc hlen
  refine ⟨m', c, image, hrun, hwrite, ⟨?_, hmid.inverse.erase hback, hsize.trans hmid.size⟩, ?_⟩
  · rw [targets_erase, hblocks]
    exact hmid.contents.restore hmoves hback hon.hole.symm
  · rw [targets_erase]
    exact hon.finish hmid.inverse.distinct hback

/-- The permutation comes to its end with every block moved. -/
theorem permute_done (o : HashOrder) (hmoves : Distinct moves)
    (hcov : ∀ s d, moves s = some d → Covers len s ∧ Covers len d) {free : List Nat}
    (h : Midway moves start len none m) (hfree : FreeEnds (targets m.pending) free) :
    ∃ image, permute o m free = some image ∧ image.len = len ∧
      Relocated moves start (fun _ => none) none (block image) := by
  fun_induction permute o m free with
  | case1 m free hempty =>
    have hnone : targets m.pending = fun _ => none := by
      funext s
      cases hs : targets m.pending s with
      | none => rfl
      | some d =>
        have hmem := targets_eq_some.mp hs
        rw [List.isEmpty_iff.mp hempty] at hmem
        cases hmem
    refine ⟨m.image, rfl, h.size, ?_⟩
    rw [← hnone]
    exact h.contents
  | case2 m hne src rest hnone ih => exact ih h (hfree.tail hnone)
  | case3 m hne src rest dst hsrc ih =>
    have hdst := hfree.free src List.mem_cons_self dst hsrc
    obtain ⟨image, hcopy, hnext⟩ := h.copy hmoves hcov hsrc (by simp) (.inl hdst)
    obtain ⟨image', hrun, hrest⟩ := ih image hnext (hfree.moved h.inverse hsrc)
    exact ⟨image', by rw [hcopy]; exact hrun, hrest⟩
  | case4 m hne hiter =>
    have hperm := o.perm m.pending
    rw [hiter] at hperm
    rw [List.nil_perm.mp hperm] at hne
    exact (hne rfl).elim
  | case5 m hne leader d tail hiter ih =>
    obtain ⟨hread, m', c, image, hrun, hwrite, hmid, hclosed⟩ :=
      h.turn hmoves hcov hfree.closed (o.lookup_head hiter)
    obtain ⟨image', hrest, hdone⟩ := ih m' c hrun image hmid (.of_closed hclosed)
    refine ⟨image', ?_, hdone⟩
    rw [hread, Option.bind_some]
    split
    next hnone =>
      rw [hrun] at hnone
      cases hnone
    next m'' c' hsome =>
      rw [hrun] at hsome
      cases hsome
      rw [hwrite, Option.bind_some]
      exact hrest

end Loops

/-! The maps the loop starts with. -/

theorem targets_movesOf {oldToNew : BlockMap} {s d : Nat} :
    targets (movesOf oldToNew) s = some d ↔ targets oldToNew s = some d ∧ s ≠ d := by
  rw [targets_eq_some, targets_eq_some]
  simp [movesOf]

theorem lookup_collect {l : List (Σ _ : Nat, Nat)} (hl : l.Pairwise fun a b => a.2 ≠ b.2)
    (acc : BlockMap) (s d : Nat) :
    targets (l.foldl (fun m e => m.insert e.2 e.1) acc) d = some s ↔
      ⟨s, d⟩ ∈ l ∨ (∀ e ∈ l, e.2 ≠ d) ∧ targets acc d = some s := by
  induction l generalizing acc with
  | nil => simp
  | cons e l ih =>
    obtain ⟨hne, hl⟩ := List.pairwise_cons.mp hl
    rw [List.foldl_cons, ih hl]
    by_cases hd : d = e.2
    · have hnone : ∀ x ∈ l, x.2 ≠ d := fun x hx heq => hne x hx (by rw [heq, hd])
      have hins : targets (acc.insert e.2 e.1) d = some e.1 := by
        rw [hd]
        exact AList.lookup_insert acc
      rw [hins]
      constructor
      · rintro (hmem | ⟨-, heq⟩)
        · exact .inl (List.mem_cons_of_mem e hmem)
        · left
          rw [hd, ← Option.some.inj heq]
          exact List.mem_cons_self
      · rintro (hmem | ⟨hout, -⟩)
        · rcases List.mem_cons.mp hmem with rfl | hmem
          · exact .inr ⟨hnone, rfl⟩
          · exact .inl hmem
        · exact (hout e List.mem_cons_self hd.symm).elim
    · have hins : targets (acc.insert e.2 e.1) d = targets acc d := AList.lookup_insert_ne hd
      have hhead : (⟨s, d⟩ : Σ _ : Nat, Nat) ≠ e := fun heq => hd (by rw [← heq])
      have hkey : ¬e.2 = d := fun heq => hd heq.symm
      rw [hins]
      simp [hhead, hkey]

theorem inverse_collect (o : HashOrder) {pending : BlockMap} (hd : Distinct (targets pending)) :
    Inverse pending ((o.iter pending).foldl (fun m e => m.insert e.2 e.1) ∅) := by
  have hnodup : (o.iter pending).Nodup :=
    (o.perm pending).nodup_iff.mpr (List.NodupKeys.nodup pending.nodupKeys)
  have hvalues : (o.iter pending).Pairwise fun a b => a.2 ≠ b.2 := by
    apply hnodup.pairwise_of_forall_ne
    intro a ha b hb hne heq
    have ha' := targets_eq_some.mpr ((o.perm pending).mem_iff.mp ha)
    have hb' := targets_eq_some.mpr ((o.perm pending).mem_iff.mp hb)
    rw [← heq] at hb'
    exact hne (Sigma.ext (hd a.1 b.1 a.2 ha' hb') (heq_of_eq heq))
  intro s d
  rw [lookup_collect hvalues, targets_eq_some (m := pending), (o.perm pending).mem_iff]
  constructor
  · rintro (hmem | ⟨-, hempty⟩)
    · exact hmem
    · cases hempty
  · exact .inl

theorem freeEnds_collect (o : HashOrder) (pending : BlockMap) :
    FreeEnds (targets pending) ((o.iter pending).filterMap fun e =>
      if e.2 ∈ pending.keys then none else some e.1).reverse where
  all s d hs hd := by
    have hkey : d ∉ pending.keys := by
      rw [← AList.mem_keys]
      exact AList.lookup_eq_none.mp hd
    rw [List.mem_reverse, List.mem_filterMap]
    exact ⟨⟨s, d⟩, (o.perm pending).mem_iff.mpr (targets_eq_some.mp hs), if_neg hkey⟩
  free s hs d hd := by
    rw [List.mem_reverse, List.mem_filterMap] at hs
    obtain ⟨e, he, hfree⟩ := hs
    have hes := targets_eq_some.mpr ((o.perm pending).mem_iff.mp he)
    split at hfree
    next => cases hfree
    next hkey =>
      cases hfree
      rw [Option.some.inj (hd.symm.trans hes)]
      exact AList.lookup_eq_none.mpr (fun hmem => hkey (AList.mem_keys.mp hmem))

/-- In every order of iteration the loops end, with each block's content at its target. -/
theorem permuteBlocks_moves (o : HashOrder) (image : ByteStore) (oldToNew : BlockMap)
    (hinj : Distinct (targets oldToNew))
    (hcov : ∀ s d, targets oldToNew s = some d → Covers image.len s ∧ Covers image.len d) :
    ∃ image', permuteBlocks o image oldToNew = some image' ∧ image'.len = image.len ∧
      (∀ s d, targets oldToNew s = some d → block image' d = block image s) ∧
      ∀ b, (∀ s, targets oldToNew s ≠ some b) → block image' b = block image b := by
  have hmoves : Distinct (targets (movesOf oldToNew)) := fun s s' d hs hs' =>
    hinj s s' d (targets_movesOf.mp hs).1 (targets_movesOf.mp hs').1
  have hcov' : ∀ s d, targets (movesOf oldToNew) s = some d →
      Covers image.len s ∧ Covers image.len d := fun s d hs => hcov s d (targets_movesOf.mp hs).1
  have hdone : ∃ image', permuteBlocks o image oldToNew = some image' ∧ image'.len = image.len ∧
      Relocated (targets (movesOf oldToNew)) (block image) (fun _ => none) none (block image') := by
    have hstart : Midway (targets (movesOf oldToNew)) (block image) image.len none
        ⟨image, movesOf oldToNew, _⟩ := ⟨.refl _ _, inverse_collect o hmoves, rfl⟩
    have hrun := permute_done o hmoves hcov' hstart (freeEnds_collect o (movesOf oldToNew))
    unfold permuteBlocks
    dsimp only
    split
    next hempty =>
      rw [permute.eq_def, if_pos hempty] at hrun
      exact hrun
    next => exact hrun
  obtain ⟨image', hrun, hlen, hrel⟩ := hdone
  refine ⟨image', hrun, hlen, fun s d hs => ?_, fun b hb => ?_⟩
  · by_cases hsd : s = d
    · -- a block that stays is no other block's target
      subst hsd
      apply hrel.rest
      intro s' hs'
      obtain ⟨hs', hne⟩ := targets_movesOf.mp hs'
      exact hne (hinj s' s s hs' hs)
    · exact hrel.done s d (targets_movesOf.mpr ⟨hs, hsd⟩) rfl
  · exact hrel.rest b fun s hs => hb s (targets_movesOf.mp hs).1

/-- A cycle of three blocks and a chain of two, in an image of six blocks. -/
theorem permuteBlocks_moves_cycle_chain :
    ∃ image' : ByteStore, permuteBlocks ⟨fun m => m.entries, fun _ => .rfl⟩
      ⟨24576, fun i => .ofNat (i / 4096), by decide⟩
      ⟨[⟨0, 1⟩, ⟨1, 2⟩, ⟨2, 0⟩, ⟨3, 4⟩, ⟨4, 5⟩], show [0, 1, 2, 3, 4].Nodup by decide⟩ = some image' ∧
      block image' 0 = block ⟨24576, fun i => .ofNat (i / 4096), by decide⟩ 2 ∧
      block image' 5 = block ⟨24576, fun i => .ofNat (i / 4096), by decide⟩ 4 := by
  obtain ⟨image', hrun, -, hmoved, -⟩ := permuteBlocks_moves ⟨fun m => m.entries, fun _ => .rfl⟩
    ⟨24576, fun i => .ofNat (i / 4096), by decide⟩
    ⟨[⟨0, 1⟩, ⟨1, 2⟩, ⟨2, 0⟩, ⟨3, 4⟩, ⟨4, 5⟩], show [0, 1, 2, 3, 4].Nodup by decide⟩
    (by
      intro s s' d hs hs'
      rw [targets_eq_some] at hs hs'
      simp at hs hs'
      omega)
    (by
      intro s d hs
      rw [targets_eq_some] at hs
      simp at hs
      unfold Covers blockSize
      dsimp only
      omega)
  exact ⟨image', hrun, hmoved 2 0 rfl, hmoved 4 5 rfl⟩

end BlockMoves

end Oifs
