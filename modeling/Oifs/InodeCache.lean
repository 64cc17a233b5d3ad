import Oifs.FifoCache
import Oifs.Inode

namespace Oifs

/-- `NUM_INODE_CACHE_SHARDS`. -/
def numInodeCacheShards : Nat := 32

abbrev InodeCacheShard := FifoCache Nat Inode

structure BoundedInodeCache where
  numShards : Nat
  /-- Those from `numShards` on are never used. -/
  shards : Nat → InodeCacheShard

namespace BoundedInodeCache

def withCapacity (capacity : Nat) : BoundedInodeCache :=
  if capacity ≤ 16 then ⟨1, fun _ => .new capacity⟩
  else ⟨numInodeCacheShards, fun _ => .new (max 1 (capacity / numInodeCacheShards))⟩

/-- `shard_index`: a product of 64 bits, cut down to the shards. -/
def shardIndex (numShards inodeId : Nat) : Nat :=
  if numShards = 1 then 0
  else (inodeId * 0x517cc1b727220a95 % 2 ^ 64) &&& (numShards - 1)

def get (c : BoundedInodeCache) (inodeId : Nat) : Option Inode :=
  (c.shards (shardIndex c.numShards inodeId)).get inodeId

def updateShard (c : BoundedInodeCache) (k : Nat) (f : InodeCacheShard → InodeCacheShard) :
    BoundedInodeCache :=
  { c with shards := Function.update c.shards k (f (c.shards k)) }

def insert (c : BoundedInodeCache) (inodeId : Nat) (inode : Inode) : BoundedInodeCache :=
  c.updateShard (shardIndex c.numShards inodeId) (·.insert inodeId inode)

def remove (c : BoundedInodeCache) (inodeId : Nat) : BoundedInodeCache :=
  c.updateShard (shardIndex c.numShards inodeId) (·.remove inodeId)

def clear (c : BoundedInodeCache) : BoundedInodeCache :=
  { c with shards := fun k => (c.shards k).clear }

def Sound (c : BoundedInodeCache) : Prop := ∀ k, (c.shards k).Sound

variable {c : BoundedInodeCache} {id j : Nat} {inode record : Inode}
  {f : InodeCacheShard → InodeCacheShard}

theorem sound_withCapacity (capacity : Nat) : (withCapacity capacity).Sound := by
  unfold withCapacity
  split
  · exact fun _ => FifoCache.sound_new _
  · exact fun _ => FifoCache.sound_new _

theorem Sound.updateShard {k : Nat} (h : c.Sound)
    (hf : ∀ {s : InodeCacheShard}, s.Sound → (f s).Sound) : (c.updateShard k f).Sound := by
  intro k'
  by_cases hk : k' = k
  · subst hk
    simpa [BoundedInodeCache.updateShard] using hf (h k')
  · simpa [BoundedInodeCache.updateShard, hk] using h k'

theorem Sound.insert (h : c.Sound) : (c.insert id inode).Sound :=
  h.updateShard fun hs => FifoCache.Sound.insert hs id inode

theorem Sound.remove (h : c.Sound) : (c.remove id).Sound :=
  h.updateShard fun hs => FifoCache.Sound.remove hs id

theorem sound_clear (c : BoundedInodeCache) : c.clear.Sound := fun _ => FifoCache.sound_clear _

@[simp] theorem get_clear (c : BoundedInodeCache) : c.clear.get j = none := FifoCache.get_clear _ _

theorem get_updateShard {k : Nat} : (c.updateShard k f).get j =
    if shardIndex c.numShards j = k then (f (c.shards k)).get j else c.get j := by
  unfold get updateShard
  dsimp only
  split
  next heq => rw [heq, Function.update_self]
  next hne => rw [Function.update_of_ne hne]

theorem get_insert (h : (c.insert id inode).get j = some record) :
    j = id ∧ record = inode ∨ j ≠ id ∧ c.get j = some record := by
  rw [insert, get_updateShard] at h
  split at h
  next heq =>
    have hget := FifoCache.get_insert h
    rw [← heq] at hget
    exact hget
  next hne =>
    refine .inr ⟨?_, h⟩
    rintro rfl
    exact hne rfl

theorem get_remove (h : (c.remove id).get j = some record) : j ≠ id ∧ c.get j = some record := by
  rw [remove, get_updateShard] at h
  split at h
  next heq =>
    have hget := FifoCache.get_remove h
    rw [← heq] at hget
    exact hget
  next hne =>
    refine ⟨?_, h⟩
    rintro rfl
    exact hne rfl

@[simp] theorem get_withCapacity (capacity : Nat) : (withCapacity capacity).get j = none := by
  unfold withCapacity
  split
  · exact FifoCache.get_new _ _
  · exact FifoCache.get_new _ _

end BoundedInodeCache

end Oifs
