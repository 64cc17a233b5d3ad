import Mathlib.Data.List.AList

/-! A map of bounded size that drops its oldest entries: a hash map and the queue of its keys. -/

structure FifoCache (κ ν : Type) [DecidableEq κ] where
  map : AList fun _ : κ => ν
  order : List κ
  capacity : Nat

namespace FifoCache

variable {κ ν : Type} [DecidableEq κ] {c : FifoCache κ ν} {k j : κ} {v w : ν}

def new (capacity : Nat) : FifoCache κ ν := ⟨∅, [], capacity⟩

def get (c : FifoCache κ ν) (k : κ) : Option ν := c.map.lookup k

def evict (capacity : Nat) : List κ → (AList fun _ : κ => ν) → (AList fun _ : κ => ν) × List κ
  | [], map => (map, [])
  | victim :: order, map =>
    if (victim :: order).length > capacity then evict capacity order (map.erase victim)
    else (map, victim :: order)

def insert (c : FifoCache κ ν) (k : κ) (v : ν) : FifoCache κ ν :=
  let order := if (c.get k).isNone then c.order ++ [k] else c.order
  let (map, order) := evict c.capacity order (c.map.insert k v)
  { c with map := map, order := order }

def remove (c : FifoCache κ ν) (k : κ) : FifoCache κ ν :=
  { c with map := c.map.erase k, order := c.order.filter (· ≠ k) }

def clear (c : FifoCache κ ν) : FifoCache κ ν := { c with map := ∅, order := [] }

/-- The queue has the keys of the map, each once, and no more than fit. -/
structure Sound (c : FifoCache κ ν) : Prop where
  nodup : c.order.Nodup
  mem_order : ∀ k, k ∈ c.order ↔ k ∈ c.map
  bounded : c.order.length ≤ c.capacity

theorem Sound.size_le (h : c.Sound) : c.map.keys.length ≤ c.capacity := by
  have hperm : c.order.Perm c.map.keys := by
    apply (List.perm_ext_iff_of_nodup h.nodup c.map.keys_nodup).mpr
    intro k
    rw [h.mem_order, AList.mem_keys]
  rw [← hperm.length_eq]
  exact h.bounded

theorem sound_new (capacity : Nat) : (new capacity : FifoCache κ ν).Sound where
  nodup := List.nodup_nil
  mem_order _ := iff_of_false List.not_mem_nil (AList.notMem_empty _)
  bounded := Nat.zero_le _

theorem sound_clear (c : FifoCache κ ν) : c.clear.Sound where
  nodup := List.nodup_nil
  mem_order _ := iff_of_false List.not_mem_nil (AList.notMem_empty _)
  bounded := Nat.zero_le _

theorem lookup_erase_some {map : AList fun _ : κ => ν} (h : (map.erase k).lookup j = some v) :
    j ≠ k ∧ map.lookup j = some v := by
  by_cases hj : j = k
  · rw [hj, AList.lookup_erase] at h
    cases h
  · rw [AList.lookup_erase_ne hj] at h
    exact ⟨hj, h⟩

theorem lookup_evict {capacity : Nat} {order : List κ} {map : AList fun _ : κ => ν}
    (h : (evict capacity order map).1.lookup j = some v) : map.lookup j = some v := by
  induction order generalizing map with
  | nil => exact h
  | cons victim order ih =>
    rw [evict] at h
    split at h
    next => exact (lookup_erase_some (ih h)).2
    next => exact h

theorem sound_evict {capacity : Nat} {order : List κ} {map : AList fun _ : κ => ν}
    (hnodup : order.Nodup) (hmem : ∀ k, k ∈ order ↔ k ∈ map) :
    (⟨(evict capacity order map).1, (evict capacity order map).2, capacity⟩ :
      FifoCache κ ν).Sound := by
  induction order generalizing map with
  | nil => exact ⟨hnodup, hmem, Nat.zero_le _⟩
  | cons victim order ih =>
    obtain ⟨hvictim, hrest⟩ := List.nodup_cons.mp hnodup
    rw [evict]
    split
    next =>
      apply ih hrest
      intro k
      rw [AList.mem_erase, ← hmem, List.mem_cons]
      constructor
      · intro hk
        exact ⟨fun heq => hvictim (heq ▸ hk), .inr hk⟩
      · rintro ⟨hne, heq | hk⟩
        · exact absurd heq hne
        · exact hk
    next hfit => exact ⟨hnodup, hmem, Nat.not_lt.mp hfit⟩

theorem Sound.insert (h : c.Sound) (k : κ) (v : ν) : (c.insert k v).Sound := by
  apply sound_evict
  · split
    next hnone =>
      rw [Option.isNone_iff_eq_none] at hnone
      have hk : k ∉ c.order := fun hmem => AList.lookup_eq_none.mp hnone ((h.mem_order k).mp hmem)
      exact List.Nodup.append h.nodup (List.nodup_singleton k) (List.disjoint_singleton.mpr hk)
    next => exact h.nodup
  · intro j
    rw [AList.mem_insert]
    split
    next =>
      rw [List.mem_append, List.mem_singleton, h.mem_order]
      exact Or.comm
    next hsome =>
      have hk : k ∈ c.map := by
        rw [← AList.lookup_isSome]
        cases hget : c.get k with
        | none => exact absurd (by rw [hget]; rfl) hsome
        | some v => exact Option.isSome_iff_exists.mpr ⟨v, hget⟩
      rw [h.mem_order]
      constructor
      · exact .inr
      · rintro (rfl | hj)
        · exact hk
        · exact hj

theorem Sound.remove (h : c.Sound) (k : κ) : (c.remove k).Sound where
  nodup := h.nodup.filter _
  mem_order j := by
    change j ∈ c.order.filter (· ≠ k) ↔ j ∈ c.map.erase k
    rw [List.mem_filter, AList.mem_erase, h.mem_order, decide_eq_true_iff]
    exact And.comm
  bounded := Nat.le_trans (List.length_filter_le _ _) h.bounded

theorem get_insert (h : (c.insert k v).get j = some w) :
    j = k ∧ w = v ∨ j ≠ k ∧ c.get j = some w := by
  have hlookup := lookup_evict h
  by_cases hj : j = k
  · subst hj
    rw [AList.lookup_insert] at hlookup
    cases hlookup
    exact .inl ⟨rfl, rfl⟩
  · rw [AList.lookup_insert_ne hj] at hlookup
    exact .inr ⟨hj, hlookup⟩

theorem get_remove (h : (c.remove k).get j = some w) : j ≠ k ∧ c.get j = some w :=
  lookup_erase_some h

@[simp] theorem get_new (capacity : Nat) (j : κ) : (new capacity : FifoCache κ ν).get j = none :=
  AList.lookup_empty j

@[simp] theorem get_clear (c : FifoCache κ ν) (j : κ) : c.clear.get j = none := AList.lookup_empty j

end FifoCache
