import Mathlib.Order.MinMax
import Mathlib.Order.Nat
import Mathlib.Tactic.Common

/-! Half-open intervals `(start, stop)`, sorted by their starts, are merged from left to right where
the next one starts within `gap` of the last end. -/

namespace GapMerge

def merge (gap : Nat) : Nat × Nat → List (Nat × Nat) → List (Nat × Nat)
  | cur, [] => [cur]
  | cur, next :: rest =>
    if next.1 ≤ cur.2 + gap then merge gap (cur.1, max cur.2 next.2) rest
    else cur :: merge gap next rest

def Bridged (gap : Nat) (l : List (Nat × Nat)) (x : Nat) : Prop :=
  (∃ i ∈ l, i.1 ≤ x ∧ x < i.2) ∨
    ∃ i ∈ l, ∃ j ∈ l, i.2 ≤ x ∧ x < j.1 ∧ j.1 ≤ i.2 + gap ∧ ∀ k ∈ l, k.2 ≤ i.2 ∨ j.1 ≤ k.1

variable {gap : Nat} {cur : Nat × Nat} {done rest : List (Nat × Nat)}

structure Midway (gap : Nat) (done rest : List (Nat × Nat)) (cur : Nat × Nat) : Prop where
  nonempty : cur.1 < cur.2
  sorted : rest.Pairwise fun a b => a.1 ≤ b.1
  proper : ∀ i ∈ rest, i.1 < i.2
  start : ∀ i ∈ rest, cur.1 ≤ i.1
  bound : ∀ i ∈ done, i.2 ≤ cur.2
  attained : ∃ i ∈ done, i.2 = cur.2
  tight : ∀ x, cur.1 ≤ x → x < cur.2 → Bridged gap (done ++ rest) x

namespace Midway

variable {next : Nat × Nat}

theorem join (h : Midway gap done (next :: rest) cur) (hnear : next.1 ≤ cur.2 + gap) :
    Midway gap (done ++ [next]) rest (cur.1, max cur.2 next.2) := by
  have hsorted := List.pairwise_cons.mp h.sorted
  have hnext := h.proper next List.mem_cons_self
  have hlist : done ++ [next] ++ rest = done ++ next :: rest := by simp
  refine ⟨?_, hsorted.2, fun i hi => h.proper i (List.mem_cons_of_mem _ hi),
    fun i hi => h.start i (List.mem_cons_of_mem _ hi), ?_, ?_, ?_⟩
  · exact lt_max_of_lt_left h.nonempty
  · intro i hi
    rcases List.mem_append.mp hi with hi | hi
    · exact le_max_of_le_left (h.bound i hi)
    · rw [List.mem_singleton.mp hi]
      exact le_max_right _ _
  · rcases Nat.le_total next.2 cur.2 with hle | hle
    · obtain ⟨i, hi, heq⟩ := h.attained
      exact ⟨i, List.mem_append_left _ hi, by rw [heq, Nat.max_eq_left hle]⟩
    · exact ⟨next, by simp, by rw [Nat.max_eq_right hle]⟩
  · intro x hlow hlt
    rw [hlist]
    by_cases hx : x < cur.2
    · exact h.tight x hlow hx
    · have hin : x < next.2 := (lt_max_iff.mp hlt).resolve_left hx
      by_cases hstart : next.1 ≤ x
      · exact .inl ⟨next, by simp, hstart, hin⟩
      · -- between the last end and the next start
        obtain ⟨i, hi, heq⟩ := h.attained
        refine .inr ⟨i, by simp [hi], next, by simp, by omega, by omega, by omega, ?_⟩
        intro k hk
        rcases List.mem_append.mp hk with hk | hk
        · exact .inl (heq ▸ h.bound k hk)
        · rcases List.mem_cons.mp hk with rfl | hk
          · exact .inr (Nat.le_refl _)
          · exact .inr (hsorted.1 k hk)

theorem move (h : Midway gap done (next :: rest) cur) (hfar : ¬next.1 ≤ cur.2 + gap) :
    Midway gap (done ++ [next]) rest next := by
  have hsorted := List.pairwise_cons.mp h.sorted
  have hnext := h.proper next List.mem_cons_self
  refine ⟨hnext, hsorted.2, fun i hi => h.proper i (List.mem_cons_of_mem _ hi), hsorted.1, ?_,
    ⟨next, by simp, rfl⟩, ?_⟩
  · intro i hi
    rcases List.mem_append.mp hi with hi | hi
    · have hold := h.bound i hi
      omega
    · exact Nat.le_of_eq (congrArg Prod.snd (List.mem_singleton.mp hi))
  · intro x hlow hlt
    exact .inl ⟨next, by simp, hlow, hlt⟩

end Midway

structure Merged (gap : Nat) (all pending : List (Nat × Nat)) (cur : Nat × Nat)
    (out : List (Nat × Nat)) : Prop where
  proper : ∀ o ∈ out, o.1 < o.2
  start : ∀ o ∈ out, cur.1 ≤ o.1
  separated : out.Pairwise fun a b => a.2 + gap < b.1
  covers : ∀ i ∈ cur :: pending, ∃ o ∈ out, o.1 ≤ i.1 ∧ i.2 ≤ o.2
  ends : ∀ o ∈ out, ∃ i ∈ all, i.2 = o.2
  tight : ∀ o ∈ out, ∀ x, o.1 ≤ x → x < o.2 → Bridged gap all x

/-- The invariant of the merge, at its end. -/
theorem merge_merged (h : Midway gap done rest cur) :
    Merged gap (done ++ rest) rest cur (merge gap cur rest) := by
  induction rest generalizing done cur with
  | nil =>
    refine ⟨?_, ?_, List.pairwise_singleton _ _, ?_, ?_, ?_⟩
    · intro o ho
      rw [List.mem_singleton.mp ho]
      exact h.nonempty
    · intro o ho
      exact Nat.le_of_eq (congrArg Prod.fst (List.mem_singleton.mp ho).symm)
    · intro i hi
      rw [List.mem_singleton.mp hi]
      exact ⟨cur, List.mem_singleton_self cur, Nat.le_refl _, Nat.le_refl _⟩
    · intro o ho
      rw [List.mem_singleton.mp ho, List.append_nil]
      exact h.attained
    · intro o ho
      rw [List.mem_singleton.mp ho]
      exact h.tight
  | cons next rest ih =>
    have hlist : done ++ [next] ++ rest = done ++ next :: rest := by simp
    unfold merge
    by_cases hnear : next.1 ≤ cur.2 + gap
    · rw [if_pos hnear]
      have hmerged := ih (h.join hnear)
      rw [hlist] at hmerged
      refine ⟨hmerged.proper, hmerged.start, hmerged.separated, ?_, hmerged.ends, hmerged.tight⟩
      -- the joined interval covers both of its parts
      obtain ⟨o, ho, hlow, hhigh⟩ := hmerged.covers _ List.mem_cons_self
      have hstart := h.start next List.mem_cons_self
      simp only at hlow hhigh
      intro i hi
      rcases List.mem_cons.mp hi with rfl | hi
      · exact ⟨o, ho, hlow, by omega⟩
      · rcases List.mem_cons.mp hi with rfl | hi
        · exact ⟨o, ho, by omega, by omega⟩
        · exact hmerged.covers i (List.mem_cons_of_mem _ hi)
    · rw [if_neg hnear]
      have hmerged := ih (h.move hnear)
      rw [hlist] at hmerged
      have hstart := h.start next List.mem_cons_self
      refine ⟨?_, ?_, ?_, ?_, ?_, ?_⟩
      · intro o ho
        rcases List.mem_cons.mp ho with rfl | ho
        · exact h.nonempty
        · exact hmerged.proper o ho
      · intro o ho
        rcases List.mem_cons.mp ho with rfl | ho
        · exact Nat.le_refl _
        · exact Nat.le_trans hstart (hmerged.start o ho)
      · refine List.pairwise_cons.mpr ⟨fun o ho => ?_, hmerged.separated⟩
        have hlow := hmerged.start o ho
        omega
      · intro i hi
        rcases List.mem_cons.mp hi with rfl | hi
        · exact ⟨i, List.mem_cons_self, Nat.le_refl _, Nat.le_refl _⟩
        · obtain ⟨o, ho, hin⟩ := hmerged.covers i hi
          exact ⟨o, List.mem_cons_of_mem _ ho, hin⟩
      · intro o ho
        rcases List.mem_cons.mp ho with rfl | ho
        · obtain ⟨i, hi, heq⟩ := h.attained
          exact ⟨i, List.mem_append_left _ hi, heq⟩
        · exact hmerged.ends o ho
      · intro o ho
        rcases List.mem_cons.mp ho with rfl | ho
        · exact h.tight
        · exact hmerged.tight o ho

theorem midway_start {first : Nat × Nat} (hsorted : (first :: rest).Pairwise fun a b => a.1 ≤ b.1)
    (hproper : ∀ i ∈ first :: rest, i.1 < i.2) : Midway gap [first] rest first := by
  have hcons := List.pairwise_cons.mp hsorted
  refine ⟨hproper first List.mem_cons_self, hcons.2,
    fun i hi => hproper i (List.mem_cons_of_mem _ hi), hcons.1, ?_,
    ⟨first, List.mem_singleton_self first, rfl⟩, ?_⟩
  · intro i hi
    exact Nat.le_of_eq (congrArg Prod.snd (List.mem_singleton.mp hi))
  · intro x hlow hlt
    exact .inl ⟨first, List.mem_cons_self, hlow, hlt⟩

end GapMerge
