import Mathlib.Algebra.BigOperators.Group.List.Lemmas
import Mathlib.Algebra.Order.Ring.Nat
import Mathlib.Data.List.Nodup

/-! A traversal with a stack of nodes still to be visited. A node gives its successors, or an error
that ends the traversal; only the successors to be followed are put on the stack. -/

namespace Worklist

variable {α ε : Type} (out : α → Except ε (List α)) (follow : α → Bool)

def scan [DecidableEq α] : Nat → List α → List α → List α → Except ε (Option (List α))
  | _, [], _, seen => .ok (some seen)
  | 0, _ :: _, _, _ => .ok none
  | steps + 1, node :: stack, visited, seen =>
    if node ∈ visited then scan steps stack visited seen
    else
      match out node with
      | .error e => .error e
      | .ok next => scan steps ((next.filter follow).reverse ++ stack) (node :: visited)
          (next.foldl (fun s a => s.insert a) seen)

/-- The nodes that a chain of successors leads to. -/
inductive Reach (root : α) : α → Prop
  | root : Reach root root
  | step {a b : α} {next : List α} (up : Reach root a) (succ : out a = .ok next) (mem : b ∈ next) :
    Reach root b

variable {out follow} {root : α}

/-- Between the steps: what was seen is reachable, visited nodes have their successors seen, and a
seen node is visited or on the stack. -/
structure Inv (out : α → Except ε (List α)) (follow : α → Bool) (root : α)
    (stack visited seen : List α) : Prop where
  sound : ∀ a ∈ seen, Reach out root a
  stacked : ∀ a ∈ stack, a ∈ seen
  closed : ∀ a ∈ visited, ∀ next, out a = .ok next → ∀ b ∈ next, b ∈ seen
  pending : ∀ a ∈ seen, (a = root ∨ follow a = true) → a ∈ visited ∨ a ∈ stack
  nodup : seen.Nodup
  start : root ∈ seen

theorem Inv.init : Inv out follow root [root] [] [root] where
  sound a ha := by
    rw [List.mem_singleton.mp ha]
    exact .root
  stacked _ ha := ha
  closed _ ha := absurd ha List.not_mem_nil
  pending _ ha _ := Or.inr ha
  nodup := List.nodup_singleton root
  start := List.mem_singleton_self root

theorem Inv.skip {node : α} {stack visited seen : List α}
    (h : Inv out follow root (node :: stack) visited seen) (hv : node ∈ visited) :
    Inv out follow root stack visited seen :=
  { h with
    stacked := fun a ha => h.stacked a (List.mem_cons_of_mem _ ha)
    pending := fun a ha hf => by
      rcases h.pending a ha hf with hvis | hstack
      · exact Or.inl hvis
      · rcases List.mem_cons.mp hstack with rfl | hrest
        · exact Or.inl hv
        · exact Or.inr hrest }

variable [DecidableEq α]

theorem mem_insertAll {next seen : List α} {a : α} :
    a ∈ next.foldl (fun s b => s.insert b) seen ↔ a ∈ next ∨ a ∈ seen := by
  induction next generalizing seen with
  | nil => simp
  | cons b next ih =>
    rw [List.foldl_cons, ih, List.mem_insert_iff, List.mem_cons]
    tauto

theorem nodup_insertAll {next seen : List α} (h : seen.Nodup) :
    (next.foldl (fun s b => s.insert b) seen).Nodup := by
  induction next generalizing seen with
  | nil => exact h
  | cons b next ih => exact ih h.insert

theorem Inv.visit {node : α} {stack visited seen next : List α}
    (h : Inv out follow root (node :: stack) visited seen) (hout : out node = .ok next) :
    Inv out follow root ((next.filter follow).reverse ++ stack) (node :: visited)
      (next.foldl (fun s a => s.insert a) seen) where
  sound a ha := by
    rcases mem_insertAll.mp ha with hnext | hold
    · exact .step (h.sound node (h.stacked node List.mem_cons_self)) hout hnext
    · exact h.sound a hold
  stacked a ha := by
    refine mem_insertAll.mpr ?_
    rcases List.mem_append.mp ha with hnew | hold
    · exact Or.inl (List.mem_filter.mp (List.mem_reverse.mp hnew)).1
    · exact Or.inr (h.stacked a (List.mem_cons_of_mem _ hold))
  closed a ha next' hout' b hb := by
    refine mem_insertAll.mpr ?_
    rcases List.mem_cons.mp ha with rfl | hold
    · rw [hout] at hout'
      cases hout'
      exact Or.inl hb
    · exact Or.inr (h.closed a hold next' hout' b hb)
  pending a ha hf := by
    rcases mem_insertAll.mp ha with hnext | hold
    · rcases hf with hroot | hfollow
      · rcases h.pending a (hroot ▸ h.start) (Or.inl hroot) with hvis | hstack
        · exact Or.inl (List.mem_cons_of_mem _ hvis)
        · rcases List.mem_cons.mp hstack with rfl | hrest
          · exact Or.inl List.mem_cons_self
          · exact Or.inr (List.mem_append_right _ hrest)
      · refine Or.inr (List.mem_append_left _ (List.mem_reverse.mpr ?_))
        exact List.mem_filter.mpr ⟨hnext, hfollow⟩
    · rcases h.pending a hold hf with hvis | hstack
      · exact Or.inl (List.mem_cons_of_mem _ hvis)
      · rcases List.mem_cons.mp hstack with rfl | hrest
        · exact Or.inl List.mem_cons_self
        · exact Or.inr (List.mem_append_right _ hrest)
  nodup := nodup_insertAll h.nodup
  start := mem_insertAll.mpr (Or.inr h.start)

theorem scan_inv {steps : Nat} {stack visited seen result : List α}
    (h : Inv out follow root stack visited seen)
    (hrun : scan out follow steps stack visited seen = .ok (some result)) :
    ∃ visited', Inv out follow root [] visited' result := by
  induction steps generalizing stack visited seen with
  | zero =>
    cases stack with
    | nil =>
      cases hrun
      exact ⟨visited, h⟩
    | cons node stack => cases hrun
  | succ steps ih =>
    cases stack with
    | nil =>
      cases hrun
      exact ⟨visited, h⟩
    | cons node stack =>
      unfold scan at hrun
      split at hrun
      next hv => exact ih (h.skip hv) hrun
      next =>
        split at hrun
        next => cases hrun
        next next hout => exact ih (h.visit hout) hrun

/-- A traversal that ends has seen the reachable nodes, each once. -/
theorem mem_scan {steps : Nat} {result : List α}
    (hfollow : ∀ a next, out a = .ok next → next ≠ [] → follow a = true)
    (hrun : scan out follow steps [root] [] [root] = .ok (some result)) :
    result.Nodup ∧ ∀ a, a ∈ result ↔ Reach out root a := by
  obtain ⟨visited, hinv⟩ := scan_inv Inv.init hrun
  refine ⟨hinv.nodup, fun a => ⟨hinv.sound a, fun hreach => ?_⟩⟩
  induction hreach with
  | root => exact hinv.start
  | @step a b next up succ mem ih =>
    have hne : next ≠ [] := List.ne_nil_of_mem mem
    rcases hinv.pending a ih (Or.inr (hfollow a next succ hne)) with hvis | hstack
    · exact hinv.closed a hvis next succ b mem
    · cases hstack

theorem scan_ne_error (hfollow : ∀ a, follow a = true → ∃ next, out a = .ok next) {steps : Nat}
    {stack visited seen : List α} (hstack : ∀ a ∈ stack, ∃ next, out a = .ok next) (e : ε) :
    scan out follow steps stack visited seen ≠ .error e := by
  induction steps generalizing stack visited seen with
  | zero =>
    cases stack with
    | nil => exact fun h => nomatch h
    | cons node stack => exact fun h => nomatch h
  | succ steps ih =>
    cases stack with
    | nil => exact fun h => nomatch h
    | cons node stack =>
      have hrest : ∀ a ∈ stack, ∃ next, out a = .ok next :=
        fun a ha => hstack a (List.mem_cons_of_mem _ ha)
      obtain ⟨next, hout⟩ := hstack node List.mem_cons_self
      unfold scan
      rw [hout]
      split
      next => exact ih hrest
      next =>
        refine ih fun a ha => ?_
        rcases List.mem_append.mp ha with hnew | hold
        · exact hfollow a (List.mem_filter.mp (List.mem_reverse.mp hnew)).2
        · exact hrest a hold

theorem scan_ne_none {nodes : List α} {weight : α → Nat} (hnodup : nodes.Nodup)
    (hnodes : ∀ a next, out a = .ok next → a ∈ nodes ∧ next.length ≤ weight a)
    {steps : Nat} {stack visited seen : List α}
    (hsteps : stack.length + ((nodes.filter (· ∉ visited)).map weight).sum ≤ steps) :
    scan out follow steps stack visited seen ≠ .ok none := by
  induction steps generalizing stack visited seen with
  | zero =>
    cases stack with
    | nil =>
      intro h
      cases h
    | cons node stack =>
      rw [List.length_cons] at hsteps
      omega
  | succ steps ih =>
    cases stack with
    | nil =>
      intro h
      cases h
    | cons node stack =>
      rw [List.length_cons] at hsteps
      unfold scan
      split
      next => exact ih (by omega)
      next hnew =>
        split
        next =>
          intro h
          cases h
        next next hout =>
          obtain ⟨hmem, hlen⟩ := hnodes node next hout
          have hleft : node ∈ nodes.filter (· ∉ visited) :=
            List.mem_filter.mpr ⟨hmem, by simpa using hnew⟩
          have hsum := List.sum_map_erase weight hleft
          have hrest : nodes.filter (· ∉ node :: visited) =
              (nodes.filter (· ∉ visited)).erase node := by
            rw [(hnodup.filter _).erase_eq_filter, List.filter_filter]
            refine List.filter_congr fun a _ => ?_
            by_cases ha : a = node
            · simp [ha]
            · simp [ha]
          refine ih ?_
          rw [hrest, List.length_append, List.length_reverse]
          have hfilter := List.length_filter_le follow next
          omega

end Worklist
