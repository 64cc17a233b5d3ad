import Mathlib.Tactic.Ring
import Mathlib.Data.List.Basic

/-! Records laid end to end on a ring of `R` bytes. `decode p` is the record found at position `p`
with its length; no record crosses the end of the ring. -/

namespace CircularLog

variable {α : Type}

def total (items : List (α × Nat)) : Nat := (items.map Prod.snd).sum

@[simp] theorem total_nil : total ([] : List (α × Nat)) = 0 := rfl

@[simp] theorem total_cons (item : α × Nat) (items : List (α × Nat)) :
    total (item :: items) = item.2 + total items := by
  simp [total]

@[simp] theorem total_append (xs ys : List (α × Nat)) : total (xs ++ ys) = total xs + total ys := by
  simp [total]

/-- From `cursor` record by record to `target`, at most once round. -/
def walk (decode : Nat → Option (α × Nat)) (R target cursor traversed : Nat) : List α :=
  if cursor ≠ target ∧ traversed < R then
    match decode cursor with
    | none => []
    | some (a, n) =>
      if n = 0 then [] else a :: walk decode R target ((cursor + n) % R) (traversed + n)
  else []
termination_by R - traversed

def Chain (decode : Nat → Option (α × Nat)) (R : Nat) : Nat → List (α × Nat) → Prop
  | _, [] => True
  | p, (a, n) :: rest =>
    decode p = some (a, n) ∧ 0 < n ∧ p + n ≤ R ∧ Chain decode R ((p + n) % R) rest

variable {decode decode' : Nat → Option (α × Nat)} {R : Nat}

theorem chain_append {p : Nat} (hp : p < R) (xs ys : List (α × Nat)) :
    Chain decode R p (xs ++ ys) ↔
      Chain decode R p xs ∧ Chain decode R ((p + total xs) % R) ys := by
  induction xs generalizing p with
  | nil => simp [Chain, Nat.mod_eq_of_lt hp]
  | cons x xs ih =>
    obtain ⟨a, n⟩ := x
    have hpos : (p + n) % R < R := Nat.mod_lt _ (by omega)
    simp only [List.cons_append, Chain, ih hpos, total_cons, Nat.mod_add_mod, Nat.add_assoc]
    tauto

theorem add_mod_ne {p n : Nat} (hp : p < R) (hn : 0 < n) (hlt : n < R) : (p + n) % R ≠ p := by
  rcases Nat.lt_or_ge (p + n) R with h | h
  · rw [Nat.mod_eq_of_lt h]
    omega
  · rw [Nat.mod_eq_sub_mod h, Nat.mod_eq_of_lt (by omega)]
    omega

theorem walk_chain {items : List (α × Nat)} {p traversed : Nat} (hp : p < R)
    (hc : Chain decode R p items) (hlt : traversed + total items < R) :
    walk decode R ((p + total items) % R) p traversed = items.map Prod.fst := by
  induction items generalizing p traversed with
  | nil =>
    rw [walk]
    simp [Nat.mod_eq_of_lt hp]
  | cons item items ih =>
    obtain ⟨a, n⟩ := item
    obtain ⟨hd, hn, -, hrest⟩ := hc
    rw [total_cons] at hlt ⊢
    have hne : p ≠ (p + (n + total items)) % R :=
      (add_mod_ne hp (by omega) (by omega)).symm
    have hpos : (p + n) % R < R := Nat.mod_lt _ (by omega)
    have hih := ih hpos hrest (show traversed + n + total items < R by omega)
    rw [Nat.mod_add_mod, Nat.add_assoc] at hih
    rw [walk, if_pos ⟨hne, by omega⟩, hd]
    simp [Nat.ne_of_gt hn, hih]

theorem walk_torn {items : List (α × Nat)} {p traversed more : Nat} (hp : p < R)
    (hc : Chain decode R p items) (hend : decode ((p + total items) % R) = none) (hmore : 0 < more)
    (hlt : traversed + total items + more < R) :
    walk decode R ((p + total items + more) % R) p traversed = items.map Prod.fst := by
  induction items generalizing p traversed with
  | nil =>
    rw [total_nil, Nat.add_zero, Nat.mod_eq_of_lt hp] at hend
    rw [walk, hend]
    split
    next => rfl
    next => rfl
  | cons item items ih =>
    obtain ⟨a, n⟩ := item
    obtain ⟨hd, hn, -, hrest⟩ := hc
    rw [total_cons] at hlt hend ⊢
    have hne : p ≠ (p + (n + total items) + more) % R := by
      rw [Nat.add_assoc]
      exact (add_mod_ne hp (by omega) (by omega)).symm
    have hpos : (p + n) % R < R := Nat.mod_lt _ (by omega)
    rw [← Nat.add_assoc] at hend
    have hih := ih hpos hrest (by rwa [Nat.mod_add_mod])
      (show traversed + n + total items + more < R by omega)
    have htarget : ((p + n) % R + total items + more) % R = (p + (n + total items) + more) % R := by
      rw [Nat.add_assoc, Nat.mod_add_mod]
      congr 1
      omega
    rw [htarget] at hih
    rw [walk, if_pos ⟨hne, by omega⟩, hd]
    simp [Nat.ne_of_gt hn, hih]

def Path (decode : Nat → Option (α × Nat)) (R target : Nat) : Nat → List (α × Nat) → Prop
  | _, [] => True
  | p, (a, n) :: rest =>
    p ≠ target ∧ decode p = some (a, n) ∧ 0 < n ∧ Path decode R target ((p + n) % R) rest

theorem chain_below {items : List (α × Nat)} {p w : Nat} (hw : w < R)
    (hk : ∀ q a n, decode q = some (a, n) → q + n ≤ w → decode' q = some (a, n))
    (hc : Chain decode R p items) (hp : p + total items ≤ w) : Chain decode' R p items := by
  induction items generalizing p with
  | nil => trivial
  | cons item items ih =>
    obtain ⟨a, n⟩ := item
    obtain ⟨hd, hn, hfit, hrest⟩ := hc
    rw [total_cons] at hp
    rw [Nat.mod_eq_of_lt (show p + n < R by omega)] at hrest
    refine ⟨hk p a n hd (by omega), hn, hfit, ?_⟩
    rw [Nat.mod_eq_of_lt (show p + n < R by omega)]
    exact ih hrest (by omega)

theorem apart_of_offsets {p s n T m : Nat} (hp : p < R) (hn : 0 < n) (hs : s + n ≤ T)
    (hT : T + m ≤ R) (hfit : (p + s) % R + n ≤ R) (hm : 0 < m) :
    (p + s) % R + n ≤ (p + T) % R ∨ (p + T) % R + m ≤ (p + s) % R := by
  rcases Nat.lt_or_ge (p + s) R with hsR | hsR
  · rw [Nat.mod_eq_of_lt hsR] at hfit ⊢
    rcases Nat.lt_or_ge (p + T) R with hTR | hTR
    · rw [Nat.mod_eq_of_lt hTR]
      omega
    · rw [Nat.mod_eq_sub_mod hTR, Nat.mod_eq_of_lt (by omega)]
      omega
  · rw [Nat.mod_eq_sub_mod hsR, Nat.mod_eq_of_lt (by omega)] at hfit ⊢
    rw [Nat.mod_eq_sub_mod (show p + T ≥ R by omega), Nat.mod_eq_of_lt (by omega)]
    omega

/-- What a write of `m` bytes at `w` leaves readable. -/
def Keeps (decode decode' : Nat → Option (α × Nat)) (w m : Nat) : Prop :=
  ∀ p a n, decode p = some (a, n) → p + n ≤ w ∨ w + m ≤ p → decode' p = some (a, n)

theorem chain_keeps_from {items : List (α × Nat)} {p s T m : Nat} (hp : p < R)
    (hk : Keeps decode decode' ((p + T) % R) m) (hm : 0 < m) (hT : T + m ≤ R)
    (hs : s + total items ≤ T) (hc : Chain decode R ((p + s) % R) items) :
    Chain decode' R ((p + s) % R) items := by
  induction items generalizing s with
  | nil => trivial
  | cons item items ih =>
    obtain ⟨a, n⟩ := item
    obtain ⟨hd, hn, hfit, hrest⟩ := hc
    rw [total_cons] at hs
    rw [Nat.mod_add_mod, Nat.add_assoc] at hrest
    have hapart := apart_of_offsets hp hn (show s + n ≤ T by omega) hT hfit hm
    refine ⟨hk _ a n hd hapart, hn, hfit, ?_⟩
    rw [Nat.mod_add_mod, Nat.add_assoc]
    exact ih (by omega) hrest

/-- The ring between `tail` and `head` holds `items` and nothing else. -/
structure Live (decode : Nat → Option (α × Nat)) (R tail head : Nat) (items : List (α × Nat)) :
    Prop where
  tail_lt : tail < R
  chain : Chain decode R tail items
  total_lt : total items < R
  head_eq : head = (tail + total items) % R

namespace Live

variable {tail head : Nat} {items : List (α × Nat)}

theorem head_lt (h : Live decode R tail head items) : head < R := by
  rw [h.head_eq]
  exact Nat.mod_lt _ (Nat.lt_of_le_of_lt (Nat.zero_le _) h.tail_lt)

theorem empty {p : Nat} (hp : p < R) : Live decode R p p [] :=
  ⟨hp, trivial, Nat.lt_of_le_of_lt (Nat.zero_le _) hp, (Nat.mod_eq_of_lt hp).symm⟩

theorem dist_eq (h : Live decode R tail head items) : (head + R - tail) % R = total items := by
  have htail := h.tail_lt
  have htotal := h.total_lt
  rw [h.head_eq]
  rcases Nat.lt_or_ge (tail + total items) R with hlt | hge
  · rw [Nat.mod_eq_of_lt hlt, show tail + total items + R - tail = total items + R by omega,
      Nat.add_mod_right, Nat.mod_eq_of_lt htotal]
  · rw [Nat.mod_eq_sub_mod hge, Nat.mod_eq_of_lt (show tail + total items - R < R by omega),
      show tail + total items - R + R - tail = total items by omega, Nat.mod_eq_of_lt htotal]

theorem walk_eq (h : Live decode R tail head items) :
    walk decode R head tail 0 = items.map Prod.fst := by
  rw [h.head_eq]
  exact walk_chain h.tail_lt h.chain (by rw [Nat.zero_add]; exact h.total_lt)

theorem push {a : α} {n : Nat} (h : Live decode R tail head items)
    (hk : Keeps decode decode' head n) (hd : decode' head = some (a, n)) (hn : 0 < n)
    (hfit : head + n ≤ R) (hroom : total items + n < R) :
    Live decode' R tail ((head + n) % R) (items ++ [(a, n)]) := by
  have htail := h.tail_lt
  rw [h.head_eq] at hk hd hfit
  refine ⟨htail, ?_, ?_, ?_⟩
  · rw [chain_append htail]
    have hold : Chain decode R ((tail + 0) % R) items := by
      rw [Nat.add_zero, Nat.mod_eq_of_lt htail]
      exact h.chain
    have hkeep := chain_keeps_from htail hk hn (by omega) (by omega) hold
    rw [Nat.add_zero, Nat.mod_eq_of_lt htail] at hkeep
    exact ⟨hkeep, hd, hn, hfit, trivial⟩
  · rw [total_append]
    simpa using hroom
  · rw [h.head_eq, Nat.mod_add_mod, total_append]
    simp [Nat.add_assoc]

theorem restart {a : α} {p n : Nat} (hd : decode' p = some (a, n)) (hn : 0 < n)
    (hfit : p + n ≤ R) (hlt : n < R) : Live decode' R p ((p + n) % R) [(a, n)] :=
  ⟨by omega, ⟨hd, hn, hfit, trivial⟩, by simpa using hlt, by simp⟩

theorem advance {xs ys : List (α × Nat)} (h : Live decode R tail head (xs ++ ys)) :
    Live decode R ((tail + total xs) % R) head ys := by
  have htotal := h.total_lt
  rw [total_append] at htotal
  refine ⟨Nat.mod_lt _ (by omega), ((chain_append h.tail_lt xs ys).mp h.chain).2, by omega, ?_⟩
  rw [h.head_eq, total_append, Nat.mod_add_mod, Nat.add_assoc]

theorem dist_le_iff {c : Nat} (h : Live decode R tail head items) (hc : c < R) :
    (head + R - c) % R ≤ total items ↔ (c + R - tail) % R ≤ total items := by
  have htail := h.tail_lt
  have htotal := h.total_lt
  have hhead : head = tail + total items ∧ tail + total items < R ∨
      head + R = tail + total items ∧ R ≤ tail + total items := by
    rw [h.head_eq]
    rcases Nat.lt_or_ge (tail + total items) R with hlt | hge
    · exact Or.inl ⟨Nat.mod_eq_of_lt hlt, hlt⟩
    · rw [Nat.mod_eq_sub_mod hge, Nat.mod_eq_of_lt (by omega)]
      exact Or.inr ⟨by omega, hge⟩
  have hsub : ∀ a b : Nat, a < R → b < R →
      (a + R - b) % R = a - b ∧ b ≤ a ∨ (a + R - b) % R = a + R - b ∧ a < b := by
    intro a b ha hb
    rcases Nat.lt_or_ge a b with hlt | hge
    · exact Or.inr ⟨Nat.mod_eq_of_lt (by omega), hlt⟩
    · refine Or.inl ⟨?_, hge⟩
      rw [show a + R - b = a - b + R by omega, Nat.add_mod_right, Nat.mod_eq_of_lt (by omega)]
  have hd := hsub head c h.head_lt hc
  have hu := hsub c tail hc htail
  clear hsub
  generalize (head + R - c) % R = d at hd ⊢
  generalize (c + R - tail) % R = u at hu ⊢
  generalize total items = t at *
  omega

end Live

end CircularLog
