import Mathlib.Data.Set.Disjoint
import Mathlib.Logic.Function.Basic

/-! Trees of block pointers. Each root cell, and each cell of an interior block, holds the number of
a block or zero. A place is a root with the cell indices below it, the deepest first. -/

namespace PointerForest

variable {R : Type}

structure Place (R : Type) where
  root : R
  path : List Nat
  deriving DecidableEq

/-- How deep the tree of each root is, and how many cells a block has. -/
structure Shape (R : Type) where
  depth : R → Nat
  width : Nat

variable {l : Place R} {q : List Nat} {r : R}

namespace Shape

variable (sh : Shape R)

def Valid (l : Place R) : Prop := l.path.length ≤ sh.depth l.root ∧ ∀ i ∈ l.path, i < sh.width

def Inner (l : Place R) : Prop := sh.Valid l ∧ l.path.length < sh.depth l.root

theorem Inner.child {sh : Shape R} {i : Nat} (h : sh.Inner ⟨r, q⟩)
    (hi : i < sh.width) : sh.Valid ⟨r, i :: q⟩ := by
  refine ⟨h.2, ?_⟩
  rintro j (_ | ⟨_, hj⟩)
  · exact hi
  · exact h.1.2 j hj

theorem Valid.parent {sh : Shape R} {i : Nat} (h : sh.Valid ⟨r, i :: q⟩) :
    sh.Inner ⟨r, q⟩ ∧ i < sh.width := by
  refine ⟨⟨⟨Nat.le_of_lt h.1, fun j hj => h.2 j (List.mem_cons_of_mem _ hj)⟩, h.1⟩, ?_⟩
  exact h.2 i List.mem_cons_self

theorem Valid.leaf {sh : Shape R} (h : sh.Valid l) (hleaf : ¬sh.Inner l) :
    ¬l.path.length < sh.depth l.root := fun hlt => hleaf ⟨h, hlt⟩

end Shape

structure Cells (R : Type) where
  root : R → Nat
  ptr : Nat → Nat → Nat

namespace Cells

def follow (c : Cells R) (r : R) : List Nat → Nat
  | [] => c.root r
  | i :: q => if c.follow r q = 0 then 0 else c.ptr (c.follow r q) i

def get (c : Cells R) (l : Place R) : Nat := c.follow l.root l.path

variable {sh : Shape R} {c c' : Cells R}

@[simp] theorem get_root (r : R) : c.get ⟨r, []⟩ = c.root r := rfl

theorem get_cons (r : R) (i : Nat) (q : List Nat) :
    c.get ⟨r, i :: q⟩ = if c.get ⟨r, q⟩ = 0 then 0 else c.ptr (c.get ⟨r, q⟩) i := rfl

theorem get_cons_of_ne {i : Nat} (h : c.get ⟨r, q⟩ ≠ 0) :
    c.get ⟨r, i :: q⟩ = c.ptr (c.get ⟨r, q⟩) i := if_neg h

theorem parent_ne_zero {i : Nat} (h : c.get ⟨r, i :: q⟩ ≠ 0) :
    c.get ⟨r, q⟩ ≠ 0 := by
  intro hq
  rw [get_cons, if_pos hq] at h
  exact h rfl

theorem get_below_zero (h : c.get ⟨r, q⟩ = 0) (p : List Nat) :
    c.get ⟨r, p ++ q⟩ = 0 := by
  induction p with
  | nil => exact h
  | cons i p ih => rw [List.cons_append, get_cons, if_pos ih]

theorem get_congr (hroot : c'.root r = c.root r)
    (hptr : ∀ q, sh.Inner ⟨r, q⟩ → c.get ⟨r, q⟩ ≠ 0 → ∀ i, i < sh.width →
      c'.ptr (c.get ⟨r, q⟩) i = c.ptr (c.get ⟨r, q⟩) i) {p : List Nat}
    (hp : sh.Valid ⟨r, p⟩) : c'.get ⟨r, p⟩ = c.get ⟨r, p⟩ := by
  induction p with
  | nil => exact hroot
  | cons i q ih =>
    obtain ⟨hinner, hi⟩ := hp.parent
    rw [get_cons, get_cons, ih hinner.1]
    by_cases hq : c.get ⟨r, q⟩ = 0
    · rw [if_pos hq, if_pos hq]
    · rw [if_neg hq, if_neg hq, hptr q hinner hq i hi]

theorem get_erased (hroot : ∀ r, c'.root r = c.root r ∨ c'.root r = 0)
    (hptr : ∀ b i, i < sh.width → c'.ptr b i = c.ptr b i ∨ c'.ptr b i = 0)
    (hl : sh.Valid l) : c'.get l = c.get l ∨ c'.get l = 0 := by
  obtain ⟨r, p⟩ := l
  induction p with
  | nil => exact hroot r
  | cons i q ih =>
    obtain ⟨hinner, hi⟩ := hl.parent
    rw [get_cons, get_cons]
    by_cases hq : c'.get ⟨r, q⟩ = 0
    · exact Or.inr (if_pos hq)
    · have hsame := (ih hinner.1).resolve_right hq
      rw [if_neg hq, hsame, if_neg (hsame ▸ hq)]
      exact hptr _ i hi

variable [DecidableEq R]

/-- One cell gets the value `w`, below which there was and is nothing. -/
structure SetAt (sh : Shape R) (c c' : Cells R) (l₀ : Place R) (w : Nat) : Prop where
  root : ∀ r, c'.root r = if (⟨r, []⟩ : Place R) = l₀ then w else c.root r
  ptr : ∀ r q, sh.Inner ⟨r, q⟩ → c.get ⟨r, q⟩ ≠ 0 → ∀ i, i < sh.width →
    c'.ptr (c.get ⟨r, q⟩) i = if (⟨r, i :: q⟩ : Place R) = l₀ then w else c.ptr (c.get ⟨r, q⟩) i
  empty : sh.Inner l₀ → w ≠ 0 → ∀ i, i < sh.width → c'.ptr w i = 0
  bare : ∀ i, sh.Valid ⟨l₀.root, i :: l₀.path⟩ → c.get ⟨l₀.root, i :: l₀.path⟩ = 0
  parent : w ≠ 0 → ∀ i q, l₀.path = i :: q → c.get ⟨l₀.root, q⟩ ≠ 0

theorem SetAt.get {l₀ : Place R} {w : Nat} (h : SetAt sh c c' l₀ w)
    (hl : sh.Valid l) : c'.get l = if l = l₀ then w else c.get l := by
  obtain ⟨r, p⟩ := l
  induction p with
  | nil => exact h.root r
  | cons i q ih =>
    obtain ⟨hinner, hi⟩ := hl.parent
    rw [get_cons, ih hinner.1]
    by_cases hat : (⟨r, q⟩ : Place R) = l₀
    · -- just below the changed cell
      subst hat
      have hne : (⟨r, i :: q⟩ : Place R) ≠ ⟨r, q⟩ := by simp
      rw [if_pos rfl, if_neg hne, h.bare i hl]
      by_cases hw : w = 0
      · rw [if_pos hw]
      · rw [if_neg hw, h.empty hinner hw i hi]
    · rw [if_neg hat]
      by_cases hq : c.get ⟨r, q⟩ = 0
      · rw [if_pos hq, get_cons, if_pos hq]
        split
        next heq =>
          by_contra hw
          subst heq
          exact h.parent (fun hz => hw hz.symm) i q rfl hq
        next => rfl
      · rw [if_neg hq, h.ptr r q hinner hq i hi, get_cons, if_neg hq]

end Cells

section Ownership

variable (sh : Shape R) (extent : R → Nat → Set Nat)

/-- The blocks that the value `w` takes at a place: itself, or at a leaf the blocks of its extent.
-/
def claims (l : Place R) (w : Nat) : Set Nat :=
  { b | if l.path.length < sh.depth l.root then b = w ∧ b ≠ 0 else b ∈ extent l.root w }

def owns (c : Cells R) (l : Place R) : Set Nat := claims sh extent l (c.get l)

def owned (c : Cells R) : Set Nat := { b | ∃ l, sh.Valid l ∧ b ∈ owns sh extent c l }

def Separated (c : Cells R) : Prop :=
  ∀ l l', sh.Valid l → sh.Valid l' → ∀ b, b ∈ owns sh extent c l → b ∈ owns sh extent c l' → l = l'

variable {sh extent} {c c' : Cells R}

theorem mem_claims_inner {w b : Nat} (h : l.path.length < sh.depth l.root) :
    b ∈ claims sh extent l w ↔ b = w ∧ b ≠ 0 := by
  rw [claims, Set.mem_ofPred_eq, if_pos h]

theorem mem_claims_leaf {w b : Nat} (h : ¬l.path.length < sh.depth l.root) :
    b ∈ claims sh extent l w ↔ b ∈ extent l.root w := by
  rw [claims, Set.mem_ofPred_eq, if_neg h]

theorem owns_inner (h : sh.Inner l) (hne : c.get l ≠ 0) :
    c.get l ∈ owns sh extent c l :=
  (mem_claims_inner h.2).mpr ⟨rfl, hne⟩

theorem get_ne_zero_of_owns (hext : ∀ r, extent r 0 = ∅) {b : Nat}
    (hb : b ∈ owns sh extent c l) : c.get l ≠ 0 := by
  intro hz
  rw [owns, hz] at hb
  by_cases hl : l.path.length < sh.depth l.root
  · rw [mem_claims_inner hl] at hb
    exact hb.2 hb.1
  · rw [mem_claims_leaf hl, hext] at hb
    exact hb.elim

theorem Separated.inner_inj (hs : Separated sh extent c) {l l' : Place R} (h : sh.Inner l)
    (h' : sh.Inner l') (hne : c.get l ≠ 0) (heq : c.get l' = c.get l) : l = l' := by
  apply hs l l' h.1 h'.1 (c.get l) (owns_inner h hne)
  rw [← heq]
  exact owns_inner h' (by rwa [heq])

theorem separated_inner (h : ∀ l l', sh.Inner l → sh.Inner l' → c.get l ≠ 0 → c.get l' = c.get l →
    l = l') : Separated sh (fun _ _ => ∅) c := by
  intro l l' hl hl' b hb hb'
  by_cases hin : l.path.length < sh.depth l.root
  · by_cases hin' : l'.path.length < sh.depth l'.root
    · obtain ⟨hget, hne⟩ := (mem_claims_inner hin).mp hb
      obtain ⟨hget', -⟩ := (mem_claims_inner hin').mp hb'
      rw [hget] at hne
      exact h l l' ⟨hl, hin⟩ ⟨hl', hin'⟩ hne (hget'.symm.trans hget)
    · exact ((mem_claims_leaf hin').mp hb').elim
  · exact ((mem_claims_leaf hin).mp hb).elim

theorem separated_of_injective (hroot : ∀ r r', c.root r ≠ 0 → c.root r' = c.root r → r' = r)
    (hptr : ∀ b b' i i', i < sh.width → i' < sh.width → c.ptr b i ≠ 0 → c.ptr b' i' = c.ptr b i →
      b' = b ∧ i' = i)
    (hmixed : ∀ r b i, i < sh.width → c.root r ≠ 0 → c.ptr b i ≠ c.root r) :
    Separated sh (fun _ _ => ∅) c := by
  have hinj : ∀ r p, sh.Valid ⟨r, p⟩ → c.get ⟨r, p⟩ ≠ 0 → ∀ r' p', sh.Valid ⟨r', p'⟩ →
      c.get ⟨r', p'⟩ = c.get ⟨r, p⟩ → (⟨r', p'⟩ : Place R) = ⟨r, p⟩ := by
    intro r p
    induction p with
    | nil =>
      intro _ hne r' p' hl' heq
      cases p' with
      | nil => rw [hroot r r' hne heq]
      | cons i' q' =>
        have hcell := Cells.get_cons_of_ne (i := i') (Cells.parent_ne_zero (heq ▸ hne))
        exact absurd (hcell.symm.trans heq) (hmixed r _ i' hl'.parent.2 hne)
    | cons i q ih =>
      intro hl hne r' p' hl' heq
      have hcell := Cells.get_cons_of_ne (i := i) (Cells.parent_ne_zero hne)
      cases p' with
      | nil =>
        refine absurd (hcell.symm.trans heq.symm) (hmixed r' _ i hl.parent.2 ?_)
        rw [← Cells.get_root, heq]
        exact hne
      | cons i' q' =>
        have hcell' := Cells.get_cons_of_ne (i := i') (Cells.parent_ne_zero (heq ▸ hne))
        rw [hcell] at hne
        obtain ⟨hblock, rfl⟩ := hptr _ _ i i' hl.parent.2 hl'.parent.2 hne
          (hcell'.symm.trans (heq.trans hcell))
        have hparent : c.get ⟨r, q⟩ ≠ 0 := Cells.parent_ne_zero (hcell ▸ hne)
        cases ih hl.parent.1.1 hparent r' q' hl'.parent.1.1 hblock
        rfl
  exact separated_inner fun l l' hin hin' hne heq => (hinj _ _ hin.1 hne _ _ hin'.1 heq).symm

theorem owned_congr (h : ∀ l, sh.Valid l → c'.get l = c.get l) (b : Nat) :
    b ∈ owned sh extent c' ↔ b ∈ owned sh extent c := by
  constructor
  · rintro ⟨l, hl, hb⟩
    exact ⟨l, hl, by rwa [owns, h l hl] at hb⟩
  · rintro ⟨l, hl, hb⟩
    exact ⟨l, hl, by rwa [owns, h l hl]⟩

theorem Separated.congr (hs : Separated sh extent c) (h : ∀ l, sh.Valid l → c'.get l = c.get l) :
    Separated sh extent c' := by
  intro l l' hl hl' b hb hb'
  rw [owns, h l hl] at hb
  rw [owns, h l' hl'] at hb'
  exact hs l l' hl hl' b hb hb'

structure Erased (sh : Shape R) (keep : Place R → Prop) (c c' : Cells R) : Prop where
  sub : ∀ l, sh.Valid l → c'.get l = c.get l ∨ c'.get l = 0
  kept : ∀ l, sh.Valid l → keep l → c'.get l = c.get l

namespace Erased

variable {keep : Place R → Prop} {c'' : Cells R}

theorem refl : Erased sh keep c c := ⟨fun _ _ => Or.inl rfl, fun _ _ _ => rfl⟩

theorem get_of_ne (h : Erased sh keep c c') (hl : sh.Valid l) (hne : c'.get l ≠ 0) :
    c'.get l = c.get l := (h.sub l hl).resolve_right hne

theorem owns_subset (hext : ∀ r, extent r 0 = ∅) (h : Erased sh keep c c')
    (hl : sh.Valid l) {b : Nat} (hb : b ∈ owns sh extent c' l) : b ∈ owns sh extent c l := by
  have hsame := h.get_of_ne hl (get_ne_zero_of_owns hext hb)
  rwa [owns, hsame] at hb

theorem owned_subset (hext : ∀ r, extent r 0 = ∅) (h : Erased sh keep c c') {b : Nat}
    (hb : b ∈ owned sh extent c') : b ∈ owned sh extent c := by
  obtain ⟨l, hl, hown⟩ := hb
  exact ⟨l, hl, h.owns_subset hext hl hown⟩

theorem separated (hext : ∀ r, extent r 0 = ∅) (h : Erased sh keep c c')
    (hs : Separated sh extent c) : Separated sh extent c' := by
  intro l l' hl hl' b hb hb'
  exact hs l l' hl hl' b (h.owns_subset hext hl hb) (h.owns_subset hext hl' hb')

theorem not_owned (hext : ∀ r, extent r 0 = ∅) (h : Erased sh keep c c')
    (hs : Separated sh extent c) {b : Nat} (hl : sh.Valid l)
    (hb : b ∈ owns sh extent c l) (hzero : c'.get l = 0) : b ∉ owned sh extent c' := by
  rintro ⟨l', hl', hb'⟩
  have hplace := hs l' l hl' hl b (h.owns_subset hext hl' hb') hb
  rw [hplace] at hb'
  exact get_ne_zero_of_owns hext hb' hzero

/-- More cells lose their values: roots, and cells of interior blocks reached outside `keep` only.
-/
theorem step (h : Erased sh keep c c') (hs : Separated sh extent c)
    (hclosed : ∀ r i q, keep ⟨r, i :: q⟩ → keep ⟨r, q⟩)
    (hroot : ∀ r, c''.root r = c'.root r ∨ c''.root r = 0 ∧ ¬keep ⟨r, []⟩)
    (hptr : ∀ b i, i < sh.width → c''.ptr b i = c'.ptr b i ∨ c''.ptr b i = 0 ∧
      ∃ r q, sh.Inner ⟨r, q⟩ ∧ c.get ⟨r, q⟩ = b ∧ b ≠ 0 ∧ ¬keep ⟨r, i :: q⟩) :
    Erased sh keep c c'' := by
  refine ⟨fun l hl => ?_, fun l hl hkeep => ?_⟩
  · have hsub := Cells.get_erased (fun r => (hroot r).imp_right And.left)
      (fun b i hi => (hptr b i hi).imp_right And.left) hl
    rcases hsub with hsame | hnone
    · rw [hsame]
      exact h.sub l hl
    · exact Or.inr hnone
  · obtain ⟨r, p⟩ := l
    induction p with
    | nil =>
      rcases hroot r with hsame | ⟨-, hout⟩
      · rw [Cells.get_root, hsame]
        exact h.kept _ hl hkeep
      · exact absurd hkeep hout
    | cons i p ih =>
      obtain ⟨hinner, hi⟩ := hl.parent
      have hup := hclosed r i p hkeep
      have hparent := ih hinner.1 hup
      have hold := h.kept _ hl hkeep
      have hold' := h.kept _ hinner.1 hup
      by_cases hz : c.get ⟨r, p⟩ = 0
      · rw [Cells.get_cons, hparent, if_pos hz, Cells.get_cons, if_pos hz]
      · rcases hptr (c.get ⟨r, p⟩) i hi with hsame | ⟨-, r', q, hin, hget, hne, hout⟩
        · rw [Cells.get_cons, hparent, if_neg hz, hsame, ← hold, Cells.get_cons, hold', if_neg hz]
        · -- no two places share a block, so the erased cell is the one on the way
          cases hs.inner_inj hinner hin hne hget
          exact absurd hkeep hout

end Erased

variable [DecidableEq R]

theorem Separated.setAt {l₀ : Place R} {w : Nat} (hs : Separated sh extent c)
    (h : Cells.SetAt sh c c' l₀ w)
    (hfresh : ∀ b ∈ claims sh extent l₀ w, ∀ l, sh.Valid l → l ≠ l₀ → b ∉ owns sh extent c l) :
    Separated sh extent c' := by
  have hsame : ∀ l, sh.Valid l → l ≠ l₀ → owns sh extent c' l = owns sh extent c l := by
    intro l hl hne
    rw [owns, owns, h.get hl, if_neg hne]
  have hnew : sh.Valid l₀ → owns sh extent c' l₀ = claims sh extent l₀ w := by
    intro hl
    rw [owns, h.get hl, if_pos rfl]
  intro l l' hl hl' b hb hb'
  by_cases hat : l = l₀
  · by_cases hat' : l' = l₀
    · rw [hat, hat']
    · subst hat
      rw [hnew hl] at hb
      rw [hsame l' hl' hat'] at hb'
      exact absurd hb' (hfresh b hb l' hl' hat')
  · by_cases hat' : l' = l₀
    · subst hat'
      rw [hnew hl'] at hb'
      rw [hsame l hl hat] at hb
      exact absurd hb (hfresh b hb' l hl hat)
    · rw [hsame l hl hat] at hb
      rw [hsame l' hl' hat'] at hb'
      exact hs l l' hl hl' b hb hb'

theorem owned_setAt {l₀ : Place R} {w : Nat} (hl₀ : sh.Valid l₀) (hs : Separated sh extent c)
    (h : Cells.SetAt sh c c' l₀ w) (b : Nat) : b ∈ owned sh extent c' ↔
      b ∈ claims sh extent l₀ w ∨ (b ∈ owned sh extent c ∧ b ∉ owns sh extent c l₀) := by
  constructor
  · rintro ⟨l, hl, hb⟩
    rw [owns, h.get hl] at hb
    by_cases hat : l = l₀
    · rw [if_pos hat, hat] at hb
      exact Or.inl hb
    · rw [if_neg hat] at hb
      exact Or.inr ⟨⟨l, hl, hb⟩, fun hb₀ => hat (hs l l₀ hl hl₀ b hb hb₀)⟩
  · rintro (hb | ⟨⟨l, hl, hb⟩, hb₀⟩)
    · refine ⟨l₀, hl₀, ?_⟩
      rw [owns, h.get hl₀, if_pos rfl]
      exact hb
    · have hat : l ≠ l₀ := by
        rintro rfl
        exact hb₀ hb
      refine ⟨l, hl, ?_⟩
      rw [owns, h.get hl, if_neg hat]
      exact hb

theorem Cells.SetAt.of_cell {i p w : Nat} (hs : Separated sh extent c)
    (hin : sh.Inner ⟨r, q⟩) (hleaf : ¬sh.Inner ⟨r, i :: q⟩) (hp : c.get ⟨r, q⟩ = p) (hne : p ≠ 0)
    (hroot : c'.root = c.root)
    (hptr : ∀ b j, j < sh.width → c'.ptr b j = if b = p ∧ j = i then w else c.ptr b j) :
    Cells.SetAt sh c c' ⟨r, i :: q⟩ w := by
  refine ⟨fun r' => ?_, fun r' q' hin' hne' j hj => ?_, fun h => absurd h hleaf, fun j hv => ?_,
    fun _ j q' hq => ?_⟩
  · rw [if_neg (by simp), hroot]
  · rw [hptr _ j hj]
    by_cases hsame : c.get ⟨r', q'⟩ = p
    · have hplace := hs.inner_inj hin hin' (hp ▸ hne) (hsame.trans hp.symm)
      cases hplace
      simp [hp]
    · have hother : (⟨r', j :: q'⟩ : Place R) ≠ ⟨r, i :: q⟩ := by
        intro heq
        cases heq
        exact hsame hp
      rw [if_neg hother, if_neg fun h => hsame h.1]
  · exact absurd hv.parent.1 hleaf
  · cases hq
    rw [hp]
    exact hne

end Ownership

end PointerForest
