import Oifs.PointerForest

/-! A forest of pointers that is extended by links to new blocks. The links are recorded over the cells
that stand below; a new block counts as empty while they are made, but its old cells show through where
no link is recorded. -/

namespace PointerForest

variable {R : Type} {sh : Shape R} {c : Cells R}

structure Overlay (R : Type) where
  root : R → Nat
  link : Nat → Nat → Option Nat
  taken : List Nat

namespace Overlay

def cells (o : Overlay R) (c : Cells R) : Cells R := ⟨o.root, fun p k => (o.link p k).getD (c.ptr p k)⟩

/-- The cell as it is seen while links are made. -/
def seen (o : Overlay R) (c : Cells R) (p k : Nat) : Nat :=
  (o.link p k).getD (if p ∈ o.taken then 0 else c.ptr p k)

/-- The block `b` stands at a place by links, or by cells of the forest below. -/
def Leads (c : Cells R) (o : Overlay R) (r : R) : List Nat → Nat → Prop
  | [], b => o.root r = b ∧ b ≠ 0
  | k :: q, b => b ≠ 0 ∧ ∃ p, Leads c o r q p ∧
    (o.link p k = some b ∨ c.get ⟨r, q⟩ = p ∧ c.ptr p k = b)

variable {o o' : Overlay R} {r : R} {q : List Nat} {b p k : Nat}

theorem Leads.ne_zero (h : Leads c o r q b) : b ≠ 0 := by
  cases q with
  | nil => exact h.2
  | cons k q => exact h.1

structure Le (o o' : Overlay R) : Prop where
  root : ∀ r, o.root r ≠ 0 → o'.root r = o.root r
  link : ∀ p k b, o.link p k = some b → o'.link p k = some b

theorem Le.refl (o : Overlay R) : Le o o := ⟨fun _ _ => rfl, fun _ _ _ h => h⟩

theorem Le.trans {o₁ : Overlay R} (h : Le o o₁) (h' : Le o₁ o') : Le o o' where
  root r hne := by
    have hroot := h.root r hne
    rw [h'.root r (hroot ▸ hne), hroot]
  link p k b hb := h'.link p k b (h.link p k b hb)

theorem Leads.mono (hle : Le o o') (h : Leads c o r q b) : Leads c o' r q b := by
  induction q generalizing b with
  | nil =>
    obtain ⟨rfl, hne⟩ := h
    exact ⟨hle.root r hne, hne⟩
  | cons k q ih =>
    obtain ⟨hne, p, hp, hstep⟩ := h
    exact ⟨hne, p, ih hp, hstep.imp_left (hle.link p k b)⟩

theorem Leads.suffix {x : List Nat} (h : Leads c o r (x ++ q) b) : ∃ p, Leads c o r q p := by
  induction x generalizing b with
  | nil => exact ⟨b, h⟩
  | cons k x ih =>
    obtain ⟨-, p, hp, -⟩ := h
    exact ih hp

def linkRoot [DecidableEq R] (o : Overlay R) (r : R) (b : Nat) : Overlay R :=
  ⟨Function.update o.root r b, o.link, b :: o.taken⟩

def linkCell (o : Overlay R) (p k b : Nat) : Overlay R :=
  ⟨o.root, fun p' k' => if p' = p ∧ k' = k then some b else o.link p' k', b :: o.taken⟩

theorem le_linkRoot [DecidableEq R] (hzero : o.root r = 0) (b : Nat) : Le o (o.linkRoot r b) where
  root r' hne := by
    refine Function.update_of_ne ?_ _ _
    rintro rfl
    exact hne hzero
  link _ _ _ h := h

theorem le_linkCell (hnone : o.link p k = none) (b : Nat) : Le o (o.linkCell p k b) where
  root _ _ := rfl
  link p' k' b' h := by
    refine (if_neg ?_).trans h
    rintro ⟨rfl, rfl⟩
    rw [hnone] at h
    cases h

/-- What holds while links are made for the places of `touched`. -/
structure Grown (sh : Shape R) (c : Cells R) (touched : Place R → Prop) (o : Overlay R) : Prop where
  root : ∀ r, o.root r ≠ c.root r →
    c.root r = 0 ∧ o.root r ∈ o.taken ∧ o.root r ≠ 0 ∧ touched ⟨r, []⟩
  link : ∀ p k b, o.link p k = some b → b ∈ o.taken ∧ b ≠ 0 ∧ (c.ptr p k = 0 ∨ p ∈ o.taken) ∧
    ∃ r q, sh.Inner ⟨r, q⟩ ∧ Leads c o r q p ∧ touched ⟨r, k :: q⟩
  root_inj : ∀ r r', o.root r ≠ c.root r → o.root r' ≠ c.root r' → o.root r = o.root r' → r = r'
  link_inj : ∀ p k p' k' b, o.link p k = some b → o.link p' k' = some b → p = p' ∧ k = k'
  apart : ∀ r p k, o.root r ≠ c.root r → o.link p k ≠ some (o.root r)

namespace Grown

variable {touched : Place R → Prop}

theorem start (hroot : o.root = c.root) (hlink : ∀ p k, o.link p k = none) :
    Grown sh c touched o where
  root r h := absurd (congrFun hroot r) h
  link p k b h := by
    rw [hlink] at h
    cases h
  root_inj r r' h := absurd (congrFun hroot r) h
  link_inj p k p' k' b h := by
    rw [hlink] at h
    cases h
  apart r p k h := absurd (congrFun hroot r) h

/-- A block that is not new stands where it stood before. -/
theorem old (h : Grown sh c touched o) (hlead : Leads c o r q b) (hb : b ∉ o.taken) :
    c.get ⟨r, q⟩ = b := by
  cases q with
  | nil =>
    obtain ⟨rfl, -⟩ := hlead
    by_contra hne
    exact hb (h.root r (Ne.symm hne)).2.1
  | cons k q =>
    obtain ⟨-, p, hp, hlink | ⟨hget, hptr⟩⟩ := hlead
    · exact absurd (h.link p k b hlink).1 hb
    · rw [Cells.get_cons_of_ne (by rw [hget]; exact hp.ne_zero), hget, hptr]

theorem leads_old (h : Grown sh c touched o) (hne : c.get ⟨r, q⟩ ≠ 0) :
    Leads c o r q (c.get ⟨r, q⟩) := by
  induction q with
  | nil =>
    refine ⟨?_, hne⟩
    by_contra hnew
    exact hne (h.root r hnew).1
  | cons k q ih =>
    have hparent := Cells.parent_ne_zero hne
    exact ⟨hne, _, ih hparent, .inr ⟨rfl, (Cells.get_cons_of_ne hparent).symm⟩⟩

/-- What the cell is seen to hold stands below its block. -/
theorem leads_seen (h : Grown sh c touched o) (hlead : Leads c o r q p) (hne : o.seen c p k ≠ 0) :
    Leads c o r (k :: q) (o.seen c p k) := by
  refine ⟨hne, p, hlead, ?_⟩
  unfold seen at hne ⊢
  cases hlink : o.link p k with
  | some b => exact .inl rfl
  | none =>
    rw [hlink, Option.getD_none] at hne
    rw [Option.getD_none]
    split at hne
    next => exact absurd rfl hne
    next htaken =>
      rw [if_neg htaken]
      exact .inr ⟨h.old hlead htaken, rfl⟩

theorem linkRoot [DecidableEq R] (h : Grown sh c touched o) (hzero : o.root r = 0)
    (hnew : b ∉ o.taken) (hb : b ≠ 0) (ht : touched ⟨r, []⟩) :
    Grown sh c touched (o.linkRoot r b) := by
  have hold : c.root r = 0 := by
    by_contra hne
    have hchanged : o.root r ≠ c.root r := by
      rw [hzero]
      exact Ne.symm hne
    exact hne (h.root r hchanged).1
  have hkeep : ∀ r', r' ≠ r → Function.update o.root r b r' = o.root r' :=
    fun r' hr => Function.update_of_ne hr _ _
  unfold Overlay.linkRoot
  refine ⟨fun r' hr => ?_, fun p k b' hlink => ?_, fun r₁ r₂ h₁ h₂ heq => ?_, h.link_inj,
    fun r' p k hr => ?_⟩
  · by_cases hsame : r' = r
    · subst hsame
      simp only [Function.update_self]
      exact ⟨hold, List.mem_cons_self, hb, ht⟩
    · simp only [hkeep r' hsame] at hr ⊢
      obtain ⟨hz, hin, hrest⟩ := h.root r' hr
      exact ⟨hz, List.mem_cons_of_mem b hin, hrest⟩
  · obtain ⟨hin, hne, hfree, r', q', hinner, hlead, htouched⟩ := h.link p k b' hlink
    exact ⟨List.mem_cons_of_mem b hin, hne, hfree.imp_right (List.mem_cons_of_mem b), r', q', hinner,
      hlead.mono (le_linkRoot hzero b), htouched⟩
  · have hfresh : ∀ r', r' ≠ r → o.root r' ≠ c.root r' → o.root r' ≠ b := by
      rintro r' - hr rfl
      exact hnew (h.root r' hr).2.1
    by_cases h₁' : r₁ = r
    · by_cases h₂' : r₂ = r
      · rw [h₁', h₂']
      · simp only [h₁', Function.update_self, hkeep r₂ h₂'] at heq h₂
        exact absurd heq.symm (hfresh r₂ h₂' h₂)
    · by_cases h₂' : r₂ = r
      · simp only [h₂', Function.update_self, hkeep r₁ h₁'] at heq h₁
        exact absurd heq (hfresh r₁ h₁' h₁)
      · simp only [hkeep r₁ h₁', hkeep r₂ h₂'] at heq h₁ h₂
        exact h.root_inj r₁ r₂ h₁ h₂ heq
  · by_cases hsame : r' = r
    · subst hsame
      simp only [Function.update_self]
      exact fun hlink => hnew (h.link p k b hlink).1
    · simp only [hkeep r' hsame] at hr ⊢
      exact h.apart r' p k hr

theorem linkCell (h : Grown sh c touched o) (hin : sh.Inner ⟨r, q⟩) (hlead : Leads c o r q p)
    (hnone : o.link p k = none) (hzero : o.seen c p k = 0) (hnew : b ∉ o.taken) (hb : b ≠ 0)
    (ht : touched ⟨r, k :: q⟩) : Grown sh c touched (o.linkCell p k b) := by
  have hnever : ∀ p' k', o.link p' k' ≠ some b := fun p' k' hlink => hnew (h.link p' k' b hlink).1
  have hle := le_linkCell hnone b
  unfold Overlay.linkCell at hle ⊢
  refine ⟨fun r' hr => ?_, fun p' k' b' hlink => ?_, h.root_inj, fun p₁ k₁ p₂ k₂ b' h₁ h₂ => ?_,
    fun r' p' k' hr hlink => ?_⟩
  · obtain ⟨hz, hmem, hrest⟩ := h.root r' hr
    exact ⟨hz, List.mem_cons_of_mem b hmem, hrest⟩
  · dsimp only at hlink
    split at hlink
    next heq =>
      obtain ⟨rfl, rfl⟩ := heq
      cases hlink
      refine ⟨List.mem_cons_self, hb, ?_, r, q, hin, hlead.mono hle, ht⟩
      unfold seen at hzero
      rw [hnone, Option.getD_none] at hzero
      split at hzero
      next htaken => exact .inr (List.mem_cons_of_mem b htaken)
      next => exact .inl hzero
    next =>
      obtain ⟨hmem, hne, hfree, r', q', hinner, hlead', htouched⟩ := h.link p' k' b' hlink
      exact ⟨List.mem_cons_of_mem b hmem, hne, hfree.imp_right (List.mem_cons_of_mem b), r', q', hinner,
        hlead'.mono hle, htouched⟩
  · dsimp only at h₁ h₂
    split at h₁
    next heq₁ =>
      cases h₁
      split at h₂
      next heq₂ => exact ⟨heq₁.1.trans heq₂.1.symm, heq₁.2.trans heq₂.2.symm⟩
      next => exact absurd h₂ (hnever p₂ k₂)
    next =>
      split at h₂
      next =>
        cases h₂
        exact absurd h₁ (hnever p₁ k₁)
      next => exact h.link_inj p₁ k₁ p₂ k₂ b' h₁ h₂
  · dsimp only at hlink
    split at hlink
    next =>
      refine hnew ?_
      rw [Option.some.inj hlink]
      exact (h.root r' hr).2.1
    next => exact h.apart r' p' k' hr hlink

end Grown

/-- The blocks that got links: a new one was no pointer block before, an old one stands at one place
only. -/
structure Clean (sh : Shape R) (c : Cells R) (o : Overlay R) : Prop where
  fresh : ∀ p k, o.link p k ≠ none → p ∈ o.taken → ∀ l, sh.Inner l → c.get l ≠ p
  once : ∀ p k, o.link p k ≠ none → p ∉ o.taken → ∀ l l', sh.Inner l → sh.Inner l' →
    c.get l = p → c.get l' = p → l = l'

/-- The places on the ways to `leaves`. -/
def Ways (leaves : Place R → Prop) (l : Place R) : Prop :=
  ∃ t, leaves t ∧ l.root = t.root ∧ l.path <:+ t.path

/-- The block `b`, read as a tree of the given height, leads to no block. -/
def Barren (c : Cells R) (width : Nat) : Nat → Nat → Prop
  | 0, b => b = 0
  | height + 1, b => b ≠ 0 → ∀ k, k < width → Barren c width height (c.ptr b k)

theorem barren_zero (c : Cells R) (width height : Nat) : Barren c width height 0 := by
  cases height with
  | zero => rfl
  | succ height => exact fun hne => absurd rfl hne

theorem barren_iff {width height : Nat} : Barren c width height (c.get ⟨r, q⟩) ↔
    ∀ x : List Nat, x.length = height → (∀ k ∈ x, k < width) → c.get ⟨r, x ++ q⟩ = 0 := by
  induction height generalizing q with
  | zero =>
    constructor
    · rintro h x hx -
      rw [List.eq_nil_of_length_eq_zero hx]
      exact h
    · exact fun h => h [] rfl (by simp)
  | succ height ih =>
    constructor
    · intro h x hx hbound
      obtain ⟨y, k, rfl⟩ : ∃ y k, x = y ++ [k] :=
        ⟨_, _, (List.dropLast_concat_getLast (List.ne_nil_of_length_eq_add_one hx)).symm⟩
      rw [List.append_assoc, List.singleton_append]
      by_cases hzero : c.get ⟨r, q⟩ = 0
      · rw [List.append_cons]
        exact Cells.get_below_zero hzero _
      · have hbelow := h hzero k (hbound k (by simp))
        rw [← Cells.get_cons_of_ne hzero] at hbelow
        refine ih.mp hbelow y ?_ fun j hj => hbound j (List.mem_append_left _ hj)
        simpa using hx
    · intro h hne k hk
      rw [← Cells.get_cons_of_ne hne]
      refine ih.mpr fun y hy hbound => ?_
      rw [List.append_cons]
      refine h (y ++ [k]) (by simp [hy]) fun j hj => ?_
      rcases List.mem_append.mp hj with hj | hj
      · exact hbound j hj
      · rwa [List.mem_singleton.mp hj]

namespace Grown

variable {touched : Place R → Prop}

/-- A place where a block stands holds it in the extended forest. -/
theorem get_of_leads (h : Grown sh c touched o) (hc : Clean sh c o) (hlead : Leads c o r q b)
    (hl : sh.Valid ⟨r, q⟩) : (o.cells c).get ⟨r, q⟩ = b := by
  induction q generalizing b with
  | nil => exact hlead.1
  | cons k q ih =>
    obtain ⟨hne, p, hp, hstep⟩ := hlead
    have hget := ih hp hl.parent.1.1
    rw [Cells.get_cons_of_ne (by rw [hget]; exact hp.ne_zero), hget]
    change (o.link p k).getD (c.ptr p k) = b
    rcases hstep with hlink | ⟨hold, hptr⟩
    · rw [hlink, Option.getD_some]
    · cases hlink : o.link p k with
      | none => exact hptr
      | some b' =>
        rcases (h.link p k b' hlink).2.2.1 with hzero | htaken
        · exact absurd (hptr.symm.trans hzero) hne
        · exact absurd hold (hc.fresh p k (by simp [hlink]) htaken _ hl.parent.1)

theorem get_old (h : Grown sh c touched o) (hc : Clean sh c o) {l : Place R} (hl : sh.Valid l)
    (hne : c.get l ≠ 0) : (o.cells c).get l = c.get l :=
  h.get_of_leads hc (h.leads_old hne) hl

/-- A block with links stands at one place. -/
theorem place_unique (h : Grown sh c touched o) (hc : Clean sh c o) {r' : R} {q' : List Nat}
    (hlead : Leads c o r q p) (hlead' : Leads c o r' q' p) (hin : sh.Inner ⟨r, q⟩)
    (hin' : sh.Inner ⟨r', q'⟩) (hlink : o.link p k ≠ none) :
    (⟨r, q⟩ : Place R) = ⟨r', q'⟩ := by
  induction q generalizing r r' q' p k with
  | nil =>
    by_cases htaken : p ∈ o.taken
    · have hnew : o.root r ≠ c.root r := by
        intro hsame
        exact hc.fresh p k hlink htaken _ hin (hsame.symm.trans hlead.1)
      cases q' with
      | nil =>
        have hnew' : o.root r' ≠ c.root r' := by
          intro hsame
          exact hc.fresh p k hlink htaken _ hin' (hsame.symm.trans hlead'.1)
        rw [h.root_inj r r' hnew hnew' (hlead.1.trans hlead'.1.symm)]
      | cons k' q' =>
        obtain ⟨-, p', hp', hlink' | ⟨hget, hptr⟩⟩ := hlead'
        · exact absurd (hlead.1 ▸ hlink') (h.apart r p' k' hnew)
        · refine absurd ?_ (hc.fresh p k hlink htaken _ hin')
          rw [Cells.get_cons_of_ne (by rw [hget]; exact hp'.ne_zero), hget, hptr]
    · exact hc.once p k hlink htaken _ _ hin hin' (h.old hlead htaken) (h.old hlead' htaken)
  | cons k₁ q ih =>
    by_cases htaken : p ∈ o.taken
    · have hfresh := hc.fresh p k hlink htaken
      obtain ⟨-, p₁, hp₁, hlink₁ | ⟨hget, hptr⟩⟩ := hlead
      · cases q' with
        | nil =>
          have hnew' : o.root r' ≠ c.root r' := by
            intro hsame
            exact hfresh _ hin' (hsame.symm.trans hlead'.1)
          exact absurd (hlead'.1 ▸ hlink₁) (h.apart r' p₁ k₁ hnew')
        | cons k₂ q' =>
          obtain ⟨-, p₂, hp₂, hlink₂ | ⟨hget, hptr⟩⟩ := hlead'
          · obtain ⟨rfl, rfl⟩ := h.link_inj p₁ k₁ p₂ k₂ p hlink₁ hlink₂
            cases ih hp₁ hp₂ hin.1.parent.1 hin'.1.parent.1 (by rw [hlink₁]; exact Option.some_ne_none p)
            rfl
          · refine absurd ?_ (hfresh _ hin')
            rw [Cells.get_cons_of_ne (by rw [hget]; exact hp₂.ne_zero), hget, hptr]
      · refine absurd ?_ (hfresh _ hin)
        rw [Cells.get_cons_of_ne (by rw [hget]; exact hp₁.ne_zero), hget, hptr]
    · exact hc.once p k hlink htaken _ _ hin hin' (h.old hlead htaken) (h.old hlead' htaken)

/-- Where something new stands, a link was asked for. -/
theorem touched_of_new (h : Grown sh c touched o) (hc : Clean sh c o) (hlead : Leads c o r q b)
    (hl : sh.Valid ⟨r, q⟩) (hnew : c.get ⟨r, q⟩ ≠ b) : touched ⟨r, q⟩ := by
  cases q with
  | nil =>
    refine (h.root r fun hsame => hnew ?_).2.2.2
    exact hsame.symm.trans hlead.1
  | cons k q =>
    obtain ⟨-, p, hp, hlink | ⟨hget, hptr⟩⟩ := hlead
    · obtain ⟨-, -, -, r', q', hinner, hlead', ht⟩ := h.link p k b hlink
      cases h.place_unique hc hlead' hp hinner hl.parent.1 (by rw [hlink]; exact Option.some_ne_none b)
      exact ht
    · refine absurd ?_ hnew
      rw [Cells.get_cons_of_ne (by rw [hget]; exact hp.ne_zero), hget, hptr]

/-- What stands somewhere stands there by links or from before, or below a cell of a new pointer block
that got no link. -/
theorem leads_or_stale (hne : (o.cells c).get ⟨r, q⟩ ≠ 0) :
    Leads c o r q ((o.cells c).get ⟨r, q⟩) ∨ ∃ x k q', q = x ++ k :: q' ∧
      Leads c o r q' ((o.cells c).get ⟨r, q'⟩) ∧ c.get ⟨r, q'⟩ ≠ (o.cells c).get ⟨r, q'⟩ ∧
      o.link ((o.cells c).get ⟨r, q'⟩) k = none := by
  induction q with
  | nil => exact .inl ⟨rfl, hne⟩
  | cons k q ih =>
    have hparent := Cells.parent_ne_zero hne
    rcases ih hparent with hlead | ⟨x, k', q', rfl, hstale⟩
    · cases hlink : o.link ((o.cells c).get ⟨r, q⟩) k with
      | some b =>
        refine .inl ⟨hne, _, hlead, .inl ?_⟩
        rw [Cells.get_cons_of_ne hparent, hlink]
        change some b = some ((o.link _ k).getD _)
        rw [hlink, Option.getD_some]
      | none =>
        by_cases hold : c.get ⟨r, q⟩ = (o.cells c).get ⟨r, q⟩
        · refine .inl ⟨hne, _, hlead, .inr ⟨hold, ?_⟩⟩
          rw [Cells.get_cons_of_ne hparent]
          change c.ptr _ k = (o.link _ k).getD _
          rw [hlink, Option.getD_none]
        · exact .inr ⟨[], k, q, rfl, hlead, hold, hlink⟩
    · exact .inr ⟨k :: x, k', q', rfl, hstale⟩

variable {leaves : Place R → Prop}

/-- Nothing new stands away from the ways exactly if the cells without a link of the new pointer blocks
lead to no block. -/
theorem away_iff (h : Grown sh c (Ways leaves) o) (hc : Clean sh c o)
    (hleaf : ∀ t, leaves t → sh.Valid t ∧ ¬sh.Inner t ∧ ∃ b, Leads c o t.root t.path b) :
    (∀ t, sh.Valid t → ¬sh.Inner t → c.get t = 0 → ¬leaves t → (o.cells c).get t = 0) ↔
      ∀ l, sh.Inner l → Ways leaves l → c.get l = 0 → ∀ k, k < sh.width →
        o.link ((o.cells c).get l) k = none →
          Barren (o.cells c) sh.width (sh.depth l.root - (l.path.length + 1))
            (c.ptr ((o.cells c).get l) k) := by
  have hcell : ∀ {p k}, o.link p k = none → c.ptr p k = (o.cells c).ptr p k := by
    intro p k hnone
    change c.ptr p k = (o.link p k).getD _
    rw [hnone, Option.getD_none]
  constructor
  · rintro haway ⟨r, q⟩ hin ⟨t, ht, hroot, y, hy⟩ hempty k hk hnone
    obtain ⟨-, -, b, hb⟩ := hleaf t ht
    rw [← hroot, ← hy] at hb
    obtain ⟨p, hp⟩ := hb.suffix
    have hget := h.get_of_leads hc hp hin.1
    rw [hcell hnone, ← Cells.get_cons_of_ne (by rw [hget]; exact hp.ne_zero)]
    refine barren_iff.mpr fun x hx hbound => ?_
    have hlen : (x ++ k :: q).length = sh.depth r := by
      have hlt := hin.2
      simp only [List.length_append, List.length_cons]
      dsimp only at hx hlt
      omega
    have hvalid : sh.Valid ⟨r, x ++ k :: q⟩ := by
      refine ⟨hlen.le, fun j hj => ?_⟩
      rcases List.mem_append.mp hj with hj | hj
      · exact hbound j hj
      · rcases List.mem_cons.mp hj with rfl | hj
        · exact hk
        · exact hin.1.2 j hj
    refine haway _ hvalid (fun hinner => absurd hinner.2 (by dsimp only; omega)) ?_ fun hasked => ?_
    · rw [List.append_cons]
      exact Cells.get_below_zero hempty _
    -- a link was made below the new block for every leaf that was asked for
    · obtain ⟨-, -, b', hb'⟩ := hleaf _ hasked
      obtain ⟨p₁, -, p', hp', hstep⟩ := hb'.suffix
      obtain rfl : p' = p := (h.get_of_leads hc hp' hin.1).symm.trans hget
      rw [hget] at hnone
      rcases hstep with hlink | ⟨hold, -⟩
      · rw [hnone] at hlink
        cases hlink
      · exact hp.ne_zero (hold.symm.trans hempty)
  · rintro hbarren ⟨r, q⟩ hvalid hnot hempty hasked
    have hlen : q.length = sh.depth r := by
      by_contra hlt
      have hle := hvalid.1
      exact hnot ⟨hvalid, by dsimp only at hle ⊢; omega⟩
    by_contra hne
    rcases leads_or_stale hne with hlead | ⟨x, k, q', rfl, hlead, hnew, hnone⟩
    · obtain ⟨t, ht, hroot, hsuffix⟩ := h.touched_of_new hc hlead hvalid (by rw [hempty]; exact Ne.symm hne)
      obtain ⟨htvalid, -, -⟩ := hleaf t ht
      have hle := htvalid.1
      rw [← hroot] at hle
      have hpath := hsuffix.eq_of_length_le (by dsimp only at hle ⊢; omega)
      obtain ⟨tr, tp⟩ := t
      cases hroot
      cases hpath
      exact hasked ht
    · obtain ⟨hin, hk⟩ : sh.Inner ⟨r, q'⟩ ∧ k < sh.width := by
        have hv : sh.Valid ⟨r, k :: q'⟩ := by
          refine ⟨?_, fun j hj => hvalid.2 j (List.mem_append_right _ hj)⟩
          have hle := hvalid.1
          simp only [List.length_append] at hle
          exact Nat.le_trans (Nat.le_add_left ..) hle
        exact hv.parent
      have hold : c.get ⟨r, q'⟩ = 0 := by
        by_contra hthere
        exact hnew (h.get_old hc hin.1 hthere).symm
      have hb := hbarren ⟨r, q'⟩ hin (h.touched_of_new hc hlead hin.1 hnew) hold k hk hnone
      rw [hcell hnone, ← Cells.get_cons_of_ne hlead.ne_zero] at hb
      refine hne (barren_iff.mp hb x ?_ fun j hj => hvalid.2 j (List.mem_append_left _ hj))
      simp only [List.length_append, List.length_cons] at hlen
      dsimp only
      omega

end Grown

end Overlay

end PointerForest
