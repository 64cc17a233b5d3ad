import Oifs.DirectoryCalls

/-! The two ways to split a path agree: all parts from the left, or the last part and what stands
before it. -/

namespace Oifs

namespace DirSession

/-! Splitting. -/

theorem pathParts_ofList (l : List Char) :
    pathParts (String.ofList l) =
      ((l.splitOn '/').map String.ofList).filter fun s => s ≠ "" ∧ s ≠ "." := by
  unfold pathParts
  rw [String.toList_ofList]

theorem pathParts_slash (l r : List Char) :
    pathParts (String.ofList (l ++ '/' :: r)) =
      pathParts (String.ofList l) ++ pathParts (String.ofList r) := by
  rw [pathParts_ofList, pathParts_ofList, pathParts_ofList, List.splitOn_append_cons_self,
    List.map_append, List.filter_append]

theorem pathParts_piece {l : List Char} (h : '/' ∉ l) :
    pathParts (String.ofList l) = [String.ofList l].filter fun s => s ≠ "" ∧ s ≠ "." := by
  rw [pathParts_ofList, List.splitOn_eq_singleton h]
  rfl

theorem pathParts_empty : pathParts (String.ofList []) = [] := by
  rw [pathParts_piece List.not_mem_nil]
  rfl

theorem pathParts_trimmed (l : List Char) :
    pathParts (String.ofList (l.rdropWhile (· = '/'))) = pathParts (String.ofList l) := by
  induction l using List.reverseRecOn with
  | nil => rfl
  | append_singleton l c ih =>
    by_cases hc : c = '/'
    · subst hc
      rw [List.rdropWhile_concat_pos _ _ _ (by simp), ih, pathParts_slash, pathParts_empty,
        List.append_nil]
    · rw [List.rdropWhile_concat_neg _ _ _ (by simpa using hc)]

theorem rsplitOnce_of_mem {sep : Char} {s : List Char} (h : sep ∈ s) :
    ∃ before after, rsplitOnce sep s = some (before, after) ∧ s = before ++ sep :: after ∧
      sep ∉ after := by
  have hrest : s.rdropWhile (· ≠ sep) ≠ [] := by
    intro hnil
    have hall := List.rdropWhile_eq_nil_iff.mp hnil sep h
    simp at hall
  have hlast : (s.rdropWhile (· ≠ sep)).getLast hrest = sep := by
    have hnot := List.rdropWhile_last_not _ _ hrest
    simpa using hnot
  refine ⟨_, _, if_pos h, ?_, ?_⟩
  · have hsides : s.rdropWhile (· ≠ sep) ++ s.rtakeWhile (· ≠ sep) = s :=
      List.rdropWhile_append_rtakeWhile
    rw [← List.dropLast_append_getLast hrest, hlast, List.append_assoc] at hsides
    exact hsides.symm
  · intro hmem
    have hne := List.mem_rtakeWhile_imp hmem
    simp at hne

theorem pathParts_split (path : String) :
    let trimmed := path.toList.rdropWhile (· = '/')
    let split := (rsplitOnce '/' trimmed).getD ([], trimmed)
    pathParts path = pathParts (String.ofList split.1) ++
      [String.ofList split.2].filter fun s => s ≠ "" ∧ s ≠ "." := by
  intro trimmed split
  have hpath : pathParts path = pathParts (String.ofList trimmed) := by
    rw [pathParts_trimmed, String.ofList_toList]
  rw [hpath]
  by_cases h : '/' ∈ trimmed
  · obtain ⟨before, after, hsplit, htrimmed, hafter⟩ := rsplitOnce_of_mem h
    have hsides : split = (before, after) := by
      change (rsplitOnce '/' trimmed).getD ([], trimmed) = _
      rw [hsplit, Option.getD_some]
    rw [hsides, ← pathParts_piece hafter, ← pathParts_slash, ← htrimmed]
  · have hsides : split = ([], trimmed) := by
      change (rsplitOnce '/' trimmed).getD ([], trimmed) = _
      rw [rsplitOnce, if_neg h, Option.getD_none]
    rw [hsides, pathParts_empty, List.nil_append, pathParts_piece h]

/-! Resolving. -/

variable {S : DirSession} {m m' : Mounted} {curr parent id : Nat} {name part : String}
  {parts : List String}

theorem checkFilename_iff {u : Unit} :
    checkFilename name m = .ok u m' ↔ validateFilename name = .ok () ∧ m = m' := by
  constructor
  · exact checkFilename_ok
  · rintro ⟨hvalid, rfl⟩
    unfold checkFilename
    rw [hvalid]
    rfl

theorem lookup_ok :
    S.lookup parent name m = .ok id m' ↔
      validateFilename name = .ok () ∧ S.dirLookup parent name m = .ok (some id) m' := by
  unfold lookup
  constructor
  · intro h
    obtain ⟨_, _, hcheck, h⟩ := DiskM.bind_ok.mp h
    obtain ⟨hvalid, rfl⟩ := checkFilename_iff.mp hcheck
    obtain ⟨found, _, hfound, h⟩ := DiskM.bind_ok.mp h
    cases found with
    | none => exact (DiskM.throw_ok.mp h).elim
    | some id' =>
      obtain ⟨rfl, rfl⟩ := DiskM.pure_ok.mp h
      exact ⟨hvalid, hfound⟩
  · rintro ⟨hvalid, hfound⟩
    refine DiskM.bind_ok.mpr ⟨(), m, checkFilename_iff.mpr ⟨hvalid, rfl⟩, ?_⟩
    exact DiskM.bind_ok.mpr ⟨some id, m', hfound, rfl⟩

theorem resolvePathIter_cons :
    S.resolvePathIter curr (part :: parts) m = .ok id m' ↔
      ∃ next m₁, S.lookup curr part m = .ok next m₁ ∧
        S.resolvePathIter next parts m₁ = .ok id m' := by
  rw [resolvePathIter]
  by_cases hdots : part = ".."
  · subst hdots
    rw [if_pos rfl]
    constructor
    · intro h
      exact (DiskM.throw_ok.mp h).elim
    · rintro ⟨next, m₁, hlookup, -⟩
      cases (lookup_ok.mp hlookup).1
  · rw [if_neg hdots]
    constructor
    · intro h
      obtain ⟨_, _, hcheck, h⟩ := DiskM.bind_ok.mp h
      obtain ⟨hvalid, rfl⟩ := checkFilename_iff.mp hcheck
      obtain ⟨found, m₁, hfound, h⟩ := DiskM.bind_ok.mp h
      cases found with
      | none => exact (DiskM.throw_ok.mp h).elim
      | some next => exact ⟨next, m₁, lookup_ok.mpr ⟨hvalid, hfound⟩, h⟩
    · rintro ⟨next, m₁, hlookup, h⟩
      obtain ⟨hvalid, hfound⟩ := lookup_ok.mp hlookup
      refine DiskM.bind_ok.mpr ⟨(), m, checkFilename_iff.mpr ⟨hvalid, rfl⟩, ?_⟩
      exact DiskM.bind_ok.mpr ⟨some next, m₁, hfound, h⟩

theorem resolvePathIter_concat :
    S.resolvePathIter curr (parts ++ [name]) m = .ok id m' ↔
      ∃ parent m₁, S.resolvePathIter curr parts m = .ok parent m₁ ∧
        S.lookup parent name m₁ = .ok id m' := by
  induction parts generalizing curr m with
  | nil =>
    rw [List.nil_append, resolvePathIter_cons]
    constructor
    · rintro ⟨next, m₁, hlookup, h⟩
      obtain ⟨rfl, rfl⟩ := DiskM.pure_ok.mp h
      exact ⟨curr, m, rfl, hlookup⟩
    · rintro ⟨parent, m₁, h, hlookup⟩
      obtain ⟨rfl, rfl⟩ := DiskM.pure_ok.mp h
      exact ⟨id, m', hlookup, rfl⟩
  | cons part parts ih =>
    rw [List.cons_append, resolvePathIter_cons]
    constructor
    · rintro ⟨next, m₁, hlookup, h⟩
      obtain ⟨parent, m₂, hparent, hlast⟩ := ih.mp h
      exact ⟨parent, m₂, resolvePathIter_cons.mpr ⟨next, m₁, hlookup, hparent⟩, hlast⟩
    · rintro ⟨parent, m₂, hparent, hlast⟩
      obtain ⟨next, m₁, hlookup, h⟩ := resolvePathIter_cons.mp hparent
      exact ⟨next, m₁, hlookup, ih.mpr ⟨parent, m₂, h, hlast⟩⟩

theorem resolvePathIter_append (curr : Nat) (parts rest : List String) :
    S.resolvePathIter curr (parts ++ rest) =
      S.resolvePathIter curr parts >>= fun dir => S.resolvePathIter dir rest := by
  induction parts generalizing curr with
  | nil => rfl
  | cons part parts ih =>
    rw [List.cons_append, resolvePathIter, resolvePathIter]
    split
    next => rfl
    next =>
      rw [bind_assoc]
      refine congrArg _ (funext fun _ => ?_)
      rw [bind_assoc]
      refine congrArg _ (funext fun found => ?_)
      cases found with
      | none => rfl
      | some next => exact ih next

theorem named_ok {last : String} :
    (do checkFilename last
        let found ← S.resolvePathIter curr parts
        return (found, last) : MountM (Nat × String)) m = .ok (parent, name) m' ↔
      last = name ∧ validateFilename name = .ok () ∧
        S.resolvePathIter curr parts m = .ok parent m' := by
  constructor
  · intro h
    obtain ⟨_, _, hcheck, h⟩ := DiskM.bind_ok.mp h
    obtain ⟨hvalid, rfl⟩ := checkFilename_iff.mp hcheck
    obtain ⟨found, _, hwalk, h⟩ := DiskM.bind_ok.mp h
    obtain ⟨hpair, rfl⟩ := DiskM.pure_ok.mp h
    cases hpair
    exact ⟨rfl, hvalid, hwalk⟩
  · rintro ⟨rfl, hvalid, hwalk⟩
    refine DiskM.bind_ok.mpr ⟨(), m, checkFilename_iff.mpr ⟨hvalid, rfl⟩, ?_⟩
    exact DiskM.bind_ok.mpr ⟨parent, m', hwalk, rfl⟩

/-- The parent is what the parts before the last one resolve to. -/
theorem resolveParent_ok {path : String} :
    S.resolveParent path m = .ok (parent, name) m' ↔
      validateFilename name = .ok () ∧ ∃ parts, pathParts path = parts ++ [name] ∧
        S.resolvePathIter m.volume.superblock.rootInode parts m = .ok parent m' := by
  -- both branches split the parts into some and a last one
  have hnamed : ∀ {ps : List String} {last : String}, pathParts path = ps ++ [last] →
      (last = name ∧ validateFilename name = .ok () ∧
          S.resolvePathIter m.volume.superblock.rootInode ps m = .ok parent m' ↔
        validateFilename name = .ok () ∧ ∃ parts, pathParts path = parts ++ [name] ∧
          S.resolvePathIter m.volume.superblock.rootInode parts m = .ok parent m') := by
    intro ps last hpath
    constructor
    · rintro ⟨rfl, hvalid, hwalk⟩
      exact ⟨hvalid, ps, hpath, hwalk⟩
    · rintro ⟨hvalid, parts, hparts, hwalk⟩
      obtain ⟨rfl, hlast⟩ := List.append_inj' (hpath.symm.trans hparts) rfl
      exact ⟨List.singleton_inj.mp hlast, hvalid, hwalk⟩
  have hsplit := pathParts_split path
  dsimp only at hsplit
  rw [resolveParent, DiskM.get_bind]
  dsimp only
  generalize (rsplitOnce '/' (path.toList.rdropWhile (· = '/'))).getD
    ([], path.toList.rdropWhile (· = '/')) = sides at hsplit ⊢
  obtain ⟨before, last⟩ := sides
  dsimp only at hsplit ⊢
  split
  next hcounts =>
    rw [List.filter_cons_of_pos (by simpa using hcounts), List.filter_nil] at hsplit
    exact named_ok.trans (hnamed hsplit)
  next =>
    cases hlast : (pathParts path).getLast? with
    | none =>
      have hempty := List.getLast?_eq_none_iff.mp hlast
      constructor
      · intro h
        exact (DiskM.throw_ok.mp h).elim
      · rintro ⟨-, parts, hparts, -⟩
        rw [hempty] at hparts
        simp at hparts
    | some last' =>
      have hconcat : pathParts path = (pathParts path).dropLast ++ [last'] := by
        obtain ⟨ps, hps⟩ := List.getLast?_eq_some_iff.mp hlast
        rw [hps, List.dropLast_concat]
      exact named_ok.trans (hnamed hconcat)

/-- Splitting off the last part and looking it up is resolving the whole path. -/
theorem resolveParent_lookup_iff (S : DirSession) (path : String) (m m' : Mounted) (id : Nat) :
    (do let (parent, name) ← S.resolveParent path
        S.lookup parent name : MountM Nat) m = .ok id m' ↔
      pathParts path ≠ [] ∧ S.resolvePath path m = .ok id m' := by
  rw [DiskM.bind_ok]
  constructor
  · rintro ⟨⟨parent, name⟩, m₁, hparent, hlookup⟩
    obtain ⟨-, parts, hparts, hwalk⟩ := resolveParent_ok.mp hparent
    refine ⟨by simp [hparts], ?_⟩
    change S.resolvePathIter m.volume.superblock.rootInode (pathParts path) m = .ok id m'
    rw [hparts]
    exact resolvePathIter_concat.mpr ⟨parent, m₁, hwalk, hlookup⟩
  · rintro ⟨hne, hpath⟩
    have hparts : pathParts path = (pathParts path).dropLast ++ [(pathParts path).getLast hne] :=
      (List.dropLast_append_getLast hne).symm
    change S.resolvePathIter m.volume.superblock.rootInode (pathParts path) m = .ok id m' at hpath
    rw [hparts] at hpath
    obtain ⟨parent, m₁, hwalk, hlookup⟩ := resolvePathIter_concat.mp hpath
    refine ⟨(parent, (pathParts path).getLast hne), m₁, ?_, hlookup⟩
    exact resolveParent_ok.mpr ⟨(lookup_ok.mp hlookup).1, _, hparts, hwalk⟩

/-- A path that is put together is resolved part by part, with the same errors. -/
theorem resolvePath_append (S : DirSession) (path rest : String) :
    S.resolvePath (path ++ "/" ++ rest) =
      S.resolvePath path >>= fun dir => S.resolvePathIter dir (pathParts rest) := by
  have hparts : pathParts (path ++ "/" ++ rest) = pathParts path ++ pathParts rest := by
    have hslash := pathParts_slash path.toList rest.toList
    rw [String.ofList_toList, String.ofList_toList] at hslash
    rw [← hslash]
    congr 1
    apply String.ext
    simp
  unfold resolvePath
  rw [hparts, bind_assoc]
  exact congrArg _ (funext fun m => resolvePathIter_append _ _ _)

example : pathParts "//a/./b//." = ["a", "b"] := by decide

end DirSession

end Oifs
