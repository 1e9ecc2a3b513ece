import Daftari.Storage.LocalProofs
import Daftari.Lib.FileTreeProofs

/-! # Confinement — does every accepted path stay in the vault?

    `resolveVaultPath` and `confineRealpath` look where a path leads before anything is opened.
    What `realpathSync` cannot resolve is walked up to the nearest place that is there, and the
    names below it are re-attached as they are written.

    * `no_path_leaves_iff`: **an accepted path opens nothing outside the vault, unless its last name
      is a link to nothing**. -/

namespace Storage

open FileTree Rbac

/-! ## Disks -/

/-- The components of a text, as they are followed. -/
def components (text : Path) : List (Component Path) :=
  (text.splitOn '/').map fun seg =>
    if seg = [] ∨ seg = ['.'] then .here else if seg = ['.', '.'] then .up else .name seg

def linkTo (text : Path) : Node Path := .link (text.head? = some '/') (components text)

/-- A disk: its tree, and how many links `realpathSync` and an open may follow. -/
structure Disk where
  tree : FileTree.Tree Path
  /-- What links hold is written with separators. -/
  linked : ∀ p fromRoot path, tree.node p = some (.link fromRoot path) →
    ∃ text, path = components text
  realpathLinks : Nat
  openLinks : Nat

namespace Disk

variable (disk : Disk)

/-- `realpathSync`. -/
def fileSystem : FileSystem := fun segs =>
  match walk disk.tree disk.realpathLinks [] (absolute segs) with
  | .found p => .real p
  | .missing _ _ => .missing
  | .absent => .missing
  | .notDir => .failed
  | .loop => .failed

/-- `readFile`: the place of the file that is opened. -/
def read (segs : List Path) : Option (List Path) := openRead disk.tree disk.openLinks segs

/-- `mkdir(dirname(absPath), { recursive: true })` and `writeFile(absPath)`: the place of the
    file that is opened. -/
def write (segs : List Path) : Option (List Path) := FileTree.write disk.tree disk.openLinks segs

def Opens (segs q : List Path) : Prop := disk.read segs = some q ∨ disk.write segs = some q

/-- The last name of a path is a link, in a directory that is there, and following it ends
    at a missing name in a directory that is there. -/
def DanglesTo (segs q : List Path) : Prop :=
  ∃ base a x fromRoot path p n, segs = base ++ [x] ∧
    walk disk.tree disk.openLinks [] (absolute base) = .found a ∧
    disk.tree.node (a ++ [x]) = some (.link fromRoot path) ∧
    walk disk.tree disk.openLinks [] (absolute segs) = .missing p n ∧ q = p ++ [n]

end Disk

/-! ## The checks -/

/-- `resolve(vaultRoot)`. -/
structure ResolvedRoot where
  segs : List Path
  ok : RootOk segs

/-- `resolve(root, relativePath)`: the target, and the `absPath` of an accepted path. -/
def ResolvedRoot.target (root : ResolvedRoot) (relativePath : String) : List Path :=
  resolved root.segs relativePath.toList

/-- `realRootCache`, on a tree that is not changed. -/
structure RealRootCache (fs : FileSystem) where
  entries : List (List Path × List Path)
  truthful : ∀ e ∈ entries, realpathConfined fs e.1 = some e.2

def RealRootCache.resolveRealRoot {fs : FileSystem} (cache : RealRootCache fs)
    (root : List Path) : Option (List Path) :=
  match cache.entries.lookup root with
  | some realRoot => some realRoot
  | none => realpathConfined fs root

/-- `resolveVaultPath` with the memo of real roots: the `relPath` of an accepted path. -/
def RealRootCache.resolveVaultPath {fs : FileSystem} (cache : RealRootCache fs)
    (root : ResolvedRoot) (relativePath : String) : Except String String :=
  let escapes := "path escapes vault root: " ++ relativePath
  if leavesRoot (relative root.segs (root.target relativePath)) then .error escapes
  else
    match cache.resolveRealRoot root.segs, realpathConfined fs (root.target relativePath) with
    | some realRoot, some realTarget =>
        if leavesRoot (relative realRoot realTarget) then .error escapes
        else .ok (String.ofList (relative realRoot realTarget))
    | _, _ => .error escapes

/-- `rel === ".." || rel.startsWith("../") || isAbsolute(rel)`. -/
def climbs (rel : Path) : Bool :=
  rel = ['.', '.'] || ['.', '.', '/'].isPrefixOf rel || rel.head? = some '/'

/-- `confineRealpath`, of a root and a target that are resolved. -/
def confineRealpath (fs : FileSystem) (root target : List Path) (label : String) :
    Except String (List Path) :=
  let escapes := label ++ " escapes root: " ++ String.ofList ('/' :: joinSegments target)
  match realpathConfined fs root, realpathConfined fs target with
  | some realRoot, some realTarget =>
      if climbs (relative realRoot realTarget) then .error escapes else .ok target
  | _, _ => .error escapes

theorem RealRootCache.resolveRealRoot_eq {fs : FileSystem} (cache : RealRootCache fs)
    (root : List Path) : cache.resolveRealRoot root = realpathConfined fs root := by
  unfold resolveRealRoot
  cases hroot : cache.entries.lookup root with
  | none => rfl
  | some realRoot => exact (cache.truthful _ (Assoc.mem_of_lookup hroot)).symm

/-! ## Relative paths -/

theorem relative_cases (a b : List Path) :
    (∃ rest, b = a ++ rest ∧ relative a b = joinSegments rest) ∨
      ∃ more, relative a b = joinSegments (['.', '.'] :: more) := by
  unfold relative
  by_cases hshared : a.length ≤ sharedLength a b
  · left
    refine ⟨_, eq_append_of_sharedLength hshared, ?_⟩
    rw [Nat.sub_eq_zero_of_le hshared, List.replicate_zero, List.nil_append]
  · right
    obtain ⟨k, hk⟩ : ∃ k, a.length - sharedLength a b = k + 1 :=
      ⟨_, (Nat.succ_pred_eq_of_pos (Nat.sub_pos_of_lt (Nat.lt_of_not_le hshared))).symm⟩
    rw [hk, List.replicate_succ, List.cons_append]
    exact ⟨_, rfl⟩

variable {a : List Path}

theorem inside_of_not_leavesRoot {b : List Path} (h : leavesRoot (relative a b) = false) :
    ∃ rest, rest ≠ [] ∧ b = a ++ rest ∧ relative a b = joinSegments rest := by
  unfold leavesRoot at h
  rw [Bool.or_eq_false_iff, Bool.or_eq_false_iff, decide_eq_false_iff_not] at h
  obtain ⟨⟨hne, hup⟩, -⟩ := h
  rcases relative_cases a b with ⟨rest, hb, hrel⟩ | ⟨more, hrel⟩
  · refine ⟨rest, ?_, hb, hrel⟩
    rintro rfl
    exact hne hrel
  · exfalso
    rw [hrel] at hup
    cases more with
    | nil => cases hup
    | cons seg more =>
        unfold joinSegments at hup
        cases hup

theorem below_of_not_climbs {b : List Path} (h : climbs (relative a b) = false) :
    ∃ rest, b = a ++ rest := by
  unfold climbs at h
  rw [Bool.or_eq_false_iff, Bool.or_eq_false_iff, decide_eq_false_iff_not] at h
  obtain ⟨⟨hup, hprefix⟩, -⟩ := h
  rcases relative_cases a b with ⟨rest, hb, -⟩ | ⟨more, hrel⟩
  · exact ⟨rest, hb⟩
  · exfalso
    rw [hrel] at hup hprefix
    cases more with
    | nil => exact hup rfl
    | cons seg more =>
        unfold joinSegments at hprefix
        cases hprefix

/-! ## What the walk up finds -/

variable {disk : Disk} {segs real q : List Path}

theorem fileSystem_real {p : List Path} (h : disk.fileSystem segs = .real p) :
    Leads disk.tree [] (absolute segs) (.found p) := by
  unfold Disk.fileSystem at h
  cases hwalk : walk disk.tree disk.realpathLinks [] (absolute segs) with
  | found p' =>
      rw [hwalk] at h
      obtain rfl := Realpath.real.inj h
      exact leads_of_walk_eq hwalk (by simp)
  | _ =>
      rw [hwalk] at h
      cases h

theorem fileSystem_missing (h : disk.fileSystem segs = .missing) :
    ∃ r, Leads disk.tree [] (absolute segs) r ∧ (r = .absent ∨ ∃ p n, r = .missing p n) := by
  unfold Disk.fileSystem at h
  cases hwalk : walk disk.tree disk.realpathLinks [] (absolute segs) with
  | missing p n =>
      exact ⟨.missing p n, leads_of_walk_eq hwalk (by simp), Or.inr ⟨p, n, rfl⟩⟩
  | absent => exact ⟨.absent, leads_of_walk_eq hwalk (by simp), Or.inl rfl⟩
  | _ =>
      rw [hwalk] at h
      cases h

/-- What the walk up finds: the path is there; or a place above it is, the next name leads
    nowhere, and the names from there on are re-attached. -/
inductive WalkedUp (disk : Disk) (segs : List Path) : List Path → Prop where
  | there {p} (h : Leads disk.tree [] (absolute segs) (.found p)) : WalkedUp disk segs p
  | above {base a x rest r} (hsegs : segs = base ++ x :: rest)
      (hbase : Leads disk.tree [] (absolute base) (.found a))
      (hgone : Leads disk.tree [] (absolute (base ++ [x])) r)
      (hr : r = .absent ∨ ∃ p n, r = .missing p n) : WalkedUp disk segs (a ++ x :: rest)

theorem WalkedUp.of_real {at' tail p : List Path} (hfs : disk.fileSystem at' = .real p)
    (htail : ∀ x rest, tail = x :: rest → ∃ r, Leads disk.tree [] (absolute (at' ++ [x])) r ∧
      (r = .absent ∨ ∃ p n, r = .missing p n)) : WalkedUp disk (at' ++ tail) (p ++ tail) := by
  have hleads := fileSystem_real hfs
  cases tail with
  | nil =>
      rw [List.append_nil, List.append_nil]
      exact .there hleads
  | cons x rest =>
      obtain ⟨r, hgone, hr⟩ := htail x rest rfl
      exact .above rfl hleads hgone hr

theorem WalkedUp.of_realpathFrom {current tail : List Path}
    (h : realpathFrom disk.fileSystem current tail = some real)
    (htail : ∀ x rest, tail = x :: rest →
      ∃ r, Leads disk.tree [] (absolute (current.reverse ++ [x])) r ∧
        (r = .absent ∨ ∃ p n, r = .missing p n)) :
    WalkedUp disk (current.reverse ++ tail) real := by
  induction current generalizing tail with
  | nil =>
      unfold realpathFrom at h
      cases hfs : disk.fileSystem [] with
      | real p =>
          rw [List.reverse_nil, hfs] at h
          obtain rfl := Option.some.inj h
          exact .of_real hfs htail
      | missing =>
          rw [List.reverse_nil, hfs] at h
          cases h
      | failed =>
          rw [List.reverse_nil, hfs] at h
          cases h
  | cons seg parent ih =>
      unfold realpathFrom at h
      cases hfs : disk.fileSystem (seg :: parent).reverse with
      | real p =>
          rw [hfs] at h
          obtain rfl := Option.some.inj h
          exact .of_real hfs htail
      | missing =>
          rw [hfs] at h
          have hway : (seg :: parent).reverse ++ tail = parent.reverse ++ (seg :: tail) := by simp
          rw [hway]
          refine ih h ?_
          intro x rest hx
          obtain ⟨rfl, -⟩ := List.cons.inj hx
          rw [← List.reverse_cons]
          exact fileSystem_missing hfs
      | failed =>
          rw [hfs] at h
          cases h

/-- **What the loop of `realpathConfined` finds.** -/
theorem realpathConfined_cases (h : realpathConfined disk.fileSystem segs = some real) :
    WalkedUp disk segs real := by
  have hwalked := WalkedUp.of_realpathFrom h fun x rest hx => by cases hx
  rw [List.reverse_reverse, List.append_nil] at hwalked
  exact hwalked

variable {r : Walked Path} {base : List Path}

theorem dir_of_gone {x : Path} (hbase : Leads disk.tree [] (absolute base) (.found a))
    (hgone : Leads disk.tree [] (absolute (base ++ [x])) r)
    (hr : r = .absent ∨ ∃ p n, r = .missing p n) : disk.tree.node a = some .dir := by
  rcases (hbase.node disk.tree.root).1 a rfl with hdir | hfile
  · exact hdir
  · have hne : absolute [x] ≠ [] := by simp [absolute]
    have hnot := hbase.append_file disk.tree.root hfile hne
    rw [absolute_append] at hgone
    rcases hr with rfl | ⟨p, n, rfl⟩ <;> cases hgone.unique hnot

theorem not_found_of_gone {rest : List Path} {x : Path}
    (hgone : Leads disk.tree [] (absolute (base ++ [x])) r)
    (hr : r = .absent ∨ ∃ p n, r = .missing p n) :
    ¬ Leads disk.tree [] (absolute (base ++ x :: rest)) (.found q) := by
  intro hfound
  cases rest with
  | nil => rcases hr with rfl | ⟨p, n, rfl⟩ <;> cases hfound.unique hgone
  | cons y rest =>
      have hne : absolute (y :: rest) ≠ [] := by simp [absolute]
      have hlong := hgone.append_absent hr hne
      have hway : absolute (base ++ [x]) ++ absolute (y :: rest)
          = absolute (base ++ x :: y :: rest) := by simp [absolute]
      rw [hway] at hlong
      cases hfound.unique hlong

/-! ## What is opened -/

theorem read_real (hreal : WalkedUp disk segs real) (h : disk.read segs = some q) :
    q = real ∧ disk.tree.node q = some .file := by
  obtain ⟨hleads, hfile⟩ := openRead_eq_some h
  cases hreal with
  | there hfound => exact ⟨Walked.found.inj (hleads.unique hfound), hfile⟩
  | above hsegs hbase hgone hr =>
      rw [hsegs] at hleads
      exact absurd hleads (not_found_of_gone hgone hr)

theorem link_of_gone {x : Path} (hbase : Leads disk.tree [] (absolute base) (.found a))
    (hgone : Leads disk.tree [] (absolute (base ++ [x])) r)
    (hr : r = .absent ∨ ∃ p n, r = .missing p n) (hx : disk.tree.node (a ++ [x]) ≠ none) :
    ∃ fromRoot path, disk.tree.node (a ++ [x]) = some (.link fromRoot path) := by
  obtain ⟨k, hk⟩ := Option.ne_none_iff_exists'.mp hx
  have hdir := dir_of_gone hbase hgone hr
  have hnot : ∀ p, ¬ Leads disk.tree [] (absolute base ++ absolute [x]) (.found p) := by
    intro p hp
    rw [← absolute_append] at hp
    exact not_found_of_gone hgone hr hp
  cases k with
  | dir => exact absurd (hbase.append hdir (.dir hk (.arrived _))) (hnot _)
  | file => exact absurd (hbase.append hdir (.file hk)) (hnot _)
  | link fromRoot path => exact ⟨fromRoot, path, hk⟩

theorem write_real (hreal : WalkedUp disk segs real) (h : disk.write segs = some q) :
    (q = real ∧ disk.tree.node q ≠ some .dir) ∨ disk.DanglesTo segs q := by
  cases hreal with
  | there hfound =>
      obtain ⟨rfl, hfile⟩ := write_of_found hfound h
      rw [hfile]
      simp
  | @above base a x rest r hsegs hbase hgone hr =>
      subst hsegs
      have hdir := dir_of_gone hbase hgone hr
      rcases write_of_missing hbase hdir hgone hr h with
        ⟨hnone, rfl⟩ | ⟨hx, rfl, hwalk, p, n, hmissing, rfl⟩
      · left
        refine ⟨rfl, ?_⟩
        intro hthere
        have hway : a ++ x :: rest = (a ++ [x]) ++ rest := by simp
        rw [hway] at hthere
        have habove := disk.tree.node_of_append hthere
        rw [hnone] at habove
        cases habove
      · right
        obtain ⟨fromRoot, path, hlink⟩ := link_of_gone hbase hgone hr hx
        exact ⟨base, a, x, fromRoot, path, p, n, rfl, hwalk, hlink, hmissing, rfl⟩

theorem write_of_danglesTo (h : disk.DanglesTo segs q) : disk.write segs = some q := by
  obtain ⟨base, a, x, fromRoot, path, p, n, rfl, hwalk, hlink, hmissing, rfl⟩ := h
  exact write_of_dangling hwalk (disk.tree.parent a x (by simp [hlink])) hmissing

theorem ne_real_of_danglesTo (h : disk.DanglesTo segs q) (hreal : WalkedUp disk segs real) :
    q ≠ real := by
  obtain ⟨base, a, x, fromRoot, path, p, n, rfl, hwalk, hlink, hmissing, rfl⟩ := h
  have hgone := leads_of_walk_eq hmissing (by simp)
  have hbase := leads_of_walk_eq hwalk (by simp)
  have hnone := ((hgone.node disk.tree.root).2 p n rfl).2
  cases hreal with
  | there hfound => cases hfound.unique hgone
  | @above base' a' x' rest' r hsegs hbase' hgone' hr' =>
      cases rest' using List.reverseRecOn with
      | nil =>
          obtain ⟨rfl, hx⟩ := List.append_inj' hsegs rfl
          obtain ⟨rfl, -⟩ := List.cons.inj hx
          obtain rfl := Walked.found.inj (hbase'.unique hbase)
          intro heq
          rw [heq, hlink] at hnone
          cases hnone
      | append_singleton rest' y =>
          -- the way above the link is there, so no name on it leads nowhere
          have hlonger : base ++ [x] = (base' ++ x' :: rest') ++ [y] := by
            rw [hsegs]
            simp
          obtain ⟨rfl, -⟩ := List.append_inj' hlonger rfl
          exact absurd hbase (not_found_of_gone hgone' hr')

/-! ## Names -/

theorem components_names {text : Path} {n : Path} (h : .name n ∈ components text) : '/' ∉ n := by
  obtain ⟨seg, hseg, hcomp⟩ := List.mem_map.mp h
  split at hcomp
  · cases hcomp
  · split at hcomp
    · cases hcomp
    · rw [← Component.name.inj hcomp]
      exact not_mem_splitOn hseg

theorem names_of_leads (h : Leads disk.tree [] (absolute segs) r)
    (hsegs : ∀ seg ∈ segs, '/' ∉ seg) : ∀ seg ∈ r.place, '/' ∉ seg := by
  refine h.names ?_ ?_ fun seg hseg => (by cases hseg)
  · intro p fromRoot path hlink n hn
    obtain ⟨text, rfl⟩ := disk.linked p fromRoot path hlink
    exact components_names hn
  · intro n hn
    obtain ⟨seg, hseg, hname⟩ := List.mem_map.mp hn
    rw [← Component.name.inj hname]
    exact hsegs seg hseg

theorem names_of_walkedUp (h : WalkedUp disk segs real) (hsegs : ∀ seg ∈ segs, '/' ∉ seg) :
    ∀ seg ∈ real, '/' ∉ seg := by
  cases h with
  | there hfound => exact names_of_leads hfound hsegs
  | @above base a x rest r heq hbase hgone hr =>
      subst heq
      intro seg hseg
      rcases List.mem_append.mp hseg with hseg | hseg
      · exact names_of_leads hbase (fun s hs => hsegs s (List.mem_append_left _ hs)) seg hseg
      · exact hsegs seg (List.mem_append_right _ hseg)

theorem joinSegments_inj {xs ys : List Path} (hx : xs ≠ []) (hy : ys ≠ [])
    (hxs : ∀ seg ∈ xs, '/' ∉ seg) (hys : ∀ seg ∈ ys, '/' ∉ seg)
    (h : joinSegments xs = joinSegments ys) : xs = ys := by
  rw [← splitOn_joinSegments hx hxs, h, splitOn_joinSegments hy hys]

/-! ## Accepted paths -/

variable {cache : RealRootCache disk.fileSystem} {root : ResolvedRoot} {relPath : String}

theorem accepted_cases {path : String} (h : cache.resolveVaultPath root path = .ok relPath) :
    ∃ realRoot rest, realpathConfined disk.fileSystem root.segs = some realRoot ∧
      rest ≠ [] ∧ WalkedUp disk (root.target path) (realRoot ++ rest) ∧
      relPath = String.ofList (joinSegments rest) := by
  unfold RealRootCache.resolveVaultPath at h
  rw [cache.resolveRealRoot_eq] at h
  split at h
  · cases h
  · cases hroot : realpathConfined disk.fileSystem root.segs with
    | none =>
        rw [hroot] at h
        cases h
    | some realRoot =>
        cases htarget : realpathConfined disk.fileSystem (root.target path) with
        | none =>
            rw [hroot, htarget] at h
            cases h
        | some realTarget =>
            rw [hroot, htarget] at h
            dsimp only at h
            split at h
            · cases h
            · rename_i hleaves
              obtain ⟨rest, hne, rfl, hrel⟩ :=
                inside_of_not_leavesRoot (Bool.not_eq_true _ ▸ hleaves)
              refine ⟨realRoot, rest, rfl, hne, realpathConfined_cases htarget, ?_⟩
              rw [← hrel]
              exact (Except.ok.inj h).symm

theorem confined_cases {root target absPath : List Path} {label : String}
    (h : confineRealpath disk.fileSystem root target label = .ok absPath) :
    absPath = target ∧ ∃ realRoot rest, realpathConfined disk.fileSystem root = some realRoot ∧
        WalkedUp disk target (realRoot ++ rest) := by
  unfold confineRealpath at h
  cases hroot : realpathConfined disk.fileSystem root with
  | none =>
      rw [hroot] at h
      cases h
  | some realRoot =>
      cases htarget : realpathConfined disk.fileSystem target with
      | none =>
          rw [hroot, htarget] at h
          cases h
      | some realTarget =>
          rw [hroot, htarget] at h
          dsimp only at h
          split at h
          · cases h
          · rename_i hclimbs
            obtain ⟨rest, rfl⟩ := below_of_not_climbs (Bool.not_eq_true _ ▸ hclimbs)
            exact ⟨(Except.ok.inj h).symm, realRoot, rest, rfl, realpathConfined_cases htarget⟩

/-- The place lies below the real root of the vault, where the relative path says. -/
def Disk.LiesAt (disk : Disk) (root : ResolvedRoot) (relPath : String) (q : List Path) : Prop :=
  ∃ realRoot rest, realpathConfined disk.fileSystem root.segs = some realRoot ∧
    rest ≠ [] ∧ q = realRoot ++ rest ∧ relPath = String.ofList (joinSegments rest)

def Disk.LiesUnder (disk : Disk) (root q : List Path) : Prop :=
  ∃ realRoot, realpathConfined disk.fileSystem root = some realRoot ∧ realRoot <+: q ∧
    (disk.tree.node realRoot = some .dir → q ≠ realRoot)

/-- **What an accepted path of the vault opens lies where its relative path says, but for a
    link to nothing at its end.** -/
theorem opens_liesAt_iff {path : String} (h : cache.resolveVaultPath root path = .ok relPath) :
    (∀ q, disk.Opens (root.target path) q → disk.LiesAt root relPath q) ↔
      ∀ q, ¬ disk.DanglesTo (root.target path) q := by
  obtain ⟨realRoot, rest, hroot, hne, hreal, hrel⟩ := accepted_cases h
  have hsegs : ∀ seg ∈ root.target path, '/' ∉ seg := fun seg hseg =>
    (mem_resolved root.ok hseg).2
  constructor
  · intro hopens q hdangles
    obtain ⟨realRoot', rest', hroot', hne', rfl, hrel'⟩ :=
      hopens q (Or.inr (write_of_danglesTo hdangles))
    obtain rfl := Option.some.inj (hroot'.symm.trans hroot)
    -- the text of the relative path tells the segments apart
    have hnames : ∀ seg ∈ realRoot' ++ rest', '/' ∉ seg := by
      obtain ⟨base, a, x, fromRoot, path', p, n, -, -, -, hmissing, hq⟩ := hdangles
      rw [hq]
      exact names_of_leads (leads_of_walk_eq hmissing (by simp)) hsegs
    have hreals := names_of_walkedUp hreal hsegs
    have hrest : rest' = rest := by
      refine joinSegments_inj hne' hne (fun seg hseg => hnames seg (List.mem_append_right _ hseg))
        (fun seg hseg => hreals seg (List.mem_append_right _ hseg)) ?_
      exact String.ofList_injective (hrel'.symm.trans hrel)
    exact ne_real_of_danglesTo hdangles hreal (by rw [hrest])
  · rintro hnone q (hread | hwrite)
    · obtain ⟨rfl, -⟩ := read_real hreal hread
      exact ⟨realRoot, rest, hroot, hne, rfl, hrel⟩
    · rcases write_real hreal hwrite with ⟨rfl, -⟩ | hdangles
      · exact ⟨realRoot, rest, hroot, hne, rfl, hrel⟩
      · exact absurd hdangles (hnone q)

theorem relPath_unique {path path' relPath' : String}
    (h : cache.resolveVaultPath root path = .ok relPath)
    (h' : cache.resolveVaultPath root path' = .ok relPath')
    (hfile : disk.tree.node q = some .file) (hopens : disk.Opens (root.target path) q)
    (hopens' : disk.Opens (root.target path') q) : relPath = relPath' := by
  have hplace : ∀ {segs real : List Path}, WalkedUp disk segs real → disk.Opens segs q →
      q = real := by
    rintro segs real hreal (hread | hwrite)
    · exact (read_real hreal hread).1
    · rcases write_real hreal hwrite with ⟨heq, -⟩ | hdangles
      · exact heq
      · obtain ⟨base, a, x, fromRoot, path, p, n, -, -, -, hmissing, rfl⟩ := hdangles
        have hnone := (((leads_of_walk_eq hmissing (by simp)).node disk.tree.root).2 p n rfl).2
        rw [hnone] at hfile
        cases hfile
  obtain ⟨realRoot, rest, hroot, -, hreal, rfl⟩ := accepted_cases h
  obtain ⟨realRoot', rest', hroot', -, hreal', rfl⟩ := accepted_cases h'
  obtain rfl := Option.some.inj (hroot.symm.trans hroot')
  have hsame : realRoot ++ rest = realRoot ++ rest' :=
    (hplace hreal hopens).symm.trans (hplace hreal' hopens')
  rw [List.append_cancel_left hsame]

/-- **What a confined path opens lies in its root, but for a link to nothing at its end that
    leads out.** -/
theorem opens_liesUnder_iff {root target absPath : List Path} {label : String}
    (h : confineRealpath disk.fileSystem root target label = .ok absPath) :
    (∀ q, disk.Opens absPath q → disk.LiesUnder root q) ↔ ∀ q, disk.DanglesTo target q →
        ∃ realRoot, realpathConfined disk.fileSystem root = some realRoot ∧ realRoot <+: q := by
  obtain ⟨rfl, realRoot, rest, hroot, hreal⟩ := confined_cases h
  constructor
  · intro hopens q hdangles
    obtain ⟨realRoot', hroot', hprefix, -⟩ := hopens q (Or.inr (write_of_danglesTo hdangles))
    exact ⟨realRoot', hroot', hprefix⟩
  · rintro hinside q (hread | hwrite)
    · obtain ⟨rfl, hfile⟩ := read_real hreal hread
      refine ⟨realRoot, hroot, List.prefix_append _ _, fun hdir heq => ?_⟩
      rw [heq, hdir] at hfile
      cases hfile
    · rcases write_real hreal hwrite with ⟨rfl, hnotDir⟩ | hdangles
      · refine ⟨realRoot, hroot, List.prefix_append _ _, fun hdir heq => ?_⟩
        rw [heq] at hnotDir
        exact hnotDir hdir
      · obtain ⟨realRoot', hroot', hprefix⟩ := hinside q hdangles
        refine ⟨realRoot', hroot', hprefix, ?_⟩
        rintro hdir rfl
        obtain ⟨base, a, x, fromRoot, path, p, n, -, -, -, hmissing, rfl⟩ := hdangles
        have hnone := (((leads_of_walk_eq hmissing (by simp)).node disk.tree.root).2 p n rfl).2
        rw [hnone] at hdir
        cases hdir

/-- **No path leaves the vault, exactly but for links to nothing**: every file that a read or
    a write of an accepted path opens lies below the real root, at its relative path, if and
    only if the last name of the path is not a link that ends at a missing name; an existing
    file has one relative path; and a confined path opens nothing outside its root, or the
    root itself, if and only if such a link at its end does not lead out of the root. -/
theorem no_path_leaves_iff (disk : Disk) (root : ResolvedRoot)
    (cache : RealRootCache disk.fileSystem) :
    (∀ path relPath, cache.resolveVaultPath root path = .ok relPath →
      ((∀ q, disk.Opens (root.target path) q → disk.LiesAt root relPath q) ↔
        ∀ q, ¬ disk.DanglesTo (root.target path) q)) ∧
    (∀ path relPath path' relPath' q, cache.resolveVaultPath root path = .ok relPath →
      cache.resolveVaultPath root path' = .ok relPath' → disk.tree.node q = some .file →
      disk.Opens (root.target path) q → disk.Opens (root.target path') q →
      relPath = relPath') ∧
    (∀ base target label absPath, confineRealpath disk.fileSystem base target label = .ok absPath →
      ((∀ q, disk.Opens absPath q → disk.LiesUnder base q) ↔
        ∀ q, disk.DanglesTo target q → ∃ realRoot,
          realpathConfined disk.fileSystem base = some realRoot ∧ realRoot <+: q)) :=
  ⟨fun _ _ => opens_liesAt_iff, fun _ _ _ _ _ => relPath_unique, fun _ _ _ _ => opens_liesUnder_iff⟩

/-- A vault with a file, and with a link to a file that is not there, in a directory outside. -/
def danglingDisk : Disk where
  tree := FileTree.Tree.ofEntries [([], .dir), (["v".toList], .dir), (["o".toList], .dir),
    (["v".toList, "a.md".toList], .file), (["v".toList, "l.md".toList], linkTo "/o/x".toList)]
    rfl (by decide)
  linked := by
    intro p fromRoot path h
    have hmem := FileTree.Tree.mem_of_ofEntries h
    simp only [List.mem_cons, Prod.mk.injEq, reduceCtorEq, and_false, false_or, or_false,
      List.not_mem_nil] at hmem
    exact ⟨"/o/x".toList, (Node.link.inj hmem.2).2⟩
  realpathLinks := 40
  openLinks := 40

def danglingVault : ResolvedRoot := ⟨["v".toList], by decide⟩

def danglingCache : RealRootCache danglingDisk.fileSystem := ⟨[], by simp⟩

/-- A file that is there is read at its relative path. -/
theorem no_path_leaves_file :
    danglingDisk.LiesAt danglingVault "a.md" ["v".toList, "a.md".toList] := by
  have haccepted : danglingCache.resolveVaultPath danglingVault "a.md" = .ok "a.md" := by
    decide +kernel
  refine (((no_path_leaves_iff danglingDisk danglingVault danglingCache).1 "a.md" "a.md"
    haccepted).mpr ?_) ["v".toList, "a.md".toList] (Or.inl (by decide +kernel))
  rintro q ⟨base, a, x, fromRoot, path, p, n, -, -, -, hmissing, -⟩
  have hfound : walk danglingDisk.tree danglingDisk.openLinks []
      (absolute (danglingVault.target "a.md")) = .found ["v".toList, "a.md".toList] := by
    decide +kernel
  cases hmissing

/-- **A link to nothing leads out**: the path is accepted as `l.md`, and a write creates the
    file outside the vault. -/
theorem dangling_leaf_leaves :
    danglingCache.resolveVaultPath danglingVault "l.md" = .ok "l.md" ∧
      danglingDisk.Opens (danglingVault.target "l.md") ["o".toList, "x".toList] ∧
      ¬ danglingDisk.LiesAt danglingVault "l.md" ["o".toList, "x".toList] := by
  refine ⟨by decide +kernel, Or.inr (by decide +kernel), ?_⟩
  rintro ⟨realRoot, rest, hroot, -, hq, -⟩
  have hreal : realpathConfined danglingDisk.fileSystem danglingVault.segs
      = some ["v".toList] := by decide +kernel
  obtain rfl := Option.some.inj (hreal.symm.trans hroot)
  have hhead : "o".toList = "v".toList := (List.cons.inj hq).1
  revert hhead
  decide +kernel

end Storage
