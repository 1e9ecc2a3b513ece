import Daftari.Lib.AssocProofs
import Mathlib.Data.List.Induction

/-! # File trees — names, links and where a path leads

    A tree has directories, files and links; a link holds a path of its own.  A path is followed
    from a directory, component by component, and a link on the way is followed before the rest.

    * `Leads`: where a path leads, however many links are on the way; it leads to one place
      (`Leads.unique`);
    * `walk`: the same with a limit on links, as a system computes it (`leads_of_walk`);
    * `mkdir`, `makeDirs`, `create`: what a system makes of a path;
    * `makeDirs_fresh`: **directories are made where their names were missing**. -/

namespace FileTree

/-- A component of a path. -/
inductive Component (N : Type) where
  | here
  | up
  | name (n : N)
deriving DecidableEq

/-- What stands at a place. -/
inductive Node (N : Type) where
  | dir
  | file
  | link (fromRoot : Bool) (path : List (Component N))
deriving DecidableEq

/-- A file tree: what stands at each place below the root, in directories. -/
structure Tree (N : Type) where
  node : List N → Option (Node N)
  root : node [] = some .dir
  parent : ∀ p n, node (p ++ [n]) ≠ none → node p = some .dir

/-- How following a path ends: at a place; at a name missing from a directory; before the
    end of the path, at a missing name or at a file; or at the limit on links. -/
inductive Walked (N : Type) where
  | found (p : List N)
  | missing (p : List N) (n : N)
  | absent
  | notDir
  | loop
deriving DecidableEq

variable {N : Type}

namespace Tree

theorem node_append_eq_none (t : Tree N) {p : List N} (h : t.node p ≠ some .dir)
    {q : List N} (hq : q ≠ []) : t.node (p ++ q) = none := by
  induction q using List.reverseRecOn with
  | nil => exact absurd rfl hq
  | append_singleton q n ih =>
      by_contra hsome
      rw [← List.append_assoc] at hsome
      have hdir := t.parent (p ++ q) n hsome
      cases q with
      | nil => exact h (by simpa using hdir)
      | cons m q => simp [ih (List.cons_ne_nil m q)] at hdir

theorem node_of_append (t : Tree N) {p q : List N} (h : t.node (p ++ q) = some .dir) :
    t.node p = some .dir := by
  by_contra hnot
  cases q with
  | nil => exact hnot (by simpa using h)
  | cons n q =>
      rw [t.node_append_eq_none hnot (List.cons_ne_nil n q)] at h
      cases h

theorem node_dropLast (t : Tree N) {p : List N} (h : t.node p = some .dir) :
    t.node p.dropLast = some .dir := by
  cases p using List.reverseRecOn with
  | nil => exact h
  | append_singleton p n =>
      rw [List.dropLast_concat]
      exact t.node_of_append h

variable [DecidableEq N]

/-- A tree by its entries: the directory of each is an entry too. -/
def ofEntries (entries : List (List N × Node N)) (hroot : entries.lookup [] = some .dir)
    (hparent : ∀ e ∈ entries, e.1 ≠ [] → entries.lookup e.1.dropLast = some .dir) : Tree N where
  node p := entries.lookup p
  root := hroot
  parent := by
    intro p n h
    obtain ⟨k, hk⟩ := Option.ne_none_iff_exists'.mp h
    have habove := hparent (p ++ [n], k) (Assoc.mem_of_lookup hk) (by simp)
    rwa [List.dropLast_concat] at habove

theorem mem_of_ofEntries {entries : List (List N × Node N)} {hroot : entries.lookup [] = some .dir}
    {hparent : ∀ e ∈ entries, e.1 ≠ [] → entries.lookup e.1.dropLast = some .dir}
    {p : List N} {k : Node N} (h : (ofEntries entries hroot hparent).node p = some k) :
    (p, k) ∈ entries :=
  Assoc.mem_of_lookup h

/-- A tree with one more place, in a directory. -/
def insert (t : Tree N) (p : List N) (n : N) (k : Node N) (hdir : t.node p = some .dir)
    (hnone : t.node (p ++ [n]) = none) : Tree N where
  node q := if q = p ++ [n] then some k else t.node q
  root := by
    rw [if_neg (by simp)]
    exact t.root
  parent := by
    intro q m h
    by_cases hnew : q ++ [m] = p ++ [n]
    · obtain ⟨rfl, -⟩ := List.append_inj' hnew rfl
      rw [if_neg (by simp)]
      exact hdir
    · rw [if_neg hnew] at h
      have hq := t.parent q m h
      rw [if_neg]
      · exact hq
      · rintro rfl
        rw [hnone] at hq
        cases hq

theorem insert_node (t : Tree N) {p : List N} {n : N} {k : Node N}
    (hdir : t.node p = some .dir) (hnone : t.node (p ++ [n]) = none) (q : List N) :
    (t.insert p n k hdir hnone).node q = if q = p ++ [n] then some k else t.node q := rfl

theorem insert_node_of_some (t : Tree N) {p : List N} {n : N} {k : Node N}
    (hdir : t.node p = some .dir) (hnone : t.node (p ++ [n]) = none) {q : List N}
    {x : Node N} (h : t.node q = some x) : (t.insert p n k hdir hnone).node q = some x := by
  rw [insert_node, if_neg]
  · exact h
  · rintro rfl
    rw [hnone] at h
    cases h

end Tree

/-! ## Where a path leads -/

/-- Where a path leads from a directory. -/
inductive Leads (t : Tree N) : List N → List (Component N) → Walked N → Prop where
  | arrived (cur) : Leads t cur [] (.found cur)
  | here {cur rest r} (h : Leads t cur rest r) : Leads t cur (.here :: rest) r
  | up {cur rest r} (h : Leads t cur.dropLast rest r) : Leads t cur (.up :: rest) r
  | missing {cur n} (hn : t.node (cur ++ [n]) = none) : Leads t cur [.name n] (.missing cur n)
  | absent {cur n rest} (hn : t.node (cur ++ [n]) = none) (hrest : rest ≠ []) :
      Leads t cur (.name n :: rest) .absent
  | dir {cur n rest r} (hn : t.node (cur ++ [n]) = some .dir) (h : Leads t (cur ++ [n]) rest r) :
      Leads t cur (.name n :: rest) r
  | file {cur n} (hn : t.node (cur ++ [n]) = some .file) :
      Leads t cur [.name n] (.found (cur ++ [n]))
  | notDir {cur n rest} (hn : t.node (cur ++ [n]) = some .file) (hrest : rest ≠ []) :
      Leads t cur (.name n :: rest) .notDir
  | link {cur n rest r fromRoot path} (hn : t.node (cur ++ [n]) = some (.link fromRoot path))
      (h : Leads t (if fromRoot then [] else cur) (path ++ rest) r) :
      Leads t cur (.name n :: rest) r

variable {t : Tree N} {cur p : List N} {xs ys : List (Component N)} {r r' : Walked N}

/-- **A path leads to one place.** -/
theorem Leads.unique (h : Leads t cur xs r) (h' : Leads t cur xs r') : r = r' := by
  induction h with
  | arrived cur =>
      cases h'
      rfl
  | here _ ih =>
      cases h' with
      | here h' => exact ih h'
  | up _ ih =>
      cases h' with
      | up h' => exact ih h'
  | missing hn => cases h' <;> simp_all
  | absent hn hrest => cases h' <;> simp_all
  | dir hn _ ih => cases h' <;> simp_all
  | file hn => cases h' <;> simp_all
  | notDir hn hrest => cases h' <;> simp_all
  | link hn _ ih =>
      cases h' with
      | link hn' h' =>
          rw [hn] at hn'
          obtain ⟨rfl, rfl⟩ := Node.link.inj (Option.some.inj hn')
          exact ih h'
      | _ => simp_all

theorem Leads.append (h : Leads t cur xs (.found p)) (hdir : t.node p = some .dir)
    (hrest : Leads t p ys r) : Leads t cur (xs ++ ys) r := by
  generalize hw : Walked.found p = w at h
  induction h with
  | arrived cur =>
      obtain rfl := Walked.found.inj hw
      exact hrest
  | here _ ih => exact .here (ih hw)
  | up _ ih => exact .up (ih hw)
  | dir hn _ ih => exact .dir hn (ih hw)
  | file hn =>
      obtain rfl := Walked.found.inj hw
      rw [hn] at hdir
      cases hdir
  | link hn _ ih =>
      have hpath := ih hw
      rw [List.append_assoc] at hpath
      exact .link hn hpath
  | _ => cases hw

theorem Leads.append_file (h : Leads t cur xs (.found p)) (hcur : t.node cur = some .dir)
    (hfile : t.node p = some .file) (hys : ys ≠ []) : Leads t cur (xs ++ ys) .notDir := by
  generalize hw : Walked.found p = w at h
  induction h with
  | arrived cur =>
      obtain rfl := Walked.found.inj hw
      rw [hfile] at hcur
      cases hcur
  | here _ ih => exact .here (ih hcur hw)
  | up _ ih => exact .up (ih (t.node_dropLast hcur) hw)
  | dir hn _ ih => exact .dir hn (ih hn hw)
  | file hn => exact .notDir hn hys
  | @link cur n rest r fromRoot path hn _ ih =>
      have hstart : t.node (if fromRoot then [] else cur) = some .dir := by
        cases fromRoot with
        | true => exact t.root
        | false => exact hcur
      have hpath := ih hstart hw
      rw [List.append_assoc] at hpath
      exact .link hn hpath
  | _ => cases hw

theorem Leads.append_absent (h : Leads t cur xs r) (hr : r = .absent ∨ ∃ p n, r = .missing p n)
    (hys : ys ≠ []) : Leads t cur (xs ++ ys) .absent := by
  induction h with
  | arrived cur => rcases hr with hr | ⟨p, n, hr⟩ <;> cases hr
  | here _ ih => exact .here (ih hr)
  | up _ ih => exact .up (ih hr)
  | missing hn => exact .absent hn hys
  | absent hn hrest => exact .absent hn (by simp [hrest])
  | dir hn _ ih => exact .dir hn (ih hr)
  | file hn => rcases hr with hr | ⟨p, n, hr⟩ <;> cases hr
  | notDir hn hrest => rcases hr with hr | ⟨p, n, hr⟩ <;> cases hr
  | link hn _ ih =>
      have hpath := ih hr
      rw [List.append_assoc] at hpath
      exact .link hn hpath

theorem Leads.way (h : Leads t cur ys r) (hxs : xs <+: ys) : ∃ w, Leads t cur xs w := by
  induction h generalizing xs with
  | arrived cur =>
      obtain rfl := List.prefix_nil.mp hxs
      exact ⟨_, .arrived cur⟩
  | here _ ih =>
      rcases List.prefix_cons_iff.mp hxs with rfl | ⟨xs, rfl, hrest⟩
      · exact ⟨_, .arrived _⟩
      · obtain ⟨w, hw⟩ := ih hrest
        exact ⟨w, .here hw⟩
  | up _ ih =>
      rcases List.prefix_cons_iff.mp hxs with rfl | ⟨xs, rfl, hrest⟩
      · exact ⟨_, .arrived _⟩
      · obtain ⟨w, hw⟩ := ih hrest
        exact ⟨w, .up hw⟩
  | missing hn =>
      rcases List.prefix_cons_iff.mp hxs with rfl | ⟨xs, rfl, hrest⟩
      · exact ⟨_, .arrived _⟩
      · obtain rfl := List.prefix_nil.mp hrest
        exact ⟨_, .missing hn⟩
  | absent hn _ =>
      rcases List.prefix_cons_iff.mp hxs with rfl | ⟨xs, rfl, hrest⟩
      · exact ⟨_, .arrived _⟩
      · by_cases hnil : xs = []
        · subst hnil
          exact ⟨_, .missing hn⟩
        · exact ⟨_, .absent hn hnil⟩
  | dir hn _ ih =>
      rcases List.prefix_cons_iff.mp hxs with rfl | ⟨xs, rfl, hrest⟩
      · exact ⟨_, .arrived _⟩
      · obtain ⟨w, hw⟩ := ih hrest
        exact ⟨w, .dir hn hw⟩
  | file hn =>
      rcases List.prefix_cons_iff.mp hxs with rfl | ⟨xs, rfl, hrest⟩
      · exact ⟨_, .arrived _⟩
      · obtain rfl := List.prefix_nil.mp hrest
        exact ⟨_, .file hn⟩
  | notDir hn _ =>
      rcases List.prefix_cons_iff.mp hxs with rfl | ⟨xs, rfl, hrest⟩
      · exact ⟨_, .arrived _⟩
      · by_cases hnil : xs = []
        · subst hnil
          exact ⟨_, .file hn⟩
        · exact ⟨_, .notDir hn hnil⟩
  | @link cur n rest r fromRoot path hn _ ih =>
      rcases List.prefix_cons_iff.mp hxs with rfl | ⟨xs, rfl, hrest⟩
      · exact ⟨_, .arrived _⟩
      · obtain ⟨w, hw⟩ := ih ((List.prefix_append_right_inj path).mpr hrest)
        exact ⟨w, .link hn hw⟩

theorem Leads.ne_loop (h : Leads t cur xs r) : r ≠ .loop := by
  induction h with
  | here _ ih => exact ih
  | up _ ih => exact ih
  | dir _ _ ih => exact ih
  | link _ _ ih => exact ih
  | _ => simp

/-- Where a path leads, something stands; where a name is missing, nothing does, and it is
    missing from a directory. -/
theorem Leads.node (h : Leads t cur xs r) (hcur : t.node cur = some .dir) :
    (∀ p, r = .found p → t.node p = some .dir ∨ t.node p = some .file) ∧
    (∀ p n, r = .missing p n → t.node p = some .dir ∧ t.node (p ++ [n]) = none) := by
  induction h with
  | arrived cur =>
      refine ⟨?_, fun p n hr => by cases hr⟩
      rintro p ⟨⟩
      exact Or.inl hcur
  | here _ ih => exact ih hcur
  | up _ ih => exact ih (t.node_dropLast hcur)
  | missing hn =>
      refine ⟨fun p hr => (by cases hr), ?_⟩
      rintro p n ⟨⟩
      exact ⟨hcur, hn⟩
  | absent hn hrest => exact ⟨fun p hr => (by cases hr), fun p n hr => (by cases hr)⟩
  | dir hn _ ih => exact ih hn
  | file hn =>
      refine ⟨?_, fun p n hr => by cases hr⟩
      rintro p ⟨⟩
      exact Or.inr hn
  | notDir hn hrest => exact ⟨fun p hr => (by cases hr), fun p n hr => (by cases hr)⟩
  | @link cur n rest r fromRoot path hn _ ih =>
      refine ih ?_
      cases fromRoot with
      | true => exact t.root
      | false => exact hcur

def Walked.place : Walked N → List N
  | .found p => p
  | .missing p n => p ++ [n]
  | _ => []

theorem Leads.names {ok : N → Prop} (h : Leads t cur xs r)
    (hlinks : ∀ q fromRoot path, t.node q = some (.link fromRoot path) → ∀ n, .name n ∈ path → ok n)
    (hxs : ∀ n, .name n ∈ xs → ok n) (hcur : ∀ n ∈ cur, ok n) : ∀ n ∈ r.place, ok n := by
  induction h with
  | arrived cur => exact hcur
  | here _ ih => exact ih (fun n hn => hxs n (List.mem_cons_of_mem _ hn)) hcur
  | up _ ih =>
      exact ih (fun n hn => hxs n (List.mem_cons_of_mem _ hn))
        fun n hn => hcur n (List.dropLast_subset _ hn)
  | @missing cur m hn =>
      intro n hmem
      rcases List.mem_append.mp hmem with hmem | hmem
      · exact hcur n hmem
      · exact hxs n (List.mem_singleton.mp hmem ▸ List.mem_cons_self)
  | absent hn hrest => exact fun n hmem => (by cases hmem)
  | @dir cur m rest r hn _ ih =>
      refine ih (fun n hn => hxs n (List.mem_cons_of_mem _ hn)) ?_
      intro n hmem
      rcases List.mem_append.mp hmem with hmem | hmem
      · exact hcur n hmem
      · exact hxs n (List.mem_singleton.mp hmem ▸ List.mem_cons_self)
  | @file cur m hn =>
      intro n hmem
      rcases List.mem_append.mp hmem with hmem | hmem
      · exact hcur n hmem
      · exact hxs n (List.mem_singleton.mp hmem ▸ List.mem_cons_self)
  | notDir hn hrest => exact fun n hmem => (by cases hmem)
  | @link cur m rest r fromRoot path hn _ ih =>
      refine ih ?_ ?_
      · intro n hmem
        rcases List.mem_append.mp hmem with hmem | hmem
        · exact hlinks _ _ _ hn n hmem
        · exact hxs n (List.mem_cons_of_mem _ hmem)
      · cases fromRoot with
        | true => exact fun n hmem => (by cases hmem)
        | false => exact hcur

theorem Leads.append_notDir (h : Leads t cur xs .notDir) : Leads t cur (xs ++ ys) .notDir := by
  generalize hw : Walked.notDir = w at h
  induction h with
  | here _ ih => exact .here (ih hw)
  | up _ ih => exact .up (ih hw)
  | dir hn _ ih => exact .dir hn (ih hw)
  | notDir hn hrest => exact .notDir hn (by simp [hrest])
  | link hn _ ih =>
      have hpath := ih hw
      rw [List.append_assoc] at hpath
      exact .link hn hpath
  | _ => cases hw

/-! ## Following a path with a limit -/

/-- Components one after another, up to a link. -/
def walkWith [DecidableEq N] (t : Tree N) (follow : List N → List (Component N) → Walked N) :
    List N → List (Component N) → Walked N
  | cur, [] => .found cur
  | cur, .here :: rest => walkWith t follow cur rest
  | cur, .up :: rest => walkWith t follow cur.dropLast rest
  | cur, .name n :: rest =>
      match t.node (cur ++ [n]) with
      | none => if rest = [] then .missing cur n else .absent
      | some .dir => walkWith t follow (cur ++ [n]) rest
      | some .file => if rest = [] then .found (cur ++ [n]) else .notDir
      | some (.link fromRoot path) => follow (if fromRoot then [] else cur) (path ++ rest)

/-- Following a path through so many links at most. -/
def walk [DecidableEq N] (t : Tree N) : Nat → List N → List (Component N) → Walked N
  | 0 => walkWith t fun _ _ => .loop
  | links + 1 => walkWith t (walk t links)

variable [DecidableEq N]

variable {follow : List N → List (Component N) → Walked N}

theorem leads_of_walkWith
    (hfollow : ∀ cur xs, follow cur xs ≠ .loop → Leads t cur xs (follow cur xs))
    (h : walkWith t follow cur xs ≠ .loop) : Leads t cur xs (walkWith t follow cur xs) := by
  induction xs generalizing cur with
  | nil => exact .arrived cur
  | cons c rest ih =>
      cases c with
      | here => exact .here (ih h)
      | up => exact .up (ih h)
      | name n =>
          unfold walkWith at h ⊢
          cases hn : t.node (cur ++ [n]) with
          | none =>
              dsimp only
              split
              · rename_i hrest
                subst hrest
                exact .missing hn
              · rename_i hrest
                exact .absent hn hrest
          | some k =>
              rw [hn] at h
              cases k with
              | dir => exact .dir hn (ih h)
              | file =>
                  dsimp only
                  split
                  · rename_i hrest
                    subst hrest
                    exact .file hn
                  · rename_i hrest
                    exact .notDir hn hrest
              | link fromRoot path => exact .link hn (hfollow _ _ h)

variable {links : Nat}

/-- **Within the limit, a walk ends where the path leads.** -/
theorem leads_of_walk (h : walk t links cur xs ≠ .loop) : Leads t cur xs (walk t links cur xs) := by
  induction links generalizing cur xs with
  | zero => exact leads_of_walkWith (fun _ _ hloop => absurd rfl hloop) h
  | succ links ih => exact leads_of_walkWith (fun _ _ => ih) h

theorem leads_of_walk_eq (h : walk t links cur xs = r) (hr : r ≠ .loop) : Leads t cur xs r :=
  h ▸ leads_of_walk (h.symm ▸ hr)

theorem walk_eq_or_loop (h : Leads t cur xs r) :
    walk t links cur xs = r ∨ walk t links cur xs = .loop := by
  by_cases hloop : walk t links cur xs = .loop
  · exact Or.inr hloop
  · exact Or.inl ((leads_of_walk hloop).unique h)

theorem walkWith_prefix
    (hfollow : ∀ cur xs ys, follow cur (xs ++ ys) ≠ .loop → follow cur xs ≠ .loop)
    (h : walkWith t follow cur (xs ++ ys) ≠ .loop) : walkWith t follow cur xs ≠ .loop := by
  induction xs generalizing cur with
  | nil =>
      intro hloop
      cases hloop
  | cons c rest ih =>
      cases c with
      | here => exact ih h
      | up => exact ih h
      | name n =>
          rw [List.cons_append] at h
          unfold walkWith at h ⊢
          cases hn : t.node (cur ++ [n]) with
          | none =>
              dsimp only
              split <;> simp
          | some k =>
              rw [hn] at h
              cases k with
              | dir => exact ih h
              | file =>
                  dsimp only
                  split <;> simp
              | link fromRoot path =>
                  dsimp only at h ⊢
                  rw [← List.append_assoc] at h
                  exact hfollow _ _ _ h

theorem walk_prefix (h : walk t links cur (xs ++ ys) ≠ .loop) : walk t links cur xs ≠ .loop := by
  induction links generalizing cur xs ys with
  | zero => exact walkWith_prefix (fun _ _ _ hloop => absurd rfl hloop) h
  | succ links ih => exact walkWith_prefix (fun _ _ _ => ih) h

/-! ## Making directories and files -/

/-- A path from the root, of names alone. -/
def absolute (segs : List N) : List (Component N) := segs.map .name

omit [DecidableEq N] in
@[simp] theorem absolute_append (segs segs' : List N) :
    absolute (segs ++ segs') = absolute segs ++ absolute segs' := List.map_append

/-- What `mkdir` answers. -/
inductive Made (N : Type) where
  | made (t : Tree N)
  | present
  | absent
  | failed

/-- `mkdir`: a new directory in the directory that a path leads to. -/
def mkdir (t : Tree N) (links : Nat) (above : List N) (n : N) : Made N :=
  match walk t links [] (absolute above) with
  | .found p =>
      if hdir : t.node p = some .dir then
        if hnone : t.node (p ++ [n]) = none then .made (t.insert p n .dir hdir hnone)
        else .present
      else .failed
  | .missing _ _ => .absent
  | .absent => .absent
  | .notDir => .failed
  | .loop => .failed

def isDir (t : Tree N) (links : Nat) (segs : List N) : Bool :=
  match walk t links [] (absolute segs) with
  | .found p => t.node p = some .dir
  | _ => false

/-- A directory that could not be made is there already, or not at all. -/
def remake (t : Tree N) (links : Nat) (above : List N) (n : N) : Option (Tree N) :=
  match mkdir t links above n with
  | .made t' => some t'
  | .present => if isDir t links (above ++ [n]) then some t else none
  | .absent => none
  | .failed => none

/-- Directories from the last name up, and down again. -/
def makeDirsUp (t : Tree N) (links : Nat) : List N → Option (Tree N)
  | [] => some t
  | n :: above =>
      match mkdir t links above.reverse n with
      | .absent => (makeDirsUp t links above).bind fun t' => remake t' links above.reverse n
      | _ => remake t links above.reverse n

/-- `mkdir` with `recursive`. -/
def makeDirs (t : Tree N) (links : Nat) (segs : List N) : Option (Tree N) :=
  makeDirsUp t links segs.reverse

def openRead (t : Tree N) (links : Nat) (segs : List N) : Option (List N) :=
  match walk t links [] (absolute segs) with
  | .found p => if t.node p = some .file then some p else none
  | _ => none

def openCreate (t : Tree N) (links : Nat) (segs : List N) : Option (List N) :=
  match walk t links [] (absolute segs) with
  | .found p => if t.node p = some .file then some p else none
  | .missing p n => some (p ++ [n])
  | _ => none

/-- Writing a file, with the directories above it. -/
def write (t : Tree N) (links : Nat) (segs : List N) : Option (List N) :=
  (makeDirs t links segs.dropLast).bind fun t' => openCreate t' links segs

/-! ## What is made -/

section Made

variable {links : Nat} {above : List N} {n : N} {t' : Tree N}

theorem Leads.insert (h : Leads t cur xs (.found p)) {q : List N} {m : N} {k : Node N}
    (hdir : t.node q = some .dir) (hnone : t.node (q ++ [m]) = none) :
    Leads (t.insert q m k hdir hnone) cur xs (.found p) := by
  generalize hw : Walked.found p = w at h ⊢
  induction h with
  | arrived cur => exact .arrived cur
  | here _ ih => exact .here (ih hw)
  | up _ ih => exact .up (ih hw)
  | dir hn _ ih => exact .dir (t.insert_node_of_some hdir hnone hn) (ih hw)
  | file hn => exact .file (t.insert_node_of_some hdir hnone hn)
  | link hn _ ih => exact .link (t.insert_node_of_some hdir hnone hn) (ih hw)
  | _ => cases hw

theorem mkdir_cases (t : Tree N) (links : Nat) (above : List N) (n : N) :
    (∃ p, ∃ hdir : t.node p = some .dir, ∃ hnone : t.node (p ++ [n]) = none,
      Leads t [] (absolute above) (.found p) ∧
        mkdir t links above n = .made (t.insert p n .dir hdir hnone)) ∨
    (∃ p, Leads t [] (absolute above) (.found p) ∧ t.node p = some .dir ∧
      t.node (p ++ [n]) ≠ none ∧ mkdir t links above n = .present) ∨
    ((Leads t [] (absolute above) .absent ∨ ∃ p m, Leads t [] (absolute above) (.missing p m)) ∧
      mkdir t links above n = .absent) ∨ mkdir t links above n = .failed := by
  unfold mkdir
  cases hwalk : walk t links [] (absolute above) with
  | found p =>
      have hfound := leads_of_walk_eq hwalk (by simp)
      dsimp only
      by_cases hdir : t.node p = some .dir
      · by_cases hnone : t.node (p ++ [n]) = none
        · rw [dif_pos hdir, dif_pos hnone]
          exact Or.inl ⟨p, hdir, hnone, hfound, rfl⟩
        · rw [dif_pos hdir, dif_neg hnone]
          exact Or.inr (Or.inl ⟨p, hfound, hdir, hnone, rfl⟩)
      · rw [dif_neg hdir]
        exact Or.inr (Or.inr (Or.inr rfl))
  | missing p m =>
      exact Or.inr (Or.inr (Or.inl ⟨Or.inr ⟨p, m, leads_of_walk_eq hwalk (by simp)⟩, rfl⟩))
  | absent =>
      exact Or.inr (Or.inr (Or.inl ⟨Or.inl (leads_of_walk_eq hwalk (by simp)), rfl⟩))
  | notDir => exact Or.inr (Or.inr (Or.inr rfl))
  | loop => exact Or.inr (Or.inr (Or.inr rfl))

theorem isDir_iff : isDir t links above = true ↔
    ∃ p, walk t links [] (absolute above) = .found p ∧ t.node p = some .dir := by
  unfold isDir
  cases walk t links [] (absolute above) <;> simp

theorem remake_eq_some (h : remake t links above n = some t') :
    (∃ p, ∃ hdir : t.node p = some .dir, ∃ hnone : t.node (p ++ [n]) = none,
      Leads t [] (absolute above) (.found p) ∧ t' = t.insert p n .dir hdir hnone) ∨
    (t' = t ∧ ∃ p, Leads t [] (absolute (above ++ [n])) (.found p)) := by
  unfold remake at h
  rcases mkdir_cases t links above n with ⟨p, hdir, hnone, hfound, hmk⟩ |
    ⟨p, hfound, hdir, hsome, hmk⟩ | ⟨hgone, hmk⟩ | hmk
  · rw [hmk] at h
    exact Or.inl ⟨p, hdir, hnone, hfound, (Option.some.inj h).symm⟩
  · rw [hmk] at h
    dsimp only at h
    split at h
    · rename_i hisdir
      obtain ⟨q, hwalk, -⟩ := isDir_iff.mp hisdir
      exact Or.inr ⟨(Option.some.inj h).symm, q, leads_of_walk_eq hwalk (by simp)⟩
    · cases h
  · rw [hmk] at h
    cases h
  · rw [hmk] at h
    cases h

theorem makeDirs_append (t : Tree N) (links : Nat) (above : List N) (n : N) :
    makeDirs t links (above ++ [n]) =
      match mkdir t links above n with
      | .absent => (makeDirs t links above).bind fun t' => remake t' links above n
      | _ => remake t links above n := by
  unfold makeDirs
  rw [List.reverse_append, List.reverse_singleton, List.singleton_append, makeDirsUp,
    List.reverse_reverse]

/-- Inversion of `makeDirs`: a round on the tree as it is, where the way above is there, or
    on the tree in which the way above was made. -/
theorem makeDirs_cases (h : makeDirs t links (above ++ [n]) = some t') :
    remake t links above n = some t' ∨ ((Leads t [] (absolute above) .absent ∨
          ∃ p m, Leads t [] (absolute above) (.missing p m)) ∧
        ∃ t₁, makeDirs t links above = some t₁ ∧ remake t₁ links above n = some t') := by
  rw [makeDirs_append] at h
  rcases mkdir_cases t links above n with ⟨p, hdir, hnone, hfound, hmk⟩ |
    ⟨p, hfound, hdir, hsome, hmk⟩ | ⟨hgone, hmk⟩ | hmk
  · rw [hmk] at h
    exact Or.inl h
  · rw [hmk] at h
    exact Or.inl h
  · rw [hmk] at h
    exact Or.inr ⟨hgone, Option.bind_eq_some_iff.mp h⟩
  · rw [hmk] at h
    exact Or.inl h

theorem makeDirs_of_found (hfound : Leads t [] (absolute above) (.found p))
    (h : makeDirs t links above = some t') : t' = t := by
  cases above using List.reverseRecOn with
  | nil => exact (Option.some.inj h).symm
  | append_singleton above n =>
      rw [absolute_append] at hfound
      have hround : ∀ t₁, remake t links above n = some t₁ → t₁ = t := by
        intro t₁ hre
        rcases remake_eq_some hre with ⟨q, hdir, hnone, hleads, -⟩ | ⟨hsame, -⟩
        · have hmissing : Leads t [] (absolute above ++ absolute [n]) (.missing q n) :=
            hleads.append hdir (.missing hnone)
          cases hfound.unique hmissing
        · exact hsame
      rcases makeDirs_cases h with hre | ⟨hgone, -⟩
      · exact hround t' hre
      · have habsent : Leads t [] (absolute above ++ absolute [n]) .absent := by
          rcases hgone with hgone | ⟨q, m, hgone⟩
          · exact hgone.append_absent (Or.inl rfl) (by simp [absolute])
          · exact hgone.append_absent (Or.inr ⟨q, m, rfl⟩) (by simp [absolute])
        cases hfound.unique habsent

variable {base a : List N}

/-- **Directories are made where their names were missing.** -/
theorem makeDirs_fresh {new : List N} {x : N} (hbase : Leads t [] (absolute base) (.found a))
    (ha : t.node a = some .dir) (hx : t.node (a ++ [x]) = none)
    (h : makeDirs t links (base ++ x :: new) = some t') :
    Leads t' [] (absolute (base ++ x :: new)) (.found (a ++ x :: new)) ∧
      t'.node (a ++ x :: new) = some .dir ∧ ∀ n, t'.node (a ++ x :: new ++ [n]) = none := by
  induction new using List.reverseRecOn generalizing t' with
  | nil =>
      have hmissing : Leads t [] (absolute base ++ absolute [x]) (.missing a x) :=
        hbase.append ha (.missing hx)
      rcases makeDirs_cases h with hre | ⟨hgone, -⟩
      · rcases remake_eq_some hre with ⟨p, hdir, hnone, hleads, rfl⟩ | ⟨-, q, hleads⟩
        · obtain rfl := Walked.found.inj (hleads.unique hbase)
          have hnew : (t.insert p x .dir hdir hnone).node (p ++ [x]) = some .dir := if_pos rfl
          refine ⟨?_, hnew, fun n => ?_⟩
          · rw [absolute_append]
            have hthere := hbase.insert (k := .dir) hdir hnone
            exact hthere.append (t.insert_node_of_some hdir hnone ha)
              (.dir hnew (.arrived _))
          · rw [Tree.insert_node, if_neg (by simp)]
            exact t.node_append_eq_none (by simp [hnone]) (by simp)
        · rw [absolute_append] at hleads
          cases hleads.unique hmissing
      · rcases hgone with hgone | ⟨q, m, hgone⟩
        · cases hbase.unique hgone
        · cases hbase.unique hgone
  | append_singleton new y ih =>
      have hway : base ++ x :: (new ++ [y]) = (base ++ x :: new) ++ [y] := by simp
      have hplace : a ++ x :: (new ++ [y]) = (a ++ x :: new) ++ [y] := by simp
      rw [hway] at h ⊢
      rw [hplace]
      have hmissing : Leads t [] (absolute base ++ absolute [x]) (.missing a x) :=
        hbase.append ha (.missing hx)
      have hlong : ∀ ys, ys ≠ [] → Leads t [] (absolute (base ++ x :: ys)) .absent := by
        intro ys hys
        have hne : absolute ys ≠ [] := by simpa [absolute] using hys
        have hall := hmissing.append_absent (Or.inr ⟨a, x, rfl⟩) hne
        simpa [absolute] using hall
      rcases makeDirs_cases h with hre | ⟨-, t₁, hmade, hre⟩
      · -- the way above is not there yet
        rcases remake_eq_some hre with ⟨p, -, -, hleads, -⟩ | ⟨-, q, hleads⟩
        · cases new with
          | nil =>
              rw [absolute_append] at hleads
              cases hleads.unique hmissing
          | cons m new => cases hleads.unique (hlong (m :: new) (by simp))
        · have hnot := hlong (new ++ [y]) (by simp)
          rw [hway] at hnot
          cases hleads.unique hnot
      · obtain ⟨hfound, hdir₁, hempty⟩ := ih hmade
        rcases remake_eq_some hre with ⟨p, hdir, hnone, hleads, rfl⟩ | ⟨-, q, hleads⟩
        · obtain rfl := Walked.found.inj (hleads.unique hfound)
          have hnew : (t₁.insert _ y .dir hdir hnone).node (a ++ x :: new ++ [y])
            = some .dir := if_pos rfl
          refine ⟨?_, hnew, fun n => ?_⟩
          · rw [absolute_append]
            have hthere := hfound.insert (k := .dir) hdir hnone
            exact hthere.append (t₁.insert_node_of_some hdir hnone hdir₁)
              (.dir hnew (.arrived _))
          · rw [Tree.insert_node, if_neg (by simp)]
            exact t₁.node_append_eq_none (by rw [hnone]; simp) (by simp)
        · have hno : Leads t₁ [] (absolute (base ++ x :: new) ++ absolute [y])
              (.missing (a ++ x :: new) y) := hfound.append hdir₁ (.missing (hempty y))
          rw [absolute_append] at hleads
          cases hleads.unique hno

theorem makeDirs_dangling {x : N} (hbase : Leads t [] (absolute base) (.found a))
    (ha : t.node a = some .dir) (hx : t.node (a ++ [x]) ≠ none)
    (hgone : Leads t [] (absolute (base ++ [x])) r) (hr : r = .absent ∨ ∃ p n, r = .missing p n)
    (new : List N) : makeDirs t links (base ++ x :: new) = none := by
  have hnotFound : ∀ q, ¬ Leads t [] (absolute (base ++ [x])) (.found q) := by
    intro q hq
    rcases hr with rfl | ⟨p, n, rfl⟩ <;> cases hgone.unique hq
  induction new using List.reverseRecOn with
  | nil =>
      cases h : makeDirs t links (base ++ [x]) with
      | none => rfl
      | some t' =>
          exfalso
          rcases makeDirs_cases h with hre | ⟨habove, -⟩
          · rcases remake_eq_some hre with ⟨p, -, hnone, hleads, -⟩ | ⟨-, q, hleads⟩
            · obtain rfl := Walked.found.inj (hleads.unique hbase)
              exact hx hnone
            · exact hnotFound q hleads
          · rcases habove with habove | ⟨q, m, habove⟩
            · cases hbase.unique habove
            · cases hbase.unique habove
  | append_singleton new y ih =>
      have hway : base ++ x :: (new ++ [y]) = (base ++ x :: new) ++ [y] := by simp
      have hlong : ∀ ys, ys ≠ [] → Leads t [] (absolute (base ++ x :: ys)) .absent := by
        intro ys hys
        have hne : absolute ys ≠ [] := by simpa [absolute] using hys
        have hall := hgone.append_absent hr hne
        simpa [absolute] using hall
      rw [hway]
      cases h : makeDirs t links ((base ++ x :: new) ++ [y]) with
      | none => rfl
      | some t' =>
          exfalso
          rcases makeDirs_cases h with hre | ⟨-, t₁, hmade, -⟩
          · rcases remake_eq_some hre with ⟨p, -, -, hleads, -⟩ | ⟨-, q, hleads⟩
            · cases new with
              | nil => exact hnotFound p hleads
              | cons m new => cases hleads.unique (hlong (m :: new) (by simp))
            · have hnot := hlong (new ++ [y]) (by simp)
              rw [hway] at hnot
              cases hleads.unique hnot
          · rw [ih] at hmade
            cases hmade

/-! ## Where a file is written -/

variable {segs q : List N}

theorem openRead_eq_some (h : openRead t links segs = some q) :
    Leads t [] (absolute segs) (.found q) ∧ t.node q = some .file := by
  unfold openRead at h
  cases hwalk : walk t links [] (absolute segs) with
  | found p =>
      rw [hwalk] at h
      dsimp only at h
      split at h
      · rename_i hfile
        obtain rfl := Option.some.inj h
        exact ⟨leads_of_walk_eq hwalk (by simp), hfile⟩
      · cases h
  | _ =>
      rw [hwalk] at h
      cases h

theorem openCreate_eq_some (h : openCreate t links segs = some q) :
    (Leads t [] (absolute segs) (.found q) ∧ t.node q = some .file) ∨
      ∃ p n, walk t links [] (absolute segs) = .missing p n ∧ q = p ++ [n] := by
  unfold openCreate at h
  cases hwalk : walk t links [] (absolute segs) with
  | found p =>
      rw [hwalk] at h
      dsimp only at h
      split at h
      · rename_i hfile
        obtain rfl := Option.some.inj h
        exact Or.inl ⟨leads_of_walk_eq hwalk (by simp), hfile⟩
      · cases h
  | missing p n =>
      rw [hwalk] at h
      exact Or.inr ⟨p, n, rfl, (Option.some.inj h).symm⟩
  | _ =>
      rw [hwalk] at h
      cases h

omit [DecidableEq N] in
theorem above_of_found (h : Leads t [] (absolute (segs ++ [n])) (.found q)) :
    ∃ p, Leads t [] (absolute segs) (.found p) ∧ t.node p = some .dir := by
  rw [absolute_append] at h
  obtain ⟨w, hw⟩ := h.way (List.prefix_append _ _)
  cases w with
  | found p =>
      rcases (hw.node t.root).1 p rfl with hdir | hfile
      · exact ⟨p, hw, hdir⟩
      · cases h.unique (hw.append_file t.root hfile (by simp [absolute]))
  | missing p m => cases h.unique (hw.append_absent (Or.inr ⟨p, m, rfl⟩) (by simp [absolute]))
  | absent => cases h.unique (hw.append_absent (Or.inl rfl) (by simp [absolute]))
  | notDir => cases h.unique hw.append_notDir
  | loop => exact absurd rfl hw.ne_loop

theorem makeDirs_of_dir (hwalk : walk t links [] (absolute segs) = .found p)
    (hdir : t.node p = some .dir) : makeDirs t links segs = some t := by
  cases segs using List.reverseRecOn with
  | nil => rfl
  | append_singleton above n =>
      have hfound := leads_of_walk_eq hwalk (by simp)
      have habove : walk t links [] (absolute above) ≠ .loop := by
        rw [absolute_append] at hwalk
        have hwhole : walk t links [] (absolute above ++ absolute [n]) ≠ .loop := by simp [hwalk]
        exact walk_prefix hwhole
      obtain ⟨b, hbleads, hbdir⟩ := above_of_found hfound
      have hb := (walk_eq_or_loop hbleads).resolve_right habove
      have hisdir : isDir t links (above ++ [n]) = true := isDir_iff.mpr ⟨p, hwalk, hdir⟩
      have hmk : mkdir t links above n = .present := by
        unfold mkdir
        rw [hb]
        dsimp only
        rw [dif_pos hbdir, dif_neg]
        intro hnone
        rw [absolute_append] at hfound
        cases hfound.unique (hbleads.append hbdir (.missing hnone))
      rw [makeDirs_append, hmk]
      unfold remake
      rw [hmk]
      rw [if_pos hisdir]

theorem write_of_found (hfound : Leads t [] (absolute segs) (.found p))
    (h : write t links segs = some q) : q = p ∧ t.node p = some .file := by
  obtain ⟨t', hmade, hopen⟩ := Option.bind_eq_some_iff.mp h
  have hsame : t' = t := by
    cases segs using List.reverseRecOn with
    | nil => exact (Option.some.inj hmade).symm
    | append_singleton above n =>
        rw [List.dropLast_concat] at hmade
        obtain ⟨b, hb, -⟩ := above_of_found hfound
        exact makeDirs_of_found hb hmade
  subst hsame
  rcases openCreate_eq_some hopen with ⟨hleads, hfile⟩ | ⟨p', n, hwalk, -⟩
  · obtain rfl := Walked.found.inj (hleads.unique hfound)
    exact ⟨rfl, hfile⟩
  · cases hfound.unique (leads_of_walk_eq hwalk (by simp))

/-- **A file that is missing is written under the last place that is there, or through a
    link to nothing at the end of its path.** -/
theorem write_of_missing {rest : List N} {x : N} (hbase : Leads t [] (absolute base) (.found a))
    (ha : t.node a = some .dir) (hgone : Leads t [] (absolute (base ++ [x])) r)
    (hr : r = .absent ∨ ∃ p n, r = .missing p n) (h : write t links (base ++ x :: rest) = some q) :
    (t.node (a ++ [x]) = none ∧ q = a ++ x :: rest) ∨ (t.node (a ++ [x]) ≠ none ∧ rest = [] ∧
        walk t links [] (absolute base) = .found a ∧
        ∃ p n, walk t links [] (absolute (base ++ [x])) = .missing p n ∧ q = p ++ [n]) := by
  obtain ⟨t', hmade, hopen⟩ := Option.bind_eq_some_iff.mp h
  have hnotFound : ∀ p, ¬ Leads t [] (absolute (base ++ [x])) (.found p) := by
    intro p hp
    rcases hr with rfl | ⟨p, n, rfl⟩ <;> cases hgone.unique hp
  cases rest using List.reverseRecOn with
  | nil =>
      rw [List.dropLast_concat] at hmade
      obtain rfl := makeDirs_of_found hbase hmade
      rcases openCreate_eq_some hopen with ⟨hleads, -⟩ | ⟨p, n, hwalk, rfl⟩
      · exact absurd hleads (hnotFound q)
      · by_cases hx : t'.node (a ++ [x]) = none
        · left
          have hmissing : Leads t' [] (absolute (base ++ [x])) (.missing a x) := by
            rw [absolute_append]
            exact hbase.append ha (.missing hx)
          obtain ⟨rfl, rfl⟩ := Walked.missing.inj
            (hmissing.unique (leads_of_walk_eq hwalk (by simp)))
          exact ⟨hx, rfl⟩
        · right
          have hloop : walk t' links [] (absolute base) ≠ .loop := by
            rw [absolute_append] at hwalk
            have hwhole : walk t' links [] (absolute base ++ absolute [x]) ≠ .loop := by
              simp [hwalk]
            exact walk_prefix hwhole
          exact ⟨hx, rfl, (walk_eq_or_loop hbase).resolve_right hloop, p, n, hwalk, rfl⟩
  | append_singleton rest y =>
      have hway : (base ++ x :: (rest ++ [y])).dropLast = base ++ x :: rest := by
        rw [← List.cons_append, ← List.append_assoc, List.dropLast_concat]
      rw [hway] at hmade
      by_cases hx : t.node (a ++ [x]) = none
      · left
        obtain ⟨hfound, hdir, hempty⟩ := makeDirs_fresh hbase ha hx hmade
        have hmissing : Leads t' [] (absolute (base ++ x :: (rest ++ [y])))
            (.missing (a ++ x :: rest) y) := by
          have hthere := hfound.append hdir (.missing (hempty y))
          simpa [absolute] using hthere
        refine ⟨hx, ?_⟩
        rcases openCreate_eq_some hopen with ⟨hleads, -⟩ | ⟨p, n, hwalk, rfl⟩
        · cases hmissing.unique hleads
        · obtain ⟨rfl, rfl⟩ := Walked.missing.inj
            (hmissing.unique (leads_of_walk_eq hwalk (by simp)))
          simp
      · rw [makeDirs_dangling hbase ha hx hgone hr rest] at hmade
        cases hmade

theorem write_of_dangling {x m : N} (hbase : walk t links [] (absolute base) = .found a)
    (ha : t.node a = some .dir) (hgone : walk t links [] (absolute (base ++ [x])) = .missing p m) :
    write t links (base ++ [x]) = some (p ++ [m]) := by
  unfold write
  rw [List.dropLast_concat, makeDirs_of_dir hbase ha]
  show openCreate t links (base ++ [x]) = some (p ++ [m])
  unfold openCreate
  rw [hgone]

end Made

end FileTree
