import Daftari.Access.RbacProofs
import Daftari.Lib.MachineProofs
import Daftari.Lib.TableProofs
import Daftari.Lib.TextProofs
import Mathlib.Data.List.Dedup

/-! # The event clock — what a consolidate session examines

    A session diffs the stored baseline against HEAD when it starts, works for any time, and stores
    the HEAD of its end as the next baseline.  Commits that land in between are in no range.  Which
    documents a range touches is read off the names git prints, which are relative to the repository
    and quoted where a character is not plain.

    * `quotePath`, `Git.diffNameOnly`: what git prints, as documented;
    * `changedSince`, `changedPaths`: what the session makes of it, and `mem_changedPaths`: **a
      differing path whose line reads as a document is in the set**;
    * `clock_of_calm`: **in every run of calm steps no commit and no changed document is
    missed**. -/

namespace Consolidate

open Rbac (isListed)

/-! ## What git prints -/

/-- The files of a commit: repository-relative path to content. -/
abbrev Tree (C : Type) := Table String C

def plainChar (c : Char) : Bool :=
  decide (0x20 ≤ c.toNat) && decide (c.toNat < 0x7F) && decide (c ≠ '"') && decide (c ≠ '\\')

def octalDigit : Nat → Char
  | 0 => '0'
  | 1 => '1'
  | 2 => '2'
  | 3 => '3'
  | 4 => '4'
  | 5 => '5'
  | 6 => '6'
  | _ => '7'

def octalByte (b : UInt8) : List Char :=
  ['\\', octalDigit (b.toNat / 64), octalDigit (b.toNat / 8 % 8), octalDigit (b.toNat % 8)]

/-- A character inside quotes. -/
def escapeChar (c : Char) : List Char :=
  if plainChar c then [c]
  else
    match c.toNat with
    | 0x07 => ['\\', 'a']
    | 0x08 => ['\\', 'b']
    | 0x09 => ['\\', 't']
    | 0x0A => ['\\', 'n']
    | 0x0B => ['\\', 'v']
    | 0x0C => ['\\', 'f']
    | 0x0D => ['\\', 'r']
    | 0x22 => ['\\', '"']
    | 0x5C => ['\\', '\\']
    | _ => (String.utf8EncodeChar c).flatMap octalByte

def quotePath (path : String) : List Char :=
  if path.toList.all plainChar then path.toList
  else '"' :: path.toList.flatMap escapeChar ++ ['"']

/-- Git's rename detection: of a detected rename only the new name is printed. -/
structure Git (C : Type) where
  renamedAway : Tree C → Tree C → String → Bool
  gone : ∀ a b p, renamedAway a b p = true → b.find p = none

variable {C : Type} (git : Git C)

/-- The paths of `git diff --name-only a..b`. -/
def Git.diffPaths [DecidableEq C] (a b : Tree C) : List String :=
  (a.keys ++ b.keys).dedup.filter fun p => a.find p ≠ b.find p ∧ git.renamedAway a b p = false

/-- Its output: one line each. -/
def Git.diffNameOnly [DecidableEq C] (a b : Tree C) : List Char :=
  (git.diffPaths a b).flatMap fun p => quotePath p ++ ['\n']

/-! ## What the session makes of it -/

def canon (p : List Char) : List Char :=
  match Rbac.normalize p with
  | '.' :: '/' :: rest => rest
  | n => n

/-- `changedSince`: the trimmed lines that end in `.md`. -/
def changedSince (output : List Char) : List (List Char) :=
  ((output.splitOn '\n').map Text.trim).filter fun p => ".md".toList.isSuffixOf p

def changedPaths [DecidableEq C] (a b : Tree C) : List String :=
  ((changedSince (git.diffNameOnly a b)).map canon).map String.ofList

/-- The line of a path reads as the document `p`. -/
def ReadsAs (path p : String) : Prop :=
  ".md".toList.isSuffixOf (Text.trim (quotePath path)) = true
    ∧ canon (Text.trim (quotePath path)) = p.toList

instance (path p : String) : Decidable (ReadsAs path p) := inferInstanceAs (Decidable (_ ∧ _))

theorem not_plainChar_newline : plainChar '\n' = false := by decide

theorem newline_not_mem_octalByte (b : UInt8) : '\n' ∉ octalByte b := by
  have hdigit : ∀ n, '\n' ≠ octalDigit n := by
    intro n
    unfold octalDigit
    split <;> decide
  intro hmem
  rcases List.mem_cons.mp hmem with h | hmem
  · exact absurd h (by decide)
  rcases List.mem_cons.mp hmem with h | hmem
  · exact hdigit _ h
  rcases List.mem_cons.mp hmem with h | hmem
  · exact hdigit _ h
  exact hdigit _ (List.mem_singleton.mp hmem)

theorem newline_not_mem_quotePath (path : String) : '\n' ∉ quotePath path := by
  unfold quotePath
  split
  · rename_i hall
    intro hmem
    have := List.all_eq_true.mp hall '\n' hmem
    cases this
  · intro hmem
    rcases List.mem_append.mp hmem with hmem | hmem
    · rcases List.mem_cons.mp hmem with h | hmem
      · exact absurd h (by decide)
      obtain ⟨c, -, hc⟩ := List.mem_flatMap.mp hmem
      unfold escapeChar at hc
      split at hc
      · rename_i hplain
        rw [← List.mem_singleton.mp hc, not_plainChar_newline] at hplain
        cases hplain
      split at hc
      all_goals first
        | (obtain ⟨b, -, hb⟩ := List.mem_flatMap.mp hc
           exact newline_not_mem_octalByte b hb)
        | exact absurd hc (by decide)
    · exact absurd (List.mem_singleton.mp hmem) (by decide)

theorem splitOn_lines (paths : List String) :
    (paths.flatMap fun p => quotePath p ++ ['\n']).splitOn '\n' = paths.map quotePath ++ [[]] := by
  induction paths with
  | nil => rfl
  | cons p paths ih =>
      rw [List.flatMap_cons, List.append_assoc, List.singleton_append,
        List.splitOn_append_cons_self_of_not_mem (newline_not_mem_quotePath p), ih]
      rfl

/-- **A differing path whose line reads as a document** is in the changed set. -/
theorem mem_changedPaths [DecidableEq C] {a b : Tree C} {path p : String}
    (hdiff : a.find path ≠ b.find path) (hname : git.renamedAway a b path = false)
    (hreads : ReadsAs path p) : p ∈ changedPaths git a b := by
  have hkey : path ∈ a.keys ++ b.keys := by
    by_contra hnot
    rw [List.mem_append, Table.mem_keys, Table.mem_keys, not_or, not_not, not_not] at hnot
    exact hdiff (hnot.1.trans hnot.2.symm)
  have hpath : path ∈ git.diffPaths a b :=
    List.mem_filter.mpr ⟨List.mem_dedup.mpr hkey, decide_eq_true ⟨hdiff, hname⟩⟩
  have hline : quotePath path ∈ (git.diffNameOnly a b).splitOn '\n' := by
    unfold Git.diffNameOnly
    rw [splitOn_lines]
    exact List.mem_append_left _ (List.mem_map.mpr ⟨path, hpath, rfl⟩)
  have hmem : Text.trim (quotePath path) ∈ changedSince (git.diffNameOnly a b) :=
    List.mem_filter.mpr ⟨List.mem_map.mpr ⟨_, hline, rfl⟩, hreads.1⟩
  refine List.mem_map.mpr ⟨p.toList, List.mem_map.mpr ⟨_, hmem, hreads.2⟩, ?_⟩
  exact String.ofList_toList

/-! ## Sessions -/

/-- A range that a session has diffed, by the places of its ends in the history. -/
structure Diffed where
  start : Nat
  finish : Nat
  changed : List String
deriving DecidableEq

/-- Where a session stands.  It has read the baseline, or it has also diffed up to
    a commit, if there was a baseline. -/
inductive Session where
  | begun (baseline : Option Nat)
  | working (baseline : Option Nat) (diffedTo : Option Nat)

/-- The linear history, the stored baseline and the first one ever stored, the
    session and the ranges that have been diffed. -/
structure State (C : Type) where
  history : List (Tree C)
  baseline : Option Nat
  firstBaseline : Option Nat
  session : Option Session
  diffs : List Diffed

inductive Action (C : Type) where
  | commit (tree : Tree C)
  /-- A session starts and reads the state. -/
  | start
  /-- It diffs the working history against the baseline. -/
  | diff
  /-- It stores HEAD as the baseline. -/
  | store
  /-- It ends without storing. -/
  | stop

def State.head (s : State C) : Option Nat :=
  if s.history = [] then none else some (s.history.length - 1)

/-- One step; `none` where the action does not fit the state. -/
def State.step? [DecidableEq C] (s : State C) : Action C → Option (State C)
  | .commit tree => some { s with history := s.history ++ [tree] }
  | .start =>
      match s.session with
      | none => some { s with session := some (.begun s.baseline) }
      | some _ => none
  | .diff =>
      match s.session with
      | some (.begun none) => some { s with session := some (.working none none) }
      | some (.begun (some b)) =>
          match s.history[b]?, s.history.getLast? with
          | some old, some new => some
              { s with
                session := some (.working (some b) (some (s.history.length - 1)))
                diffs := s.diffs ++ [⟨b, s.history.length - 1, changedPaths git old new⟩] }
          -- an unreachable baseline skips the event clock
          | _, _ => some { s with session := some (.working (some b) none) }
      | _ => none
  | .store =>
      match s.session with
      | some (.working old _) => some
          { s with
            baseline := s.head.or old
            firstBaseline := s.firstBaseline.or s.head
            session := none }
      | _ => none
  | .stop => some { s with session := none }

/-- The consolidate sessions over one repository. -/
def machine [DecidableEq C] : Machine (State C) (Action C) where
  enabled s a := (s.step? git a).isSome = true
  next s a := (s.step? git a).getD s

instance [DecidableEq C] (s : State C) (a : Action C) : Decidable ((machine git).enabled s a) :=
  inferInstanceAs (Decidable ((s.step? git a).isSome = true))

/-- A repository with any history and no stored baseline. -/
def unexamined (history : List (Tree C)) : State C := ⟨history, none, none, none, []⟩

/-! ## The condition and what it gives -/

variable (ignored : String → Bool) (sub : String)

/-- Every vault document that differs between two commits prints as itself; the
    vault lies in the directory `sub` of its repository. -/
def PrintsDocuments (a b : Tree C) : Prop :=
  ∀ p, isListed ignored p = true → a.find (sub ++ p) ≠ b.find (sub ++ p) →
    git.renamedAway a b (sub ++ p) = false ∧ ReadsAs (sub ++ p) p

/-- **The condition on one step.**  The documents that differ between the baseline and HEAD print as
    themselves when a session diffs, and HEAD is where it was diffed when the session stores it. -/
def Calm (s : State C) : Action C → Prop
  | .diff => ∀ b, s.session = some (.begun (some b)) → ∀ old new,
      s.history[b]? = some old → s.history.getLast? = some new →
      PrintsDocuments git ignored sub old new
  | .store => ∀ old h, s.session = some (.working old (some h)) → s.head = some h
  | _ => True

/-- A commit lies in a diffed range. -/
def Covered (s : State C) (i : Nat) : Prop := ∃ d ∈ s.diffs, d.start < i ∧ i ≤ d.finish

/-- Every commit after the first baseline and up to `n` is in a diffed range. -/
def CoveredTo (s : State C) (n : Nat) : Prop :=
  ∀ f, s.firstBaseline = some f → ∀ i, f < i → i ≤ n → Covered s i

def Faithful (s : State C) (d : Diffed) : Prop :=
  ∀ a b, s.history[d.start]? = some a → s.history[d.finish]? = some b → ∀ p,
    isListed ignored p = true → a.find (sub ++ p) ≠ b.find (sub ++ p) → p ∈ d.changed

/-- **The invariant of calm runs.** -/
structure Inv (s : State C) : Prop where
  first : s.baseline = none → s.firstBaseline = none ∧ s.diffs = []
  stored : ∀ b, s.baseline = some b →
    b < s.history.length ∧ s.firstBaseline ≠ none ∧ CoveredTo s b
  begun : ∀ b, s.session = some (.begun b) → b = s.baseline
  working : ∀ b h, s.session = some (.working b h) → b = s.baseline
    ∧ (b ≠ none → ∃ n, h = some n ∧ CoveredTo s n)
  diffs : ∀ d ∈ s.diffs, d.start < s.history.length ∧ d.finish < s.history.length
    ∧ CoveredTo s d.finish ∧ Faithful ignored sub s d

theorem Inv.unexamined (history : List (Tree C)) :
    Inv ignored sub (unexamined history) where
  first _ := ⟨rfl, rfl⟩
  stored _ h := nomatch h
  begun _ h := nomatch h
  working _ _ h := nomatch h
  diffs _ h := absurd h List.not_mem_nil

/-! ## One step -/

variable {git ignored sub} {s : State C}

theorem State.head_lt {n : Nat} (h : s.head = some n) : n < s.history.length := by
  obtain ⟨hne, hn⟩ := Option.ite_none_left_eq_some.mp h
  obtain rfl := Option.some.inj hn
  exact Nat.sub_lt (List.length_pos_of_ne_nil hne) Nat.one_pos

theorem Faithful.commit {d : Diffed} (hstart : d.start < s.history.length)
    (hfinish : d.finish < s.history.length) (hd : Faithful ignored sub s d) (tree : Tree C) :
    Faithful ignored sub { s with history := s.history ++ [tree] } d := by
  intro a b ha hb
  rw [List.getElem?_append_left hstart] at ha
  rw [List.getElem?_append_left hfinish] at hb
  exact hd a b ha hb

theorem Inv.commit (hs : Inv ignored sub s) (tree : Tree C) :
    Inv ignored sub { s with history := s.history ++ [tree] } where
  first := hs.first
  stored b hb := by
    obtain ⟨hlt, hfirst, hcov⟩ := hs.stored b hb
    have hlen : s.history.length ≤ (s.history ++ [tree]).length :=
      (List.sublist_append_left _ _).length_le
    exact ⟨lt_of_lt_of_le hlt hlen, hfirst, hcov⟩
  begun := hs.begun
  working := hs.working
  diffs d hd := by
    obtain ⟨hstart, hfinish, hcov, hfaith⟩ := hs.diffs d hd
    have hlen : s.history.length ≤ (s.history ++ [tree]).length :=
      (List.sublist_append_left _ _).length_le
    exact ⟨lt_of_lt_of_le hstart hlen, lt_of_lt_of_le hfinish hlen, hcov,
      hfaith.commit hstart hfinish tree⟩

theorem Inv.start (hs : Inv ignored sub s) :
    Inv ignored sub { s with session := some (.begun s.baseline) } where
  first := hs.first
  stored := hs.stored
  begun b h := by
    obtain rfl : s.baseline = b := by injection h with h; injection h
    rfl
  working _ _ h := by injection h with h; injection h
  diffs := hs.diffs

theorem Inv.stop (hs : Inv ignored sub s) : Inv ignored sub { s with session := none } where
  first := hs.first
  stored := hs.stored
  begun _ h := nomatch h
  working _ _ h := nomatch h
  diffs := hs.diffs

theorem Inv.diff_none (hs : Inv ignored sub s) (hsession : s.session = some (.begun none)) :
    Inv ignored sub { s with session := some (.working none none) } where
  first := hs.first
  stored := hs.stored
  begun _ h := by injection h with h; injection h
  working b h heq := by
    injection heq with heq
    injection heq with hb hh
    subst hb
    exact ⟨hs.begun none hsession, fun hne => absurd rfl hne⟩
  diffs := hs.diffs

theorem CoveredTo.insert {n : Nat} (hn : CoveredTo s n) (session : Option Session) (d : Diffed) :
    CoveredTo { s with session := session, diffs := s.diffs ++ [d] } n := by
  intro f hf i hfi hin
  obtain ⟨d', hd', hi⟩ := hn f hf i hfi hin
  exact ⟨d', List.mem_append_left _ hd', hi⟩

theorem CoveredTo.extend {d : Diffed} (hb : CoveredTo s d.start) (session : Option Session) :
    CoveredTo { s with session := session, diffs := s.diffs ++ [d] } d.finish := by
  intro f hf i hfi hin
  by_cases hle : i ≤ d.start
  · exact hb.insert session d f hf i hfi hle
  · exact ⟨d, List.mem_append_right _ (List.mem_singleton_self d), Nat.lt_of_not_le hle, hin⟩

theorem Inv.diff_some [DecidableEq C] (hs : Inv ignored sub s) {b : Nat} {old new : Tree C}
    (hsession : s.session = some (.begun (some b))) (hold : s.history[b]? = some old)
    (hnew : s.history.getLast? = some new) (hprints : PrintsDocuments git ignored sub old new) :
    Inv ignored sub { s with
      session := some (.working (some b) (some (s.history.length - 1)))
      diffs := s.diffs ++ [⟨b, s.history.length - 1, changedPaths git old new⟩] } where
  first h := absurd ((hs.begun _ hsession).trans h) (Option.some_ne_none b)
  stored b' hb' := by
    obtain ⟨hlt, hfirst, hcov⟩ := hs.stored b' hb'
    exact ⟨hlt, hfirst, hcov.insert _ _⟩
  begun _ h := by injection h with h; injection h
  working b' h heq := by
    injection heq with heq
    injection heq with hb hh
    subst hb hh
    obtain ⟨-, -, hcov⟩ := hs.stored b (hs.begun _ hsession).symm
    refine ⟨hs.begun _ hsession, fun _ => ⟨s.history.length - 1, rfl, ?_⟩⟩
    exact CoveredTo.extend (d := ⟨b, s.history.length - 1, changedPaths git old new⟩) hcov _
  diffs d hd := by
    obtain ⟨hlt, -, hcov⟩ := hs.stored b (hs.begun _ hsession).symm
    have hpos : 0 < s.history.length := Nat.zero_lt_of_lt hlt
    rcases List.mem_append.mp hd with hd | hd
    · obtain ⟨hstart, hfinish, hdcov, hfaith⟩ := hs.diffs d hd
      exact ⟨hstart, hfinish, hdcov.insert _ _, hfaith⟩
    · obtain rfl := List.mem_singleton.mp hd
      refine ⟨hlt, Nat.sub_lt hpos Nat.one_pos, hcov.extend _, ?_⟩
      intro x y hx hy p hp hne
      -- the two ends are the two trees that were diffed
      obtain rfl : old = x := Option.some.inj (hold.symm.trans hx)
      rw [List.getLast?_eq_getElem?] at hnew
      obtain rfl : new = y := Option.some.inj (hnew.symm.trans hy)
      obtain ⟨haway, hreads⟩ := hprints p hp hne
      exact mem_changedPaths git hne haway hreads

/-- The store step of the first session: nothing lies between the first baseline and itself. -/
theorem Inv.store_first (hs : Inv ignored sub s) (hbase : s.baseline = none) :
    Inv ignored sub { s with
      baseline := s.head.or none
      firstBaseline := s.firstBaseline.or s.head
      session := none } := by
  obtain ⟨hfirst, hdiffs⟩ := hs.first hbase
  have hor : s.head.or none = s.head := Option.or_none
  rw [hor, hfirst, Option.none_or]
  constructor
  · exact fun h => ⟨h, hdiffs⟩
  · intro b hb
    refine ⟨State.head_lt hb, fun h => Option.some_ne_none b (hb.symm.trans h), ?_⟩
    intro f hf i hfi hin
    obtain rfl : f = b := Option.some.inj (hf.symm.trans hb)
    exact absurd hin (Nat.not_le_of_lt hfi)
  · exact fun _ h => nomatch h
  · exact fun _ _ h => nomatch h
  · intro d hd
    rw [hdiffs] at hd
    exact absurd hd List.not_mem_nil

theorem Inv.store_again (hs : Inv ignored sub s) {b n : Nat}
    (hsession : s.session = some (.working (some b) (some n))) (hhead : s.head = some n) :
    Inv ignored sub { s with
      baseline := s.head.or (some b)
      firstBaseline := s.firstBaseline.or s.head
      session := none } := by
  obtain ⟨hbase, hto⟩ := hs.working _ _ hsession
  obtain ⟨-, hfirst, -⟩ := hs.stored b hbase.symm
  obtain ⟨f, hf⟩ := Option.ne_none_iff_exists'.mp hfirst
  have hcov : CoveredTo s n := by
    obtain ⟨m, hm, hcov⟩ := hto (Option.some_ne_none b)
    obtain rfl := Option.some.inj hm
    exact hcov
  rw [hhead, Option.some_or, hf, Option.some_or, ← hf]
  constructor
  · exact fun h => nomatch h
  · intro b' hb'
    obtain rfl : n = b' := Option.some.inj hb'
    exact ⟨State.head_lt hhead, hfirst, hcov⟩
  · exact fun _ h => nomatch h
  · exact fun _ _ h => nomatch h
  · exact hs.diffs

/-- **One calm step keeps the invariant.** -/
theorem Inv.step [DecidableEq C] {a : Action C} (hs : Inv ignored sub s)
    (henabled : (machine git).enabled s a) (hcalm : Calm git ignored sub s a) :
    Inv ignored sub ((machine git).next s a) := by
  obtain ⟨s', hstep⟩ := Option.isSome_iff_exists.mp henabled
  have hnext : (machine git).next s a = s' := by
    show (s.step? git a).getD s = s'
    rw [hstep, Option.getD_some]
  rw [hnext]
  cases a with
  | commit tree =>
      obtain rfl := Option.some.inj hstep
      exact hs.commit tree
  | start =>
      simp only [State.step?] at hstep
      split at hstep
      · obtain rfl := Option.some.inj hstep
        exact hs.start
      · cases hstep
  | diff =>
      simp only [State.step?] at hstep
      split at hstep
      · rename_i hsession
        obtain rfl := Option.some.inj hstep
        exact hs.diff_none hsession
      · rename_i b hsession
        obtain ⟨hlt, -⟩ := hs.stored b (hs.begun _ hsession).symm
        split at hstep
        · rename_i old new hold hnew
          obtain rfl := Option.some.inj hstep
          exact hs.diff_some hsession hold hnew (hcalm b hsession old new hold hnew)
        · -- a stored baseline is always in the history
          rename_i hnot
          have hne : s.history ≠ [] := List.ne_nil_of_length_pos (Nat.zero_lt_of_lt hlt)
          exact absurd (List.getLast?_eq_some_getLast hne)
            (fun hlast => hnot _ _ (List.getElem?_eq_getElem hlt) hlast)
      · cases hstep
  | store =>
      simp only [State.step?] at hstep
      split at hstep
      · rename_i old h hsession
        obtain rfl := Option.some.inj hstep
        obtain ⟨hbase, hto⟩ := hs.working _ _ hsession
        cases old with
        | none => exact hs.store_first hbase.symm
        | some b =>
            obtain ⟨n, rfl, -⟩ := hto (Option.some_ne_none b)
            exact hs.store_again hsession (hcalm _ n hsession)
      · cases hstep
  | stop =>
      obtain rfl := Option.some.inj hstep
      exact hs.stop

/-! ## Whole runs -/

/-- **In every run of calm sessions** and commits of others, each commit after the
    first baseline and up to the last diff is in a diffed range, and each document
    that differs between the ends of a range is in its changed set. -/
theorem clock_of_calm [DecidableEq C] (git : Git C) (ignored : String → Bool) (sub : String)
    (history : List (Tree C)) {s : State C}
    (hreach : ((machine git).restrict (Calm git ignored sub)).Reach (unexamined history) s) :
    ∀ d ∈ s.diffs, CoveredTo s d.finish ∧ Faithful ignored sub s d := by
  have hs : Inv ignored sub s :=
    Machine.reach_invariant (M := (machine git).restrict (Calm git ignored sub))
      (fun _ _ hs ha => hs.step ha.1 ha.2) (.unexamined ignored sub history) hreach
  intro d hd
  obtain ⟨-, -, hcov, hfaith⟩ := hs.diffs d hd
  exact ⟨hcov, hfaith⟩

/-! ## Two runs -/

def plainGit : Git String where
  renamedAway _ _ _ := false
  gone _ _ _ h := nomatch h

def treeOf (path content : String) : Tree String :=
  (Table.empty : Tree String).set path content

def quietSessions : List (Action String) :=
  [.start, .diff, .store, .commit (treeOf "a.md" "1"), .start, .diff, .store]

theorem printsDocuments_a (old new : String) :
    PrintsDocuments plainGit (fun _ => false) "" (treeOf "a.md" old) (treeOf "a.md" new) := by
  intro p _ hne
  have hp : p = "a.md" := by
    by_contra hp
    have hkey : "" ++ p ≠ "a.md" := fun h => hp (by rw [← h, String.empty_append])
    unfold treeOf at hne
    rw [Table.find_set_of_ne _ _ hkey, Table.find_set_of_ne _ _ hkey] at hne
    exact hne rfl
  subst hp
  exact ⟨rfl, by decide +kernel⟩

/-- A run in which a changed document is found. -/
theorem clock_of_calm_quiet : ∃ s : State String,
    s.diffs = [⟨0, 1, ["a.md"]⟩] ∧ s.baseline = some 1
      ∧ ∀ d ∈ s.diffs, CoveredTo s d.finish ∧ Faithful (fun _ => false) "" s d := by
  refine ⟨_, ?_, ?_, clock_of_calm plainGit (fun _ => false) "" [treeOf "a.md" "0"]
    ⟨quietSessions, .cons ⟨by decide, trivial⟩ (.cons ⟨by decide, ?_⟩ (.cons ⟨by decide, ?_⟩
      (.cons ⟨by decide, trivial⟩ (.cons ⟨by decide, trivial⟩ (.cons ⟨by decide, ?_⟩
        (.cons ⟨by decide, ?_⟩ (.nil _)))))))⟩⟩
  · decide +kernel
  · rfl
  · -- the first session has no baseline to diff against
    intro b hb
    exact absurd (Session.begun.inj (Option.some.inj hb)) (Option.some_ne_none b).symm
  · intro old h hworking
    exact absurd (Session.working.inj (Option.some.inj hworking)).2 (Option.some_ne_none h).symm
  · intro b hb old new hold hnew
    obtain rfl : 0 = b := Option.some.inj (Session.begun.inj (Option.some.inj hb))
    obtain rfl : treeOf "a.md" "0" = old := Option.some.inj hold
    obtain rfl : treeOf "a.md" "1" = new := Option.some.inj hnew
    exact printsDocuments_a "0" "1"
  · intro old h hworking
    obtain rfl : 1 = h := Option.some.inj (Session.working.inj (Option.some.inj hworking)).2
    rfl

def busySessions (tree₁ tree₂ : Tree String) : List (Action String) :=
  [.start, .diff, .store, .commit tree₁, .start, .diff, .commit tree₂, .store, .start, .diff]

/-- **A COMMIT AND A DOCUMENT ARE MISSED.**  The second session stores a commit that
    it has not diffed, and git prints the name of `é.md` in quotes. -/
theorem missed : ∃ s : State String,
    (machine plainGit).Reach (unexamined [treeOf "é.md" "0"]) s
      ∧ (∃ d ∈ s.diffs, ¬ CoveredTo s d.finish)
      ∧ ∃ d ∈ s.diffs, ¬ Faithful (fun _ => false) "" s d := by
  obtain ⟨s, hrun, hs⟩ := Machine.reach_of_runs_any (M := machine plainGit)
    (s := unexamined [treeOf "é.md" "0"])
    (l := busySessions (treeOf "é.md" "1") (treeOf "é.md" "2"))
    (Q := fun s => decide (s.firstBaseline = some 0) && decide (s.diffs = [⟨0, 1, []⟩, ⟨2, 2, []⟩])
      && decide (s.history = [treeOf "é.md" "0", treeOf "é.md" "1", treeOf "é.md" "2"]))
    (by decide +kernel)
  rw [Bool.and_eq_true, Bool.and_eq_true, decide_eq_true_eq, decide_eq_true_eq,
    decide_eq_true_eq] at hs
  obtain ⟨⟨hfirst, hdiffs⟩, hhistory⟩ := hs
  refine ⟨s, hrun, ⟨⟨2, 2, []⟩, by simp [hdiffs], ?_⟩, ⟨⟨0, 1, []⟩, by simp [hdiffs], ?_⟩⟩
  · intro hcov
    obtain ⟨d, hd, hlt, hle⟩ := hcov 0 hfirst 2 (by decide) (le_refl 2)
    rw [hdiffs] at hd
    rcases List.mem_pair.mp hd with rfl | rfl
    · exact absurd hle (by decide)
    · exact absurd hlt (by decide)
  · intro hfaith
    have hmem := hfaith (treeOf "é.md" "0") (treeOf "é.md" "1") (by rw [hhistory]; rfl)
      (by rw [hhistory]; rfl) "é.md" (by decide +kernel) (by decide +kernel)
    exact absurd hmem List.not_mem_nil

end Consolidate
