import Daftari.Storage.SyncRunsProofs

/-! # What a restore can write — poisoned manifests and refused files

    A restore tests a manifest key for exclusion as it is spelled and writes to the path the key
    resolves to; its confinement test asks whether the relative path starts with `..`.

    * `mem_restoreVault`: **every file a restore leaves was written by one of its tasks**, below the
      root. -/

namespace Sync

open Frontmatter (Value)
open Rbac (NormalPath)

variable {B : Type} {h : Hashing B}

/-! ## One task -/

/-- The key passes the tests of its task, but for what is in its way. -/
def Writes (h : Hashing B) (root : Root) (m : SyncManifest) (objects : Table String B)
    (key : String) : Prop :=
  escapes root key = false ∧ ∃ b, objects.find key = some b ∧ m.find key = some (h.sha b)

variable {objects : Table String B} {m : SyncManifest} {root : Root} {key : String}

theorem of_restoreTask {tree tree' : Table String B}
    (htask : restoreTask h root m objects key tree = .ok tree') :
    Writes h root m objects key ∧ ∃ b, tree' = tree.set (targetOf root key) b := by
  unfold restoreTask at htask
  split at htask
  · cases htask
  rename_i hinside
  cases hobj : objects.find key with
  | none =>
      rw [hobj] at htask
      cases htask
  | some b =>
      rw [hobj] at htask
      dsimp only at htask
      split at htask
      · cases htask
      rename_i hsha
      unfold place at htask
      cases hconf : conflicts tree (targetOf root key) with
      | true =>
          rw [hconf] at htask
          cases htask
      | false =>
          rw [hconf] at htask
          refine ⟨⟨Bool.eq_false_iff.mpr hinside, b, hobj, not_not.mp hsha⟩, b, ?_⟩
          exact (Except.ok.inj htask).symm

theorem Writes.restoreTask (hw : Writes h root m objects key) :
    ∃ b, restoreTask h root m objects key .empty = .ok (Table.empty.set (targetOf root key) b) := by
  obtain ⟨hinside, b, hobj, hsha⟩ := hw
  refine ⟨b, ?_⟩
  unfold Sync.restoreTask
  rw [hinside, if_neg Bool.false_ne_true, hobj]
  dsimp only
  rw [if_neg (not_not.mpr hsha)]
  rfl

theorem normal_targetOf (hinside : escapes root key = false) :
    NormalPath (targetOf root key).toList := by
  unfold escapes at hinside
  simp only [Bool.or_eq_false_iff, decide_eq_false_iff_not] at hinside
  obtain ⟨⟨hne, hup⟩, -⟩ := hinside
  unfold targetOf
  rw [String.toList_ofList]
  refine (Rbac.lexicalRelative_inside root.2 hne ?_).1
  intro hpre
  rw [List.isPrefixOf_iff_prefix.mpr hpre] at hup
  cases hup

/-! ## The pool -/

/-- The tasks that end are tasks of the restore. -/
def Scheduled (backing : Backing B) (order : List String) : Prop :=
  ∀ m, readManifest backing.manifest = .ok m → ∀ key ∈ order, key ∈ restorePaths m

theorem mem_foldl_taskEnds (order : List String) (acc : Table String B × Except String Unit)
    {p : String} (hp : p ∈ (order.foldl (taskEnds h root m objects) acc).1.keys) :
    p ∈ acc.1.keys ∨ ∃ key ∈ order, Writes h root m objects key ∧ p = targetOf root key := by
  induction order generalizing acc with
  | nil => exact Or.inl hp
  | cons key order ih =>
      rcases ih _ hp with hin | ⟨key', hmem, hrest⟩
      · unfold taskEnds at hin
        cases htask : restoreTask h root m objects key acc.1 with
        | error e =>
            rw [htask] at hin
            exact Or.inl hin
        | ok tree =>
            rw [htask] at hin
            obtain ⟨hw, b, rfl⟩ := of_restoreTask htask
            rcases mem_keys_set.mp hin with rfl | hin
            · exact Or.inr ⟨key, List.mem_cons_self, hw, rfl⟩
            · exact Or.inl hin
      · exact Or.inr ⟨key', List.mem_cons_of_mem _ hmem, hrest⟩

/-- **Every file a restore leaves was written by one of its tasks.** -/
theorem mem_restoreVault {existing : List String} {backing : Backing B} {order : List String}
    {p : String} (hp : p ∈ (restoreVault h root existing backing order).1.keys) :
    ∃ m, readManifest backing.manifest = .ok m ∧ ∃ key ∈ order,
      Writes h root m backing.objects key ∧ p = targetOf root key := by
  unfold restoreVault at hp
  split at hp
  · cases hp
  cases hm : readManifest backing.manifest with
  | error e =>
      rw [hm] at hp
      cases hp
  | ok m =>
      rw [hm] at hp
      dsimp only at hp
      split at hp
      · cases hp
      · exact ⟨m, rfl, (mem_foldl_taskEnds order _ hp).resolve_left List.not_mem_nil⟩

theorem restoreVault_singleton {backing : Backing B} (hm : readManifest backing.manifest = .ok m)
    (hkey : key ∈ m.keys) (hw : Writes h root m backing.objects key) :
    targetOf root key ∈ (restoreVault h root [] backing [key]).1.keys := by
  obtain ⟨b, htask⟩ := hw.restoreTask
  unfold restoreVault
  rw [if_neg (not_not.mpr rfl), hm]
  dsimp only
  rw [if_neg (List.ne_nil_of_mem hkey), List.foldl_cons, List.foldl_nil]
  unfold taskEnds
  rw [htask]
  exact mem_keys_set.mpr (Or.inl rfl)

/-! ## Both guards -/

theorem restore_confined_iff (h : Hashing B) (root : Root) (backing : Backing B) :
    (∀ existing order, Scheduled backing order →
        ∀ p ∈ (restoreVault h root existing backing order).1.keys,
          NormalPath p.toList ∧ isExcluded p = false)
      ↔ ∀ m, readManifest backing.manifest = .ok m → ∀ key ∈ restorePaths m,
          Writes h root m backing.objects key → isExcluded (targetOf root key) = false := by
  constructor
  · intro hall m hm key hkey hw
    have hsched : Scheduled backing [key] := by
      intro m' hm' key' hkey'
      obtain rfl := Except.ok.inj (hm.symm.trans hm')
      rw [List.mem_singleton.mp hkey']
      exact hkey
    exact (hall [] [key] hsched _ (restoreVault_singleton hm (List.mem_filter.mp hkey).1 hw)).2
  · intro hcond existing order hsched p hp
    obtain ⟨m, hm, key, hkey, hw, rfl⟩ := mem_restoreVault hp
    exact ⟨normal_targetOf hw.1, hcond m hm key (hsched m hm key hkey) hw⟩

/-- After a run that returns ok the manifest lists the files that are not excluded. -/
theorem listed_after_commit {s : State B} (hrun : (machine h).Reach fresh s)
    (hcommit : (machine h).enabled s .commit) :
    ∃ m, readManifest ((machine h).next s .commit).backing.manifest = .ok m ∧ ∀ p, p ∈ m.keys ↔
        p ∈ ((machine h).next s .commit).files.keys ∧ isExcluded p = false := by
  have hshape := shape_of_reach hrun
  have hstep := step_of_enabled h hcommit
  simp only [State.step?] at hstep
  split at hstep
  · cases hstep
  rename_i r hr
  obtain ⟨_, ht⟩ := Option.ite_none_right_eq_some.mp hstep
  rw [← Option.some.inj ht]
  refine ⟨r.localHashes, readManifest_toJson _, ?_⟩
  intro p
  rw [hshape.hashes r hr, mem_candidates, Table.mem_keys]

theorem restore_refuses_iff (h : Hashing B) (root : Root) {s : State B}
    (hrun : (machine h).Reach fresh s) (hcommit : (machine h).enabled s .commit) :
    (∀ m, readManifest ((machine h).next s .commit).backing.manifest = .ok m →
        ∀ p ∈ m.keys, p ∈ restorePaths m ∧ escapes root p = false)
      ↔ ∀ p ∈ ((machine h).next s .commit).files.keys, isExcluded p = false →
        ¬ ['.', '.'] <+: p.toList := by
  obtain ⟨m, hm, hlisted⟩ := listed_after_commit hrun hcommit
  have hnormal := (shape_of_reach (hrun.step hcommit)).normal
  constructor
  · intro hall p hp hex hup
    have hinside := (hall m hm p ((hlisted p).mpr ⟨hp, hex⟩)).2
    rw [escapes_of_normal root (hnormal p hp), List.isPrefixOf_iff_prefix.mpr hup] at hinside
    cases hinside
  · intro hcond m' hm' p hp
    obtain rfl := Except.ok.inj (hm.symm.trans hm')
    obtain ⟨hfile, hex⟩ := (hlisted p).mp hp
    refine ⟨List.mem_filter.mpr ⟨hp, by rw [hex]; rfl⟩, ?_⟩
    rw [escapes_of_normal root (hnormal p hfile)]
    exact Bool.eq_false_iff.mpr fun hpre =>
      hcond p hfile hex (List.isPrefixOf_iff_prefix.mp hpre)

/-- **WHAT A RESTORE WRITES AND REFUSES.**  For every backing, every file a restore leaves is a
    normal path below the root that a push would not exclude, exactly when no key that the restore
    comes to write is excluded once it is resolved.  After every run of the sync engine that returns
    ok, a restore refuses none of the paths that were pushed exactly when none of them starts with
    `..`. -/
theorem restore_guards_iff {B : Type} (h : Hashing B) (root : Root) :
    (∀ backing : Backing B, (∀ existing order, Scheduled backing order →
          ∀ p ∈ (restoreVault h root existing backing order).1.keys,
            NormalPath p.toList ∧ isExcluded p = false)
        ↔ ∀ m, readManifest backing.manifest = .ok m → ∀ key ∈ restorePaths m,
            Writes h root m backing.objects key → isExcluded (targetOf root key) = false)
      ∧ ∀ s : State B, (machine h).Reach fresh s → (machine h).enabled s .commit →
        ((∀ m, readManifest ((machine h).next s .commit).backing.manifest = .ok m →
            ∀ p ∈ m.keys, p ∈ restorePaths m ∧ escapes root p = false)
          ↔ ∀ p ∈ ((machine h).next s .commit).files.keys, isExcluded p = false →
            ¬ ['.', '.'] <+: p.toList) :=
  ⟨restore_confined_iff h root, fun _ hrun hcommit => restore_refuses_iff h root hrun hcommit⟩

/-! ## Two inputs -/

def vRoot : Root := ⟨[['v']], by decide⟩

def oneObject (key : String) (b : List Char) : Backing (List Char) where
  manifest := some (.ok (SyncManifest.toJson (Table.empty.set key (textHashing.sha b))))
  objects := Table.empty.set key b

/-- A vault with one file at its root, whose run is about to return. -/
def onePush (path : String) : List (Action (List Char)) :=
  [.write path ['x'] 0, .start, .put path]

/-- With a key that is spelled as it resolves and a file that does not start with
    `..`, both guards hold. -/
theorem restore_guards_iff_page :
    (∀ existing order, Scheduled (oneObject page ['x']) order →
        ∀ p ∈ (restoreVault textHashing vRoot existing (oneObject page ['x']) order).1.keys,
          NormalPath p.toList ∧ isExcluded p = false)
      ∧ ∃ s, ∀ m,
        readManifest ((machine textHashing).next s .commit).backing.manifest = .ok m →
          ∀ p ∈ m.keys, p ∈ restorePaths m ∧ escapes vRoot p = false := by
  obtain ⟨s, hrun, hs⟩ := Machine.reach_of_runs_any
    (M := machine textHashing) (s := fresh) (l := onePush page)
    (Q := fun s => decide ((machine textHashing).enabled s .commit)
      && decide (((machine textHashing).next s .commit).files.keys = [page]))
    (by decide +kernel)
  rw [Bool.and_eq_true, decide_eq_true_eq, decide_eq_true_eq] at hs
  refine ⟨((restore_guards_iff textHashing vRoot).1 _).mpr ?_, s,
    ((restore_guards_iff textHashing vRoot).2 s hrun hs.1).mpr ?_⟩
  · intro m hm key hkey _
    obtain rfl := Except.ok.inj ((readManifest_toJson _).symm.trans hm)
    have hpage : key = page :=
      (mem_keys_set.mp (List.mem_filter.mp hkey).1).resolve_right List.not_mem_nil
    rw [hpage]
    decide +kernel
  · intro p hp _
    rw [hs.2, List.mem_singleton] at hp
    rw [hp]
    decide +kernel

/-- **PLANTED AND REFUSED.**  A manifest that lists `./.git/config` makes the restore write
    `.git/config`; a vault file `..a.md` is pushed, and the restore refuses it. -/
theorem planted_and_refused :
    (∃ backing order, Scheduled backing order ∧ ∃ p,
        p ∈ (restoreVault textHashing vRoot [] backing order).1.keys ∧ isExcluded p = true)
      ∧ ∃ s, (machine textHashing).Reach fresh s ∧ (machine textHashing).enabled s .commit
        ∧ ∃ m, readManifest ((machine textHashing).next s .commit).backing.manifest = .ok m
          ∧ ∃ p ∈ m.keys, escapes vRoot p = true := by
  constructor
  · refine ⟨oneObject "./.git/config" ['x'], ["./.git/config"], ?_, ".git/config", ?_⟩
    · intro m hm key hkey
      obtain rfl := Except.ok.inj ((readManifest_toJson _).symm.trans hm)
      rw [List.mem_singleton.mp hkey]
      decide +kernel
    · decide +kernel
  · obtain ⟨s, hrun, hs⟩ := Machine.reach_of_runs_any
      (M := machine textHashing) (s := fresh) (l := onePush "..a.md")
      (Q := fun s => decide ((machine textHashing).enabled s .commit)
        && decide (((machine textHashing).next s .commit).files.keys = ["..a.md"]))
      (by decide +kernel)
    rw [Bool.and_eq_true, decide_eq_true_eq, decide_eq_true_eq] at hs
    obtain ⟨m, hm, hlisted⟩ := listed_after_commit hrun hs.1
    refine ⟨s, hrun, hs.1, m, hm, "..a.md", ?_, by decide +kernel⟩
    rw [hlisted, hs.2]
    exact ⟨List.mem_singleton_self _, by decide +kernel⟩

end Sync
