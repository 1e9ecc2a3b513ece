import Daftari.Storage.SyncProofs

/-! # Runs of the sync engine — crashes, reverts, and what the manifest promises

    The manifest is written last, so a stopped run leaves objects that the
    manifest does not describe.  The next run repairs those whose local file
    still differs from the manifest.  A file that has gone back to the recorded
    bytes in between is taken for unchanged and is never repaired.

    * `sync_of_calm`: **in every run of calm steps a sync that returns ok leaves
      a backing that restores exactly the local files**. -/

namespace Sync

open Frontmatter (Value)
open Rbac (NormalPath)

variable {B : Type} {h : Hashing B} {s t : State B}

/-! ## The local side -/

variable {p : String}

theorem mem_candidates : p ∈ s.candidates ↔ s.files.find p ≠ none ∧ isExcluded p = false := by
  unfold State.candidates
  rw [List.mem_filter, Table.mem_keys, Bool.not_eq_true']

def localNow (h : Hashing B) (s : State B) (p : String) : Option String :=
  if isExcluded p then none else (s.files.find p).map fun f => h.sha f.bytes

theorem find_localHashes (p : String) : (s.localHashes h).find p =
    if isExcluded p then none else (s.files.find p).map (hashFile h s.memo p) := by
  unfold State.localHashes
  rw [Table.find_ofKeys]
  by_cases hp : p ∈ s.candidates
  · rw [if_pos hp, (mem_candidates.mp hp).2, if_neg Bool.false_ne_true]
  · rw [if_neg hp]
    cases hex : isExcluded p with
    | true => rfl
    | false =>
        have hnone : s.files.find p = none := by
          by_contra hne
          exact hp (mem_candidates.mpr ⟨hne, hex⟩)
        rw [hnone]
        rfl

theorem find_nextMemo {m : Memo} (hm : (s.nextMemo h).find p = some m) :
    ∃ f, s.files.find p = some f ∧ m = ⟨h.size f.bytes, f.mtime, hashFile h s.memo p f⟩ := by
  unfold State.nextMemo at hm
  rw [Table.find_ofKeys] at hm
  split at hm
  · obtain ⟨f, hf, rfl⟩ := Option.map_eq_some_iff.mp hm
    exact ⟨f, hf, rfl⟩
  · cases hm

/-! ## What holds in every run -/

/-- The files are a tree, the manifest can be read, and a run has a hash for
    exactly the files that are pushed. -/
structure Shape (s : State B) : Prop where
  normal : ∀ p ∈ s.files.keys, NormalPath p.toList
  free : ∀ p ∈ s.files.keys, ∀ q ∈ s.files.keys, ¬ Under p q
  manifest : ∃ m, readManifest s.backing.manifest = .ok m
  hashes : ∀ r, s.run = some r → ∀ p, p ∈ r.localHashes.keys ↔ p ∈ s.candidates
  uploads : ∀ r, s.run = some r → ∀ p ∈ r.toUpload, p ∈ s.candidates

theorem not_under_self (p : String) : ¬ Under p p := by
  intro hp
  have := hp.length_le
  rw [List.length_append] at this
  exact Nat.not_succ_le_self _ this

theorem conflicts_eq_false {α : Type} {files : Table String α} :
    conflicts files p = false ↔ ∀ q ∈ files.keys, ¬ Under q p ∧ ¬ Under p q := by
  unfold conflicts
  rw [List.any_eq_false]
  simp only [Bool.or_eq_true, decide_eq_true_eq, not_or]

theorem mem_keys_set {α : Type} {files : Table String α} {q : String} {v : α} :
    q ∈ (files.set p v).keys ↔ q = p ∨ q ∈ files.keys := by
  rw [Table.mem_keys, Table.mem_keys, Table.find_set]
  by_cases hq : q = p
  · rw [if_pos hq]
    exact ⟨fun _ => Or.inl hq, fun _ => Option.some_ne_none v⟩
  · rw [if_neg hq]
    exact ⟨Or.inr, fun hor => hor.resolve_left hq⟩

theorem mem_keys_erase {α : Type} {files : Table String α} {q : String} :
    q ∈ (files.erase p).keys ↔ q ≠ p ∧ q ∈ files.keys := by
  rw [Table.mem_keys, Table.mem_keys, Table.find_erase]
  by_cases hq : q = p
  · rw [if_pos hq]
    exact ⟨fun hn => absurd rfl hn, fun hand => absurd hq hand.1⟩
  · rw [if_neg hq]
    exact ⟨fun hf => ⟨hq, hf⟩, fun hand => hand.2⟩

theorem mem_keys_localHashes : p ∈ (s.localHashes h).keys ↔ p ∈ s.candidates := by
  rw [Table.mem_keys, find_localHashes, mem_candidates]
  cases isExcluded p with
  | true => simp
  | false => simp

private theorem of_idle {P : Run → Prop} (hidle : s.run = none) : ∀ r, s.run = some r → P r := by
  intro r hr
  exact absurd (hidle.symm.trans hr) (Option.some_ne_none r).symm

theorem Shape.step (hs : Shape s) {a : Action B} (hstep : s.step? h a = some t) : Shape t := by
  cases a with
  | write path bytes mtime =>
      simp only [State.step?] at hstep
      split at hstep
      · cases hstep
      rename_i hrun
      obtain ⟨⟨hnormal, hconf⟩, ht⟩ := Option.ite_none_right_eq_some.mp hstep
      obtain rfl := Option.some.inj ht
      rw [conflicts_eq_false] at hconf
      refine ⟨?_, ?_, hs.manifest, ?_, ?_⟩
      · intro p hp
        rcases mem_keys_set.mp hp with hpath | hold
        · rw [hpath]
          exact hnormal
        · exact hs.normal p hold
      · intro p hp q hq
        rcases mem_keys_set.mp hp with hpath | hold
        · rw [hpath]
          rcases mem_keys_set.mp hq with hpath' | hold'
          · rw [hpath']
            exact not_under_self path
          · exact (hconf q hold').2
        · rcases mem_keys_set.mp hq with hpath' | hold'
          · rw [hpath']
            exact (hconf p hold).1
          · exact hs.free p hold q hold'
      · exact of_idle hrun
      · exact of_idle hrun
  | remove path =>
      simp only [State.step?] at hstep
      split at hstep
      · cases hstep
      rename_i hrun
      obtain rfl := Option.some.inj hstep
      refine ⟨?_, ?_, hs.manifest, of_idle hrun, of_idle hrun⟩
      · intro p hp
        exact hs.normal p (mem_keys_erase.mp hp).2
      · intro p hp q hq
        exact hs.free p (mem_keys_erase.mp hp).2 q (mem_keys_erase.mp hq).2
  | restart =>
      obtain rfl := Option.some.inj hstep
      exact ⟨hs.normal, hs.free, hs.manifest, (by rintro _ ⟨⟩), (by rintro _ ⟨⟩)⟩
  | start =>
      simp only [State.step?] at hstep
      split at hstep
      · cases hstep
      rename_i hrun
      split at hstep
      · obtain rfl := Option.some.inj hstep
        exact ⟨hs.normal, hs.free, hs.manifest, of_idle hrun, of_idle hrun⟩
      · obtain rfl := Option.some.inj hstep
        refine ⟨hs.normal, hs.free, hs.manifest, ?_, ?_⟩
        · intro r hr p
          obtain rfl := Option.some.inj hr
          exact mem_keys_localHashes
        · intro r hr p hp
          obtain rfl := Option.some.inj hr
          exact (mem_keys_localHashes (s := s)).mp (List.mem_filter.mp hp).1
  | put path =>
      simp only [State.step?] at hstep
      split at hstep
      · cases hstep
      rename_i r hrun
      obtain ⟨hup, ht⟩ := Option.ite_none_right_eq_some.mp hstep
      split at ht
      · obtain rfl := Option.some.inj ht
        exact ⟨hs.normal, hs.free, hs.manifest, (by rintro _ ⟨⟩), (by rintro _ ⟨⟩)⟩
      · obtain rfl := Option.some.inj ht
        refine ⟨hs.normal, hs.free, hs.manifest, ?_, ?_⟩
        · intro r' hr' p
          obtain rfl := Option.some.inj hr'
          refine mem_keys_set.trans ?_
          constructor
          · rintro (rfl | hold)
            · exact hs.uploads r hrun p hup
            · exact (hs.hashes r hrun p).mp hold
          · intro hp
            exact Or.inr ((hs.hashes r hrun p).mpr hp)
        · intro r' hr' p hp
          obtain rfl := Option.some.inj hr'
          exact hs.uploads r hrun p (List.mem_filter.mp hp).1
  | delete path =>
      simp only [State.step?] at hstep
      split at hstep
      · cases hstep
      rename_i r hrun
      obtain ⟨_, ht⟩ := Option.ite_none_right_eq_some.mp hstep
      obtain rfl := Option.some.inj ht
      refine ⟨hs.normal, hs.free, hs.manifest, ?_, ?_⟩
      · intro r' hr'
        obtain rfl := Option.some.inj hr'
        exact hs.hashes r hrun
      · intro r' hr'
        obtain rfl := Option.some.inj hr'
        exact hs.uploads r hrun
  | commit =>
      simp only [State.step?] at hstep
      split at hstep
      · cases hstep
      obtain ⟨_, ht⟩ := Option.ite_none_right_eq_some.mp hstep
      obtain rfl := Option.some.inj ht
      exact ⟨hs.normal, hs.free, ⟨_, readManifest_toJson _⟩, (by rintro _ ⟨⟩), (by rintro _ ⟨⟩)⟩
  | stop =>
      obtain rfl := Option.some.inj hstep
      exact ⟨hs.normal, hs.free, hs.manifest, (by rintro _ ⟨⟩), (by rintro _ ⟨⟩)⟩

theorem Shape.fresh : Shape (fresh : State B) :=
  ⟨(by rintro _ ⟨⟩), (by rintro _ ⟨⟩), ⟨.empty, rfl⟩, (by rintro _ ⟨⟩), (by rintro _ ⟨⟩)⟩

theorem shape_of_reach (hrun : (machine h).Reach fresh s) : Shape s :=
  Machine.reach_invariant (fun _ _ hs ha => hs.step (step_of_enabled h ha)) .fresh hrun

/-! ## What a stop breaks, and a revert hides -/

/-- **The condition on one step.**  A local change does not give a file back the bytes the manifest
    records for it while the backing holds something else under its path, nor the size and time the
    process has memoised for other bytes.  A run that returns ok has pushed some file, and no path
    that starts with `..`. -/
def Calm (h : Hashing B) (s : State B) : Action B → Prop
  | .write path bytes mtime => isExcluded path = false →
      (∀ m, readManifest s.backing.manifest = .ok m → m.find path = some (h.sha bytes) →
          s.backing.objects.find path = some bytes)
        ∧ ∀ memo, s.memo.find path = some memo → memo.size = h.size bytes →
          memo.mtime = mtime → memo.hash = h.sha bytes
  | .commit => s.candidates ≠ [] ∧ ∀ p ∈ s.candidates, ¬ ['.', '.'] <+: p.toList
  | _ => True

theorem forall_readManifest {raw : Option (Except String Value)} {P : SyncManifest → Prop} :
    (∀ m ∈ (readManifest raw).toOption, P m) ↔ ∀ m, readManifest raw = .ok m → P m := by
  cases readManifest raw with
  | error e =>
      constructor
      · intro _ m hm
        cases hm
      · intro _ m hm
        cases hm
  | ok m₀ =>
      constructor
      · intro hall m hm
        exact hall m (congrArg some (Except.ok.inj hm))
      · intro hall m hm
        exact hall m (congrArg Except.ok (Option.some.inj hm))

instance [DecidableEq B] (s : State B) (a : Action B) : Decidable (Calm h s a) :=
  match a with
  | .write path bytes mtime => decidable_of_iff (isExcluded path = false →
      (∀ m ∈ (readManifest s.backing.manifest).toOption,
          m.find path = some (h.sha bytes) → s.backing.objects.find path = some bytes)
        ∧ ∀ memo ∈ s.memo.find path, memo.size = h.size bytes →
          memo.mtime = mtime → memo.hash = h.sha bytes)
      (imp_congr_right fun _ => and_congr_left' forall_readManifest)
  | .commit => inferInstanceAs (Decidable (_ ∧ ∀ p ∈ s.candidates, ¬ _))
  | .remove _ => isTrue trivial
  | .restart => isTrue trivial
  | .start => isTrue trivial
  | .put _ => isTrue trivial
  | .delete _ => isTrue trivial
  | .stop => isTrue trivial

/-- **The invariant of calm runs.**  The memo does not lie, and a file whose hash
    the manifest records has its bytes in the backing. -/
structure Inv (h : Hashing B) (s : State B) : Prop where
  memo : ∀ p m f, isExcluded p = false → s.memo.find p = some m → s.files.find p = some f →
    m.size = h.size f.bytes → m.mtime = f.mtime → m.hash = h.sha f.bytes
  kept : ∀ m, readManifest s.backing.manifest = .ok m → ∀ p f, isExcluded p = false →
    s.files.find p = some f → m.find p = some (h.sha f.bytes) →
    s.backing.objects.find p = some f.bytes
  hashes : ∀ r, s.run = some r → ∀ p, r.localHashes.find p = localNow h s p
  pushed : ∀ r, s.run = some r → ∀ p f, isExcluded p = false → s.files.find p = some f →
    p ∉ r.toUpload → s.backing.objects.find p = some f.bytes
  gone : ∀ r, s.run = some r → ∀ p ∈ r.toDelete, r.localHashes.find p = none

theorem Inv.hashFile_eq (hi : Inv h s) {f : LocalFile B} (hex : isExcluded p = false)
    (hf : s.files.find p = some f) : hashFile h s.memo p f = h.sha f.bytes := by
  unfold hashFile
  cases hm : s.memo.find p with
  | none => rfl
  | some m =>
      dsimp only
      split
      · rename_i heq
        exact hi.memo p m f hex hm hf heq.1 heq.2
      · rfl

theorem Inv.find_localHashes_eq (hi : Inv h s) (p : String) :
    (s.localHashes h).find p = localNow h s p := by
  rw [find_localHashes]
  unfold localNow
  cases hex : isExcluded p with
  | true => rfl
  | false =>
      cases hf : s.files.find p with
      | none => rfl
      | some f => exact congrArg some (hi.hashFile_eq hex hf)

theorem Inv.write (hi : Inv h s) {path : String} {bytes : B} {mtime : Nat}
    (hrun : s.run = none) (hcalm : Calm h s (.write path bytes mtime)) :
    Inv h { s with files := s.files.set path ⟨bytes, mtime⟩ } := by
  refine ⟨?_, ?_, of_idle hrun, of_idle hrun, of_idle hrun⟩
  · intro p m f hex hm hf hsize htime
    rw [Table.find_set] at hf
    split at hf
    · rename_i hp
      subst hp
      obtain rfl := Option.some.inj hf
      exact (hcalm hex).2 m hm hsize htime
    · exact hi.memo p m f hex hm hf hsize htime
  · intro m hm p f hex hf hrec
    rw [Table.find_set] at hf
    split at hf
    · rename_i hp
      subst hp
      obtain rfl := Option.some.inj hf
      exact (hcalm hex).1 m hm hrec
    · exact hi.kept m hm p f hex hf hrec

theorem Inv.remove (hi : Inv h s) {path : String} (hrun : s.run = none) :
    Inv h { s with files := s.files.erase path } := by
  have hfind : ∀ p f, (s.files.erase path).find p = some f → s.files.find p = some f := by
    intro p f hf
    rw [Table.find_erase] at hf
    split at hf
    · cases hf
    · exact hf
  refine ⟨?_, ?_, of_idle hrun, of_idle hrun, of_idle hrun⟩
  · intro p m f hex hm hf
    exact hi.memo p m f hex hm (hfind p f hf)
  · intro m hm p f hex hf
    exact hi.kept m hm p f hex (hfind p f hf)

theorem Inv.nextMemo (hi : Inv h s) {m : Memo} {f : LocalFile B} (hex : isExcluded p = false)
    (hm : (s.nextMemo h).find p = some m) (hf : s.files.find p = some f) :
    m.hash = h.sha f.bytes := by
  obtain ⟨f', hf', rfl⟩ := find_nextMemo hm
  obtain rfl := Option.some.inj (hf.symm.trans hf')
  exact hi.hashFile_eq hex hf

theorem Inv.start (hi : Inv h s) {remote : SyncManifest}
    (hremote : readManifest s.backing.manifest = .ok remote) :
    Inv h { s with memo := s.nextMemo h, run := some (s.plan h remote) } := by
  refine ⟨?_, hi.kept, ?_, ?_, ?_⟩
  · intro p m f hex hm hf _ _
    exact hi.nextMemo hex hm hf
  · intro r hr p
    obtain rfl := Option.some.inj hr
    exact hi.find_localHashes_eq p
  · intro r hr p f hex hf hnot
    obtain rfl := Option.some.inj hr
    have hmine : (s.localHashes h).find p = some (h.sha f.bytes) := by
      rw [hi.find_localHashes_eq]
      unfold localNow
      rw [hex, if_neg Bool.false_ne_true, hf]
      rfl
    -- a file that is not uploaded is one the manifest already records
    have hsame : remote.find p = (s.localHashes h).find p := by
      by_contra hne
      refine hnot (List.mem_filter.mpr ⟨?_, decide_eq_true hne⟩)
      rw [Table.mem_keys, hmine]
      exact Option.some_ne_none _
    exact hi.kept remote hremote p f hex hf (hsame.trans hmine)
  · intro r hr p hp
    obtain rfl := Option.some.inj hr
    exact of_decide_eq_true (List.mem_filter.mp hp).2

theorem Inv.put (hi : Inv h s) (hs : Shape s) {r : Run} (hrun : s.run = some r)
    {path : String} (hup : path ∈ r.toUpload) {f : LocalFile B}
    (hf : s.files.find path = some f) :
    Inv h { s with
      backing := { s.backing with objects := s.backing.objects.set path f.bytes }
      run := some { r with
        localHashes := r.localHashes.set path (h.sha f.bytes)
        toUpload := r.toUpload.filter (· ≠ path) } } := by
  have hex : isExcluded path = false := (mem_candidates.mp (hs.uploads r hrun path hup)).2
  have hmine : r.localHashes.find path = some (h.sha f.bytes) := by
    rw [hi.hashes r hrun]
    unfold localNow
    rw [hex, if_neg Bool.false_ne_true, hf]
    rfl
  -- the object is the file's, and the hash is the one that was there
  have hobj : ∀ p g, s.files.find p = some g →
      (p ≠ path → s.backing.objects.find p = some g.bytes) →
      (s.backing.objects.set path f.bytes).find p = some g.bytes := by
    intro p g hg hold
    rw [Table.find_set]
    split
    · rename_i hp
      subst hp
      obtain rfl := Option.some.inj (hf.symm.trans hg)
      rfl
    · rename_i hp
      exact hold hp
  have hsame : ∀ p, (r.localHashes.set path (h.sha f.bytes)).find p = r.localHashes.find p := by
    intro p
    rw [Table.find_set]
    split
    · rename_i hp
      rw [hp, hmine]
    · rfl
  refine ⟨hi.memo, ?_, ?_, ?_, ?_⟩
  · intro m hm p g hexp hg hrec
    exact hobj p g hg fun _ => hi.kept m hm p g hexp hg hrec
  · intro r' hr' p
    obtain rfl := Option.some.inj hr'
    exact (hsame p).trans (hi.hashes r hrun p)
  · intro r' hr' p g hexp hg hnot
    obtain rfl := Option.some.inj hr'
    refine hobj p g hg ?_
    intro hp
    refine hi.pushed r hrun p g hexp hg ?_
    intro hmem
    exact hnot (List.mem_filter.mpr ⟨hmem, decide_eq_true hp⟩)
  · intro r' hr' p hp
    obtain rfl := Option.some.inj hr'
    exact (hsame p).trans (hi.gone r hrun p hp)

theorem Inv.delete (hi : Inv h s) {r : Run} (hrun : s.run = some r) {path : String}
    (hgone : path ∈ r.toDelete) :
    Inv h { s with
      backing := { s.backing with objects := s.backing.objects.erase path }
      run := some { r with toDelete := r.toDelete.filter (· ≠ path) } } := by
  -- what is deleted is not a local file
  have hobj : ∀ p f, isExcluded p = false → s.files.find p = some f →
      s.backing.objects.find p = some f.bytes →
      (s.backing.objects.erase path).find p = some f.bytes := by
    intro p f hex hf hold
    rw [Table.find_erase]
    split
    · rename_i hp
      subst hp
      have hnone := hi.gone r hrun p hgone
      rw [hi.hashes r hrun] at hnone
      unfold localNow at hnone
      rw [hex, if_neg Bool.false_ne_true, hf] at hnone
      cases hnone
    · exact hold
  refine ⟨hi.memo, ?_, ?_, ?_, ?_⟩
  · intro m hm p f hex hf hrec
    exact hobj p f hex hf (hi.kept m hm p f hex hf hrec)
  · intro r' hr'
    obtain rfl := Option.some.inj hr'
    exact hi.hashes r hrun
  · intro r' hr' p f hex hf hnot
    obtain rfl := Option.some.inj hr'
    exact hobj p f hex hf (hi.pushed r hrun p f hex hf hnot)
  · intro r' hr' p hp
    obtain rfl := Option.some.inj hr'
    exact hi.gone r hrun p (List.mem_filter.mp hp).1

theorem Inv.commit (hi : Inv h s) {r : Run} (hrun : s.run = some r) (hdone : r.toUpload = []) :
    Inv h { s with
      backing := { s.backing with manifest := some (.ok r.localHashes.toJson) }
      run := none } := by
  refine ⟨hi.memo, ?_, (by rintro _ ⟨⟩), (by rintro _ ⟨⟩), (by rintro _ ⟨⟩)⟩
  intro m _ p f hex hf _
  exact hi.pushed r hrun p f hex hf (by rw [hdone]; exact List.not_mem_nil)

/-- **Every calm step keeps the invariant.** -/
theorem Inv.step (hi : Inv h s) (hs : Shape s) {a : Action B} (hstep : s.step? h a = some t)
    (hcalm : Calm h s a) : Inv h t := by
  cases a with
  | write path bytes mtime =>
      simp only [State.step?] at hstep
      split at hstep
      · cases hstep
      rename_i hrun
      obtain ⟨_, ht⟩ := Option.ite_none_right_eq_some.mp hstep
      obtain rfl := Option.some.inj ht
      exact hi.write hrun hcalm
  | remove path =>
      simp only [State.step?] at hstep
      split at hstep
      · cases hstep
      rename_i hrun
      obtain rfl := Option.some.inj hstep
      exact hi.remove hrun
  | restart =>
      obtain rfl := Option.some.inj hstep
      refine ⟨?_, hi.kept, (by rintro _ ⟨⟩), (by rintro _ ⟨⟩), (by rintro _ ⟨⟩)⟩
      intro p m f _ hm
      cases hm
  | start =>
      simp only [State.step?] at hstep
      split at hstep
      · cases hstep
      split at hstep
      · rename_i e he
        obtain ⟨m, hm⟩ := hs.manifest
        cases he.symm.trans hm
      · rename_i remote hremote
        obtain rfl := Option.some.inj hstep
        exact hi.start hremote
  | put path =>
      simp only [State.step?] at hstep
      split at hstep
      · cases hstep
      rename_i r hrun
      obtain ⟨hup, ht⟩ := Option.ite_none_right_eq_some.mp hstep
      split at ht
      · obtain rfl := Option.some.inj ht
        exact ⟨hi.memo, hi.kept, (by rintro _ ⟨⟩), (by rintro _ ⟨⟩), (by rintro _ ⟨⟩)⟩
      · rename_i f hf
        obtain rfl := Option.some.inj ht
        exact hi.put hs hrun hup hf
  | delete path =>
      simp only [State.step?] at hstep
      split at hstep
      · cases hstep
      rename_i r hrun
      obtain ⟨⟨_, hgone⟩, ht⟩ := Option.ite_none_right_eq_some.mp hstep
      obtain rfl := Option.some.inj ht
      exact hi.delete hrun hgone
  | commit =>
      simp only [State.step?] at hstep
      split at hstep
      · cases hstep
      rename_i r hrun
      obtain ⟨⟨hdone, _⟩, ht⟩ := Option.ite_none_right_eq_some.mp hstep
      obtain rfl := Option.some.inj ht
      exact hi.commit hrun hdone
  | stop =>
      obtain rfl := Option.some.inj hstep
      exact ⟨hi.memo, hi.kept, (by rintro _ ⟨⟩), (by rintro _ ⟨⟩), (by rintro _ ⟨⟩)⟩

theorem Inv.fresh : Inv h fresh := ⟨nofun, nofun, nofun, nofun, nofun⟩

/-! ## Restoring what was pushed -/

theorem escapes_of_normal (root : Root) (hp : NormalPath p.toList) :
    escapes root p = ['.', '.'].isPrefixOf p.toList := by
  unfold escapes
  rw [Rbac.lexicalRelative_of_normal root.2 hp]
  simp only [decide_eq_false hp.ne_nil, decide_eq_false hp.head_ne, Bool.false_or, Bool.or_false]

theorem targetOf_of_normal (root : Root) (hp : NormalPath p.toList) : targetOf root p = p := by
  unfold targetOf
  rw [Rbac.lexicalRelative_of_normal root.2 hp, String.ofList_toList]

/-- A listed object that can be restored under its own name. -/
structure Restorable (h : Hashing B) (root : Root) (m : SyncManifest) (objects : Table String B)
    (p : String) (b : B) : Prop where
  normal : NormalPath p.toList
  inside : escapes root p = false
  object : objects.find p = some b
  hash : m.find p = some (h.sha b)

theorem Restorable.taskEnds {root : Root} {m : SyncManifest} {objects : Table String B} {b : B}
    (hr : Restorable h root m objects p b) {tree : Table String B}
    (hconf : conflicts tree p = false) (result : Except String Unit) :
    taskEnds h root m objects (tree, result) p = (tree.set p b, result) := by
  have htask : restoreTask h root m objects p tree = .ok (tree.set p b) := by
    unfold restoreTask place
    rw [hr.inside, if_neg Bool.false_ne_true, hr.object]
    dsimp only
    rw [if_neg (not_not.mpr hr.hash), targetOf_of_normal root hr.normal, hconf,
      if_neg Bool.false_ne_true]
  unfold Sync.taskEnds
  rw [htask]

/-- **The pool restores every listed object**, in whatever order its tasks end. -/
theorem foldl_taskEnds (root : Root) (m : SyncManifest) (objects tree : Table String B)
    (order : List String) (hall : ∀ p ∈ order, ∃ b, Restorable h root m objects p b)
    (hfree : ∀ p ∈ order, ∀ q, q ∈ tree.keys ∨ q ∈ order → ¬ Under q p ∧ ¬ Under p q) :
    ∃ tree', order.foldl (taskEnds h root m objects) (tree, .ok ()) = (tree', .ok ())
      ∧ ∀ p, tree'.find p = if p ∈ order then objects.find p else tree.find p := by
  induction order generalizing tree with
  | nil => exact ⟨tree, rfl, fun p => by rw [if_neg List.not_mem_nil]⟩
  | cons p order ih =>
      obtain ⟨b, hb⟩ := hall p List.mem_cons_self
      have hconf : conflicts tree p = false :=
        conflicts_eq_false.mpr fun q hq => hfree p List.mem_cons_self q (Or.inl hq)
      obtain ⟨tree', hfold, hfind⟩ := ih (tree.set p b)
        (fun q hq => hall q (List.mem_cons_of_mem _ hq)) (by
          intro q hq q' hq'
          refine hfree q (List.mem_cons_of_mem _ hq) q' ?_
          rcases hq' with hq' | hq'
          · rcases mem_keys_set.mp hq' with rfl | hq'
            · exact Or.inr List.mem_cons_self
            · exact Or.inl hq'
          · exact Or.inr (List.mem_cons_of_mem _ hq'))
      refine ⟨tree', ?_, ?_⟩
      · rw [List.foldl_cons, hb.taskEnds hconf]
        exact hfold
      · intro q
        rw [hfind]
        by_cases hq : q ∈ order
        · rw [if_pos hq, if_pos (List.mem_cons_of_mem _ hq)]
        · rw [if_neg hq, Table.find_set]
          by_cases hqp : q = p
          · rw [if_pos hqp, if_pos (by rw [hqp]; exact List.mem_cons_self), hqp, hb.object]
          · rw [if_neg hqp, if_neg (by simp [hqp, hq])]

/-! ## A run that returns ok -/

/-- The manifest lists exactly the files that are not excluded, names an object
    of the recorded hash for each, and restores them byte for byte. -/
structure Survives (h : Hashing B) (t : State B) (m : SyncManifest) : Prop where
  named : ∀ p hash, m.find p = some hash →
    ∃ b, t.backing.objects.find p = some b ∧ h.sha b = hash
  listed : ∀ p, p ∈ m.keys ↔ p ∈ t.files.keys ∧ isExcluded p = false
  restores : ∀ (root : Root) (order : List String), order.Perm (restorePaths m) →
    ∃ tree, restoreVault h root [] t.backing order = (tree, .ok ()) ∧ ∀ p, tree.find p =
      if isExcluded p then none else (t.files.find p).map LocalFile.bytes

theorem Inv.survives (hi : Inv h s) (hs : Shape s) {r : Run} (hrun : s.run = some r)
    (hdone : r.toUpload = []) (hcalm : Calm h s .commit) :
    Survives h { s with
      backing := { s.backing with manifest := some (.ok r.localHashes.toJson) }
      run := none } r.localHashes := by
  obtain ⟨hsome, hup⟩ := hcalm
  have hlisted : ∀ p, p ∈ r.localHashes.keys ↔ p ∈ s.candidates := hs.hashes r hrun
  -- each listed path has its file, its hash and its object
  have hobj : ∀ p ∈ r.localHashes.keys, ∃ f, s.files.find p = some f
      ∧ r.localHashes.find p = some (h.sha f.bytes)
      ∧ s.backing.objects.find p = some f.bytes := by
    intro p hp
    obtain ⟨hfile, hex⟩ := mem_candidates.mp ((hlisted p).mp hp)
    obtain ⟨f, hf⟩ := Option.ne_none_iff_exists'.mp hfile
    refine ⟨f, hf, ?_, ?_⟩
    · rw [hi.hashes r hrun]
      unfold localNow
      rw [hex, if_neg Bool.false_ne_true, hf]
      rfl
    · exact hi.pushed r hrun p f hex hf (by rw [hdone]; exact List.not_mem_nil)
  refine ⟨?_, ?_, ?_⟩
  · intro p hash hhash
    obtain ⟨f, -, hsha, hbytes⟩ := hobj p (Table.mem_keys.mpr (by rw [hhash]; exact nofun))
    exact ⟨f.bytes, hbytes, Option.some.inj (hsha.symm.trans hhash)⟩
  · intro p
    rw [hlisted, mem_candidates, Table.mem_keys]
  · intro root order hperm
    have hmem : ∀ p, p ∈ order ↔ p ∈ s.candidates := by
      intro p
      rw [hperm.mem_iff]
      show p ∈ r.localHashes.keys.filter _ ↔ _
      rw [List.mem_filter, hlisted, Bool.not_eq_true']
      exact ⟨And.left, fun hp => ⟨hp, (mem_candidates.mp hp).2⟩⟩
    have hkeys : ∀ p ∈ s.candidates, p ∈ s.files.keys := fun p hp =>
      Table.mem_keys.mpr (mem_candidates.mp hp).1
    obtain ⟨tree, hfold, hfind⟩ := foldl_taskEnds (h := h) root r.localHashes
      s.backing.objects .empty order (by
        intro p hp
        have hcand := (hmem p).mp hp
        have hnormal := hs.normal p (hkeys p hcand)
        obtain ⟨f, -, hsha, hbytes⟩ := hobj p ((hlisted p).mpr hcand)
        refine ⟨f.bytes, hnormal, ?_, hbytes, hsha⟩
        rw [escapes_of_normal root hnormal]
        exact Bool.eq_false_iff.mpr fun hpre => hup p hcand (List.isPrefixOf_iff_prefix.mp hpre))
      (by
        intro p hp q hq
        have hq' : q ∈ order := hq.resolve_left List.not_mem_nil
        have hpk := hkeys p ((hmem p).mp hp)
        have hqk := hkeys q ((hmem q).mp hq')
        exact ⟨hs.free q hqk p hpk, hs.free p hpk q hqk⟩)
    refine ⟨tree, ?_, ?_⟩
    · have hne : r.localHashes.keys ≠ [] := by
        obtain ⟨p, hp⟩ := List.exists_mem_of_ne_nil _ hsome
        exact List.ne_nil_of_mem ((hlisted p).mpr hp)
      unfold restoreVault
      rw [if_neg (not_not.mpr rfl), readManifest_toJson]
      dsimp only
      rw [if_neg hne]
      exact hfold
    · intro p
      rw [hfind]
      by_cases hp : p ∈ order
      · have hcand := (hmem p).mp hp
        obtain ⟨f, hf, -, hbytes⟩ := hobj p ((hlisted p).mpr hcand)
        rw [if_pos hp, (mem_candidates.mp hcand).2, if_neg Bool.false_ne_true, hbytes]
        show _ = (s.files.find p).map LocalFile.bytes
        rw [hf]
        rfl
      · rw [if_neg hp]
        show none = if isExcluded p = true then none else (s.files.find p).map LocalFile.bytes
        cases hex : isExcluded p with
        | true => rfl
        | false =>
            by_contra hne
            refine hp ((hmem p).mpr (mem_candidates.mpr ⟨?_, hex⟩))
            intro hnone
            rw [hnone] at hne
            exact hne rfl

/-- **SYNC SURVIVES CRASHES, IN CALM RUNS.**  After any sequence of local changes and runs, each
    stopped anywhere or not, in which every step is calm: when the last run returns ok, the manifest
    lists exactly the files that are not excluded, every entry names an object of its hash, and a
    restore into an empty directory succeeds and recreates exactly those files. -/
theorem sync_of_calm {B : Type} (h : Hashing B) (s : State B)
    (hrun : ((machine h).restrict (Calm h)).Reach fresh s)
    (hcommit : ((machine h).restrict (Calm h)).enabled s .commit) :
    ∃ m, readManifest ((machine h).next s .commit).backing.manifest = .ok m
      ∧ Survives h ((machine h).next s .commit) m := by
  have hinv : Shape s ∧ Inv h s := by
    refine Machine.reach_invariant (I := fun s => Shape s ∧ Inv h s) ?_ ⟨.fresh, .fresh⟩ hrun
    rintro s a ⟨hs, hi⟩ ha
    exact ⟨hs.step (step_of_enabled h ha.1), hi.step hs (step_of_enabled h ha.1) ha.2⟩
  obtain ⟨hs, hi⟩ := hinv
  have hstep := step_of_enabled h hcommit.1
  simp only [State.step?] at hstep
  split at hstep
  · cases hstep
  rename_i r hr
  obtain ⟨⟨hdone, _⟩, ht⟩ := Option.ite_none_right_eq_some.mp hstep
  rw [← Option.some.inj ht]
  exact ⟨r.localHashes, readManifest_toJson _, hi.survives hs hr hdone hcommit.2⟩

/-! ## Two runs -/

def textHashing : Hashing (List Char) where
  sha := String.ofList
  size := List.length

def page : String := String.ofList ['a', '.', 'm', 'd']

/-- One file is pushed, edited, and pushed again by a run that is stopped and by one that is not. -/
def repairedAfterStop : List (Action (List Char)) :=
  [.write page ['x'] 0, .start, .put page, .commit,
    .write page ['y', 'y'] 1, .start, .put page, .stop, .start, .put page]

/-- The second run repairs what the stopped one left. -/
theorem sync_of_calm_repaired : ∃ s m,
    readManifest ((machine textHashing).next s .commit).backing.manifest = .ok m
      ∧ m.find page = some (String.ofList ['y', 'y'])
      ∧ Survives textHashing ((machine textHashing).next s .commit) m := by
  obtain ⟨s, hrun, hs⟩ := Machine.reach_of_runs_any
    (M := (machine textHashing).restrict (Calm textHashing)) (s := fresh)
    (l := repairedAfterStop)
    (Q := fun s => decide (((machine textHashing).restrict (Calm textHashing)).enabled s .commit)
      && decide (readManifest ((machine textHashing).next s .commit).backing.manifest
        = .ok (Table.empty.set page (String.ofList ['y', 'y'])))) (by decide +kernel)
  rw [Bool.and_eq_true, decide_eq_true_eq, decide_eq_true_eq] at hs
  obtain ⟨m, hm, hsur⟩ := sync_of_calm textHashing s hrun hs.1
  obtain rfl := Except.ok.inj (hs.2.symm.trans hm)
  exact ⟨s, _, hm, Table.find_set_self _ _ _, hsur⟩

def reverted : List (Action (List Char)) :=
  [.write page ['x'] 0, .start, .put page, .commit,
    .write page ['y', 'y'] 1, .start, .put page, .stop,
    .write page ['x'] 2, .start]

/-- **REVERTED AFTER A STOP.**  The run takes the file for unchanged and returns
    ok; the manifest has the file's hash and the backing the other bytes. -/
theorem reverted_after_stop : ∃ s, (machine textHashing).Reach fresh s
    ∧ (machine textHashing).enabled s .commit
    ∧ ∀ m, readManifest ((machine textHashing).next s .commit).backing.manifest = .ok m →
      ¬ Survives textHashing ((machine textHashing).next s .commit) m := by
  obtain ⟨s, hrun, hs⟩ := Machine.reach_of_runs_any
    (M := machine textHashing) (s := fresh) (l := reverted)
    (Q := fun s => decide ((machine textHashing).enabled s .commit)
      && decide (readManifest ((machine textHashing).next s .commit).backing.manifest
        = .ok (Table.empty.set page (String.ofList ['x'])))
      && decide (((machine textHashing).next s .commit).backing.objects.find page
        = some ['y', 'y'])) (by decide +kernel)
  simp only [Bool.and_eq_true, decide_eq_true_eq] at hs
  obtain ⟨⟨hcommit, hmanifest⟩, hobj⟩ := hs
  refine ⟨s, hrun, hcommit, ?_⟩
  intro m hm hsur
  obtain rfl := Except.ok.inj (hmanifest.symm.trans hm)
  obtain ⟨b, hb, hsha⟩ := hsur.named page _ (Table.find_set_self _ _ _)
  rw [hobj] at hb
  obtain rfl := Option.some.inj hb
  exact absurd hsha (by decide)

end Sync
