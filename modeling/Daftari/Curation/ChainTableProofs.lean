import Daftari.Curation.ChainsProofs

/-! # The table of chains — filling it, and what is reported of it

    Every draft of the table is one chain: it is filed under the keys of the
    chain and under no other, and holds what the documents walked so far add.

    * `Filed`, and `filed_fileDoc`: **one document more**;
    * `paths_partition`: **the chains are a partition** of what belongs to one;
    * `replaced_reaches_head`, `loop_members`: **headed chains and loops**. -/

namespace Chains

open Chain

/-! ## The table, one document after another -/

section Filing

variable (docs : List ChainDoc) (readable : ChainDoc → Bool)

/-- Does the document belong to a chain the caller may see? -/
def counts (doc : ChainDoc) : Bool :=
  readable doc && (walk docs readable doc).isChain docs

def sameEnd (d d' : ChainDoc) : Bool :=
  (walk docs readable d).keys.any fun p => p ∈ (walk docs readable d').keys

/-- What the documents of `done` add to the chain of `d`. -/
def replacedOf (done : List ChainDoc) (d : ChainDoc) : List ChainReplaced :=
  (done.filter fun x => counts docs readable x && sameEnd docs readable x d).flatMap fun x =>
    (walk docs readable x).entries x

def enter (t : Table) (doc : ChainDoc) (e : WalkEnd) : Table :=
  let (i, t) := draftAt t (e.keys.head?.getD doc.path) e.chainHead e.chainFlags
  { drafts := t.drafts.modify i fun d => { d with replaced := d.replaced ++ e.entries doc }
    filed := e.keys.foldl (fun f k => Assoc.set f k i) t.filed }

/-- Every draft is a chain: filed under the keys of one of its documents, and
    holding what the documents of it that were filed so far add. -/
structure Filed (done : List ChainDoc) (t : Table) : Prop where
  bounded : ∀ p i, t.filed.lookup p = some i → i < t.drafts.length
  founded : ∀ (i : Nat) (draft : ChainDraft), t.drafts[i]? = some draft →
    ∃ d ∈ done, counts docs readable d = true ∧
      (∀ p, t.filed.lookup p = some i ↔ p ∈ (walk docs readable d).keys) ∧
      draft.head = (walk docs readable d).chainHead ∧
      draft.flags = (walk docs readable d).chainFlags ∧
      draft.replaced = replacedOf docs readable done d
  covered : ∀ d ∈ done, counts docs readable d = true →
    ∃ i, ∀ p ∈ (walk docs readable d).keys, t.filed.lookup p = some i

variable {docs readable}

theorem readable_of_counts {d : ChainDoc} (h : counts docs readable d = true) : readable d = true :=
  (Bool.and_eq_true _ _ ▸ h).1

theorem fileDoc_eq (t : Table) (doc : ChainDoc) : fileDoc docs readable t doc =
      if counts docs readable doc then enter t doc (walk docs readable doc) else t := by
  have hrefile : ∀ (t : Table) (p : String) (head : Option ChainMember)
      (flags : List ChainFlag),
      Assoc.set (draftAt t p head flags).2.filed p (draftAt t p head flags).1 =
        (draftAt t p head flags).2.filed := by
    intro t p head flags
    refine Assoc.set_of_lookup ?_
    unfold draftAt
    cases hl : t.filed.lookup p with
    | some i => exact hl
    | none => exact Assoc.lookup_set_self _ _ _
  unfold fileDoc counts
  by_cases hread : readable doc = true
  · rw [if_neg (by simp [hread]), hread, Bool.true_and]
    cases walk docs readable doc with
    | head h depth dangling =>
        by_cases hchain : depth > 0 ∨ replacedSomething docs h.path ∨ dangling ∨
            h.status = "superseded"
        · have hyes : (WalkEnd.head h depth dangling).isChain docs = true :=
            decide_eq_true hchain
          rw [hyes, if_pos rfl]
          simp only [if_pos hchain]
          unfold enter
          simp only [WalkEnd.keys, List.head?_cons, Option.getD_some, List.foldl_cons,
            List.foldl_nil, WalkEnd.chainHead, WalkEnd.chainFlags, hrefile]
          by_cases hdepth : depth > 0
          · simp [hdepth, WalkEnd.entries, pushReplaced]
          · have hid : ∀ (ds : List ChainDraft) (i : Nat),
                ds.modify i (fun d => { d with replaced := d.replaced ++ [] }) = ds := by
              intro ds i
              simp only [List.append_nil]
              exact List.modify_id i ds
            simp only [if_neg hdepth, WalkEnd.entries, hid]
        · have hno : (WalkEnd.head h depth dangling).isChain docs = false :=
            decide_eq_false hchain
          rw [hno, if_neg Bool.false_ne_true]
          simp only [if_neg hchain]
    | restricted x depth =>
        unfold enter
        simp only [WalkEnd.keys, List.head?_cons, Option.getD_some, List.foldl_cons,
          List.foldl_nil, WalkEnd.chainHead, WalkEnd.chainFlags, hrefile]
        rfl
    | loop cycle depth =>
        unfold enter
        simp only [WalkEnd.keys, List.head?_map, WalkEnd.chainHead, WalkEnd.chainFlags,
          List.foldl_map]
        rfl
  · rw [if_pos (by simp [hread]), Bool.eq_false_iff.mpr hread, Bool.false_and,
      if_neg Bool.false_ne_true]

theorem draftAt_of_some {t : Table} {p : String} {i : Nat} (head : Option ChainMember)
    (flags : List ChainFlag) (h : t.filed.lookup p = some i) : draftAt t p head flags = (i, t) := by
  unfold draftAt
  rw [h]

theorem draftAt_of_none {t : Table} {p : String} (head : Option ChainMember)
    (flags : List ChainFlag) (h : t.filed.lookup p = none) :
    draftAt t p head flags = (t.drafts.length, ⟨t.drafts ++ [⟨head, [], 0, flags⟩],
      Assoc.set t.filed p t.drafts.length⟩) := by
  unfold draftAt
  rw [h]

theorem replacedOf_snoc (done : List ChainDoc) (doc d : ChainDoc)
    (hcounts : counts docs readable doc = true) :
    replacedOf docs readable (done ++ [doc]) d = replacedOf docs readable done d ++
      if sameEnd docs readable doc d then (walk docs readable doc).entries doc else [] := by
  unfold replacedOf
  by_cases h : sameEnd docs readable doc d = true
  · simp [hcounts, h]
  · simp [hcounts, h]

theorem replacedOf_skip (done : List ChainDoc) {doc : ChainDoc} (d : ChainDoc)
    (hcounts : counts docs readable doc = false) :
    replacedOf docs readable (done ++ [doc]) d = replacedOf docs readable done d := by
  unfold replacedOf
  simp [hcounts]

section Step

variable {done : List ChainDoc} {t : Table} {doc : ChainDoc}
  (hpaths : (docs.map ChainDoc.path).Nodup)

include hpaths

theorem agree {d d' : ChainDoc} (hd : d ∈ docs) (hc : counts docs readable d = true)
    (hd' : d' ∈ docs) (hc' : counts docs readable d' = true) {p : String}
    (hp : p ∈ (walk docs readable d).keys) (hp' : p ∈ (walk docs readable d').keys) :
    (∀ q, q ∈ (walk docs readable d).keys ↔ q ∈ (walk docs readable d').keys) ∧
      (walk docs readable d).chainHead = (walk docs readable d').chainHead ∧
      (walk docs readable d).chainFlags = (walk docs readable d').chainFlags :=
  ends_agree hpaths hd (readable_of_counts hc) hd' (readable_of_counts hc')
    (walk_spec _ hpaths hd) (walk_spec _ hpaths hd') hp hp'

/-- **A document more** whose chain has a draft already. -/
theorem Filed.enter_old (hfiled : Filed docs readable done t) (hdone : done ⊆ docs)
    (hdoc : doc ∈ docs) (hcounts : counts docs readable doc = true) {first : String}
    (hfirst : (walk docs readable doc).keys.head? = some first) {i : Nat}
    (hi : t.filed.lookup first = some i) :
    Filed docs readable (done ++ [doc]) (enter t doc (walk docs readable doc)) := by
  have hmem : first ∈ (walk docs readable doc).keys := List.mem_of_head? hfirst
  have hlt := hfiled.bounded _ _ hi
  -- the founder of the draft has the keys of the document
  obtain ⟨d, hd, hcd, hkeys, hhead, hflags, hreplaced⟩ :=
    hfiled.founded i t.drafts[i] (List.getElem?_eq_getElem hlt)
  have hall : ∀ q, q ∈ (walk docs readable doc).keys ↔ t.filed.lookup q = some i := by
    intro q
    rw [hkeys]
    exact (agree hpaths hdoc hcounts (hdone hd) hcd hmem ((hkeys first).mp hi)).1 q
  have hlookup : ∀ q, (enter t doc (walk docs readable doc)).filed.lookup q =
      t.filed.lookup q := by
    intro q
    unfold enter
    rw [hfirst, Option.getD_some, draftAt_of_some _ _ hi]
    rw [Assoc.lookup_foldl_set]
    by_cases hq : q ∈ (walk docs readable doc).keys
    · rw [if_pos hq, (hall q).mp hq]
    · rw [if_neg hq]
  have hdrafts : (enter t doc (walk docs readable doc)).drafts = t.drafts.modify i fun d =>
      { d with replaced := d.replaced ++ (walk docs readable doc).entries doc } := by
    unfold enter
    rw [hfirst, Option.getD_some, draftAt_of_some _ _ hi]
  constructor
  · intro p j hj
    rw [hlookup] at hj
    rw [hdrafts, List.length_modify]
    exact hfiled.bounded p j hj
  · intro j draft hj
    rw [hdrafts, List.getElem?_modify] at hj
    obtain ⟨old, hold, rfl⟩ := Option.map_eq_some_iff.mp hj
    obtain ⟨d', hd', hcd', hkeys', hhead', hflags', hreplaced'⟩ := hfiled.founded j old hold
    refine ⟨d', List.mem_append_left _ hd', hcd', ?_, ?_⟩
    · intro p
      rw [hlookup]
      exact hkeys' p
    · rw [replacedOf_snoc _ _ _ hcounts]
      by_cases hij : i = j
      · subst hij
        have hsame : sameEnd docs readable doc d' = true :=
          List.any_eq_true.mpr ⟨first, hmem, decide_eq_true ((hkeys' first).mp hi)⟩
        rw [if_pos hsame, if_pos rfl]
        exact ⟨hhead', hflags', by rw [hreplaced']⟩
      · have hother : ¬ sameEnd docs readable doc d' = true := by
          intro h
          obtain ⟨p, hp, hp'⟩ := List.any_eq_true.mp h
          have hpi := (hall p).mp hp
          rw [(hkeys' p).mpr (of_decide_eq_true hp')] at hpi
          exact hij (Option.some.inj hpi).symm
        rw [if_neg hother, if_neg hij, List.append_nil]
        exact ⟨hhead', hflags', hreplaced'⟩
  · intro x hx hcx
    rcases List.mem_append.mp hx with hx | hx
    · obtain ⟨j, hj⟩ := hfiled.covered x hx hcx
      exact ⟨j, fun p hp => by rw [hlookup]; exact hj p hp⟩
    · rw [List.mem_singleton.mp hx]
      exact ⟨i, fun p hp => by rw [hlookup]; exact (hall p).mp hp⟩

/-- **A document more** whose chain has no draft yet. -/
theorem Filed.enter_new (hfiled : Filed docs readable done t) (hdone : done ⊆ docs)
    (hdoc : doc ∈ docs) (hcounts : counts docs readable doc = true) {first : String}
    (hfirst : (walk docs readable doc).keys.head? = some first) (hi : t.filed.lookup first = none) :
    Filed docs readable (done ++ [doc]) (enter t doc (walk docs readable doc)) := by
  have hmem : first ∈ (walk docs readable doc).keys := List.mem_of_head? hfirst
  -- no document filed so far has a key of this one
  have hdisjoint : ∀ x ∈ done, counts docs readable x = true →
      ∀ p ∈ (walk docs readable x).keys, p ∉ (walk docs readable doc).keys := by
    intro x hx hcx p hp hpdoc
    obtain ⟨j, hj⟩ := hfiled.covered x hx hcx
    have hfx := ((agree hpaths hdoc hcounts (hdone hx) hcx hpdoc hp).1 first).mp hmem
    rw [hj first hfx] at hi
    cases hi
  have hlookup : ∀ q, (enter t doc (walk docs readable doc)).filed.lookup q =
      if q ∈ (walk docs readable doc).keys then some t.drafts.length
      else t.filed.lookup q := by
    intro q
    unfold enter
    rw [hfirst, Option.getD_some, draftAt_of_none _ _ hi, Assoc.lookup_foldl_set]
    by_cases hq : q ∈ (walk docs readable doc).keys
    · rw [if_pos hq, if_pos hq]
    · have hne : q ≠ first := by
        rintro rfl
        exact hq hmem
      rw [if_neg hq, if_neg hq, Assoc.lookup_set_of_ne _ _ hne]
  have hdrafts : (enter t doc (walk docs readable doc)).drafts = t.drafts ++
      [⟨(walk docs readable doc).chainHead, (walk docs readable doc).entries doc, 0,
        (walk docs readable doc).chainFlags⟩] := by
    unfold enter
    rw [hfirst, Option.getD_some, draftAt_of_none _ _ hi]
    dsimp only
    rw [List.modify_eq_take_cons_drop (by simp)]
    simp
  constructor
  · intro p j hj
    rw [hlookup] at hj
    rw [hdrafts, List.length_append, List.length_singleton]
    by_cases hp : p ∈ (walk docs readable doc).keys
    · rw [if_pos hp] at hj
      rw [← Option.some.inj hj]
      omega
    · rw [if_neg hp] at hj
      have := hfiled.bounded p j hj
      omega
  · intro j draft hj
    rw [hdrafts] at hj
    by_cases hlt : j < t.drafts.length
    · rw [List.getElem?_append_left hlt] at hj
      obtain ⟨d', hd', hcd', hkeys', hhead', hflags', hreplaced'⟩ := hfiled.founded j draft hj
      have hother : ¬ sameEnd docs readable doc d' = true := by
        intro h
        obtain ⟨p, hp, hp'⟩ := List.any_eq_true.mp h
        exact hdisjoint d' hd' hcd' p (of_decide_eq_true hp') hp
      refine ⟨d', List.mem_append_left _ hd', hcd', ?_, hhead', hflags', ?_⟩
      · intro p
        rw [hlookup]
        by_cases hp : p ∈ (walk docs readable doc).keys
        · rw [if_pos hp]
          constructor
          · intro h
            have := Option.some.inj h
            omega
          · intro h
            exact absurd hp (hdisjoint d' hd' hcd' p h)
        · rw [if_neg hp]
          exact hkeys' p
      · rw [replacedOf_snoc _ _ _ hcounts, if_neg hother, List.append_nil]
        exact hreplaced'
    · rw [List.getElem?_append_right (by omega)] at hj
      have hj0 : j - t.drafts.length = 0 := by
        by_contra hne
        rw [List.getElem?_eq_none (by rw [List.length_singleton]; omega)] at hj
        cases hj
      obtain rfl : j = t.drafts.length := by omega
      rw [hj0] at hj
      obtain rfl := Option.some.inj hj
      have hself : sameEnd docs readable doc doc = true :=
        List.any_eq_true.mpr ⟨first, hmem, decide_eq_true hmem⟩
      refine ⟨doc, List.mem_append_right _ (List.mem_singleton.mpr rfl), hcounts, ?_, rfl, rfl, ?_⟩
      · intro p
        rw [hlookup]
        by_cases hp : p ∈ (walk docs readable doc).keys
        · rw [if_pos hp]
          exact ⟨fun _ => hp, fun _ => rfl⟩
        · rw [if_neg hp]
          constructor
          · intro h
            have := hfiled.bounded p _ h
            omega
          · intro h
            exact absurd h hp
      · rw [replacedOf_snoc _ _ _ hcounts, if_pos hself]
        have hnone : replacedOf docs readable done doc = [] := by
          unfold replacedOf
          rw [List.flatMap_eq_nil_iff]
          intro x hx
          obtain ⟨hx, hxc⟩ := List.mem_filter.mp hx
          obtain ⟨hcx, hsame⟩ := Bool.and_eq_true _ _ ▸ hxc
          obtain ⟨p, hp, hp'⟩ := List.any_eq_true.mp hsame
          exact absurd (of_decide_eq_true hp') (hdisjoint x hx hcx p hp)
        rw [hnone, List.nil_append]
  · intro x hx hcx
    rcases List.mem_append.mp hx with hx | hx
    · obtain ⟨j, hj⟩ := hfiled.covered x hx hcx
      refine ⟨j, ?_⟩
      intro p hp
      rw [hlookup, if_neg (hdisjoint x hx hcx p hp)]
      exact hj p hp
    · rw [List.mem_singleton.mp hx]
      exact ⟨t.drafts.length, fun p hp => by rw [hlookup, if_pos hp]⟩

/-- **One document more.** -/
theorem filed_fileDoc (hfiled : Filed docs readable done t) (hdone : done ⊆ docs)
    (hdoc : doc ∈ docs) : Filed docs readable (done ++ [doc]) (fileDoc docs readable t doc) := by
  rw [fileDoc_eq]
  by_cases hcounts : counts docs readable doc = true
  · rw [if_pos hcounts]
    obtain ⟨first, hfirst⟩ : ∃ first, (walk docs readable doc).keys.head? = some first := by
      cases hk : (walk docs readable doc).keys with
      | nil => exact absurd hk (keys_ne_nil (walk_spec _ hpaths hdoc))
      | cons first rest => exact ⟨first, rfl⟩
    cases hi : t.filed.lookup first with
    | some i => exact hfiled.enter_old hpaths hdone hdoc hcounts hfirst hi
    | none => exact hfiled.enter_new hpaths hdone hdoc hcounts hfirst hi
  · rw [if_neg hcounts]
    rw [Bool.not_eq_true] at hcounts
    constructor
    · exact hfiled.bounded
    · intro j draft hj
      obtain ⟨d, hd, hcd, hkeys, hhead, hflags, hreplaced⟩ := hfiled.founded j draft hj
      refine ⟨d, List.mem_append_left _ hd, hcd, hkeys, hhead, hflags, ?_⟩
      rw [replacedOf_skip _ _ hcounts, hreplaced]
    · intro x hx hcx
      rcases List.mem_append.mp hx with hx | hx
      · exact hfiled.covered x hx hcx
      · rw [List.mem_singleton.mp hx, hcounts] at hcx
        cases hcx

/-- **The table after the first loop.** -/
theorem filed_all : Filed docs readable docs (docs.foldl (fileDoc docs readable) ⟨[], []⟩) := by
  have hrun : ∀ done, done <+: docs →
      Filed docs readable done (done.foldl (fileDoc docs readable) ⟨[], []⟩) := by
    intro done
    induction done using List.reverseRecOn with
    | nil =>
        intro _
        constructor
        · intro p i h
          cases h
        · intro i draft h
          cases h
        · intro d h
          cases h
    | append_singleton done doc ih =>
        intro hprefix
        rw [List.foldl_append]
        have hmem : doc ∈ docs :=
          hprefix.subset (List.mem_append_right _ (List.mem_singleton.mpr rfl))
        have hinit : done <+: docs := (List.prefix_append done [doc]).trans hprefix
        exact filed_fileDoc hpaths (ih hinit) hinit.subset hmem
  exact hrun docs (List.prefix_refl docs)

end Step

end Filing

/-! ## What a caller may see -/

/-- Is the document part of a supersession: by its pointer, by one that names
    it, or by its status? -/
def InChain (docs : List ChainDoc) (doc : ChainDoc) : Prop :=
  doc.supersededBy ≠ none ∨ (∃ e ∈ docs, e.supersededBy = some doc.path) ∨
    doc.status = "superseded"

instance (docs : List ChainDoc) (doc : ChainDoc) : Decidable (InChain docs doc) :=
  inferInstanceAs (Decidable (_ ∨ _ ∨ _))

def ChainReport.paths (c : ChainReport) : List String :=
  (c.head.map fun m => m.path).toList ++ c.replaced.map fun r => r.path

section Visible

variable {docs : List ChainDoc} {readable : ChainDoc → Bool}
  (hpaths : (docs.map ChainDoc.path).Nodup)

include hpaths

theorem replacedSomething_iff {doc : ChainDoc} (h : doc ∈ docs) :
    replacedSomething docs doc.path = true ↔ ∃ e ∈ docs, e.supersededBy = some doc.path := by
  have hfound : (byPath docs doc.path).isSome = true := by
    rw [byPath, Assoc.lastBy_of_mem hpaths h]
    rfl
  simp [replacedSomething, hfound]

omit hpaths in
theorem pointed_of_stops {d h : ChainDoc} {n : Nat} (hd : d ∈ docs)
    (hread : readable d = true) (hstop : Stops (hop docs readable) d h n) (hn : 0 < n) :
    ∃ e ∈ docs, e.supersededBy = some h.path := by
  obtain ⟨k, rfl⟩ := Nat.exists_eq_add_of_lt hn
  have hlast := hstop.1
  rw [Nat.zero_add, follow_add] at hlast
  obtain ⟨c, hc, hch⟩ := Option.bind_eq_some_iff.mp hlast
  rw [follow_one] at hch
  exact ⟨c, (readable_of_reaches hd hread ⟨k, hc⟩).1, (mem_of_pointed (hop_eq_some.mp hch).1).2⟩

/-- **What counts is what is readable and part of a supersession.** -/
theorem counts_iff {doc : ChainDoc} (hdoc : doc ∈ docs) :
    counts docs readable doc = true ↔ readable doc = true ∧ InChain docs doc := by
  unfold counts
  rw [Bool.and_eq_true]
  refine and_congr_right ?_
  intro hread
  have hends := walk_spec readable hpaths hdoc
  -- a document whose walk goes on, or would, has a pointer
  have hstep : ∀ {e : ChainDoc}, pointed docs doc = some e → InChain docs doc := by
    intro e he
    left
    rw [(mem_of_pointed he).2]
    exact Option.some_ne_none _
  have hmoves : ∀ {e : ChainDoc}, hop docs readable doc = some e → InChain docs doc :=
    fun h => hstep (hop_eq_some.mp h).1
  have hfollow : ∀ {n : Nat} {e : ChainDoc},
      follow (hop docs readable) (n + 1) doc = some e → InChain docs doc := by
    intro n e h
    obtain ⟨c, hc, _⟩ := Option.bind_eq_some_iff.mp h
    exact hmoves hc
  cases hw : walk docs readable doc with
  | head h depth dangling =>
      rw [hw] at hends
      obtain ⟨hstop, hpointed, hdangling⟩ := hends
      have hmem := (readable_of_reaches hdoc hread ⟨depth, hstop.1⟩).1
      simp only [WalkEnd.isChain, decide_eq_true_eq]
      cases depth with
      | succ n => exact ⟨fun _ => hfollow hstop.1, fun _ => Or.inl (Nat.succ_pos n)⟩
      | zero =>
          obtain rfl := Option.some.inj hstop.1
          rw [replacedSomething_iff hpaths hmem, hdangling]
          simp only [gt_iff_lt, Nat.lt_irrefl, false_or]
          exact or_left_comm
  | restricted x depth =>
      rw [hw] at hends
      obtain ⟨c, k, _, hstop, hx, _⟩ := hends
      refine ⟨fun _ => ?_, fun _ => rfl⟩
      cases k with
      | succ n => exact hfollow hstop.1
      | zero =>
          obtain rfl := Option.some.inj hstop.1
          exact hstep hx
  | loop cycle depth =>
      rw [hw] at hends
      obtain ⟨c, _, hc, hcyc, _⟩ := hends
      refine ⟨fun _ => ?_, fun _ => rfl⟩
      cases depth with
      | succ n => exact hfollow hc
      | zero =>
          obtain rfl := Option.some.inj hc
          obtain ⟨n, hn⟩ := hcyc
          exact hfollow hn

end Visible

/-! ## The chains that are reported -/

/-- **The fuel of the second loop is enough**: every round passes a document more. -/
theorem fedBy_enough (docs : List ChainDoc) (t : Table) (more fuel : Nat)
    (seen : List String) (next : Option ChainDoc) (hnext : ∀ d ∈ next, d ∈ docs)
    (hseen : seen.Nodup) (hsub : seen ⊆ docs.map ChainDoc.path)
    (hfuel : docs.length < fuel + seen.length) :
    fedBy docs t (fuel + more) seen next = fedBy docs t fuel seen next := by
  induction fuel generalizing seen next with
  | zero =>
      have hle := (List.subperm_of_subset hseen hsub).length_le
      rw [List.length_map] at hle
      omega
  | succ fuel ih =>
      rw [Nat.add_right_comm]
      cases next with
      | none => rfl
      | some d =>
          unfold fedBy
          by_cases hmem : d.path ∈ seen
          · rw [if_pos hmem, if_pos hmem]
          · rw [if_neg hmem, if_neg hmem]
            congr 1
            refine ih _ _ ?_ (List.nodup_cons.mpr ⟨hmem, hseen⟩) ?_ ?_
            · intro e he
              obtain ⟨path, _, hpath⟩ := Option.bind_eq_some_iff.mp he
              exact (mem_of_byPath hpath).1
            · refine List.cons_subset.mpr ⟨?_, hsub⟩
              exact List.mem_map_of_mem (hnext d rfl)
            · rw [List.length_cons]
              omega

/-- What is reported of a draft but for the number of hidden documents. -/
def shown (d : ChainDraft) : Option ChainMember × List ChainReplaced × List ChainFlag :=
  (d.head, d.replaced, d.flags)

theorem shown_creditDoc (docs : List ChainDoc) (readable : ChainDoc → Bool) (t : Table)
    (doc : ChainDoc) : (creditDoc docs readable t doc).drafts.map shown = t.drafts.map shown := by
  have hone : ∀ (ds : List ChainDraft) (i : Nat),
      (ds.modify i fun d => { d with hidden := d.hidden + 1 }).map shown = ds.map shown := by
    intro ds i
    refine List.ext_getElem? ?_
    intro j
    rw [List.getElem?_map, List.getElem?_map, List.getElem?_modify]
    cases ds[j]? with
    | none => rfl
    | some d =>
        refine congrArg some ?_
        show shown (if i = j then { d with hidden := d.hidden + 1 } else d) = shown d
        split <;> rfl
  unfold creditDoc
  split
  · rfl
  · generalize (fedBy docs t (docs.length + 1) [doc.path]
      (doc.supersededBy.bind (byPath docs))).dedup = fed
    show (fed.foldl _ t.drafts).map shown = _
    generalize t.drafts = ds
    induction fed generalizing ds with
    | nil => rfl
    | cons i fed ih => rw [List.foldl_cons, ih, hone]

theorem shown_chainTable (docs : List ChainDoc) (readable : ChainDoc → Bool) :
    (chainTable docs readable).drafts.map shown =
      (docs.foldl (fileDoc docs readable) ⟨[], []⟩).drafts.map shown := by
  have hfold : ∀ (l : List ChainDoc) (t : Table),
      (l.foldl (creditDoc docs readable) t).drafts.map shown = t.drafts.map shown := by
    intro l
    induction l with
    | nil =>
        intro t
        rfl
    | cons d l ih =>
        intro t
        rw [List.foldl_cons, ih, shown_creditDoc]
  exact hfold docs _

section Reports

variable {docs : List ChainDoc} {readable : ChainDoc → Bool}
  (hpaths : (docs.map ChainDoc.path).Nodup)

include hpaths

theorem draft_origin {i : Nat} {draft : ChainDraft}
    (hi : (chainTable docs readable).drafts[i]? = some draft) :
    ∃ d ∈ docs, counts docs readable d = true ∧
      (∀ p, (docs.foldl (fileDoc docs readable) ⟨[], []⟩).filed.lookup p = some i ↔
        p ∈ (walk docs readable d).keys) ∧ draft.head = (walk docs readable d).chainHead ∧
      draft.flags = (walk docs readable d).chainFlags ∧
      draft.replaced = replacedOf docs readable docs d := by
  have hshown : ((docs.foldl (fileDoc docs readable) ⟨[], []⟩).drafts.map shown)[i]? =
      some (shown draft) := by
    rw [← shown_chainTable, List.getElem?_map, hi]
    rfl
  rw [List.getElem?_map] at hshown
  obtain ⟨old, hold, hsame⟩ := Option.map_eq_some_iff.mp hshown
  obtain ⟨hhead, hrest⟩ := Prod.mk.inj hsame
  obtain ⟨hreplaced, hflags⟩ := Prod.mk.inj hrest
  obtain ⟨d, hd, hcd, hkeys, hhead', hflags', hreplaced'⟩ :=
    (filed_all hpaths).founded i old hold
  exact ⟨d, hd, hcd, hkeys, hhead ▸ hhead', hflags ▸ hflags', hreplaced ▸ hreplaced'⟩

omit hpaths in
theorem mem_replacedOf {d : ChainDoc} {r : ChainReplaced} : r ∈ replacedOf docs readable docs d ↔
      ∃ x ∈ docs, counts docs readable x = true ∧ sameEnd docs readable x d = true ∧
        r ∈ (walk docs readable x).entries x := by
  unfold replacedOf
  rw [List.mem_flatMap]
  constructor
  · rintro ⟨x, hx, hr⟩
    obtain ⟨hx, hxc⟩ := List.mem_filter.mp hx
    obtain ⟨hcx, hsame⟩ := Bool.and_eq_true _ _ ▸ hxc
    exact ⟨x, hx, hcx, hsame, hr⟩
  · rintro ⟨x, hx, hcx, hsame, hr⟩
    exact ⟨x, List.mem_filter.mpr ⟨hx, by rw [hcx, hsame]; rfl⟩, hr⟩

omit hpaths in
theorem path_of_entries {x : ChainDoc} {e : WalkEnd} {r : ChainReplaced}
    (h : r ∈ e.entries x) : r.toChainMember = toMember x ∧ e.entries x = [r] := by
  cases e with
  | head h' depth dangling =>
      by_cases hdepth : depth > 0
      · have hone : (WalkEnd.head h' depth dangling).entries x = [toReplaced x depth] :=
          if_pos hdepth
        rw [hone] at h ⊢
        rw [List.mem_singleton.mp h]
        exact ⟨rfl, rfl⟩
      · have hnil : (WalkEnd.head h' depth dangling).entries x = [] := if_neg hdepth
        rw [hnil] at h
        cases h
  | restricted x' depth =>
      rw [List.mem_singleton.mp h]
      exact ⟨rfl, rfl⟩
  | loop cycle depth =>
      rw [List.mem_singleton.mp h]
      exact ⟨rfl, rfl⟩

omit hpaths in
theorem ends_head {d h : ChainDoc} {n : Nat} {e : WalkEnd} (he : EndsAs docs readable d e)
    (hstop : Stops (hop docs readable) d h n) (hnone : pointed docs h = none) :
    ∃ dangling, e = .head h n dangling := by
  cases e with
  | head h' depth dangling =>
      obtain ⟨rfl, rfl⟩ := he.1.unique hstop
      exact ⟨dangling, rfl⟩
  | restricted x depth =>
      obtain ⟨c, k, _, hstop', hx, _⟩ := he
      obtain ⟨rfl, _⟩ := hstop'.unique hstop
      rw [hnone] at hx
      cases hx
  | loop cycle depth =>
      obtain ⟨c, _, hc, hcyc, _⟩ := he
      exact (hstop.not_onCycle ⟨depth, hc⟩ hcyc).elim

omit hpaths in
theorem ends_loop {d c : ChainDoc} {e : WalkEnd} (he : EndsAs docs readable d e)
    (hc : Reaches (hop docs readable) d c) (hcyc : OnCycle (hop docs readable) c) :
    ∃ cycle depth, e = .loop cycle depth ∧ c ∈ cycle := by
  cases e with
  | head h depth dangling => exact (he.1.not_onCycle hc hcyc).elim
  | restricted x depth =>
      obtain ⟨_, _, _, hstop, _, _⟩ := he
      exact (hstop.not_onCycle hc hcyc).elim
  | loop cycle depth =>
      obtain ⟨c', _, hc', _, hall⟩ := he
      exact ⟨cycle, depth, rfl, (hall c).mpr (reaches_onCycle ⟨depth, hc'⟩ hc hcyc)⟩

theorem head_counts {d h : ChainDoc} {depth : Nat} {dangling : Bool} (hd : d ∈ docs)
    (hcd : counts docs readable d = true) (hw : walk docs readable d = .head h depth dangling) :
    h ∈ docs ∧ counts docs readable h = true ∧
      ∃ dangling', walk docs readable h = .head h 0 dangling' := by
  have hends := walk_spec readable hpaths hd
  rw [hw] at hends
  obtain ⟨hstop, hnone, _⟩ := hends
  have hread := readable_of_counts hcd
  obtain ⟨hmem, hhread⟩ := readable_of_reaches hd hread ⟨depth, hstop.1⟩
  refine ⟨hmem, ?_, ends_head (walk_spec _ hpaths hmem) ⟨rfl, hstop.2⟩ hnone⟩
  cases depth with
  | zero =>
      obtain rfl := Option.some.inj hstop.1
      exact hcd
  | succ n =>
      rw [counts_iff hpaths hmem]
      exact ⟨hhread, Or.inr (Or.inl (pointed_of_stops hd hread hstop (Nat.succ_pos n)))⟩

def pathsOf (docs : List ChainDoc) (readable : ChainDoc → Bool) (d : ChainDoc) : List String :=
  ((walk docs readable d).chainHead.map fun m => m.path).toList
    ++ (replacedOf docs readable docs d).map fun r => r.path

/-- **A chain shows the documents whose walks end in it.** -/
theorem mem_pathsOf {d : ChainDoc} (hd : d ∈ docs) (hcd : counts docs readable d = true)
    {p : String} : p ∈ pathsOf docs readable d ↔
      ∃ x ∈ docs, counts docs readable x = true ∧ sameEnd docs readable x d = true ∧
        x.path = p := by
  unfold pathsOf
  rw [List.mem_append, List.mem_map]
  constructor
  · rintro (hp | ⟨r, hr, rfl⟩)
    · rw [Option.mem_toList, Option.map_eq_some_iff] at hp
      obtain ⟨m, hm, rfl⟩ := hp
      cases hw : walk docs readable d with
      | head h depth dangling =>
          obtain ⟨hmem, hch, dangling', hwh⟩ := head_counts hpaths hd hcd hw
          rw [hw] at hm
          obtain rfl := Option.some.inj hm
          refine ⟨h, hmem, hch, ?_, rfl⟩
          unfold sameEnd
          rw [hw, hwh]
          simp [WalkEnd.keys]
      | restricted x depth =>
          rw [hw] at hm
          cases hm
      | loop cycle depth =>
          rw [hw] at hm
          cases hm
    · obtain ⟨x, hx, hcx, hsame, hrx⟩ := mem_replacedOf.mp hr
      exact ⟨x, hx, hcx, hsame, by rw [(path_of_entries hrx).1]; rfl⟩
  · rintro ⟨x, hx, hcx, hsame, rfl⟩
    by_cases hentries : (walk docs readable x).entries x = []
    · -- only the head adds nothing to `replaced`
      have hends := walk_spec readable hpaths hx
      cases hw : walk docs readable x with
      | head h depth dangling =>
          rw [hw] at hends hentries
          have hdepth : depth = 0 := by
            by_contra hne
            have hone : (WalkEnd.head h depth dangling).entries x = [toReplaced x depth] :=
              if_pos (Nat.pos_of_ne_zero hne)
            rw [hone] at hentries
            cases hentries
          subst hdepth
          obtain rfl := Option.some.inj hends.1.1
          obtain ⟨q, hq, hq'⟩ := List.any_eq_true.mp hsame
          have hhead := (agree hpaths hx hcx hd hcd hq (of_decide_eq_true hq')).2.1
          rw [← hhead, hw]
          simp [WalkEnd.chainHead, toMember]
      | restricted x' depth =>
          rw [hw] at hentries
          cases hentries
      | loop cycle depth =>
          rw [hw] at hentries
          cases hentries
    · right
      obtain ⟨r, hr⟩ := List.exists_mem_of_ne_nil _ hentries
      exact ⟨r, mem_replacedOf.mpr ⟨x, hx, hcx, hsame, hr⟩, by rw [(path_of_entries hr).1]; rfl⟩

theorem nodup_pathsOf {d : ChainDoc} (hd : d ∈ docs) (hcd : counts docs readable d = true) :
    (pathsOf docs readable d).Nodup := by
  have hsub : ∀ l : List ChainDoc,
      ((l.flatMap fun x => (walk docs readable x).entries x).map fun r => r.path).Sublist
        (l.map ChainDoc.path) := by
    intro l
    induction l with
    | nil => exact List.Sublist.refl _
    | cons x l ih =>
        rw [List.flatMap_cons, List.map_append, List.map_cons]
        cases hentries : (walk docs readable x).entries x with
        | nil => exact ih.cons _
        | cons r rest =>
            have hr : r ∈ (walk docs readable x).entries x := by
              rw [hentries]
              exact List.mem_cons_self
            obtain ⟨hmember, hone⟩ := path_of_entries hr
            rw [hentries] at hone
            obtain rfl : rest = [] := (List.cons.inj hone).2
            have hpath : r.path = x.path := by
              rw [hmember]
              rfl
            rw [List.map_singleton, hpath]
            exact ih.cons_cons _
  have hreplaced : ((replacedOf docs readable docs d).map fun r => r.path).Nodup :=
    hpaths.sublist ((hsub _).trans (List.filter_sublist.map _))
  unfold pathsOf
  cases hw : walk docs readable d with
  | head h depth dangling =>
      obtain ⟨hmem, hch, dangling', hwh⟩ := head_counts hpaths hd hcd hw
      refine List.nodup_cons.mpr ⟨?_, hreplaced⟩
      intro hin
      obtain ⟨r, hr, hrp⟩ := List.mem_map.mp hin
      obtain ⟨x, hx, _, _, hrx⟩ := mem_replacedOf.mp hr
      -- the head is not among what it replaced
      have hxh : x = h := by
        refine List.inj_on_of_nodup_map hpaths hx hmem ?_
        have hpath : r.path = x.path := by
          rw [(path_of_entries hrx).1]
          rfl
        rw [← hpath, hrp]
        rfl
      subst hxh
      rw [hwh] at hrx
      cases hrx
  | restricted x depth => exact hreplaced
  | loop cycle depth => exact hreplaced

omit hpaths in
theorem paths_perm : ((computeChains docs readable).flatMap ChainReport.paths).Perm
      ((chainTable docs readable).drafts.flatMap fun d =>
        (d.head.map fun m => m.path).toList ++ d.replaced.map fun r => r.path) := by
  refine ((Stable.sort_perm compareChains _).flatMap_right _).trans ?_
  rw [List.flatMap_map]
  refine List.Perm.flatMap_left _ ?_
  intro d _
  exact List.Perm.append_left _ ((Stable.sort_perm compareReplaced _).map _)

theorem report_origin {c : ChainReport} (hc : c ∈ computeChains docs readable) :
    ∃ d ∈ docs, counts docs readable d = true ∧ c.head = (walk docs readable d).chainHead ∧
      c.flags = (walk docs readable d).chainFlags ∧
      c.replaced.Perm (replacedOf docs readable docs d) := by
  obtain ⟨draft, hdraft, rfl⟩ :=
    List.mem_map.mp ((Stable.sort_perm compareChains _).mem_iff.mp hc)
  obtain ⟨i, hi⟩ := List.getElem?_of_mem hdraft
  obtain ⟨d, hd, hcd, _, hhead, hflags, hreplaced⟩ := draft_origin hpaths hi
  exact ⟨d, hd, hcd, hhead, hflags, hreplaced ▸ Stable.sort_perm compareReplaced _⟩

/-- **The chains are a partition** of the readable documents that are part of a
    supersession: each is in one chain, as its head or once in `replaced`. -/
theorem paths_partition : ((computeChains docs readable).flatMap ChainReport.paths).Perm
      ((docs.filter fun d => readable d ∧ InChain docs d).map ChainDoc.path) := by
  refine paths_perm.trans ?_
  have hpathsOf : ∀ {i : Nat} {draft : ChainDraft},
      (chainTable docs readable).drafts[i]? = some draft →
      ∃ d ∈ docs, counts docs readable d = true ∧
        (∀ p, (docs.foldl (fileDoc docs readable) ⟨[], []⟩).filed.lookup p = some i ↔
          p ∈ (walk docs readable d).keys) ∧
        (draft.head.map fun m => m.path).toList ++ (draft.replaced.map fun r => r.path) =
          pathsOf docs readable d := by
    intro i draft hi
    obtain ⟨d, hd, hcd, hkeys, hhead, _, hreplaced⟩ := draft_origin hpaths hi
    exact ⟨d, hd, hcd, hkeys, by rw [hhead, hreplaced]; rfl⟩
  rw [List.perm_ext_iff_of_nodup]
  · intro p
    rw [List.mem_flatMap, List.mem_map]
    constructor
    · rintro ⟨draft, hdraft, hp⟩
      obtain ⟨i, hi⟩ := List.getElem?_of_mem hdraft
      obtain ⟨d, hd, hcd, _, hall⟩ := hpathsOf hi
      rw [hall] at hp
      obtain ⟨x, hx, hcx, _, hxp⟩ := (mem_pathsOf hpaths hd hcd).mp hp
      refine ⟨x, List.mem_filter.mpr ⟨hx, ?_⟩, hxp⟩
      exact decide_eq_true ((counts_iff hpaths hx).mp hcx)
    · rintro ⟨x, hx, rfl⟩
      obtain ⟨hx, hvisible⟩ := List.mem_filter.mp hx
      have hcx := (counts_iff hpaths hx).mpr (of_decide_eq_true hvisible)
      -- the draft that the document's keys are filed under
      obtain ⟨i, hi⟩ := (filed_all hpaths).covered x hx hcx
      obtain ⟨q, hq⟩ := List.exists_mem_of_ne_nil _
        (keys_ne_nil (walk_spec readable hpaths hx))
      have hlt := (filed_all hpaths).bounded q i (hi q hq)
      have hlen : (chainTable docs readable).drafts.length =
          (docs.foldl (fileDoc docs readable) ⟨[], []⟩).drafts.length := by
        have hshown := congrArg List.length (shown_chainTable docs readable)
        rw [List.length_map, List.length_map] at hshown
        exact hshown
      rw [← hlen] at hlt
      obtain ⟨d, hd, hcd, hkeys, hall⟩ := hpathsOf (List.getElem?_eq_getElem hlt)
      refine ⟨_, List.getElem_mem hlt, ?_⟩
      rw [hall, mem_pathsOf hpaths hd hcd]
      refine ⟨x, hx, hcx, ?_, rfl⟩
      exact List.any_eq_true.mpr ⟨q, hq, decide_eq_true ((hkeys q).mp (hi q hq))⟩
  · rw [List.nodup_flatMap]
    constructor
    · intro draft hdraft
      obtain ⟨i, hi⟩ := List.getElem?_of_mem hdraft
      obtain ⟨d, hd, hcd, _, hall⟩ := hpathsOf hi
      rw [hall]
      exact nodup_pathsOf hpaths hd hcd
    · rw [List.pairwise_iff_getElem]
      intro i j hi hj hij p hpi hpj
      obtain ⟨d, hd, hcd, hkeys, hall⟩ := hpathsOf (List.getElem?_eq_getElem hi)
      obtain ⟨d', hd', hcd', hkeys', hall'⟩ := hpathsOf (List.getElem?_eq_getElem hj)
      dsimp only at hpi hpj
      rw [hall] at hpi
      rw [hall'] at hpj
      obtain ⟨x, hx, hcx, hsame, hxp⟩ := (mem_pathsOf hpaths hd hcd).mp hpi
      obtain ⟨y, hy, hcy, hsame', hyp⟩ := (mem_pathsOf hpaths hd' hcd').mp hpj
      obtain rfl := List.inj_on_of_nodup_map hpaths hx hy (hxp.trans hyp.symm)
      -- a document of both chains would be filed under both
      obtain ⟨q, hq, hqd⟩ := List.any_eq_true.mp hsame
      obtain ⟨q', hq', hqd'⟩ := List.any_eq_true.mp hsame'
      have hqd'' := ((agree hpaths hx hcx hd' hcd' hq' (of_decide_eq_true hqd')).1 q).mp hq
      have hlookup := (hkeys q).mpr (of_decide_eq_true hqd)
      rw [(hkeys' q).mpr hqd''] at hlookup
      have := Option.some.inj hlookup
      omega
  · exact hpaths.sublist (List.filter_sublist.map _)

/-- **A replaced document reaches the head in `depth` hops**, over readable documents. -/
theorem replaced_reaches_head {c : ChainReport} (hc : c ∈ computeChains docs readable)
    {m : ChainMember} (hm : c.head = some m) :
    ∃ h ∈ docs, readable h = true ∧ toMember h = m ∧ ∀ r ∈ c.replaced,
      ∃ d ∈ docs, readable d = true ∧ r.toChainMember = toMember d ∧
        follow (hop docs readable) r.depth d = some h := by
  obtain ⟨d, hd, hcd, hhead, _, hreplaced⟩ := report_origin hpaths hc
  rw [hm] at hhead
  cases hw : walk docs readable d with
  | head h depth dangling =>
      obtain ⟨hmem, hch, _⟩ := head_counts hpaths hd hcd hw
      rw [hw] at hhead
      refine ⟨h, hmem, readable_of_counts hch, (Option.some.inj hhead).symm, ?_⟩
      intro r hr
      obtain ⟨x, hx, hcx, hsame, hrx⟩ := mem_replacedOf.mp (hreplaced.mem_iff.mp hr)
      refine ⟨x, hx, readable_of_counts hcx, (path_of_entries hrx).1, ?_⟩
      obtain ⟨q, hq, hq'⟩ := List.any_eq_true.mp hsame
      have hends := walk_spec readable hpaths hx
      have hsamehead := (agree hpaths hx hcx hd hcd hq (of_decide_eq_true hq')).2.1
      cases hwx : walk docs readable x with
      | head h' depth' dangling' =>
          rw [hwx] at hends hrx hsamehead
          rw [hw] at hsamehead
          have hpath : h'.path = h.path :=
            congrArg ChainMember.path (Option.some.inj hsamehead)
          have hmem' :=
            (readable_of_reaches hx (readable_of_counts hcx) ⟨depth', hends.1.1⟩).1
          obtain rfl := List.inj_on_of_nodup_map hpaths hmem' hmem hpath
          have hdepth : r.depth = depth' := by
            by_cases hpos : depth' > 0
            · have hone : (WalkEnd.head h' depth' dangling').entries x =
                  [toReplaced x depth'] := if_pos hpos
              rw [hone] at hrx
              rw [List.mem_singleton.mp hrx]
              rfl
            · have hnil : (WalkEnd.head h' depth' dangling').entries x = [] := if_neg hpos
              rw [hnil] at hrx
              cases hrx
          rw [hdepth]
          exact hends.1.1
      | restricted x' depth' =>
          rw [hwx, hw] at hsamehead
          cases hsamehead
      | loop cycle depth' =>
          rw [hwx, hw] at hsamehead
          cases hsamehead
  | restricted x depth =>
      rw [hw] at hhead
      cases hhead
  | loop cycle depth =>
      rw [hw] at hhead
      cases hhead

/-- **A loop chain holds what leads into one loop**, and nothing else. -/
theorem loop_members {c : ChainReport} (hc : c ∈ computeChains docs readable)
    (hloop : .loop ∈ c.flags) : ∃ x, OnCycle (hop docs readable) x ∧ ∀ p, p ∈ c.paths ↔
      ∃ d ∈ docs, readable d = true ∧ d.path = p ∧ Reaches (hop docs readable) d x := by
  obtain ⟨d, hd, hcd, hhead, hflags, hreplaced⟩ := report_origin hpaths hc
  have hends := walk_spec readable hpaths hd
  rw [hflags] at hloop
  cases hw : walk docs readable d with
  | head h depth dangling =>
      rw [hw] at hloop
      simp [WalkEnd.chainFlags, statusFlags] at hloop
  | restricted x depth =>
      rw [hw] at hloop
      simp [WalkEnd.chainFlags] at hloop
  | loop cycle depth =>
      rw [hw] at hends
      obtain ⟨x, hx, hreach, hcyc, hall⟩ := hends
      have hmemx : x ∈ cycle := List.mem_of_head? hx
      refine ⟨x, hcyc, ?_⟩
      intro p
      have hpaths' : p ∈ c.paths ↔ p ∈ pathsOf docs readable d := by
        unfold ChainReport.paths pathsOf
        rw [hhead]
        exact (List.Perm.append_left _ (hreplaced.map _)).mem_iff
      rw [hpaths', mem_pathsOf hpaths hd hcd]
      constructor
      · rintro ⟨y, hy, hcy, hsame, rfl⟩
        refine ⟨y, hy, readable_of_counts hcy, rfl, ?_⟩
        obtain ⟨q, hq, hq'⟩ := List.any_eq_true.mp hsame
        -- its walk ends in a loop with the same members
        have hagree := agree hpaths hy hcy hd hcd hq (of_decide_eq_true hq')
        have hendsy := walk_spec readable hpaths hy
        cases hwy : walk docs readable y with
        | head h' depth' dangling' =>
            rw [hwy, hw] at hagree
            cases hagree.2.1
        | restricted x' depth' =>
            rw [hwy, hw] at hagree
            cases hagree.2.2
        | loop cycle' depth' =>
            rw [hwy] at hendsy
            rw [hwy, hw] at hagree
            obtain ⟨z, _, hz, _, hallz⟩ := hendsy
            have hxkey : x.path ∈ (WalkEnd.loop cycle' depth').keys :=
              (hagree.1 x.path).mpr (List.mem_map_of_mem hmemx)
            obtain ⟨x', hx', hxp⟩ := List.mem_map.mp hxkey
            have hzx := (hallz x').mp hx'
            have hyz : Reaches (hop docs readable) y z := ⟨depth', hz⟩
            have hmemx' := (readable_of_reaches hy (readable_of_counts hcy) (hyz.trans hzx)).1
            have hmemxd := (readable_of_reaches hd (readable_of_counts hcd) ⟨depth, hreach⟩).1
            obtain rfl := List.inj_on_of_nodup_map hpaths hmemx' hmemxd hxp
            exact hyz.trans hzx
      · rintro ⟨y, hy, hready, rfl, hyx⟩
        have hendsy := walk_spec readable hpaths hy
        obtain ⟨cycle', depth', hwy, hxcycle⟩ := ends_loop hendsy hyx hcyc
        refine ⟨y, hy, ?_, ?_, rfl⟩
        · unfold counts
          rw [hready, hwy]
          rfl
        · unfold sameEnd
          rw [hwy, hw]
          refine List.any_eq_true.mpr ⟨x.path, List.mem_map_of_mem hxcycle, ?_⟩
          exact decide_eq_true (List.mem_map_of_mem hmemx)

end Reports

end Chains
