import Daftari.Curation.ChainTableProofs

/-! # Chains as a caller sees them — hidden contents do not show

    Two vaults whose hidden documents have the same paths and pointers are told apart by no chain.
    The proof runs the code on both, step by step.

    * `blind_walkLoop`, `blind_fileDoc`, `blind_creditDoc`: **one step on documents a caller cannot
      tell apart**;
    * `computeChains_correct`: **what a caller is told**. -/

namespace Chains

open Chain

/-! ## Hidden contents -/

/-- Two documents that a caller cannot tell apart: the same, or both hidden with
    the same path and pointer. -/
def Blind (readable : ChainDoc → Bool) (d d' : ChainDoc) : Prop :=
  d = d' ∨ (readable d = false ∧ readable d' = false ∧ d.path = d'.path ∧
    d.supersededBy = d'.supersededBy)

namespace Blind

variable {readable : ChainDoc → Bool} {d d' : ChainDoc}

theorem path (h : Blind readable d d') : d.path = d'.path := by
  rcases h with rfl | ⟨_, _, hpath, _⟩
  · rfl
  · exact hpath

theorem supersededBy (h : Blind readable d d') : d.supersededBy = d'.supersededBy := by
  rcases h with rfl | ⟨_, _, _, hby⟩
  · rfl
  · exact hby

theorem readable_eq (h : Blind readable d d') : readable d = readable d' := by
  rcases h with rfl | ⟨hd, hd', _, _⟩
  · rfl
  · rw [hd, hd']

theorem eq_of_readable (h : Blind readable d d') (hd : readable d = true) : d = d' := by
  rcases h with rfl | ⟨hd', _, _, _⟩
  · rfl
  · rw [hd] at hd'
    cases hd'

end Blind

section TwoRuns

variable {docs docs' : List ChainDoc} {readable : ChainDoc → Bool}

theorem blind_byPath (h : List.Forall₂ (Blind readable) docs docs') (p : String) :
    Option.Rel (Blind readable) (byPath docs p) (byPath docs' p) := by
  have hfind : ∀ {l l' : List ChainDoc}, List.Forall₂ (Blind readable) l l' →
      Option.Rel (Blind readable) (l.find? fun d => d.path = p)
        (l'.find? fun d => d.path = p) := by
    intro l l' hl
    induction hl with
    | nil => exact .none
    | cons hd _ ih =>
        rename_i a b _ _ _
        rw [List.find?_cons, List.find?_cons, hd.path]
        by_cases hp : b.path = p
        · simp only [hp, decide_true]
          exact .some hd
        · simp only [hp, decide_false]
          exact ih
  exact hfind (List.rel_reverse h)

/-- Two ends of a walk that a caller cannot tell apart. -/
def WalkEnd.Blind : WalkEnd → WalkEnd → Prop
  | .restricted x depth, .restricted x' depth' => x.path = x'.path ∧ depth = depth'
  | e, e' => e = e'

theorem WalkEnd.Blind.refl (e : WalkEnd) : WalkEnd.Blind e e := by
  cases e with
  | head h depth dangling => rfl
  | restricted x depth => exact ⟨rfl, rfl⟩
  | loop cycle depth => rfl

/-- **A walk does not show hidden contents.** -/
theorem blind_walkLoop (h : List.Forall₂ (Blind readable) docs docs') (fuel : Nat)
    (trail : List ChainDoc) (current : ChainDoc) :
    WalkEnd.Blind (walkLoop (byPath docs) readable fuel trail current)
      (walkLoop (byPath docs') readable fuel trail current) := by
  induction fuel generalizing trail current with
  | zero => exact .refl _
  | succ fuel ih =>
      unfold walkLoop
      cases hs : current.supersededBy with
      | none => exact .refl _
      | some path =>
          have hrel := blind_byPath h path
          simp only
          generalize byPath docs path = o at hrel ⊢
          generalize byPath docs' path = o' at hrel ⊢
          cases hrel with
          | none => exact .refl _
          | some hnext =>
              rename_i next next'
              simp only
              by_cases hread : readable next = true
              · obtain rfl := hnext.eq_of_readable hread
                rw [if_neg (by simp [hread]), if_neg (by simp [hread])]
                cases trail.findIdx? fun d => d.path = next.path with
                | some seenAt => exact .refl _
                | none => exact ih _ _
              · have hread' : ¬ readable next' = true := by
                  rw [← hnext.readable_eq]
                  exact hread
                rw [if_pos (by simpa using hread), if_pos (by simpa using hread')]
                exact ⟨hnext.path, rfl⟩

theorem blind_walk (h : List.Forall₂ (Blind readable) docs docs') (doc : ChainDoc) :
    WalkEnd.Blind (walk docs readable doc) (walk docs' readable doc) := by
  unfold walk
  rw [h.length_eq]
  exact blind_walkLoop h _ _ _

theorem blind_replacedSomething (h : List.Forall₂ (Blind readable) docs docs') (p : String) :
    replacedSomething docs p = replacedSomething docs' p := by
  have hfound : (byPath docs p).isSome = (byPath docs' p).isSome := by
    have hrel := blind_byPath h p
    generalize byPath docs p = o at hrel ⊢
    generalize byPath docs' p = o' at hrel ⊢
    cases hrel with
    | none => rfl
    | some _ => rfl
  unfold replacedSomething
  rw [hfound]
  clear hfound
  generalize (byPath docs' p).isSome = found
  induction h with
  | nil => rfl
  | cons hd _ ih => rw [List.any_cons, List.any_cons, ih, hd.supersededBy]

theorem blind_end (h : List.Forall₂ (Blind readable) docs docs') {e e' : WalkEnd}
    (he : WalkEnd.Blind e e') (doc : ChainDoc) :
    e.isChain docs = e'.isChain docs' ∧ e.keys = e'.keys ∧ e.chainHead = e'.chainHead ∧
      e.chainFlags = e'.chainFlags ∧ e.entries doc = e'.entries doc := by
  have hself : ∀ e : WalkEnd, e.isChain docs = e.isChain docs' := by
    intro e
    cases e with
    | head x depth dangling =>
        simp only [WalkEnd.isChain, blind_replacedSomething h]
    | restricted x depth => rfl
    | loop cycle depth => rfl
  cases e with
  | head x depth dangling =>
      obtain rfl : WalkEnd.head x depth dangling = e' := by
        cases e' <;> exact he
      exact ⟨hself _, rfl, rfl, rfl, rfl⟩
  | restricted x depth =>
      cases e' with
      | restricted x' depth' =>
          obtain ⟨hpath, rfl⟩ := he
          exact ⟨rfl, congrArg (fun p => [p]) hpath, rfl, rfl, rfl⟩
      | head x' depth' dangling' => cases he
      | loop cycle' depth' => cases he
  | loop cycle depth =>
      obtain rfl : WalkEnd.loop cycle depth = e' := by
        cases e' <;> exact he
      exact ⟨hself _, rfl, rfl, rfl, rfl⟩

/-- **Filing a document does not show hidden contents.** -/
theorem blind_fileDoc (h : List.Forall₂ (Blind readable) docs docs') (t : Table)
    {doc doc' : ChainDoc} (hdoc : Blind readable doc doc') :
    fileDoc docs readable t doc = fileDoc docs' readable t doc' := by
  by_cases hread : readable doc = true
  · obtain rfl := hdoc.eq_of_readable hread
    obtain ⟨hchain, hkeys, hhead, hflags, hentries⟩ := blind_end h (blind_walk h doc) doc
    rw [fileDoc_eq, fileDoc_eq]
    unfold counts enter
    rw [hchain, hkeys, hhead, hflags, hentries]
  · have hread' : ¬ readable doc' = true := by
      rw [← hdoc.readable_eq]
      exact hread
    unfold fileDoc
    rw [if_pos (by simpa using hread), if_pos (by simpa using hread')]

theorem blind_fedBy (h : List.Forall₂ (Blind readable) docs docs') (t : Table) (fuel : Nat)
    (seen : List String) (next : Option String) : fedBy docs t fuel seen (next.bind (byPath docs)) =
      fedBy docs' t fuel seen (next.bind (byPath docs')) := by
  induction fuel generalizing seen next with
  | zero => rfl
  | succ fuel ih =>
      cases next with
      | none => rfl
      | some p =>
          have hrel := blind_byPath h p
          rw [Option.bind_some, Option.bind_some]
          generalize byPath docs p = o at hrel ⊢
          generalize byPath docs' p = o' at hrel ⊢
          cases hrel with
          | none => rfl
          | some hnext =>
              unfold fedBy
              rw [hnext.path, hnext.supersededBy, ih]

theorem blind_creditDoc (h : List.Forall₂ (Blind readable) docs docs') (t : Table)
    {doc doc' : ChainDoc} (hdoc : Blind readable doc doc') :
    creditDoc docs readable t doc = creditDoc docs' readable t doc' := by
  unfold creditDoc
  rw [hdoc.readable_eq, hdoc.path, hdoc.supersededBy, h.length_eq, blind_fedBy h]

omit docs docs' in
theorem blind_foldl {f g : Table → ChainDoc → Table}
    (hf : ∀ t d d', Blind readable d d' → f t d = g t d') {l l' : List ChainDoc}
    (hl : List.Forall₂ (Blind readable) l l') (t : Table) : l.foldl f t = l'.foldl g t := by
  induction hl generalizing t with
  | nil => rfl
  | cons hd _ ih => rw [List.foldl_cons, List.foldl_cons, hf t _ _ hd, ih]

/-- **Hidden contents do not show** in the chains. -/
theorem blind_computeChains (h : List.Forall₂ (Blind readable) docs docs') :
    computeChains docs readable = computeChains docs' readable := by
  unfold computeChains chainTable
  rw [blind_foldl (fun t _ _ hd => blind_fileDoc h t hd) h,
    blind_foldl (fun t _ _ hd => blind_creditDoc h t hd) h]

end TwoRuns

/-! ## What a caller is told -/

/-- **THE CHAINS A CALLER IS TOLD.**  They partition the readable documents that are part of a
    supersession; what a headed chain replaced reaches its head in `depth` hops over readable
    documents; a loop chain is what leads into one loop; and nothing of an unreadable document but
    its path and pointer has any bearing on them. -/
theorem computeChains_correct (docs : List ChainDoc) (readable : ChainDoc → Bool)
    (hpaths : (docs.map ChainDoc.path).Nodup) :
    ((computeChains docs readable).flatMap ChainReport.paths).Perm
        ((docs.filter fun d => readable d ∧ InChain docs d).map ChainDoc.path) ∧
      (∀ c ∈ computeChains docs readable, ∀ m, c.head = some m →
        ∃ h ∈ docs, readable h = true ∧ toMember h = m ∧ ∀ r ∈ c.replaced,
          ∃ d ∈ docs, readable d = true ∧ r.toChainMember = toMember d ∧
            follow (hop docs readable) r.depth d = some h) ∧
      (∀ c ∈ computeChains docs readable, .loop ∈ c.flags →
        ∃ x, OnCycle (hop docs readable) x ∧ ∀ p, p ∈ c.paths ↔
          ∃ d ∈ docs, readable d = true ∧ d.path = p ∧ Reaches (hop docs readable) d x) ∧
      ∀ docs', List.Forall₂ (Blind readable) docs docs' →
        computeChains docs readable = computeChains docs' readable :=
  ⟨paths_partition hpaths, fun _ hc _ hm => replaced_reaches_head hpaths hc hm,
    fun _ hc hloop => loop_members hpaths hc hloop, fun _ h => blind_computeChains h⟩

/-- A note that was replaced, its replacement, and two that name each other. -/
def sampleDocs : List ChainDoc :=
  [⟨"a.md", "notes", "superseded", "2026-01-01", some "b.md"⟩,
    ⟨"b.md", "notes", "canonical", "2026-01-02", none⟩,
    ⟨"c.md", "notes", "superseded", "2026-01-03", some "d.md"⟩,
    ⟨"d.md", "notes", "superseded", "2026-01-04", some "c.md"⟩]

/-- What a caller who reads everything is told of them. -/
theorem computeChains_correct_sample :
    ((computeChains sampleDocs fun _ => true).flatMap ChainReport.paths).Perm
      ((sampleDocs.filter fun d => true ∧ InChain sampleDocs d).map ChainDoc.path) :=
  (computeChains_correct sampleDocs (fun _ => true) (by decide)).1

end Chains
