import Daftari.Access.RbacProofs

/-! # Normal paths — what resolving a path against a root can give

    `resolve` and `relative` work on segments.  A path is normal when none of its segments is empty,
    `.` or `..`, and resolving it changes nothing (`lexicalRelative_of_normal`).  For any path
    whatever, the relative form is either empty, or starts with `..`, or is normal and then lies
    below the root (`lexicalRelative_inside`). -/

namespace Rbac

/-- A segment that resolving keeps. -/
def NormalSegment (seg : Path) : Prop := seg ≠ [] ∧ seg ≠ ['.'] ∧ seg ≠ ['.', '.']

instance (seg : Path) : Decidable (NormalSegment seg) :=
  inferInstanceAs (Decidable (_ ∧ _))

/-- A path made of segments that resolving keeps. -/
def NormalPath (path : Path) : Prop := ∀ seg ∈ path.splitOn '/', NormalSegment seg

instance (path : Path) : Decidable (NormalPath path) :=
  inferInstanceAs (Decidable (∀ seg ∈ _, _))

/-! ## Splitting and joining -/

variable {path seg : Path}

theorem not_mem_splitOn (h : seg ∈ path.splitOn '/') : '/' ∉ seg := by
  induction path generalizing seg with
  | nil =>
      rw [List.splitOn_nil, List.mem_singleton] at h
      rw [h]
      exact List.not_mem_nil
  | cons c path ih =>
      rw [List.splitOn_cons_eq_if_modifyHead] at h
      split at h
      · rcases List.mem_cons.mp h with rfl | h
        · exact List.not_mem_nil
        · exact ih h
      · rename_i hc
        cases hs : path.splitOn '/' with
        | nil => exact absurd hs (List.splitOn_ne_nil _ _)
        | cons first rest =>
            rw [hs, List.modifyHead_cons] at h
            rcases List.mem_cons.mp h with rfl | h
            · have hfirst : '/' ∉ first := ih (by rw [hs]; exact List.mem_cons_self)
              intro hm
              rcases List.mem_cons.mp hm with rfl | hm
              · exact hc (beq_self_eq_true _)
              · exact hfirst hm
            · exact ih (by rw [hs]; exact List.mem_cons_of_mem _ h)

variable {segs : List Path}

theorem splitOn_joinSegments (hne : segs ≠ []) (h : ∀ seg ∈ segs, '/' ∉ seg) :
    (joinSegments segs).splitOn '/' = segs :=
  List.splitOn_intercalate '/' h hne

theorem joinSegments_splitOn (path : Path) : joinSegments (path.splitOn '/') = path :=
  List.intercalate_splitOn '/'

theorem NormalPath.ne_nil (h : NormalPath path) : path ≠ [] := by
  rintro rfl
  exact (h [] (by rw [List.splitOn_nil]; exact List.mem_singleton_self _)).1 rfl

theorem NormalPath.head_ne (h : NormalPath path) : path.head? ≠ some '/' := by
  intro hhead
  cases path with
  | nil => cases hhead
  | cons c path =>
      obtain rfl : c = '/' := Option.some.inj hhead
      refine (h [] ?_).1 rfl
      exact List.mem_cons_self

/-! ## Resolving -/

/-- One segment of `normalSegments`, for a path that cannot rise above its start. -/
private def push (acc : List Path) (seg : Path) : List Path :=
  if seg = [] ∨ seg = ['.'] then acc
  else if seg = ['.', '.'] then
    match acc with
    | [] => if false then [seg] else []
    | last :: rest => if last = ['.', '.'] then seg :: acc else rest
  else seg :: acc

private theorem normalSegments_eq (segs : List Path) :
    normalSegments false segs = (segs.foldl push []).reverse := rfl

private theorem push_of_normal (acc : List Path) (h : NormalSegment seg) :
    push acc seg = seg :: acc := by
  unfold push
  rw [if_neg (not_or.mpr ⟨h.1, h.2.1⟩), if_neg h.2.2]

private theorem foldl_push_normal (acc : List Path) (h : ∀ seg ∈ segs, NormalSegment seg) :
    segs.foldl push acc = segs.reverse ++ acc := by
  induction segs generalizing acc with
  | nil => rfl
  | cons seg segs ih =>
      rw [List.foldl_cons, push_of_normal acc (h seg List.mem_cons_self),
        ih _ fun s hs => h s (List.mem_cons_of_mem _ hs), List.reverse_cons,
        List.append_assoc]
      rfl

theorem normalSegments_of_normal (h : ∀ seg ∈ segs, NormalSegment seg) :
    normalSegments false segs = segs := by
  rw [normalSegments_eq, foldl_push_normal [] h, List.append_nil, List.reverse_reverse]

private theorem mem_push {acc : List Path} {s : Path} (hacc : ∀ s ∈ acc, NormalSegment s)
    (h : s ∈ push acc seg) : s ∈ acc ∨ s = seg ∧ NormalSegment s := by
  unfold push at h
  split at h
  · exact Or.inl h
  rename_i hempty
  split at h
  · cases acc with
    | nil => cases h
    | cons last rest =>
        -- what is on the stack is never `..`
        dsimp only at h
        rw [if_neg (hacc last List.mem_cons_self).2.2] at h
        exact Or.inl (List.mem_cons_of_mem _ h)
  · rename_i hup
    rcases List.mem_cons.mp h with rfl | h
    · exact Or.inr ⟨rfl, (not_or.mp hempty).1, (not_or.mp hempty).2, hup⟩
    · exact Or.inl h

theorem mem_normalSegments {s : Path} (h : s ∈ normalSegments false segs) :
    s ∈ segs ∧ NormalSegment s := by
  have hfold : ∀ (segs acc : List Path), (∀ s ∈ acc, NormalSegment s) →
      ∀ s ∈ segs.foldl push acc, (s ∈ acc ∨ s ∈ segs) ∧ NormalSegment s := by
    intro segs
    induction segs with
    | nil =>
        intro acc hacc s hs
        exact ⟨Or.inl hs, hacc s hs⟩
    | cons seg segs ih =>
        intro acc hacc s hs
        have hnext : ∀ s ∈ push acc seg, NormalSegment s := fun s hs =>
          (mem_push hacc hs).elim (hacc s) fun h => h.2
        obtain ⟨hin, hn⟩ := ih _ hnext s hs
        refine ⟨?_, hn⟩
        rcases hin with hin | hin
        · rcases mem_push hacc hin with hin | ⟨rfl, -⟩
          · exact Or.inl hin
          · exact Or.inr List.mem_cons_self
        · exact Or.inr (List.mem_cons_of_mem _ hin)
  rw [normalSegments_eq, List.mem_reverse] at h
  obtain ⟨hin, hn⟩ := hfold segs [] nofun s h
  exact ⟨hin.resolve_left List.not_mem_nil, hn⟩

/-! ## Relative to a root -/

/-- A root by its segments: absolute and resolved. -/
def RootOk (root : List Path) : Prop := ∀ seg ∈ root, NormalSegment seg ∧ '/' ∉ seg

instance (root : List Path) : Decidable (RootOk root) :=
  inferInstanceAs (Decidable (∀ seg ∈ root, _ ∧ _))

def resolved (root : List Path) (path : Path) : List Path :=
  match path with
  | '/' :: rest => normalSegments false (rest.splitOn '/')
  | _ => normalSegments false (root ++ path.splitOn '/')

/-- How much of the root the resolved path shares. -/
def sharedLength (root target : List Path) : Nat :=
  ((root.zip target).takeWhile fun e => e.1 = e.2).length

theorem lexicalRelative_eq (root : List Path) (path : Path) :
    lexicalRelative root path = joinSegments
      (List.replicate (root.length - sharedLength root (resolved root path)) ['.', '.']
        ++ (resolved root path).drop (sharedLength root (resolved root path))) := by
  rfl

variable {root : List Path}

theorem mem_resolved (hroot : RootOk root) (h : seg ∈ resolved root path) :
    NormalSegment seg ∧ '/' ∉ seg := by
  unfold resolved at h
  split at h
  · obtain ⟨hin, hn⟩ := mem_normalSegments h
    exact ⟨hn, not_mem_splitOn hin⟩
  · obtain ⟨hin, hn⟩ := mem_normalSegments h
    refine ⟨hn, ?_⟩
    rcases List.mem_append.mp hin with hin | hin
    · exact (hroot seg hin).2
    · exact not_mem_splitOn hin

theorem eq_append_of_sharedLength {target : List Path}
    (h : root.length ≤ sharedLength root target) :
    target = root ++ target.drop (sharedLength root target) := by
  induction root generalizing target with
  | nil =>
      show target = target.drop (sharedLength [] target)
      rfl
  | cons r root ih =>
      cases target with
      | nil => cases h
      | cons t target =>
          unfold sharedLength at h ⊢
          rw [List.zip_cons_cons] at h ⊢
          by_cases he : r = t
          · rw [List.takeWhile_cons_of_pos (by simpa using he)] at h ⊢
            have hrest : target = root ++ target.drop (sharedLength root target) :=
              ih (Nat.le_of_succ_le_succ h)
            rw [he, List.length_cons, List.drop_succ_cons, List.cons_append]
            exact congrArg (t :: ·) hrest
          · rw [List.takeWhile_cons_of_neg (by simpa using he)] at h
            cases h

theorem sharedLength_append (root rest : List Path) :
    sharedLength root (root ++ rest) = root.length := by
  induction root with
  | nil => rfl
  | cons r root ih =>
      unfold sharedLength at ih ⊢
      rw [List.cons_append, List.zip_cons_cons, List.takeWhile_cons_of_pos (by simp),
        List.length_cons, ih, List.length_cons]

/-- **A normal path is its own relative form.** -/
theorem lexicalRelative_of_normal (hroot : RootOk root) (h : NormalPath path) :
    lexicalRelative root path = path := by
  have hres : resolved root path = root ++ path.splitOn '/' := by
    unfold resolved
    split
    · exact absurd rfl h.head_ne
    · refine normalSegments_of_normal ?_
      intro seg hseg
      rcases List.mem_append.mp hseg with hseg | hseg
      · exact (hroot seg hseg).1
      · exact h seg hseg
  rw [lexicalRelative_eq, hres, sharedLength_append, Nat.sub_self, List.replicate_zero,
    List.nil_append, List.drop_left, joinSegments_splitOn]

/-- **A relative form that is not empty and does not start with `..` is normal**,
    and what it names lies below the root. -/
theorem lexicalRelative_inside (hroot : RootOk root) (hne : lexicalRelative root path ≠ [])
    (hup : ¬ ['.', '.'] <+: lexicalRelative root path) : NormalPath (lexicalRelative root path)
      ∧ resolved root path = root ++ (lexicalRelative root path).splitOn '/' := by
  rw [lexicalRelative_eq] at hne hup ⊢
  set target := resolved root path with htarget
  by_cases hshared : root.length ≤ sharedLength root target
  · have hsub : root.length - sharedLength root target = 0 := Nat.sub_eq_zero_of_le hshared
    rw [hsub, List.replicate_zero, List.nil_append] at hne ⊢
    have hsplit := eq_append_of_sharedLength hshared
    set rest := target.drop (sharedLength root target) with hrest
    have hmem : ∀ seg ∈ rest, NormalSegment seg ∧ '/' ∉ seg := by
      intro seg hseg
      have hin : seg ∈ resolved root path := by
        rw [← htarget, hsplit]
        exact List.mem_append_right _ hseg
      exact mem_resolved hroot hin
    have hnonempty : rest ≠ [] := by
      intro hnil
      rw [hnil] at hne
      exact hne rfl
    have hjoin := splitOn_joinSegments hnonempty fun seg hseg => (hmem seg hseg).2
    refine ⟨?_, ?_⟩
    · intro seg hseg
      rw [hjoin] at hseg
      exact (hmem seg hseg).1
    · rw [hjoin]
      exact hsplit
  · -- a root that is not shared whole leaves a `..` in front
    exfalso
    obtain ⟨k, hk⟩ : ∃ k, root.length - sharedLength root target = k + 1 :=
      ⟨_, (Nat.succ_pred_eq_of_pos (Nat.sub_pos_of_lt (Nat.lt_of_not_le hshared))).symm⟩
    rw [hk, List.replicate_succ, List.cons_append] at hup
    refine hup ?_
    unfold joinSegments
    cases hl : List.replicate k ['.', '.'] ++ target.drop (sharedLength root target) with
    | nil => exact ⟨[], rfl⟩
    | cons seg segs =>
        exact List.prefix_append _ _

end Rbac
