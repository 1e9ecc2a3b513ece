import Daftari.Lib.JsonTextProofs
import Daftari.Lib.ReachProofs
import Mathlib.Order.Bounds.Basic

/-! # Container ancestry — the folders below an enrolled one

    A walk over a whole drive keeps what lies in the enrolled folder.  Its folders are found
    by scanning all records again and again, each scan adding to the set it looks at, until
    one adds nothing.

    * `fold_least`: **it ends with the least set that holds the roots and every folder whose
      parent it holds**; so the order of the records does not matter, and more records or
      roots give more folders. -/

namespace Ancestry

open JsonText (Json field isObject strOf)

abbrev Id := List Nat

def stringValue (value : Option Json) : Option Id := (strOf value).filter (· ≠ [])

def deltaParentId (item : Json) : Option Id :=
  match field item "parentReference" with
  | some parentReference =>
      if isObject parentReference then stringValue (field parentReference "id") else none
  | none => none

/-- The body of the scan: the ancestors so far, and whether there are new ones. -/
def scanItem (st : List Id × Bool) (raw : Json) : List Id × Bool :=
  if isObject raw = false then st
  else if field raw "folder" = none ∨ field raw "deleted" ≠ none then st
  else
    match stringValue (field raw "id") with
    | none => st
    | some id =>
        if id ∈ st.1 then st
        else
          match deltaParentId raw with
          | none => st
          | some parentId => if parentId ∈ st.1 then (st.1 ++ [id], true) else st

def scan (items : List Json) (ancestorIds : List Id) : List Id × Bool :=
  items.foldl scanItem (ancestorIds, false)

def growLoop (items : List Json) : Nat → List Id → Option (List Id)
  | 0, _ => none
  | scans + 1, ancestorIds =>
      let (found, grew) := scan items ancestorIds
      if grew then growLoop items scans found else some found

/-- `foldContainerAncestry`; the set, as the list of what was added to it. -/
def foldContainerAncestry (items : List Json) (folderId : Id) (persistedFolders : List Id) :
    Option (List Id) :=
  growLoop items (items.length + 1) (folderId :: persistedFolders)

/-! ## What is to be found -/

structure FolderRecord (raw : Json) (id parentId : Id) : Prop where
  folder : field raw "folder" ≠ none
  live : field raw "deleted" = none
  id : stringValue (field raw "id") = some id
  parent : deltaParentId raw = some parentId

def Closed (items : List Json) (S : Set Id) : Prop :=
  ∀ raw ∈ items, ∀ id parentId, FolderRecord raw id parentId → parentId ∈ S → id ∈ S

/-- A set that holds the roots too. -/
def Holds (items : List Json) (folderId : Id) (persistedFolders : List Id) : Set (Set Id) :=
  {S | folderId ∈ S ∧ (∀ id ∈ persistedFolders, id ∈ S) ∧ Closed items S}

/-! ## One scan -/

private theorem isObject_of_field {raw : Json} {name : String} (h : field raw name ≠ none) :
    isObject raw = true := by
  cases raw with
  | obj members => rfl
  | _ => exact absurd rfl h

/-- **One record**: it adds the folder it is of, if only its parent is there. -/
theorem scanItem_cases (st : List Id × Bool) (raw : Json) :
    (∃ id parentId, FolderRecord raw id parentId ∧ parentId ∈ st.1 ∧ id ∉ st.1 ∧
      scanItem st raw = (st.1 ++ [id], true)) ∨ (scanItem st raw = st ∧
      ∀ id parentId, FolderRecord raw id parentId → parentId ∈ st.1 → id ∈ st.1) := by
  by_cases hrec : ∃ id parentId, FolderRecord raw id parentId
  · obtain ⟨id, parentId, hrec⟩ := hrec
    have hskip : ¬ (field raw "folder" = none ∨ field raw "deleted" ≠ none) :=
      not_or.mpr ⟨hrec.folder, not_not.mpr hrec.live⟩
    have hsame : ∀ id' parentId', FolderRecord raw id' parentId' →
        id' = id ∧ parentId' = parentId := fun id' parentId' h =>
      ⟨Option.some.inj (h.id.symm.trans hrec.id), Option.some.inj (h.parent.symm.trans hrec.parent)⟩
    have hstep : scanItem st raw =
        if id ∈ st.1 then st else if parentId ∈ st.1 then (st.1 ++ [id], true) else st := by
      simp only [scanItem, isObject_of_field hrec.folder, Bool.true_eq_false, if_false,
        if_neg hskip, hrec.id, hrec.parent]
    by_cases hid : id ∈ st.1
    · refine .inr ⟨hstep.trans (if_pos hid), fun id' parentId' h _ => ?_⟩
      rwa [(hsame id' parentId' h).1]
    · by_cases hparent : parentId ∈ st.1
      · refine .inl ⟨id, parentId, hrec, hparent, hid, ?_⟩
        rw [hstep, if_neg hid, if_pos hparent]
      · refine .inr ⟨?_, fun id' parentId' h hin => ?_⟩
        · rw [hstep, if_neg hid, if_neg hparent]
        · rw [(hsame id' parentId' h).2] at hin
          exact absurd hin hparent
  · refine .inr ⟨?_, fun id parentId h => absurd ⟨id, parentId, h⟩ hrec⟩
    unfold scanItem
    by_cases hobj : isObject raw = false
    · exact if_pos hobj
    · rw [if_neg hobj]
      by_cases hskip : field raw "folder" = none ∨ field raw "deleted" ≠ none
      · exact if_pos hskip
      · rw [if_neg hskip]
        obtain ⟨hfolder, hlive⟩ := not_or.mp hskip
        cases hid : stringValue (field raw "id") with
        | none => rfl
        | some id =>
            cases hparent : deltaParentId raw with
            | none => exact ite_self st
            | some parentId =>
                exact absurd ⟨id, parentId, hfolder, not_not.mp hlive, hid, hparent⟩ hrec

def idsOf (items : List Json) : List Id := items.filterMap fun raw => stringValue (field raw "id")

/-- **One scan** only adds, adds nothing that a closed set does not hold, and has something new
    to tell exactly if it has not found the set closed. -/
theorem scan_spec (items : List Json) (ancestorIds : List Id) :
    ∃ new, (scan items ancestorIds).1 = ancestorIds ++ new ∧
      (∀ S, Closed items S → (∀ id ∈ ancestorIds, id ∈ S) → ∀ id ∈ new, id ∈ S) ∧
      ((scan items ancestorIds).2 = false → new = [] ∧ Closed items {id | id ∈ ancestorIds}) ∧
      ((scan items ancestorIds).2 = true → ∃ id ∈ new, id ∈ idsOf items ∧ id ∉ ancestorIds) := by
  unfold scan
  induction items using List.reverseRecOn with
  | nil =>
      exact ⟨[], (List.append_nil _).symm, fun _ _ _ _ h => (nomatch h),
        fun _ => ⟨rfl, fun raw hraw => (nomatch hraw)⟩, fun h => (nomatch h)⟩
  | append_singleton items raw ih =>
      obtain ⟨new, heq, hsound, hstill, hgrew⟩ := ih
      have hids : ∀ {id}, id ∈ idsOf items → id ∈ idsOf (items ++ [raw]) := by
        intro id h
        rw [idsOf, List.filterMap_append]
        exact List.mem_append_left _ h
      have hclosed : ∀ {S}, Closed (items ++ [raw]) S → Closed items S := fun h r hr =>
        h r (List.mem_append_left _ hr)
      rw [List.foldl_append, List.foldl_cons, List.foldl_nil]
      rcases scanItem_cases (items.foldl scanItem (ancestorIds, false)) raw with
        ⟨id, parentId, hrec, hparent, hid, hstep⟩ | ⟨hstep, hquiet⟩
      · rw [hstep]
        rw [heq] at hparent hid
        refine ⟨new ++ [id], ?_, fun S hS hroots => ?_, fun h => (nomatch h), fun _ => ?_⟩
        · rw [heq, List.append_assoc]
        · have hnew := hsound S (hclosed hS) hroots
          refine List.forall_mem_append.mpr ⟨hnew, List.forall_mem_singleton.mpr ?_⟩
          refine hS raw (List.mem_append_right _ (List.mem_singleton_self _)) id parentId hrec ?_
          exact (List.mem_append.mp hparent).elim (hroots _) (hnew _)
        · refine ⟨id, List.mem_append_right _ (List.mem_singleton_self _), ?_, fun h =>
            hid (List.mem_append_left _ h)⟩
          exact List.mem_filterMap.mpr
            ⟨raw, List.mem_append_right _ (List.mem_singleton_self _), hrec.id⟩
      · rw [hstep]
        refine ⟨new, heq, fun S hS hroots => hsound S (hclosed hS) hroots, fun h => ?_, fun h => ?_⟩
        · obtain ⟨hnil, hS⟩ := hstill h
          rw [hnil, List.append_nil] at heq
          rw [heq] at hquiet
          refine ⟨hnil, fun r hr id parentId hrec hin => ?_⟩
          rcases List.mem_append.mp hr with hr | hr
          · exact hS r hr id parentId hrec hin
          · obtain rfl := List.mem_singleton.mp hr
            exact hquiet id parentId hrec hin
        · obtain ⟨id, hin, hknown, hout⟩ := hgrew h
          exact ⟨id, hin, hids hknown, hout⟩

/-! ## The loop -/

/-- With more scans than there are ids left to find, the loop ends with a closed set, and with
    nothing that a closed set need not hold. -/
theorem growLoop_spec {items : List Json} {scans : Nat} {ancestorIds : List Id}
    (h : ((idsOf items).filter (· ∉ ancestorIds)).length < scans) :
    ∃ ids, growLoop items scans ancestorIds = some ids ∧ ancestorIds ⊆ ids ∧
      Closed items {id | id ∈ ids} ∧
      ∀ S, Closed items S → (∀ id ∈ ancestorIds, id ∈ S) → ∀ id ∈ ids, id ∈ S := by
  induction scans generalizing ancestorIds with
  | zero => omega
  | succ scans ih =>
      obtain ⟨new, heq, hsound, hstill, hgrew⟩ := scan_spec items ancestorIds
      show ∃ ids, (if (scan items ancestorIds).2 then
        growLoop items scans (scan items ancestorIds).1 else some (scan items ancestorIds).1) =
          some ids ∧ _
      rw [heq]
      cases hflag : (scan items ancestorIds).2 with
      | false =>
          obtain ⟨rfl, hclosed⟩ := hstill hflag
          rw [List.append_nil]
          exact ⟨ancestorIds, rfl, List.Subset.refl _, hclosed, fun _ _ hroots => hroots⟩
      | true =>
          obtain ⟨id, hin, hknown, hout⟩ := hgrew hflag
          have hless : ((idsOf items).filter (· ∉ ancestorIds ++ new)).length <
              ((idsOf items).filter (· ∉ ancestorIds)).length := by
            convert Layered.length_left_lt hknown hout hin
          obtain ⟨ids, hloop, hsub, hclosed, hleast⟩ := ih (hless.trans_le (Nat.le_of_lt_succ h))
          refine ⟨ids, hloop, fun x hx => hsub (List.mem_append_left _ hx), hclosed,
            fun S hS hroots => hleast S hS (List.forall_mem_append.mpr ⟨hroots, ?_⟩)⟩
          exact hsound S hS hroots

theorem fold_spec (items : List Json) (folderId : Id) (persistedFolders : List Id) :
    ∃ ids, foldContainerAncestry items folderId persistedFolders = some ids ∧
      IsLeast (Holds items folderId persistedFolders) {id | id ∈ ids} := by
  have hscans : ((idsOf items).filter (· ∉ folderId :: persistedFolders)).length <
      items.length + 1 :=
    Nat.lt_succ_of_le ((List.length_filter_le _ _).trans (List.length_filterMap_le _ _))
  obtain ⟨ids, hloop, hsub, hclosed, hleast⟩ := growLoop_spec hscans
  refine ⟨ids, hloop, ⟨hsub List.mem_cons_self, fun id hid => hsub (List.mem_cons_of_mem _ hid),
    hclosed⟩, fun S hS => ?_⟩
  exact hleast S hS.2.2 (List.forall_mem_cons.mpr ⟨hS.1, hS.2.1⟩)

theorem holds_anti (folderId : Id) {items items' : List Json}
    {persistedFolders persistedFolders' : List Id} (hitems : items ⊆ items')
    (hfolders : persistedFolders ⊆ persistedFolders') :
    Holds items' folderId persistedFolders' ⊆ Holds items folderId persistedFolders :=
  fun _ ⟨hroot, hpersisted, hclosed⟩ =>
    ⟨hroot, fun id hid => hpersisted id (hfolders hid), fun raw hraw => hclosed raw (hitems hraw)⟩

end Ancestry
