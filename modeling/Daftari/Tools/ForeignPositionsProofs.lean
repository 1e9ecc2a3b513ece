import Daftari.Tools.WriteEffectsProofs

/-! # Foreign positions — which landed calls keep them

    A position belongs to the principal who holds it.  A call made under an access context may
    supersede its own user's positions and must hand on everybody else's.  Full-document writes
    check this and the position tools keep to it; a merge builds its target from path_a's record and
    the overrides, and an append writes what the transform hooks make of the record, both unchecked.

    * `keeps_foreign_iff`: **a landed call keeps the foreign positions if and only if it
      respects them.** -/

namespace Write

open Frontmatter Positions Rbac

section Tools

variable {B : Type} {host : Host B} {s : Setting} {files files' docs : Files B}
  {call : Call} {plan : Plan B} {user : String}

/-! ## The promise -/

/-- The positions held under a path; no file holds none. -/
def heldAt (host : Host B) (files : Files B) (path : String) : List Position :=
  ((files.lookup path).map (held host)).getD []

/-- The positions of everyone but the user are kept, in every document. -/
def Inviolable (host : Host B) (user : String) (files files' : Files B) : Prop :=
  ∀ path, Kept user (heldAt host files path) (heldAt host files' path)

theorem heldAt_of_lookup {path : String} {file : B} (h : files.lookup path = some file) :
    heldAt host files path = held host file := by
  unfold heldAt
  rw [h]
  rfl

theorem inviolable_writeAll {writes : List (String × B)} (hnd : (writes.map Prod.fst).Nodup) :
    Inviolable host user files (writeAll files writes)
      ↔ ∀ w ∈ writes, Kept user (heldAt host files w.1) (held host w.2) := by
  constructor
  · intro h w hw
    have hkept := h w.1
    rwa [heldAt_of_lookup (lookup_writeAll_of_mem hnd hw)] at hkept
  · intro h path
    by_cases hmem : path ∈ writes.map Prod.fst
    · obtain ⟨w, hw, rfl⟩ := List.mem_map.mp hmem
      rw [heldAt_of_lookup (lookup_writeAll_of_mem hnd hw)]
      exact h w hw
    · have hsame : heldAt host (writeAll files writes) path = heldAt host files path := by
        unfold heldAt
        rw [lookup_writeAll_of_not_mem hmem]
      rw [hsame]
      exact Kept.refl _ _

theorem inviolable_write {path : String} {new : B} :
    Inviolable host user files (writeAll files [(path, new)])
      ↔ Kept user (heldAt host files path) (held host new) := by
  rw [inviolable_writeAll (by simp), List.forall_mem_singleton]

/-! ## What it takes -/

def heldBy (host : Host B) (files : Files B) (rawPath : String) : List Position :=
  ((host.resolve rawPath).toOption.map (heldAt host files)).getD []

theorem heldBy_of_resolve {rawPath path : String} (h : host.resolve rawPath = .ok path) :
    heldBy host files rawPath = heldAt host files path := by
  unfold heldBy
  rw [h]
  rfl

/-- A merge's target takes its positions from the overrides or from path_a, an
    append's from the hooks; no other tool has a say in foreign positions. -/
def RespectsForeign (host : Host B) (s : Setting) (user : String) (call : Call)
    (files : Files B) : Prop :=
  match call with
  | .merge args => ∀ rawA ∈ recordAt host files args.pathA,
      Kept user (heldBy host files args.targetPath)
        ((positionsIn (inherited args rawA "positions")).getD [])
  | .append args => ∀ raw ∈ recordAt host files args.path,
      let v := (appendRecord host s args (coerce host.json raw)).1.lookup "positions"
      missing v = false →
        Kept user (heldBy host files args.path) ((positionsIn v).getD [])
  | _ => True

/-! ## Tool by tool -/

theorem kept_of_changes {a : AccessContext} (ha : s.access = some a) {target : Target B}
    {r r' : Reading} (h : Changes host s call target r r') (hnot : ∀ args, call ≠ .append args) :
    Kept a.user (r.positions.getD []) (r'.positions.getD []) := by
  cases call with
  | write args => exact h.elim
  | merge args => exact h.elim
  | append args => exact absurd rfl (hnot args)
  | patch args =>
      obtain ⟨body, hupdates, _⟩ := h
      exact hupdates.foreign a ha
  | assert args =>
      obtain ⟨principal, hprincipal, _, hkept, _⟩ := h
      rw [hprincipal a ha]
      exact hkept
  | setTier args tier =>
      rw [h.1]
      exact Kept.refl _ _
  | promote args =>
      rw [show r' = r from h]
      exact Kept.refl _ _
  | setConfidence args confidence =>
      rw [show r' = r from h]
      exact Kept.refl _ _
  | consolidate args =>
      rw [show r' = r from h]
      exact Kept.refl _ _
  | «deprecate» args =>
      rw [show r' = { r with supersededBy := args.supersededBy } from h]
      exact Kept.refl _ _
  | supersede args =>
      rw [show r' = { r with supersededBy := some args.newPath } from h]
      exact Kept.refl _ _
  | unsupersede args =>
      rw [show r' = { r with supersededBy := none } from h]
      exact Kept.refl _ _

theorem Rewrite.inviolable_iff {rawPath : String} {base : Target B → Option String}
    {target : Target B} {text : B} {r r' : Reading}
    (h : Rewrite host files rawPath base plan target text r r') :
    Inviolable host user files (writeAll files plan.writes)
      ↔ Kept user (r.positions.getD []) (r'.positions.getD []) := by
  rw [h.writes, inviolable_write, heldAt_of_lookup h.loaded.file, held_of_read h.before,
    held_of_read h.after]

/-- **An append keeps foreign positions if the hooks do.** -/
theorem append_inviolable_iff {args : AppendArgs}
    (h : attempt host s (.append args) files docs = .ok (.write plan)) :
    Inviolable host user files (writeAll files plan.writes)
      ↔ RespectsForeign host s user (.append args) files := by
  obtain ⟨target, text, r, r', hrw, _, _, hpositions⟩ := attempt_changes rfl h
  have hloaded : Loaded host files args.path target := hrw.loaded
  have hheld : heldBy host files args.path = r.positions.getD [] := by
    rw [heldBy_of_resolve hloaded.resolve, heldAt_of_lookup hloaded.file, held_of_read hrw.before]
  rw [hrw.inviolable_iff, hpositions]
  unfold RespectsForeign
  dsimp only
  rw [recordAt_of_loaded hloaded, hheld, hloaded.frontmatter]
  constructor
  · intro hkept raw hraw hgiven
    obtain rfl := Option.some.inj hraw
    rwa [hgiven, if_neg Bool.false_ne_true] at hkept
  · intro hrespects
    split
    · exact Kept.refl _ _
    · rename_i hgiven
      exact hrespects _ rfl (Bool.eq_false_iff.mpr hgiven)

/-- **A merge keeps foreign positions if path_a's record and the overrides do.** -/
theorem merge_inviolable_iff {args : MergeArgs}
    (h : attempt host s (.merge args) files docs = .ok (.write plan)) :
    Inviolable host user files (writeAll files plan.writes)
      ↔ RespectsForeign host s user (.merge args) files := by
  obtain ⟨a, targetRel, text, r', sources, hm⟩ := vaultMerge_merges h
  rw [inviolable_writeAll hm.nodup, hm.writes, List.forall_mem_cons]
  -- the sources keep everything but their successor
  have hsources : ∀ w ∈ sources.map (fun e => (e.1.relPath, e.2)),
      Kept user (heldAt host files w.1) (held host w.2) := by
    intro w hw
    obtain ⟨e, he, rfl⟩ := List.mem_map.mp hw
    obtain ⟨hfile, r, hbefore, hafter⟩ := hm.source e he
    rw [heldAt_of_lookup hfile, held_of_read hbefore, held_of_read hafter]
    exact Kept.refl _ _
  have hrespects : RespectsForeign host s user (.merge args) files
      ↔ Kept user (heldAt host files targetRel) (held host text) := by
    unfold RespectsForeign
    dsimp only
    rw [recordAt_of_loaded hm.loadedA, heldBy_of_resolve hm.resolve,
      held_of_read hm.after, hm.positions]
    constructor
    · intro hkept
      exact hkept _ rfl
    · intro hkept raw hraw
      obtain rfl := Option.some.inj hraw
      exact hkept
  rw [hrespects]
  constructor
  · intro hboth
    exact hboth.1
  · intro htarget
    exact ⟨htarget, hsources⟩

theorem write_inviolable {a : AccessContext} (ha : s.access = some a) {args : WriteArgs}
    (h : attempt host s (.write args) files docs = .ok (.write plan)) :
    Inviolable host a.user files (writeAll files plan.writes) := by
  obtain ⟨relPath, text, _, hwrites, hupdates⟩ := vaultWrite_updates h
  rw [hwrites, inviolable_write]
  cases hold : files.lookup relPath with
  | none =>
      unfold heldAt
      rw [hold]
      exact Kept.nil _ _
  | some old =>
      obtain ⟨r, r', hr, hr', hup⟩ := hupdates old hold
      rw [heldAt_of_lookup hold, held_of_read hr, held_of_read hr']
      exact hup.foreign a ha

/-! ## Every tool -/

/-- **A LANDED CALL KEEPS THE FOREIGN POSITIONS IF AND ONLY IF IT RESPECTS THEM**:
    the overrides and path_a of a merge carry the target's, the hooks of an
    append carry the document's, and nothing is asked of the other ten tools. -/
theorem keeps_foreign_iff {a : AccessContext} (ha : s.access = some a)
    (h : landed host s call files = some files') :
    Inviolable host a.user files files' ↔ RespectsForeign host s a.user call files := by
  obtain ⟨plan, hplan, rfl⟩ := landed_eq_some host s h
  have hsingle : call.single = true → (∀ args, call ≠ .append args) →
      Inviolable host a.user files (writeAll files plan.writes) := by
    intro hsingle hnot
    obtain ⟨target, text, r, r', hrw, hchanges⟩ := attempt_changes hsingle hplan
    exact hrw.inviolable_iff.mpr (kept_of_changes ha hchanges hnot)
  cases call with
  | append args => exact append_inviolable_iff hplan
  | merge args => exact merge_inviolable_iff hplan
  | write args => exact iff_of_true (write_inviolable ha hplan) trivial
  | _ => exact iff_of_true (hsingle rfl nofun) trivial

end Tools

/-! ## A merge over another principal's position -/

def bobsPosition : Position where
  id := "pos-001"
  principal := "bob"
  stance := .dispute
  statement := some "Not yet."
  confidence := .high
  provenance := .direct
  validFrom := none
  supersededBy := none
  created := "2026-01-02"
  sources := []

def contestedVault : Files PlainFile :=
  [("target.md", plainNote [("positions", .arr [bobsPosition.toValue])] "Old."),
    ("a.md", plainNote [] "One."), ("b.md", plainNote [] "Two.")]

def mergeOverTarget : Call := .merge
  { pathA := "a.md", pathB := "b.md", targetPath := "target.md", agent := "human:alice"
    body := "Both.".toList, frontmatter := [], nodup := List.nodup_nil, boundary := none
    runId := none }

def assertOnTarget : Call := .assert
  { path := "target.md", agent := "human:alice", stance := .assert, confidence := .high
    provenance := .direct, statement := none, validFrom := none, sources := []
    principal := none, runId := none }

def alice : Setting := memberSetting (editor "alice") "2026-02-01"

/-- **AN ASSERT ON THE TARGET KEEPS BOB'S POSITION**: the condition asks nothing. -/
theorem assert_keeps_foreign :
    ∃ files', landed (plainHost plainConfig) alice assertOnTarget contestedVault
        = some files'
      ∧ Inviolable (plainHost plainConfig) "alice" contestedVault files' := by
  have hlands : (landed (plainHost plainConfig) alice assertOnTarget
      contestedVault).isSome = true := by
    decide +kernel
  obtain ⟨files', hlanded⟩ := Option.isSome_iff_exists.mp hlands
  exact ⟨files', hlanded, (keeps_foreign_iff (a := editor "alice") rfl hlanded).mpr trivial⟩

/-- **A MERGE OVER THE TARGET ERASES BOB'S POSITION**: neither path_a nor the overrides carry it. -/
theorem merge_erases_foreign :
    ∃ files', landed (plainHost plainConfig) alice mergeOverTarget contestedVault
        = some files'
      ∧ ¬ Inviolable (plainHost plainConfig) "alice" contestedVault files' := by
  have herased : (landed (plainHost plainConfig) alice mergeOverTarget
      contestedVault).any (fun files' =>
        decide (heldAt (plainHost plainConfig) files' "target.md" = [])) = true := by
    decide +kernel
  have hheld : heldAt (plainHost plainConfig) contestedVault "target.md"
      = [bobsPosition] := by
    decide +kernel
  obtain ⟨files', hlanded, hnone⟩ := (Option.any_eq_true _ _).mp herased
  refine ⟨files', hlanded, ?_⟩
  intro hkept
  have htarget := hkept "target.md"
  rw [hheld, of_decide_eq_true hnone] at htarget
  rcases htarget bobsPosition List.mem_cons_self (by decide) with h | ⟨_, q, hq, _⟩
  · cases h
  · cases hq

end Write
