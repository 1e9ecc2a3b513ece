import Daftari.Tools.GrantsProofs
import Daftari.Tools.LostUpdateProofs

/-! # The vault after a run — whose bytes a file has, and what no tool for it changes

    Any interleaving of write tools, with stale reads, retries and declared base versions.

    * `last_landing_wins`: **a file has the bytes of the last landing whose call names it**;
    * `parts_kept`: **tools that keep the books change no body, and any other part of a document
      only where a call for that part landed.** -/

namespace Write

open Frontmatter

section Tools

variable {B : Type} {host : Host B} {admits : Call → Bool} {vault : Files B} {sys : System B}
  {path : String}

/-! ## The last landing -/

/-- What a landing wrote under a path. -/
def Landing.wrote (host : Host B) (l : Landing B) (path : String) : Option B :=
  (planOf (attempt host l.setting l.call l.files l.docs)).bind fun plan => plan.writes.lookup path

/-- A file has the bytes of the last landing that wrote it, or those of the start, and a landing
    wrote the paths that its call names. -/
structure Replayed (host : Host B) (vault : Files B) (path : String) (sys : System B) : Prop where
  bytes : sys.vault.lookup path =
    (sys.landings.reverse.findSome? fun l => l.wrote host path).or (vault.lookup path)
  names : ∀ l ∈ sys.landings, (l.wrote host path).isSome = true ↔
    ∃ name ∈ l.call.names, host.resolve name = .ok path

theorem lookup_writeAll {writes : List (String × B)} (hnd : (writes.map Prod.fst).Nodup)
    (files : Files B) :
    (writeAll files writes).lookup path = (writes.lookup path).or (files.lookup path) := by
  by_cases hmem : path ∈ writes.map Prod.fst
  · obtain ⟨w, hw, rfl⟩ := List.mem_map.mp hmem
    rw [lookup_writeAll_of_mem hnd hw, Assoc.lookup_of_mem hnd hw]
    rfl
  · rw [lookup_writeAll_of_not_mem hmem, Assoc.lookup_of_not_mem hmem]
    rfl

theorem wrote_of_attempt (path : String) {s : Setting} {call : Call} {files docs : Files B}
    {plan : Plan B} (h : attempt host s call files docs = .ok (.write plan)) :
    (plan.writes.map Prod.fst).Nodup ∧ ((plan.writes.lookup path).isSome = true ↔
      ∃ name ∈ call.names, host.resolve name = .ok path) := by
  obtain ⟨changes, hchanges, hwrites⟩ := attempt_changesOf h
  have hwrote := wrote_of_changesOf hchanges
  have hpaths : plan.writes.map Prod.fst = changes.map Change.relPath := by
    rw [hwrites, writesOf, List.map_map]
    rfl
  have hnd : (plan.writes.map Prod.fst).Nodup := by
    rw [hpaths]
    exact hwrote.nodup
  rw [← hwrote.names, ← hpaths]
  refine ⟨hnd, fun h => ?_, fun hmem => ?_⟩
  · obtain ⟨text, htext⟩ := Option.isSome_iff_exists.mp h
    exact List.mem_map_of_mem (f := Prod.fst) (Assoc.mem_of_lookup htext)
  · obtain ⟨w, hw, rfl⟩ := List.mem_map.mp hmem
    rw [Assoc.lookup_of_mem hnd hw]
    rfl

theorem admitted_quiet : Admitted admits (.quiet vault) :=
  fun _ _ h => absurd h.symm (Option.some_ne_none _)

/-- **THE LAST LANDING WINS**, after any interleaving of calls, and nothing is removed. -/
theorem last_landing_wins (hrun : (vaultSystem host admits).Reach (.quiet vault) sys)
    (path : String) : Replayed host vault path sys := by
  refine (Machine.reach_invariant (I := fun sys => Admitted admits sys ∧
    Replayed host vault path sys) ?_
    ⟨admitted_quiet, rfl, fun _ h => absurd h List.not_mem_nil⟩ hrun).2
  rintro sys a ⟨hadmitted, hfile⟩ ha
  obtain ⟨hnext', ⟨pending, hnext⟩ | ⟨id, s, p, plan, left, -, -, hattempt, hland, -, hnext⟩⟩ :=
    step_cases hadmitted ha
  · rw [hnext] at hnext' ⊢
    exact ⟨hnext', hfile.bytes, hfile.names⟩
  · rw [hnext] at hnext' ⊢
    obtain ⟨hnd, hwrites⟩ := wrote_of_attempt path hattempt
    have hwrote : (⟨s, p.call, p.files, p.docs, sys.vault⟩ : Landing B).wrote host path
        = plan.writes.lookup path := by
      rw [Landing.wrote, hattempt]
      rfl
    refine ⟨hnext', ?_, fun l hl => ?_⟩
    · show left.lookup path = ((sys.landings ++ [_]).reverse.findSome? _).or _
      rw [(land_eq_ok host hland).2, lookup_writeAll hnd, hfile.bytes, List.reverse_append]
      show _ = (List.findSome? _ (_ :: _)).or _
      rw [List.findSome?_cons, hwrote]
      cases plan.writes.lookup path <;> rfl
    · rcases List.mem_append.mp hl with hl | hl
      · exact hfile.names l hl
      · rw [List.mem_singleton.mp hl, hwrote]
        exact hwrites

/-! ## Views -/

variable {P : List (Landing B) → Option B → Prop}

/-- What holds of a file in the vault and as every call in flight has read it. -/
structure Seen (P : List (Landing B) → Option B → Prop) (path : String) (sys : System B) :
    Prop where
  vault : P sys.landings (sys.vault.lookup path)
  pending : ∀ id p, sys.pending id = some p → P sys.landings (p.files.lookup path)

theorem Seen.put (h : Seen P path sys) {id : Nat} {q : Option (Pending B)}
    (hq : ∀ p ∈ q, P sys.landings (p.files.lookup path)) : Seen P path (sys.put id q) where
  vault := h.vault
  pending := by
    intro j p hp
    change Function.update sys.pending id q j = some p at hp
    by_cases hj : j = id
    · rw [hj, Function.update_self] at hp
      exact hq p hp
    · rw [Function.update_of_ne hj] at hp
      exact h.pending j p hp

theorem lookup_look (files view : Files B) (path p : String) :
    (look files view p).lookup path = if path = p then files.lookup path else view.lookup path := by
  unfold look
  by_cases heq : path = p
  · rw [if_pos heq, heq]
    cases files.lookup p with
    | some file => exact Assoc.lookup_set_self _ _ _
    | none => exact Assoc.lookup_of_not_mem (by simp [Assoc.remove, Assoc.keys])
  · rw [if_neg heq]
    cases files.lookup p with
    | some file => exact Assoc.lookup_set_of_ne _ _ heq
    | none => exact Assoc.lookup_remove_of_not_mem _ (by simpa using heq)

/-- **The rule for one file.**  What holds of it at the start, keeps holding as landings come, and
    is passed on by the plan of an admitted call from what the call read to what it writes, holds
    in every view of every run. -/
theorem seen_of_reach (hstart : P [] (vault.lookup path))
    (hmore : ∀ ls l file, P ls file → P (ls ++ [l]) file)
    (hland : ∀ ls l plan text, admits l.call = true →
      attempt host l.setting l.call l.files l.docs = .ok (.write plan) →
      P ls (l.files.lookup path) → plan.writes.lookup path = some text → P (ls ++ [l]) (some text))
    (hrun : (vaultSystem host admits).Reach (.quiet vault) sys) : Seen P path sys := by
  refine (Machine.reach_invariant (I := fun sys => Admitted admits sys ∧ Seen P path sys)
    ?_ ⟨admitted_quiet, hstart, fun _ _ h => absurd h.symm (Option.some_ne_none _)⟩ hrun).2
  rintro sys a ⟨hadmitted, hseen⟩ ha
  refine ⟨(step_cases hadmitted ha).1, ?_⟩
  have hgone : ∀ id, Seen P path (sys.put id none) := fun id => hseen.put fun p hp => (nomatch hp)
  have hloaded : ∀ id access call n,
      Seen P path (sys.put id (some (load sys.vault access call n))) :=
    fun id access call n => hseen.put fun p hp => Option.some.inj hp ▸ hseen.vault
  cases a with
  | issue id access call => exact hloaded id access call _
  | giveUp id => exact hgone id
  | rescan id p =>
      refine hseen.put fun q hq => ?_
      obtain ⟨r, hr, rfl⟩ := Option.map_eq_some_iff.mp hq
      exact hseen.pending id r hr
  | reread id p =>
      refine hseen.put fun q hq => ?_
      obtain ⟨r, hr, rfl⟩ := Option.map_eq_some_iff.mp hq
      show P _ ((look sys.vault r.files p).lookup path)
      rw [lookup_look]
      split
      · exact hseen.vault
      · exact hseen.pending id r hr
  | land id s =>
      obtain ⟨p, hp, -⟩ := ha
      have hp : sys.pending id = some p := hp
      show Seen P path (((sys.pending id).map (sys.land host id s)).getD sys)
      rw [hp]
      show Seen P path (sys.land host id s p)
      unfold System.land
      split
      · rename_i plan hattempt
        split
        · rename_i left hl
          have hnd := (wrote_of_attempt path hattempt).1
          refine ⟨?_, fun j q hq => hmore _ _ _ ((hgone id).pending j q hq)⟩
          show P _ (left.lookup path)
          rw [(land_eq_ok host hl).2, lookup_writeAll hnd]
          cases htext : plan.writes.lookup path with
          | none => exact hmore _ _ _ hseen.vault
          | some text =>
              exact hland _ ⟨s, p.call, p.files, p.docs, sys.vault⟩ plan text (hadmitted id p hp)
                hattempt (hseen.pending id p hp) htext
        · split
          · exact hloaded ..
          · exact hgone id
      · exact hgone id

/-! ## Parts of a document -/

inductive Part where
  | positions
  | tier
  | successor
deriving DecidableEq

/-- The part that a call is made to change; none changes another, or the body. -/
def Call.part : Call → Option Part
  | .assert _ => some .positions
  | .setTier _ _ => some .tier
  | .deprecate _ | .supersede _ | .unsupersede _ => some .successor
  | _ => none

/-- The tools that write frontmatter only, and of it one part at most. -/
def Call.bookkeeping : Call → Bool
  | .write _ | .patch _ | .append _ | .merge _ => false
  | _ => true

/-- A call for the part landed on the document. -/
def LandedOn (host : Host B) (path : String) (landings : List (Landing B)) (part : Part) : Prop :=
  ∃ l ∈ landings, l.call.part = some part ∧ host.resolve l.call.path = .ok path

/-- A reading that differs from another only where calls landed for the difference. -/
structure Descends (landed : Part → Prop) (r₀ r : Reading) : Prop where
  body : r.body = r₀.body
  positions : r.positions = r₀.positions ∨ landed .positions
  tier : r.tier = r₀.tier ∨ landed .tier
  supersededBy : r.supersededBy = r₀.supersededBy ∨ landed .successor

/-- The file is the one of the start, or the document in it descends from the one there. -/
def PartsKept (host : Host B) (vault : Files B) (path : String) (landings : List (Landing B))
    (file : Option B) : Prop :=
  file = vault.lookup path ∨ ∃ r₀ r, readAt host vault path = some r₀ ∧
    file.bind (read host.codec) = some r ∧ Descends (LandedOn host path landings) r₀ r

theorem Descends.append {landings : List (Landing B)} {r₀ r : Reading}
    (h : Descends (LandedOn host path landings) r₀ r) (l : Landing B) :
    Descends (LandedOn host path (landings ++ [l])) r₀ r := by
  have himp : ∀ part, LandedOn host path landings part →
      LandedOn host path (landings ++ [l]) part := fun _ ⟨l', hl', hpart⟩ =>
    ⟨l', List.mem_append_left _ hl', hpart⟩
  exact ⟨h.body, h.positions.imp_right (himp _), h.tier.imp_right (himp _),
    h.supersededBy.imp_right (himp _)⟩

theorem Descends.change {landed : Part → Prop} {call : Call} {s : Setting} {target : Target B}
    {r₀ r r' : Reading} (h : Descends landed r₀ r) (hbook : call.bookkeeping = true)
    (hchange : Changes host s call target r r') (hlanded : ∀ part ∈ call.part, landed part) :
    Descends landed r₀ r' := by
  cases call with
  | write args => cases hbook
  | patch args => cases hbook
  | append args => cases hbook
  | merge args => cases hbook
  | promote args => exact (show r' = r from hchange) ▸ h
  | setConfidence args confidence => exact (show r' = r from hchange) ▸ h
  | consolidate args => exact (show r' = r from hchange) ▸ h
  | «deprecate» args =>
      obtain rfl : r' = _ := hchange
      exact ⟨h.body, h.positions, h.tier, Or.inr (hlanded _ rfl)⟩
  | supersede args =>
      obtain rfl : r' = _ := hchange
      exact ⟨h.body, h.positions, h.tier, Or.inr (hlanded _ rfl)⟩
  | unsupersede args =>
      obtain rfl : r' = _ := hchange
      exact ⟨h.body, h.positions, h.tier, Or.inr (hlanded _ rfl)⟩
  | setTier args tier =>
      obtain rfl : r' = _ := hchange.1
      exact ⟨h.body, h.positions, Or.inr (hlanded _ rfl), h.supersededBy⟩
  | assert args =>
      obtain ⟨principal, -, hr', -⟩ := hchange
      rw [hr']
      exact ⟨h.body, Or.inr (hlanded _ rfl), h.tier, h.supersededBy⟩

/-- **EACH PART HAS ITS TOOLS.**  After any interleaving of tools that keep the books, a document
    has the body it had at the start, its positions unless an assert landed on it, its tier unless
    a set-tier did, and its successor unless a deprecation, a supersede or an unsupersede did; and
    no file comes or goes. -/
theorem parts_kept (hrun : (vaultSystem host Call.bookkeeping).Reach (.quiet vault) sys)
    (path : String) : PartsKept host vault path sys.landings (sys.vault.lookup path) := by
  refine (seen_of_reach (P := PartsKept host vault path) (Or.inl rfl) ?_ ?_ hrun).vault
  · exact fun ls l file hfile => hfile.imp_right fun ⟨r₀, r, h₀, hr, hd⟩ =>
      ⟨r₀, r, h₀, hr, hd.append l⟩
  · intro ls l plan text hbook hattempt hseen htext
    have hsingle : l.call.single = true := by
      cases hcall : l.call <;> first | rfl | (rw [hcall] at hbook; cases hbook)
    obtain ⟨target, text', r, r', hrw, hchange⟩ := attempt_changes hsingle hattempt
    rw [hrw.writes] at htext
    cases List.mem_singleton.mp (Assoc.mem_of_lookup htext)
    have hview : (l.files.lookup target.relPath).bind (read host.codec) = some r := by
      rw [hrw.loaded.file]
      exact hrw.before
    have hlanded : ∀ part ∈ l.call.part, LandedOn host target.relPath (ls ++ [l]) part :=
      fun part hpart => ⟨l, List.mem_append_right _ List.mem_cons_self, hpart, hrw.loaded.resolve⟩
    rcases hseen with hsame | ⟨r₀, r₁, h₀, hr₁, hd⟩
    · refine Or.inr ⟨r, r', ?_, hrw.after, ?_⟩
      · rw [readAt, ← hsame, hview]
      · exact Descends.change ⟨rfl, Or.inl rfl, Or.inl rfl, Or.inl rfl⟩ hbook hchange hlanded
    · obtain rfl := Option.some.inj (hview.symm.trans hr₁)
      exact Or.inr ⟨r₀, r', h₀, hrw.after, (hd.append l).change hbook hchange hlanded⟩

end Tools

/-! ## A run -/

theorem note_run : ∃ sys, (vaultSystem (plainHost plainConfig) Call.bookkeeping).Reach
    (.quiet noteVault) sys ∧ sys.landings.length = 2 := by
  obtain ⟨sys, hrun, hlength⟩ := Machine.reach_of_runs_any
    (M := vaultSystem (plainHost plainConfig) Call.bookkeeping) (s := .quiet noteVault)
    (l := [.issue 1 none supersedeNote, .issue 2 none setNoteConfidence,
      .land 2 (operatorSetting "2026-02-01"), .land 1 (operatorSetting "2026-02-01")])
    (Q := fun sys => decide (sys.landings.length = 2)) (by decide +kernel)
  exact ⟨sys, hrun, of_decide_eq_true hlength⟩

theorem last_landing_wins_note : ∃ sys : System PlainFile, sys.landings.length = 2 ∧
    Replayed (plainHost plainConfig) noteVault "note.md" sys := by
  obtain ⟨sys, hrun, hlength⟩ := note_run
  exact ⟨sys, hlength, last_landing_wins hrun "note.md"⟩

theorem parts_kept_note : ∃ sys : System PlainFile, sys.landings.length = 2 ∧
    PartsKept (plainHost plainConfig) noteVault "note.md" sys.landings
      (sys.vault.lookup "note.md") := by
  obtain ⟨sys, hrun, hlength⟩ := note_run
  exact ⟨sys, hlength, parts_kept hrun "note.md"⟩

end Write
