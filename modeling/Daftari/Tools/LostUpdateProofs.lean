import Daftari.Tools.WriteRunsProofs

/-! # Lost updates — calls on one document, interleaved

    Ten tools load a document, compute its new text and write it back.  Nine declare the version
    they loaded, so the critical section finds the bytes the new text was computed from, or rejects;
    `vault_supersede` declares none unless its caller does, and writes over whatever is there.

    * `no_lost_update`: **in every run whose critical sections are undisturbed, each landing
      replaced exactly the bytes it was computed from, so that the document is what the landed calls
      make of it one after another, and no appended section and no position is lost.** -/

namespace Write

open Frontmatter Positions Rbac

section Tools

variable {B : Type} {host : Host B} {s : Setting} {files files' docs : Files B}
  {call : Call} {plan : Plan B} {sys : System B} {doc : String}

/-! ## The calls -/

/-- The base version a caller gave. -/
def Call.baseVersion : Call → Option String
  | .write args => args.baseVersion
  | .patch args => args.baseVersion
  | .append args => args.baseVersion
  | .promote args | .setConfidence args _ | .setTier args _ | .unsupersede args =>
      args.baseVersion
  | .deprecate args => args.baseVersion
  | .supersede args => args.baseVersion
  | .merge _ | .assert _ | .consolidate _ => none

def onDocument (host : Host B) (doc : String) (call : Call) : Bool :=
  call.single && call.baseVersion.isNone && (host.resolve call.path).toOption = some doc

/-- `vault_supersede` is the tool that does not declare what it loaded. -/
def declaresNone : Call → Bool
  | .supersede _ => true
  | _ => false

theorem resolve_of_onDocument (h : onDocument host doc call = true) :
    host.resolve call.path = .ok doc := by
  unfold onDocument at h
  rw [Bool.and_eq_true] at h
  have hdoc := of_decide_eq_true h.2
  cases hr : host.resolve call.path with
  | error e =>
      rw [hr] at hdoc
      cases hdoc
  | ok path =>
      rw [hr] at hdoc
      rw [Option.some.inj hdoc]

theorem single_of_onDocument (h : onDocument host doc call = true) : call.single = true := by
  unfold onDocument at h
  rw [Bool.and_eq_true, Bool.and_eq_true] at h
  exact h.1.1

theorem base_of_onDocument (h : onDocument host doc call = true)
    (hdeclares : declaresNone call = false) (target : Target B) :
    call.base host target = some (host.sha256Hex target.text) := by
  unfold onDocument at h
  rw [Bool.and_eq_true, Bool.and_eq_true] at h
  have homitted := Option.isNone_iff_eq_none.mp h.1.2
  have hbase : ∀ baseVersion : Option String, baseVersion = none →
      baseOf host baseVersion target = some (host.sha256Hex target.text) := by
    rintro _ rfl
    rfl
  cases call with
  | write args => exact absurd h.1.1 nofun
  | merge args => exact absurd h.1.1 nofun
  | supersede args => cases hdeclares
  | assert args => rfl
  | consolidate args => rfl
  | _ => exact hbase _ homitted

/-! ## One landing -/

theorem attempt_onDocument (hcall : onDocument host doc call = true)
    (h : attempt host s call files docs = .ok (.write plan)) :
    ∃ target text r r', Rewrite host files call.path (call.base host) plan target text r r'
      ∧ Changes host s call target r r' ∧ target.relPath = doc := by
  obtain ⟨target, text, r, r', hrw, hchanges⟩ :=
    attempt_changes (single_of_onDocument hcall) h
  refine ⟨target, text, r, r', hrw, hchanges, ?_⟩
  have hresolve := hrw.loaded.resolve
  rw [resolve_of_onDocument hcall] at hresolve
  exact (Except.ok.inj hresolve).symm

/-- What it takes of a critical section: no two versions of the document that meet
    there have one hash, and a supersede finds the version it loaded. -/
def Undisturbed (host : Host B) (doc : String) (sys : System B) (a : Action) : Prop :=
  match a with
  | .land id _ => ∀ p ∈ sys.pending id,
      (∀ loaded ∈ p.files.lookup doc, ∀ found ∈ sys.vault.lookup doc,
        host.sha256Hex loaded = host.sha256Hex found → loaded = found)
      ∧ (declaresNone p.call = true → p.files.lookup doc = sys.vault.lookup doc)
  | _ => True

instance [DecidableEq B] (host : Host B) (doc : String) (sys : System B) (a : Action) :
    Decidable (Undisturbed host doc sys a) :=
  match a with
  | .land id _ => inferInstanceAs (Decidable (∀ p ∈ sys.pending id,
      (∀ loaded ∈ p.files.lookup doc, ∀ found ∈ sys.vault.lookup doc,
        host.sha256Hex loaded = host.sha256Hex found → loaded = found)
      ∧ (declaresNone p.call = true → p.files.lookup doc = sys.vault.lookup doc)))
  | .issue .. | .reread .. | .rescan .. | .giveUp .. => isTrue trivial

/-- **A landing replaces what it was computed from.** -/
theorem loaded_eq_found (hcall : onDocument host doc call = true)
    (hattempt : attempt host s call files docs = .ok (.write plan))
    (hland : land host plan sys.vault = .ok files')
    (hcollision : ∀ loaded ∈ files.lookup doc, ∀ found ∈ sys.vault.lookup doc,
      host.sha256Hex loaded = host.sha256Hex found → loaded = found)
    (hsupersede : declaresNone call = true → files.lookup doc = sys.vault.lookup doc) :
    files.lookup doc = sys.vault.lookup doc := by
  by_cases hdeclares : declaresNone call = true
  · exact hsupersede hdeclares
  · obtain ⟨target, text, r, r', hrw, _, rfl⟩ := attempt_onDocument hcall hattempt
    have hsnapshots := hrw.snapshots
    rw [base_of_onDocument hcall (Bool.eq_false_iff.mpr hdeclares)] at hsnapshots
    have hmem : (target.relPath, some (host.sha256Hex target.text)) ∈ plan.snapshots := by
      rw [hsnapshots]
      unfold declared
      rw [Option.filter_some_pos (by simpa using host.sha256Hex_ne_empty target.text)]
      exact List.mem_cons_self
    have hhash := (land_eq_ok host hland).1 _ hmem
    obtain ⟨found, hfound, hsame⟩ := Option.map_eq_some_iff.mp hhash
    have hloaded := hrw.loaded.file
    rw [hloaded, hfound, hcollision _ hloaded _ hfound hsame.symm]

/-- The text a landing's call makes of the document when it is run on it alone. -/
def rerun (host : Host B) (doc : String) (file : Option B) (ℓ : Landing B) : Option B :=
  file.bind fun file =>
    (planOf (attempt host ℓ.setting ℓ.call (Assoc.set ℓ.files doc file) ℓ.docs)).bind
      fun plan => plan.writes.lookup doc

/-- The landed calls, one after another. -/
def serially (host : Host B) (doc : String) (start : Option B) (landings : List (Landing B)) :
    Option B :=
  landings.foldl (rerun host doc) start

/-- **A landing that replaced what it loaded wrote what its call makes of it.** -/
theorem rerun_of_landed (hcall : onDocument host doc call = true)
    (hattempt : attempt host s call files docs = .ok (.write plan))
    (hsame : files.lookup doc = sys.vault.lookup doc) : (writeAll sys.vault plan.writes).lookup doc
      = rerun host doc (sys.vault.lookup doc) ⟨s, call, files, docs, sys.vault⟩ := by
  obtain ⟨target, text, r, r', hrw, _, rfl⟩ := attempt_onDocument hcall hattempt
  have hloaded := hrw.loaded.file
  rw [← hsame, hloaded]
  unfold rerun
  rw [Option.bind_some]
  rw [Assoc.set_of_lookup hloaded, hattempt]
  show _ = plan.writes.lookup target.relPath
  rw [hrw.writes, List.lookup_cons_self]
  exact lookup_writeAll_of_mem (by simp) List.mem_cons_self

/-! ## What a serial run keeps -/

theorem changes_of_rerun {ℓ : Landing B} (hcall : onDocument host doc ℓ.call = true)
    {file : Option B} {text : B} (h : rerun host doc file ℓ = some text) :
    ∃ files target r r', Loaded host files ℓ.call.path target
      ∧ r = readingOf target.parsed.raw target.parsed.content
      ∧ file.bind (read host.codec) = some r ∧ read host.codec text = some r'
      ∧ Changes host ℓ.setting ℓ.call target r r' := by
  obtain ⟨old, hfile, hran⟩ := Option.bind_eq_some_iff.mp h
  obtain ⟨plan, hplan, htext⟩ := Option.bind_eq_some_iff.mp hran
  obtain ⟨target, text', r, r', hrw, hchanges, rfl⟩ :=
    attempt_onDocument hcall (planOf_eq_some hplan)
  rw [hrw.writes, List.lookup_cons_self] at htext
  obtain rfl := Option.some.inj htext
  have hold := hrw.loaded.file
  rw [Assoc.lookup_set_self] at hold
  obtain rfl := Option.some.inj hold
  refine ⟨_, target, r, r', hrw.loaded, ?_, ?_, hrw.after, hchanges⟩
  · exact Option.some.inj (hrw.before.symm.trans hrw.loaded.read)
  · rw [hfile]
    exact hrw.before

/-- A call that may take text out of the body. -/
def editsBody : Call → Bool
  | .patch args => args.edits.length ≠ 0
  | _ => false

variable {target : Target B}

theorem section_of_changes {r r' : Reading} {sectionText : List Char}
    (h : Changes host s call target r r') (hedits : editsBody call = false)
    (hsection : sectionText <:+: r.body) : sectionText <:+: r'.body := by
  cases call with
  | write args => exact h.elim
  | merge args => exact h.elim
  | append args =>
      rw [h.1]
      unfold grown
      split
      · rename_i hnil
        rw [hnil] at hsection
        rw [List.eq_nil_of_infix_nil hsection]
        exact List.nil_infix
      · rw [List.append_assoc]
        exact hsection.trans (List.prefix_append _ _).isInfix
  | patch args =>
      obtain ⟨body, _, hbody, _⟩ := h
      have hnone : args.edits = [] := by
        have hlength : decide (args.edits.length ≠ 0) = false := hedits
        simpa using hlength
      rw [hbody hnone]
      exact hsection
  | assert args =>
      obtain ⟨principal, _, hpositions, _⟩ := h
      rw [hpositions]
      exact hsection
  | setTier args tier =>
      rw [h.1]
      exact hsection
  | promote args =>
      rw [show r' = r from h]
      exact hsection
  | setConfidence args confidence =>
      rw [show r' = r from h]
      exact hsection
  | consolidate args =>
      rw [show r' = r from h]
      exact hsection
  | «deprecate» args =>
      rw [show r' = { r with supersededBy := args.supersededBy } from h]
      exact hsection
  | supersede args =>
      rw [show r' = { r with supersededBy := some args.newPath } from h]
      exact hsection
  | unsupersede args =>
      rw [show r' = { r with supersededBy := none } from h]
      exact hsection

theorem positions_of_append (hleaves : LeavesPositions host.config) {args : AppendArgs}
    {rawPath : String} (hloaded : Loaded host files rawPath target) :
    (let v := (appendRecord host s args target.parsed.frontmatter).1.lookup "positions"
     if missing v then (readingOf target.parsed.raw target.parsed.content).positions
     else positionsIn v)
      = (readingOf target.parsed.raw target.parsed.content).positions := by
  have hrecord : (appendRecord host s args target.parsed.frontmatter).1.lookup "positions"
      = some (positionsValue target.parsed.frontmatter.positions) :=
    (hleaves _ _).trans (lookup_toRaw_positions _)
  rw [hrecord]
  cases hps : target.parsed.frontmatter.positions with
  | none => rfl
  | some ps =>
      rw [hloaded.positions] at hps
      have hwell := wellFormed_of_positionsIn (show positionsIn _ = some ps from hps)
      have hgiven : ¬ missing (some (positionsValue (some ps))) = true := Bool.false_ne_true
      rw [hps, if_neg hgiven]
      show positionsIn (some (.arr (ps.map Position.toValue))) = _
      rw [positionsIn_toValue, List.filter_eq_self.mpr hwell]

theorem carried_of_changes (hleaves : LeavesPositions host.config) {rawPath : String}
    (hloaded : Loaded host files rawPath target) {r r' : Reading}
    (hr : r = readingOf target.parsed.raw target.parsed.content)
    (h : Changes host s call target r r') :
    Carried (r.positions.getD []) (r'.positions.getD []) := by
  cases call with
  | write args => exact h.elim
  | merge args => exact h.elim
  | append args =>
      rw [h.2.2, hr, positions_of_append hleaves hloaded]
      exact Carried.refl _
  | patch args =>
      obtain ⟨body, _, _, hpositions⟩ := h
      rw [hpositions hleaves]
      exact Carried.refl _
  | assert args =>
      obtain ⟨principal, _, _, _, hcarried⟩ := h
      exact hcarried
  | setTier args tier =>
      rw [h.1]
      exact Carried.refl _
  | promote args =>
      rw [show r' = r from h]
      exact Carried.refl _
  | setConfidence args confidence =>
      rw [show r' = r from h]
      exact Carried.refl _
  | consolidate args =>
      rw [show r' = r from h]
      exact Carried.refl _
  | «deprecate» args =>
      rw [show r' = { r with supersededBy := args.supersededBy } from h]
      exact Carried.refl _
  | supersede args =>
      rw [show r' = { r with supersededBy := some args.newPath } from h]
      exact Carried.refl _
  | unsupersede args =>
      rw [show r' = { r with supersededBy := none } from h]
      exact Carried.refl _

/-! ## Serial runs -/

def heldIn (host : Host B) (file : Option B) : List Position :=
  (file.map (held host)).getD []

theorem serially_none (landings : List (Landing B)) : serially host doc none landings = none := by
  induction landings with
  | nil => rfl
  | cons ℓ landings ih => exact ih

theorem serially_append (start : Option B) (before after : List (Landing B)) :
    serially host doc start (before ++ after)
      = serially host doc (serially host doc start before) after :=
  List.foldl_append

/-- **What a serial run keeps of the readings**: a relation every step stays in. -/
theorem serially_rel {R : Reading → Reading → Prop} (hrefl : ∀ r, R r r)
    (htrans : ∀ a b c, R a b → R b c → R a c) {landings : List (Landing B)}
    (hcalls : ∀ ℓ ∈ landings, onDocument host doc ℓ.call = true)
    (hstep : ∀ ℓ ∈ landings, ∀ files target r r', Loaded (B := B) host files ℓ.call.path target →
      r = readingOf target.parsed.raw target.parsed.content →
      Changes host ℓ.setting ℓ.call target r r' → R r r')
    {start : B} {r : Reading} (hr : read host.codec start = some r) {file : B}
    (h : serially host doc (some start) landings = some file) :
    ∃ r', read host.codec file = some r' ∧ R r r' := by
  induction landings generalizing start r with
  | nil =>
      obtain rfl := Option.some.inj h
      exact ⟨r, hr, hrefl r⟩
  | cons ℓ landings ih =>
      have hnext : serially host doc (rerun host doc (some start) ℓ) landings = some file := h
      cases hrun : rerun host doc (some start) ℓ with
      | none =>
          rw [hrun, serially_none] at hnext
          cases hnext
      | some text =>
          rw [hrun] at hnext
          obtain ⟨files, target, r₀, r₁, hloaded, hr₀, hbefore, hafter, hchanges⟩ :=
            changes_of_rerun (hcalls ℓ List.mem_cons_self) hrun
          obtain rfl := Option.some.inj (hr.symm.trans hbefore)
          obtain ⟨r', hr', hrel⟩ := ih (fun ℓ' hℓ' => hcalls ℓ' (List.mem_cons_of_mem _ hℓ'))
            (fun ℓ' hℓ' => hstep ℓ' (List.mem_cons_of_mem _ hℓ')) hafter hnext
          exact ⟨r', hr', htrans _ _ _
            (hstep ℓ List.mem_cons_self files target _ _ hloaded hr₀ hchanges) hrel⟩

theorem section_of_grown (body sectionText : List Char) :
    sectionText <:+: grown body sectionText := by
  unfold grown
  split
  · exact List.infix_rfl
  · exact (List.suffix_append _ _).isInfix

/-! ## Runs -/

/-- **Nothing is lost**, in a state reached from `start`. -/
structure NoLostUpdate (host : Host B) (doc : String) (start : Files B) (sys : System B) :
    Prop where
  /-- Every landing replaced exactly the bytes it was computed from. -/
  replaced : ∀ ℓ ∈ sys.landings, ℓ.files.lookup doc = ℓ.found.lookup doc
  /-- The document is what the landed calls make of it, one after another. -/
  serial : sys.vault.lookup doc = serially host doc (start.lookup doc) sys.landings
  /-- A landed section stays in the body until a landed patch edits the body. -/
  sections : ∀ before ℓ after args, sys.landings = before ++ ℓ :: after →
    ℓ.call = .append args → (∀ m ∈ after, editsBody m.call = false) →
    ∃ r, readAt host sys.vault doc = some r ∧ Text.trim args.sectionText <:+: r.body
  /-- A position that was there after some landing still is. -/
  positions : LeavesPositions host.config → ∀ before after,
    sys.landings = before ++ after →
    Carried (heldIn host (serially host doc (start.lookup doc) before))
      (heldIn host (sys.vault.lookup doc))

/-- What a run of undisturbed critical sections keeps. -/
structure Faithful (host : Host B) (doc : String) (start : Files B) (sys : System B) :
    Prop where
  admitted : Admitted (onDocument host doc) sys
  calls : ∀ ℓ ∈ sys.landings, onDocument host doc ℓ.call = true
  replaced : ∀ ℓ ∈ sys.landings, ℓ.files.lookup doc = ℓ.found.lookup doc
  serial : sys.vault.lookup doc = serially host doc (start.lookup doc) sys.landings
  there : sys.landings = [] ∨ (sys.vault.lookup doc).isSome = true

/-- **The step lemma**: an undisturbed critical section keeps the run faithful. -/
theorem Faithful.step {start : Files B} (h : Faithful host doc start sys) {a : Action}
    (ha : (vaultSystem host (onDocument host doc)).enabled sys a)
    (hundisturbed : Undisturbed host doc sys a) :
    Faithful host doc start ((vaultSystem host (onDocument host doc)).next sys a) := by
  obtain ⟨hadmitted, ⟨pending, heq⟩ | ⟨id, s, p, plan, vault, rfl, hp, hattempt, hland,
    hcall, heq⟩⟩ := step_cases h.admitted ha
  · rw [heq] at hadmitted ⊢
    exact ⟨hadmitted, h.calls, h.replaced, h.serial, h.there⟩
  · obtain ⟨hcollision, hsupersede⟩ := hundisturbed p hp
    have hsame := loaded_eq_found hcall hattempt hland hcollision hsupersede
    obtain rfl := (land_eq_ok host hland).2
    have hwrote : (writeAll sys.vault plan.writes).lookup doc
        = rerun host doc (sys.vault.lookup doc) ⟨s, p.call, p.files, p.docs, sys.vault⟩ :=
      rerun_of_landed hcall hattempt hsame
    rw [heq] at hadmitted ⊢
    refine ⟨hadmitted, ?_, ?_, ?_, ?_⟩
    · intro ℓ hℓ
      rcases List.mem_append.mp hℓ with hℓ | hℓ
      · exact h.calls ℓ hℓ
      · rw [List.mem_singleton.mp hℓ]
        exact hcall
    · intro ℓ hℓ
      rcases List.mem_append.mp hℓ with hℓ | hℓ
      · exact h.replaced ℓ hℓ
      · rw [List.mem_singleton.mp hℓ]
        exact hsame
    · show (writeAll sys.vault plan.writes).lookup doc
        = serially host doc (start.lookup doc) (sys.landings ++ [_])
      rw [serially_append, ← h.serial, hwrote]
      rfl
    · right
      obtain ⟨target, text, r, r', hrw, _, rfl⟩ := attempt_onDocument hcall hattempt
      show ((writeAll sys.vault plan.writes).lookup target.relPath).isSome = true
      rw [hrw.writes, lookup_writeAll_of_mem (by simp) List.mem_cons_self]
      rfl

theorem Faithful.noLostUpdate {start : Files B} (h : Faithful host doc start sys) :
    NoLostUpdate host doc start sys where
  replaced := h.replaced
  serial := h.serial
  sections := by
    intro before ℓ after args hlandings hcall hedits
    have hmem : ∀ m ∈ ℓ :: after, m ∈ sys.landings := by
      intro m hm
      rw [hlandings]
      exact List.mem_append_right _ hm
    have hthere : ∃ file, sys.vault.lookup doc = some file := by
      rcases h.there with hnil | hsome
      · rw [hnil] at hlandings
        exact absurd hlandings.symm (by simp)
      · exact Option.isSome_iff_exists.mp hsome
    obtain ⟨file, hfile⟩ := hthere
    have hserial := h.serial
    rw [hfile, hlandings, serially_append] at hserial
    have hrest : serially host doc
        (rerun host doc (serially host doc (start.lookup doc) before) ℓ) after = some file :=
      hserial.symm
    cases hrun : rerun host doc (serially host doc (start.lookup doc) before) ℓ with
    | none =>
        rw [hrun, serially_none] at hrest
        cases hrest
    | some text =>
        rw [hrun] at hrest
        obtain ⟨_, target, r, r₁, _, _, _, hafter, hchanges⟩ :=
          changes_of_rerun (h.calls ℓ (hmem ℓ List.mem_cons_self)) hrun
        rw [hcall] at hchanges
        have happended : Text.trim args.sectionText <:+: r₁.body := by
          rw [hchanges.1]
          exact section_of_grown _ _
        obtain ⟨r', hr', hkept⟩ := serially_rel
          (fun _ hin => hin) (fun _ _ _ hab hbc hin => hbc (hab hin))
          (fun m hm => h.calls m (hmem m (List.mem_cons_of_mem _ hm)))
          (fun m hm _ _ _ _ _ _ hstep hin => section_of_changes hstep (hedits m hm) hin)
          hafter hrest
        exact ⟨r', (readAt_of_lookup hfile).trans hr', hkept happended⟩
  positions := by
    intro hleaves before after hlandings
    have hserial := h.serial
    rw [hlandings, serially_append] at hserial
    rw [hserial]
    cases hmid : serially host doc (start.lookup doc) before with
    | none => exact fun p hp => absurd hp List.not_mem_nil
    | some mid =>
        cases hread : read host.codec mid with
        | none =>
            have hnone : heldIn host (some mid) = [] := by
              show ((read host.codec mid).bind Reading.positions).getD [] = []
              rw [hread]
              rfl
            rw [hnone]
            exact fun p hp => absurd hp List.not_mem_nil
        | some r =>
            have hmem : ∀ m ∈ after, m ∈ sys.landings := by
              intro m hm
              rw [hlandings]
              exact List.mem_append_right _ hm
            cases hend : serially host doc (some mid) after with
            | none =>
                have hthere := h.there
                rw [h.serial, hlandings, serially_append, hmid, hend] at hthere
                rcases hthere with hnil | hno
                · obtain ⟨_, rfl⟩ := List.append_eq_nil_iff.mp hnil
                  cases hend
                · cases hno
            | some file =>
                obtain ⟨r', hr', hcarried⟩ := serially_rel
                  (fun a => Carried.refl _) (fun _ _ _ hab hbc => hab.trans hbc)
                  (fun m hm => h.calls m (hmem m hm))
                  (fun m _ _ _ _ _ hloaded hr₀ hstep =>
                    carried_of_changes hleaves hloaded hr₀ hstep)
                  hread hend
                show Carried (held host mid) (held host file)
                rw [held_of_read hread, held_of_read hr']
                exact hcarried

/-- **NO LOST UPDATE**: any number of calls on one document, in any interleaving of their loads and
    critical sections, lose nothing, if every critical section is undisturbed. -/
theorem no_lost_update {vault : Files B}
    (h : ((vaultSystem host (onDocument host doc)).restrict (Undisturbed host doc)).Reach
      (System.quiet vault) sys) :
    NoLostUpdate host doc vault sys := by
  have hstart : Faithful host doc vault (System.quiet vault) :=
    { admitted := by
        intro id p hp
        cases hp
      calls := by
        intro ℓ hℓ
        cases hℓ
      replaced := by
        intro ℓ hℓ
        cases hℓ
      serial := rfl
      there := Or.inl rfl }
  refine (Machine.reach_invariant (I := Faithful host doc vault) ?_ hstart h).noLostUpdate
  rintro sys a hfaithful ⟨henabled, hundisturbed⟩
  exact hfaithful.step henabled hundisturbed

end Tools

/-! ## An append and a supersede -/

def noteVault : Files PlainFile :=
  [("note.md", plainNote [] "Old."), ("next.md", plainNote [] "New.")]

def appendToNote : AppendArgs where
  path := "note.md"
  agent := "agent:bot"
  sectionText := "More.".toList
  baseVersion := none
  runId := none

def setNoteConfidence : Call := .setConfidence
  { path := "note.md", agent := "agent:bot", reason := "checked", baseVersion := none
    runId := none } .medium

def supersedeNote : Call := .supersede
  { oldPath := "note.md", newPath := "next.md", agent := "agent:bot", boundary := none
    baseVersion := none, runId := none }

def noteSystem : Machine (System PlainFile) Action :=
  vaultSystem (plainHost plainConfig) (onDocument (plainHost plainConfig) "note.md")

instance (sys : System PlainFile) (a : Action) : Decidable (noteSystem.enabled sys a) :=
  inferInstanceAs (Decidable ((vaultSystem _ _).enabled sys a))

/-- **THREE CALLS AT ONCE LOSE NOTHING**: the second is rejected as stale, loads
    again and lands, and the supersede loads after it. -/
theorem three_calls_lose_nothing :
    ∃ sys, (noteSystem.restrict (Undisturbed (plainHost plainConfig) "note.md")).Reach
        (System.quiet noteVault) sys
      ∧ sys.landings.length = 3
      ∧ NoLostUpdate (plainHost plainConfig) "note.md" noteVault sys := by
  have hrun : ((noteSystem.restrict (Undisturbed (plainHost plainConfig) "note.md")).runs
      (System.quiet noteVault)
      [.issue 1 none (.append appendToNote), .issue 2 none setNoteConfidence,
        .land 1 (operatorSetting "2026-02-01"), .land 2 (operatorSetting "2026-02-01"),
        .issue 3 none supersedeNote, .land 2 (operatorSetting "2026-02-01"),
        .reread 3 "note.md", .land 3 (operatorSetting "2026-02-01")]).any
      (fun sys => decide (sys.landings.length = 3)) = true := by
    decide +kernel
  obtain ⟨sys, hreach, hlength⟩ := Machine.reach_of_runs_any hrun
  exact ⟨sys, hreach, of_decide_eq_true hlength, no_lost_update hreach⟩

/-- **A SUPERSEDE ERASES AN APPEND** that landed between its load and its write. -/
theorem supersede_erases_append :
    ∃ sys, noteSystem.Reach (System.quiet noteVault) sys
      ∧ sys.landings.length = 2
      ∧ (readAt (plainHost plainConfig) sys.vault "note.md").map Reading.body
        = some "Old.".toList
      ∧ ¬ NoLostUpdate (plainHost plainConfig) "note.md" noteVault sys := by
  have hrun : (noteSystem.runs (System.quiet noteVault)
      [.issue 1 none supersedeNote, .issue 2 none (.append appendToNote),
        .land 2 (operatorSetting "2026-02-01"),
        .land 1 (operatorSetting "2026-02-01")]).any
      (fun sys => decide (sys.landings.length = 2
        ∧ (readAt (plainHost plainConfig) sys.vault "note.md").map Reading.body
          = some "Old.".toList
        ∧ ∃ ℓ ∈ sys.landings,
          ℓ.files.lookup "note.md" ≠ ℓ.found.lookup "note.md")) = true := by
    decide +kernel
  obtain ⟨sys, hreach, hend⟩ := Machine.reach_of_runs_any hrun
  obtain ⟨hlength, hbody, ℓ, hℓ, hne⟩ := of_decide_eq_true hend
  exact ⟨sys, hreach, hlength, hbody, fun hfaithful => hne (hfaithful.replaced ℓ hℓ)⟩

end Write
