import Daftari.Access.SpellingProofs
import Daftari.Curation.ChainsProofs
import Daftari.Tools.SupersedeRunsProofs

/-! # Supersede targets — what a landed supersede leaves its readers

    `vault_supersede` checks identity, existence and loops on resolved paths, and stores the
    successor as its caller spelled it.  The readers of a chain take the stored text as the path of
    a document.

    * `Vault`, `listing`: files under their canonical paths, and the symbolic links to them a
      listing has as well;
    * `forwards_iff`: **the stored pointer leads to the successor exactly when the successor was
      spelled as a document's path is listed.** -/

namespace Write

open Frontmatter SupersedeChains Rbac

section Targets

variable {B : Type} {host : Host B} {s : Setting}

/-! ## Vaults with links -/

structure Vault (host : Host B) where
  files : Files B
  /-- A link's path, and the canonical path of the file it leads to. -/
  links : List (String × String)
  nodup : (Assoc.keys files).Nodup
  named : "" ∉ Assoc.keys files
  canonical : ∀ p ∈ Assoc.keys files, host.resolve p = .ok p
  leads : ∀ l ∈ links, host.resolve l.1 = .ok l.2

def listing (files : Files B) (links : List (String × String)) : Files B :=
  files ++ links.filterMap fun l => (files.lookup l.2).map fun text => (l.1, text)

def documentPaths (host : Host B) (files : Files B) : List String :=
  (loadDocuments host files).map Prod.fst

/-- The documents as the chain readers take them. -/
def chainDocs (host : Host B) (files : Files B) : List Chains.ChainDoc :=
  (loadDocuments host files).map fun d =>
    { path := d.1
      collection := collectionOf d.1 d.2.frontmatter
      status := Choice.text d.2.frontmatter.status
      updated := d.2.frontmatter.updated
      supersededBy := d.2.frontmatter.supersededBy }

/-- One `vault_supersede` that lands, with nobody else writing. -/
def supersedeAlone (s : Setting) (v : Vault host) (args : SupersedeArgs) : Option (Files B) :=
  (planOf (vaultSupersede host s args v.files (listing v.files v.links))).bind fun plan =>
    (land host plan v.files).toOption

/-- What a landed supersede of `old` by `new` is for: the pointer stored on the
    old document is the path of a listed document that is the successor, and a
    walk from the old document goes on to it. -/
structure Forwards (host : Host B) (after : Files B) (links : List (String × String))
    (old new : String) : Prop where
  stored : ∃ file r q, after.lookup old = some file ∧ read host.codec file = some r ∧
    r.supersededBy = some q ∧ q ≠ old ∧ q ∈ documentPaths host (listing after links) ∧
    host.resolve q = .ok new
  walks : ∀ d ∈ chainDocs host (listing after links), d.path = old →
    ∀ fuel, Chains.walkForward (Chains.byPath (chainDocs host (listing after links)))
      (fun _ => true) (fuel + 1) d ≠ .head d 0 true

/-! ## What the call checks -/

variable {files : Files B}

/-- What a supersede that composes a plan has checked: the loop test passed on
    the resolved paths. -/
theorem vaultSupersede_checks {args : SupersedeArgs} {docs : Files B} {plan : Plan B}
    (h : vaultSupersede host s args files docs = .ok (.write plan)) :
    ∃ old new, host.resolve args.oldPath = .ok old ∧ host.resolve args.newPath = .ok new ∧
      ∃ visible, closesSupersedeLoop visible [(old, some new)] = false := by
  obtain ⟨_, _, h⟩ := bind_eq_ok h
  obtain ⟨_, _, h⟩ := bind_eq_ok h
  obtain ⟨boundary, _, h⟩ := bind_eq_ok h
  obtain ⟨_, _, h⟩ := bind_eq_ok h
  obtain ⟨old, hold, h⟩ := bind_eq_ok h
  obtain ⟨new, hnew, h⟩ := bind_eq_ok h
  obtain ⟨_, _, h⟩ := bind_eq_ok h
  obtain ⟨_, _, h⟩ := bind_eq_ok h
  obtain ⟨target, hload, h⟩ := bind_eq_ok h
  have hl := loaded_of_load hload
  obtain ⟨_, _, h⟩ := bind_eq_ok h
  obtain ⟨_, _, h⟩ := bind_eq_ok h
  obtain ⟨validUntil, _, h⟩ := bind_eq_ok h
  obtain ⟨_, hloop, _⟩ := bind_eq_ok h
  have hrel : old = target.relPath := Except.ok.inj (hold.symm.trans hl.resolve)
  rw [← hrel] at hloop
  exact ⟨old, new, hold, hnew, _, Bool.eq_false_iff.mpr (refuse_eq_ok hloop)⟩

theorem ne_of_check {visible : List Pointer} {old new : String} (hold : old ≠ "")
    (h : closesSupersedeLoop visible [(old, some new)] = false) : new ≠ old := by
  rintro rfl
  refine not_onCycle_of_check h (List.mem_singleton_self _) ⟨0, ?_⟩
  rw [Chain.follow_one]
  unfold supersedeEdges
  have hnd : (([(new, some new)] : List Pointer).map Prod.fst).Nodup := List.nodup_singleton new
  have hpointer : pointerOf visible [(new, some new)] new = some new :=
    pointerOf_of_mem hnd (List.mem_singleton_self _)
  rw [hpointer, Option.bind_some, if_neg hold]
  refine resolveLink_of_mem new ?_
  unfold knownPaths
  rw [List.mem_dedup, List.map_append, List.mem_append]
  exact Or.inr (List.mem_singleton_self new)

/-! ## Listed paths -/

def parses (host : Host B) (file : B) : Prop :=
  ∃ doc, parseDocument host.codec host.json file = .ok doc

theorem mem_documentPaths {p : String} :
    p ∈ documentPaths host files ↔ isListed host.config.ignored p = true ∧
      ∃ file, (p, file) ∈ files ∧ parses host file := by
  unfold documentPaths loadDocuments
  rw [List.mem_map]
  constructor
  · rintro ⟨d, hd, rfl⟩
    obtain ⟨e, he, hsome⟩ := List.mem_filterMap.mp hd
    split at hsome
    · rename_i hlisted
      cases hparse : parseDocument host.codec host.json e.2 with
      | error reason =>
          rw [hparse] at hsome
          cases hsome
      | ok doc =>
          rw [hparse] at hsome
          obtain rfl := Option.some.inj hsome
          exact ⟨hlisted, e.2, he, doc, hparse⟩
    · cases hsome
  · rintro ⟨hlisted, file, hmem, doc, hparse⟩
    refine ⟨(p, doc), List.mem_filterMap.mpr ⟨(p, file), hmem, ?_⟩, rfl⟩
    rw [if_pos hlisted, hparse]

theorem mem_listing {links : List (String × String)} (hnd : (Assoc.keys files).Nodup) {p : String}
    {file : B} : (p, file) ∈ listing files links ↔ files.lookup p = some file ∨
      ∃ target, (p, target) ∈ links ∧ files.lookup target = some file := by
  unfold listing
  rw [List.mem_append, List.mem_filterMap]
  refine or_congr ⟨Assoc.lookup_of_mem hnd, Assoc.mem_of_lookup⟩ ?_
  constructor
  · rintro ⟨⟨a, target⟩, hl, hsome⟩
    obtain ⟨text, htext, he⟩ := Option.map_eq_some_iff.mp hsome
    obtain ⟨rfl, rfl⟩ := Prod.mk.inj he
    exact ⟨target, hl, htext⟩
  · rintro ⟨target, hl, htext⟩
    refine ⟨(p, target), hl, ?_⟩
    rw [htext]
    rfl

/-- **A path that does not lead to the written file** is listed after a write as it was before. -/
theorem mem_documentPaths_set {v : Vault host} {old new q : String} {text : B}
    (hold : old ∈ Assoc.keys v.files) (hq : host.resolve q = .ok new) (hne : new ≠ old) :
    q ∈ documentPaths host (listing (Assoc.set v.files old text) v.links) ↔
      q ∈ documentPaths host (listing v.files v.links) := by
  have hnd : (Assoc.keys (Assoc.set v.files old text)).Nodup := Assoc.nodup_set _ _ v.nodup
  rw [mem_documentPaths, mem_documentPaths]
  refine and_congr_right fun _ => exists_congr fun file => and_congr_left fun _ => ?_
  rw [mem_listing hnd, mem_listing v.nodup]
  refine or_congr ?_ (exists_congr fun target => and_congr_right fun hl => ?_)
  · have hqold : q ≠ old := by
      rintro rfl
      rw [v.canonical q hold] at hq
      exact hne (Except.ok.inj hq).symm
    rw [Assoc.lookup_set_of_ne _ _ hqold]
  · have htarget : target ≠ old := by
      rintro rfl
      have hleads := v.leads _ hl
      rw [hq] at hleads
      exact hne (Except.ok.inj hleads)
    rw [Assoc.lookup_set_of_ne _ _ htarget]

/-! ## What a landed supersede leaves -/

theorem supersededBy_of_chainDoc {d : Chains.ChainDoc} (hd : d ∈ chainDocs host files) :
    ∃ file r, (d.path, file) ∈ files ∧
      read host.codec file = some r ∧ r.supersededBy = d.supersededBy := by
  obtain ⟨⟨path, doc⟩, hmem, rfl⟩ := List.mem_map.mp hd
  obtain ⟨e, he, hsome⟩ := List.mem_filterMap.mp hmem
  split at hsome
  · cases hparse : parseDocument host.codec host.json e.2 with
    | error reason =>
        rw [hparse] at hsome
        cases hsome
    | ok parsed =>
        rw [hparse] at hsome
        obtain ⟨rfl, rfl⟩ := Prod.mk.inj (Option.some.inj hsome)
        obtain ⟨hcodec, hfm⟩ := parse_of_parseDocument hparse
        refine ⟨e.2, _, he, read_of_parse hcodec, ?_⟩
        show _ = parsed.frontmatter.supersededBy
        rw [hfm, coerce_supersededBy]
        rfl
  · cases hsome

theorem byPath_chainDocs {q : String} (h : q ∈ documentPaths host files) :
    ∃ next, Chains.byPath (chainDocs host files) q = some next := by
  have hpaths : (chainDocs host files).map Chains.ChainDoc.path = documentPaths host files := by
    unfold chainDocs documentPaths
    rw [List.map_map]
    rfl
  rw [← hpaths] at h
  obtain ⟨d, hd, rfl⟩ := List.mem_map.mp h
  cases hb : Chains.byPath (chainDocs host files) d.path with
  | some next => exact ⟨next, rfl⟩
  | none =>
      unfold Chains.byPath Assoc.lastBy at hb
      rw [List.find?_eq_none] at hb
      exact absurd (decide_eq_true rfl) (hb d (List.mem_reverse.mpr hd))

/-- **A walk goes on from a document whose pointer is found.** -/
theorem walkForward_ne_dangling {docs : List Chains.ChainDoc} {d next : Chains.ChainDoc}
    {q : String} (hq : d.supersededBy = some q) (hnext : Chains.byPath docs q = some next)
    (fuel : Nat) :
    Chains.walkForward (Chains.byPath docs) (fun _ => true) (fuel + 1) d ≠ .head d 0 true := by
  unfold Chains.walkForward Chains.walkLoop
  simp only [hq, hnext]
  intro h
  split at h
  · cases h
  · split at h
    · cases h
    · rename_i hfirst
      -- a walk that ends here has more than one document on its trail
      have hlong : ∀ (fuel : Nat) (trail : List Chains.ChainDoc) (current : Chains.ChainDoc),
          2 ≤ trail.length → Chains.walkLoop (Chains.byPath docs) (fun _ => true) fuel trail
            current ≠ .head d 0 true := by
        intro fuel
        induction fuel with
        | zero =>
            intro trail current hlen he
            injection he with _ hdepth _
            omega
        | succ fuel ih =>
            intro trail current hlen he
            unfold Chains.walkLoop at he
            split at he
            · injection he with _ hdepth _
              omega
            · split at he
              · injection he with _ hdepth _
                omega
              · split at he
                · cases he
                · split at he
                  · cases he
                  · refine ih _ _ ?_ he
                    rw [List.length_append]
                    omega
      exact hlong fuel _ _ (by simp) h

/-- **A landed supersede leads its readers to the successor exactly when the successor was spelled
    as a document's path is listed**, character for character. -/
theorem forwards_iff (s : Setting) (v : Vault host) (args : SupersedeArgs) {after : Files B}
    (hland : supersedeAlone s v args = some after) :
    (∃ old new, host.resolve args.oldPath = .ok old ∧ host.resolve args.newPath = .ok new ∧
      Forwards host after v.links old new) ↔
    args.newPath ∈ documentPaths host (listing v.files v.links) := by
  obtain ⟨plan, hplan, hwritten⟩ := Option.bind_eq_some_iff.mp hland
  have hattempt := planOf_eq_some hplan
  obtain ⟨old, new, hold, hnew, visible, hcheck⟩ := vaultSupersede_checks hattempt
  obtain ⟨target, text, r, newRel, hrw, _, _⟩ := vaultSupersede_rewrite hattempt
  have hrel : target.relPath = old := Except.ok.inj (hrw.loaded.resolve.symm.trans hold)
  have hkey : old ∈ Assoc.keys v.files := by
    rw [← hrel]
    exact List.mem_map_of_mem (f := Prod.fst) (Assoc.mem_of_lookup hrw.loaded.file)
  have hne : new ≠ old := by
    refine ne_of_check ?_ hcheck
    rintro rfl
    exact v.named hkey
  have hafter : after = Assoc.set v.files old text := by
    cases hl : land host plan v.files with
    | error e =>
        rw [hl] at hwritten
        cases hwritten
    | ok files' =>
        rw [hl] at hwritten
        obtain rfl := Option.some.inj hwritten
        rw [(land_eq_ok host hl).2, hrw.writes, hrel]
        rfl
  have hlisted : args.newPath ∈ documentPaths host (listing after v.links) ↔
      args.newPath ∈ documentPaths host (listing v.files v.links) := by
    rw [hafter]
    exact mem_documentPaths_set hkey hnew hne
  have hlookup : after.lookup old = some text := by
    rw [hafter]
    exact Assoc.lookup_set_self _ _ _
  rw [← hlisted]
  constructor
  · rintro ⟨old', _, hold', _, hforwards⟩
    obtain rfl := Except.ok.inj (hold'.symm.trans hold)
    obtain ⟨file, r', q, hfile, hread, hq, _, hmem, _⟩ := hforwards.stored
    obtain rfl := Option.some.inj (hfile.symm.trans hlookup)
    obtain rfl := Option.some.inj (hread.symm.trans hrw.after)
    obtain rfl := Option.some.inj hq
    exact hmem
  · intro hmem
    refine ⟨old, new, hold, hnew,
      ⟨text, _, args.newPath, hlookup, hrw.after, rfl, ?_, hmem, hnew⟩, ?_⟩
    · rintro hsame
      rw [hsame, v.canonical old hkey] at hnew
      exact hne (Except.ok.inj hnew).symm
    · intro d hd hpath fuel
      obtain ⟨next, hnext⟩ := byPath_chainDocs hmem
      obtain ⟨file, r', hfile, hread, hr'⟩ := supersededBy_of_chainDoc hd
      have hnd : (Assoc.keys after).Nodup := by
        rw [hafter]
        exact Assoc.nodup_set _ _ v.nodup
      have htext : file = text := by
        rcases (mem_listing hnd).mp hfile with hl | ⟨t, hlink, hl⟩
        · rw [hpath] at hl
          exact Option.some.inj (hl.symm.trans hlookup)
        · have hleads := v.leads _ hlink
          rw [hpath, v.canonical old hkey] at hleads
          have ht : old = t := Except.ok.inj hleads
          rw [← ht] at hl
          exact Option.some.inj (hl.symm.trans hlookup)
      rw [htext] at hread
      obtain rfl := Option.some.inj (hread.symm.trans hrw.after)
      exact walkForward_ne_dangling hr'.symm hnext fuel

end Targets

/-! ## A spelling that is not a path -/

def tidyHost : Host PlainFile :=
  { plainHost plainConfig with
    resolve := fun path => .ok (String.ofList (canonicalRel path.toList)) }

def twoNotes : Vault tidyHost where
  files := [("a.md", plainNote [] "One."), ("b.md", plainNote [] "Two.")]
  links := []
  nodup := by decide
  named := by decide
  canonical := by decide +kernel
  leads := by decide

def supersedeArgs (old new : String) : SupersedeArgs where
  oldPath := old
  newPath := new
  agent := "agent:bot"
  boundary := none
  baseVersion := none
  runId := none

theorem twoNotes_forwards :
    ∃ after, supersedeAlone (operatorSetting "2026-02-01") twoNotes
        (supersedeArgs "./a.md" "b.md") = some after ∧
      ∃ old new, tidyHost.resolve "./a.md" = .ok old ∧ tidyHost.resolve "b.md" = .ok new ∧
        Forwards tidyHost after twoNotes.links old new := by
  have hsome : (supersedeAlone (operatorSetting "2026-02-01") twoNotes
      (supersedeArgs "./a.md" "b.md")).isSome = true := by
    decide +kernel
  obtain ⟨after, hafter⟩ := Option.isSome_iff_exists.mp hsome
  exact ⟨after, hafter, (forwards_iff (operatorSetting "2026-02-01") twoNotes
    (supersedeArgs "./a.md" "b.md") hafter).mpr (by decide +kernel)⟩

/-- **`./b.md` DANGLES**: the call lands, and no document is called so. -/
theorem respelled_successor_dangles :
    ∃ after, supersedeAlone (operatorSetting "2026-02-01") twoNotes
        (supersedeArgs "a.md" "./b.md") = some after ∧
      tidyHost.resolve "./b.md" = .ok "b.md" ∧
      ¬ Forwards tidyHost after twoNotes.links "a.md" "b.md" := by
  have hsome : (supersedeAlone (operatorSetting "2026-02-01") twoNotes
      (supersedeArgs "a.md" "./b.md")).any (fun after =>
        ((after.lookup "a.md").bind fun file => read tidyHost.codec file).any fun r =>
          r.supersededBy = some "./b.md" ∧
            "./b.md" ∉ documentPaths tidyHost (listing after twoNotes.links)) = true := by
    decide +kernel
  obtain ⟨after, hafter, hread⟩ := (Option.any_eq_true _ _).mp hsome
  refine ⟨after, hafter, by decide +kernel, fun h => ?_⟩
  obtain ⟨file, r, q, hfile, hr, hq, _, hmem, _⟩ := h.stored
  rw [hfile, Option.bind_some, hr] at hread
  obtain ⟨hpointer, hnot⟩ := of_decide_eq_true hread
  obtain rfl := Option.some.inj (hq.symm.trans hpointer)
  exact hnot hmem

end Write
