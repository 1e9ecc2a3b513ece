import Daftari.Lib.MachineProofs
import Daftari.Tools.WriteEffectsProofs

/-! # Write-protection tiers — over any sequence of landed calls

    A document of tier `source` or `manual` keeps its tier until `vault_set_tier` changes it, and
    keeps its body: a source one from everyone but appends, a manual one from every caller that is
    not human.  Each tool guards this in its own place; a merge compares bodies but builds the
    target's tier from path_a and the overrides, and asks nothing of a target too large to parse.

    * `writes`: the machine whose steps are landed calls;
    * `Respects`: what one call owes a protected document, `respects_of_landed`: **what every landed
      call but an unsound merge pays**;
    * `tiers_hold`: **the promise over runs whose merges are sound.** -/

namespace Write

open Frontmatter Rbac

section Tools

variable {B : Type} {host : Host B} {s : Setting} {files files' docs : Files B}
  {call : Call} {plan : Plan B} {path : String}

/-! ## Landed calls as a machine -/

def writes (host : Host B) : Machine (Files B) (Setting × Call) where
  enabled files a := (landed host a.1 a.2 files).isSome = true
  next files a := (landed host a.1 a.2 files).getD files

instance (host : Host B) (files : Files B) (a : Setting × Call) :
    Decidable ((writes host).enabled files a) :=
  inferInstanceAs (Decidable (_ = true))

theorem landed_of_enabled {a : Setting × Call} (h : (writes host).enabled files a) :
    landed host a.1 a.2 files = some ((writes host).next files a) := by
  obtain ⟨files', hlanded⟩ := Option.isSome_iff_exists.mp h
  show _ = some ((landed host a.1 a.2 files).getD files)
  rw [hlanded]
  rfl

/-! ## What a call owes a protected document -/

/-- The tiers a write must respect. -/
def isProtected (tier : Option Tier) : Bool := tier = some .source ∨ tier = some .manual

theorem isProtected_source {tier : Option Tier} (h : tier = some .source) :
    isProtected tier = true := by
  rw [h]
  rfl

theorem isProtected_manual {tier : Option Tier} (h : tier = some .manual) :
    isProtected tier = true := by
  rw [h]
  rfl

/-- Does the path argument name the file? -/
def names (host : Host B) (rawPath path : String) : Bool :=
  match host.resolve rawPath with
  | .ok relPath => relPath = path
  | .error _ => false

theorem names_iff {rawPath : String} :
    names host rawPath path = true ↔ host.resolve rawPath = .ok path := by
  unfold names
  cases host.resolve rawPath with
  | error e => simp
  | ok relPath => simp

/-- A `vault_set_tier` on the document. -/
def setsTier (host : Host B) (path : String) : Call → Bool
  | .setTier args _ => names host args.path path
  | _ => false

/-- A `vault_append` on the document. -/
def appendsTo (host : Host B) (path : String) : Call → Bool
  | .append args => names host args.path path
  | _ => false

/-- What one call may do to a protected document. -/
structure Respects (host : Host B) (path : String) (call : Call) (r r' : Reading) :
    Prop where
  tier : r'.tier = r.tier
    ∨ (setsTier host path call = true ∧ (r.tier = some .manual → isHuman call.agent = true))
  body : appendsTo host path call = false → r'.body = r.body
    ∨ (r.tier = some .manual ∧ isHuman call.agent = true)

theorem Respects.refl (host : Host B) (path : String) (call : Call) (r : Reading) :
    Respects host path call r r where
  tier := Or.inl rfl
  body _ := Or.inl rfl

namespace Respects

variable {r r' : Reading} (h : Respects host path call r r')
include h

theorem tier_of_not_sets (hno : setsTier host path call = false) : r'.tier = r.tier := by
  rcases h.tier with hsame | ⟨hsets, _⟩
  · exact hsame
  · rw [hno] at hsets
    cases hsets

theorem tier_of_manual (hno : setsTier host path call = true → isHuman call.agent = false)
    (htier : r.tier = some .manual) : r'.tier = r.tier := by
  rcases h.tier with hsame | ⟨hsets, hhuman⟩
  · exact hsame
  · have hagent := hhuman htier
    rw [hno hsets] at hagent
    cases hagent

theorem body_of_source (hno : appendsTo host path call = false)
    (htier : r.tier = some .source) : r'.body = r.body := by
  rcases h.body hno with hsame | ⟨hmanual, _⟩
  · exact hsame
  · rw [htier] at hmanual
    cases hmanual

theorem body_of_agent (hagent : isHuman call.agent = false)
    (hno : appendsTo host path call = false) : r'.body = r.body := by
  rcases h.body hno with hsame | ⟨_, hhuman⟩
  · exact hsame
  · rw [hagent] at hhuman
    cases hhuman

end Respects

/-- A merge onto a protected target keeps to its tier: the target's file parses,
    so the guard sees it, and the overrides or path_a carry the tier. -/
def SoundMerge (host : Host B) (files : Files B) (args : MergeArgs) (path : String) : Prop :=
  ∀ r ∈ readAt host files path, isProtected r.tier = true →
    (((files.lookup path).map (parseDocument host.codec host.json)).any
      fun parsed => parsed.toOption.isSome) = true
    ∧ ∀ rawA ∈ recordAt host files args.pathA, asChoice (inherited args rawA "tier") = r.tier

/-- The only calls with a condition are merges. -/
def SoundCall (host : Host B) (files : Files B) (a : Setting × Call) : Prop :=
  match a.2 with
  | .merge args => ∀ path ∈ (host.resolve args.targetPath).toOption,
      SoundMerge host files args path
  | _ => True

/-! ## Tool by tool -/

theorem Updates.respects {args : WriteArgs} {r r' : Reading}
    (h : Updates host s args r r') (hhooks : host.config.transformHooks = [])
    (hr : isProtected r.tier = true) (hagent : call.agent = args.agent) :
    Respects host path call r r' where
  tier := Or.inl (h.tier hhooks (by simpa [isProtected] using hr))
  body := by
    intro _
    have hcases : r.tier = some .source ∨ r.tier = some .manual := by
      simpa [isProtected] using hr
    rcases hcases with hsource | hmanual
    · exact Or.inl (h.source hsource)
    · by_cases hhuman : isHuman args.agent = true
      · exact Or.inr ⟨hmanual, by rw [hagent]; exact hhuman⟩
      · exact Or.inl (h.manual hmanual (Bool.eq_false_iff.mpr hhuman))

theorem respects_of_changes (hhooks : host.config.transformHooks = []) {target : Target B}
    {r r' : Reading} (hloaded : Loaded host files call.path target)
    (hread : r = readingOf target.parsed.raw target.parsed.content)
    (h : Changes host s call target r r') (hr : isProtected r.tier = true) :
    Respects host target.relPath call r r' := by
  cases call with
  | write args => exact h.elim
  | merge args => exact h.elim
  | patch args =>
      obtain ⟨body, hupdates, _⟩ := h
      exact hupdates.respects hhooks hr rfl
  | append args =>
      obtain ⟨_, htier, _⟩ := h
      refine ⟨Or.inl ?_, ?_⟩
      · rw [htier]
        unfold appendRecord
        rw [hhooks]
        show asChoice (some (wordOrNull target.parsed.frontmatter.tier)) = _
        rw [asChoice_wordOrNull, hloaded.tier, hread]
      · intro hno
        have hnames : names host args.path target.relPath = true :=
          names_iff.mpr hloaded.resolve
        rw [show names host args.path target.relPath = false from hno] at hnames
        cases hnames
  | setTier args tier =>
      obtain ⟨rfl, hhuman⟩ := h
      refine ⟨?_, fun _ => Or.inl rfl⟩
      by_cases hsame : tier = .manual ∧ r.tier = some .manual
      · left
        rw [hsame.1, hsame.2]
      · right
        refine ⟨names_iff.mpr hloaded.resolve, ?_⟩
        intro hmanual
        exact hhuman hmanual fun htier => hsame ⟨htier, hmanual⟩
  | assert args =>
      obtain ⟨principal, _, hpositions, _⟩ := h
      rw [hpositions]
      exact ⟨Or.inl rfl, fun _ => Or.inl rfl⟩
  | promote args =>
      rw [show r' = r from h]
      exact Respects.refl _ _ _ _
  | setConfidence args confidence =>
      rw [show r' = r from h]
      exact Respects.refl _ _ _ _
  | consolidate args =>
      rw [show r' = r from h]
      exact Respects.refl _ _ _ _
  | «deprecate» args =>
      rw [show r' = { r with supersededBy := args.supersededBy } from h]
      exact ⟨Or.inl rfl, fun _ => Or.inl rfl⟩
  | supersede args =>
      rw [show r' = { r with supersededBy := some args.newPath } from h]
      exact ⟨Or.inl rfl, fun _ => Or.inl rfl⟩
  | unsupersede args =>
      rw [show r' = { r with supersededBy := none } from h]
      exact ⟨Or.inl rfl, fun _ => Or.inl rfl⟩

theorem Merges.respects {args : MergeArgs} {a : Target B} {targetRel : String} {text : B}
    {r' : Reading} {sources : List (Target B × B)}
    (h : Merges host files args plan a targetRel text r' sources)
    (hsound : SoundMerge host files args targetRel) {old : B} {r : Reading}
    (hold : files.lookup targetRel = some old) (hread : read host.codec old = some r)
    (hr : isProtected r.tier = true) : Respects host targetRel (.merge args) r r' := by
  obtain ⟨hparses, htier⟩ := hsound r (by rw [readAt_of_lookup hold, hread]; rfl) hr
  have hsame : r'.tier = r.tier := by
    rw [h.tier]
    exact htier _ (recordAt_of_loaded h.loadedA)
  refine ⟨Or.inl hsame, ?_⟩
  intro _
  rw [hold] at hparses
  cases hparse : parseDocument host.codec host.json old with
  | error reason =>
      have hno : (parseDocument host.codec host.json old).toOption.isSome = true := hparses
      rw [hparse] at hno
      cases hno
  | ok doc =>
      obtain ⟨hcodec, hfm⟩ := parse_of_parseDocument hparse
      have hdoc : r = readingOf doc.raw doc.content :=
        Option.some.inj (hread.symm.trans (read_of_parse hcodec))
      have hdocTier : doc.frontmatter.tier = r.tier := by
        rw [hfm, coerce_tier, hdoc]
        rfl
      have hdocBody : r.body = normBody doc.content := by
        rw [hdoc]
        rfl
      have hguard := h.guard old doc hold hparse
      rw [h.body, hdocBody]
      rw [hdocTier] at hguard
      have hcases : r.tier = some .source ∨ r.tier = some .manual := by
        simpa [isProtected] using hr
      rcases hcases with hsource | hmanual
      · exact Or.inl (hguard.1 hsource)
      · by_cases hhuman : isHuman args.agent = true
        · exact Or.inr ⟨hmanual, hhuman⟩
        · exact Or.inl (hguard.2 hmanual (Bool.eq_false_iff.mpr hhuman))

/-- **A landed call respects every protected document**, if a merge is sound. -/
theorem respects_of_landed (hhooks : host.config.transformHooks = [])
    (h : landed host s call files = some files') (hsound : SoundCall host files (s, call))
    {r : Reading} (hr : readAt host files path = some r) (hp : isProtected r.tier = true) :
    ∃ r', readAt host files' path = some r' ∧ Respects host path call r r' := by
  obtain ⟨plan, hplan, rfl⟩ := landed_eq_some host s h
  obtain ⟨old, hold, hread⟩ := Option.bind_eq_some_iff.mp hr
  by_cases hmem : path ∈ plan.writes.map Prod.fst
  swap
  · rw [readAt_writeAll_of_not_mem hmem]
    exact ⟨r, hr, Respects.refl _ _ _ _⟩
  by_cases hsingle : call.single = true
  · obtain ⟨target, text, r₀, r', hrw, hchanges⟩ := attempt_changes hsingle hplan
    rw [hrw.writes] at hmem ⊢
    obtain rfl : path = target.relPath := by simpa using hmem
    have hsame : r = r₀ := by
      have hloaded := hrw.loaded.file
      rw [hold] at hloaded
      obtain rfl := Option.some.inj hloaded
      exact Option.some.inj (hread.symm.trans hrw.before)
    subst hsame
    refine ⟨r', ?_, respects_of_changes hhooks hrw.loaded ?_ hchanges hp⟩
    · rw [readAt_writeAll_of_mem (by simp) List.mem_cons_self]
      exact hrw.after
    · exact Option.some.inj (hrw.before.symm.trans hrw.loaded.read)
  cases call with
  | write args =>
      obtain ⟨relPath, text, _, hwrites, hupdates⟩ := vaultWrite_updates hplan
      rw [hwrites] at hmem ⊢
      obtain rfl : path = relPath := by simpa using hmem
      obtain ⟨r₀, r', hr₀, hr', hup⟩ := hupdates old hold
      obtain rfl := Option.some.inj (hread.symm.trans hr₀)
      refine ⟨r', ?_, hup.respects hhooks hp rfl⟩
      rw [readAt_writeAll_of_mem (by simp) List.mem_cons_self]
      exact hr'
  | merge args =>
      obtain ⟨a, targetRel, text, r', sources, hm⟩ := vaultMerge_merges hplan
      obtain ⟨w, hw, rfl⟩ := List.mem_map.mp hmem
      rw [readAt_writeAll_of_mem hm.nodup hw]
      rw [hm.writes] at hw
      rcases List.mem_cons.mp hw with rfl | hw
      · refine ⟨r', hm.after, hm.respects ?_ hold hread hp⟩
        refine hsound targetRel ?_
        rw [hm.resolve]
        rfl
      · obtain ⟨e, he, rfl⟩ := List.mem_map.mp hw
        obtain ⟨hfile, r₀, hbefore, hafter⟩ := hm.source e he
        rw [hold] at hfile
        obtain rfl := Option.some.inj hfile
        obtain rfl := Option.some.inj (hread.symm.trans hbefore)
        exact ⟨_, hafter, Or.inl rfl, fun _ => Or.inl rfl⟩
  | _ => exact absurd rfl hsingle

/-! ## Runs -/

def soundRuns (host : Host B) (kind : Call → Prop) : Machine (Files B) (Setting × Call) :=
  (writes host).restrict fun files a => SoundCall host files a ∧ kind a.2

theorem soundRuns_next (host : Host B) (kind : Call → Prop) :
    (soundRuns host kind).next = (writes host).next := rfl

theorem keeps_of_reach (hhooks : host.config.transformHooks = []) {kind : Call → Prop}
    {Q : Reading → Prop} (hprotected : ∀ r, Q r → isProtected r.tier = true)
    (hcall : ∀ call r r', kind call → Q r → Respects host path call r r' → Q r')
    {start : Files B} {r : Reading} (hr : readAt host start path = some r) (hq : Q r)
    (h : (soundRuns host kind).Reach start files) :
    ∃ r', readAt host files path = some r' ∧ Q r' := by
  refine Machine.reach_invariant (I := fun files =>
    ∃ r', readAt host files path = some r' ∧ Q r') ?_ ⟨r, hr, hq⟩ h
  rintro files ⟨s, call⟩ ⟨r₀, hr₀, hq₀⟩ ⟨henabled, hsound, hkind⟩
  obtain ⟨r', hr', hrespects⟩ := respects_of_landed hhooks (landed_of_enabled henabled)
    hsound hr₀ (hprotected r₀ hq₀)
  exact ⟨r', hr', hcall call r₀ r' hkind hq₀ hrespects⟩

/-- **TIERS HOLD OVER EVERY TOOL**: without transform hooks, and over any run of landed calls whose
    merges are sound, a source document keeps its tier while no `vault_set_tier` names it and its
    body while no append does either; a manual one keeps its tier while no human's `vault_set_tier`
    names it, and its body while no human writes and no append names it. -/
theorem tiers_hold (hhooks : host.config.transformHooks = []) {start : Files B}
    {r : Reading} (hr : readAt host start path = some r) :
    (r.tier = some .source →
      (∀ files, (soundRuns host fun call => setsTier host path call = false).Reach
          start files →
        ∃ r', readAt host files path = some r' ∧ r'.tier = some .source)
      ∧ ∀ files, (soundRuns host fun call => setsTier host path call = false
          ∧ appendsTo host path call = false).Reach start files →
        ∃ r', readAt host files path = some r' ∧ r'.tier = some .source
          ∧ r'.body = r.body)
    ∧ (r.tier = some .manual →
      (∀ files, (soundRuns host fun call => setsTier host path call = true →
          isHuman call.agent = false).Reach start files →
        ∃ r', readAt host files path = some r' ∧ r'.tier = some .manual)
      ∧ ∀ files, (soundRuns host fun call => isHuman call.agent = false
          ∧ appendsTo host path call = false).Reach start files →
        ∃ r', readAt host files path = some r' ∧ r'.tier = some .manual
          ∧ r'.body = r.body) := by
  refine ⟨fun htier => ⟨?_, ?_⟩, fun htier => ⟨?_, ?_⟩⟩
  · intro files hreach
    refine keeps_of_reach hhooks (fun _ => isProtected_source) ?_ hr htier hreach
    intro call r₀ r' hsets htier₀ h
    exact (h.tier_of_not_sets hsets).trans htier₀
  · intro files hreach
    refine keeps_of_reach (Q := fun r' => r'.tier = some .source ∧ r'.body = r.body) hhooks
      (fun _ h => isProtected_source h.1) ?_ hr ⟨htier, rfl⟩ hreach
    rintro call r₀ r' ⟨hsets, happends⟩ ⟨htier₀, hbody₀⟩ h
    exact ⟨(h.tier_of_not_sets hsets).trans htier₀, (h.body_of_source happends htier₀).trans hbody₀⟩
  · intro files hreach
    refine keeps_of_reach hhooks (fun _ => isProtected_manual) ?_ hr htier hreach
    intro call r₀ r' hsets htier₀ h
    exact (h.tier_of_manual hsets htier₀).trans htier₀
  · intro files hreach
    refine keeps_of_reach (Q := fun r' => r'.tier = some .manual ∧ r'.body = r.body) hhooks
      (fun _ h => isProtected_manual h.1) ?_ hr ⟨htier, rfl⟩ hreach
    rintro call r₀ r' ⟨hagent, happends⟩ ⟨htier₀, hbody₀⟩ h
    exact ⟨(h.tier_of_manual (fun _ => hagent) htier₀).trans htier₀,
      (h.body_of_agent hagent happends).trans hbody₀⟩

instance (host : Host B) (files : Files B) (args : MergeArgs) (path : String) :
    Decidable (SoundMerge host files args path) :=
  inferInstanceAs (Decidable (∀ r ∈ readAt host files path, isProtected r.tier = true →
    _ ∧ ∀ rawA ∈ recordAt host files args.pathA, asChoice _ = r.tier))

end Tools

/-! ## Merges over a source document -/

def sourceVault : Files PlainFile :=
  [("target.md", plainNote [("tier", .str "source")] "Kept."),
    ("a.md", plainNote [] "One."), ("b.md", plainNote [] "Two.")]

def mergeOverSource (frontmatter : Raw) (nodup : (Assoc.keys frontmatter).Nodup) : Call :=
  .merge
    { pathA := "a.md", pathB := "b.md", targetPath := "target.md", agent := "agent:bot"
      body := "Kept.".toList, frontmatter := frontmatter, nodup := nodup, boundary := none
      runId := none }

def rewriteTarget : Call := .write
  { path := "target.md", agent := "agent:bot", body := "Rewritten.".toList
    frontmatter := [], nodup := List.nodup_nil, baseVersion := none, runId := none }

def operator : Setting := operatorSetting "2026-02-01"

/-- **A MERGE WHOSE OVERRIDES NAME THE TIER IS SOUND**: the document is kept. -/
theorem sound_merge_keeps_source :
    ∃ r', readAt (plainHost plainConfig)
        ((writes (plainHost plainConfig)).next sourceVault
          (operator, mergeOverSource [("tier", .str "source")] (by decide))) "target.md"
        = some r'
      ∧ r'.tier = some .source ∧ r'.body = "Kept.".toList := by
  have hread : readAt (plainHost plainConfig) sourceVault "target.md"
      = some { tier := some .source, supersededBy := none, positions := none
               body := "Kept.".toList } := by
    decide +kernel
  have hlands : (writes (plainHost plainConfig)).enabled sourceVault
      (operator, mergeOverSource [("tier", .str "source")] (by decide)) := by
    decide +kernel
  have hsound : SoundCall (plainHost plainConfig) sourceVault
      (operator, mergeOverSource [("tier", .str "source")] (by decide)) := by
    intro path hpath
    obtain rfl : "target.md" = path := Option.some.inj hpath
    show SoundMerge _ _ _ _
    decide +kernel
  have hreach := (Machine.Reach.refl (M := soundRuns (plainHost plainConfig) fun call =>
    setsTier (plainHost plainConfig) "target.md" call = false
      ∧ appendsTo (plainHost plainConfig) "target.md" call = false) sourceVault).step
    ⟨hlands, hsound, rfl, rfl⟩
  rw [soundRuns_next] at hreach
  exact ((tiers_hold rfl hread).1 rfl).2 _ hreach

/-- **A MERGE DROPS THE TIER OF ITS TARGET**, and the next write rewrites the body:
    no call of the run is a `vault_set_tier` or an append. -/
theorem merge_reopens_source :
    ∃ files r', (writes (plainHost plainConfig)).Exec sourceVault
        [(operator, mergeOverSource [] (by decide)), (operator, rewriteTarget)] files
      ∧ readAt (plainHost plainConfig) files "target.md" = some r'
      ∧ r'.tier = none ∧ r'.body = "Rewritten.".toList := by
  have hends : ((writes (plainHost plainConfig)).runs sourceVault
      [(operator, mergeOverSource [] (by decide)), (operator, rewriteTarget)]).any
        (fun files => (readAt (plainHost plainConfig) files "target.md").any fun r' =>
          decide (r'.tier = none ∧ r'.body = "Rewritten.".toList)) = true := by
    decide +kernel
  obtain ⟨files, hruns, hread⟩ := (Option.any_eq_true _ _).mp hends
  obtain ⟨r', hr', hreopened⟩ := (Option.any_eq_true _ _).mp hread
  exact ⟨files, r', Machine.exec_of_runs hruns, hr', of_decide_eq_true hreopened⟩

end Write
