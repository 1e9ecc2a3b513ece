import Daftari.Lib.LinesProofs

/-! # The ignore block of a vault — what is appended, and what is there then

    `utils/vault-gitignore.ts`: a vault's `.gitignore` gets the whole block when it does
    not have the marker, and otherwise the integration rules it does not have.  The
    marker and the rules are looked for as parts of the text; what git reads is lines.

    * `gitLines`: the lines of a text as git reads them;
    * `blockThere_iff`: **when every rule is a line of the file afterwards**. -/

namespace VaultGitignore

open Lines

abbrev Text := List Char

/-! ## The block -/

inductive BlockLine where
  | comment (text : String)
  | rule (pattern : String)
deriving DecidableEq

def BlockLine.text : BlockLine → Text
  | .comment text => '#' :: ' ' :: text.toList
  | .rule pattern => pattern.toList

def BlockLine.pattern? : BlockLine → Option String
  | .comment _ => none
  | .rule pattern => some pattern

/-- The lines of `VAULT_GITIGNORE`. -/
def blockLines : List BlockLine :=
  [.comment "Daftari rebuilds these from the markdown files — never commit them.",
    .rule ".daftari/index.db",
    .rule ".daftari/index.db-journal",
    .rule ".daftari/index.db-wal",
    .rule ".daftari/index.db-shm",
    .rule ".daftari/locks.db",
    .rule ".daftari/locks.db-journal",
    .rule ".daftari/locks.db-wal",
    .rule ".daftari/locks.db-shm",
    .comment "Local audit state — advisory, not vault content. Matters most when a vault",
    .comment "runs with auto_commit: false inside a larger repo: keeps the host repo's",
    .comment "git status clean of Daftari's per-write log churn.",
    .rule ".daftari/curation-log.jsonl",
    .rule ".daftari/staged-actions.jsonl",
    .rule ".daftari/edges.jsonl",
    .rule ".daftari/read-log.jsonl",
    .rule ".daftari/auth-log.jsonl",
    .rule ".daftari/consumes.jsonl",
    .rule ".daftari/tier2-verdicts.jsonl",
    .rule ".daftari/shadow-actions.jsonl",
    .comment "vault_erase receipt — its 'paths' field NAMES the erased file, which can",
    .comment "itself be the sensitive breadcrumb; must never be committed into the freshly",
    .comment "scrubbed history (R12).",
    .rule ".daftari/erasures.jsonl",
    .rule ".daftari/consolidate-state.json",
    .rule ".daftari/distill-state.json",
    .comment "OAuth credentials, webhook metadata, durable event delivery, and review-only",
    .comment "source lifecycle records are machine-local integration state.",
    .rule ".daftari/integrations.state.enc",
    .rule ".daftari/integrations.state.enc.*.tmp",
    .rule ".daftari/integration-queue.json",
    .rule ".daftari/integration-queue.json.tmp-*",
    .rule ".daftari/integration-review.jsonl",
    .comment "Board session-cookie audience (3p4.8) — unique per deployment; a copy",
    .comment "committed and cloned elsewhere would let the two accept each other's cookies.",
    .rule ".daftari/session-audience",
    .comment "Transient backfill staging surface (daftari backfill --plan). The apply",
    .comment "commit is the durable audit trail — the plan itself is never committed.",
    .rule ".daftari/backfill-plan.jsonl",
    .comment "Nightly wake-queue snapshot (daftari sleep) — regenerated each cycle.",
    .rule ".daftari/wake-queue.jsonl",
    .comment "Finder metadata — a vault seeded into a folder the user picked often has one.",
    .rule ".DS_Store"]

/-- Lines, each ended. -/
def unlines (ls : List Text) : Text := ls.flatMap (· ++ ['\n'])

def vaultGitignore : Text := unlines (blockLines.map BlockLine.text)

def rules : List String := blockLines.filterMap BlockLine.pattern?

def marker : String := ".daftari/index.db"

def requiredIntegrationRules : List String :=
  [".daftari/integrations.state.enc",
    ".daftari/integrations.state.enc.*.tmp",
    ".daftari/integration-queue.json",
    ".daftari/integration-queue.json.tmp-*",
    ".daftari/integration-review.jsonl"]

/-! ## The call -/

inductive Outcome where
  | created
  | appended
  | present
deriving DecidableEq, Repr

def missingRules (existing : Text) : List String :=
  requiredIntegrationRules.filter fun rule => ¬ rule.toList <:+: existing

/-- The comment over the rules that are appended to an older block. -/
def upgradeComment : String := "# Daftari local integration state — never commit it."

/-- What is appended to an older block. -/
def upgrade (missing : List String) : Text :=
  '\n' :: (upgradeComment.toList
    ++ '\n' :: (['\n'].intercalate (missing.map String.toList) ++ ['\n']))

/-- `ensureVaultGitignore`: the answer, and the file afterwards; `none` is no file. -/
def ensureVaultGitignore : Option Text → Outcome × Text
  | none => (.created, vaultGitignore)
  | some existing =>
      if marker.toList <:+: existing then
        let missing := missingRules existing
        if missing = [] then (.present, existing)
        else (.appended, existing ++ upgrade missing)
      else (.appended, existing ++ '\n' :: vaultGitignore)

section Cases

variable {text : Text}

theorem ensure_without (h : ¬ marker.toList <:+: text) :
    ensureVaultGitignore (some text) = (.appended, text ++ '\n' :: vaultGitignore) := if_neg h

theorem ensure_complete (h : marker.toList <:+: text) (hnone : missingRules text = []) :
    ensureVaultGitignore (some text) = (.present, text) := (if_pos h).trans (if_pos hnone)

theorem ensure_older (h : marker.toList <:+: text) (hsome : missingRules text ≠ []) :
    ensureVaultGitignore (some text) = (.appended, text ++ upgrade (missingRules text)) :=
  (if_pos h).trans (if_neg hsome)

theorem mem_missingRules {r : String} :
    r ∈ missingRules text ↔ r ∈ requiredIntegrationRules ∧ ¬ r.toList <:+: text := by
  unfold missingRules
  rw [List.mem_filter, decide_eq_true_eq]

end Cases

/-! ## Lines and rules -/

/-- A line without the carriage return it may end in. -/
def dropReturn (l : Text) : Text := if l.getLast? = some '\r' then l.dropLast else l

def gitLines (text : Text) : List Text := (text.splitOn '\n').map dropReturn

theorem gitLines_append (a b : Text) : gitLines (a ++ '\n' :: b) = gitLines a ++ gitLines b := by
  unfold gitLines
  rw [splitOn_append, List.map_append]

theorem plain_of (l : List Char) (h : (l.all fun c => c != '\n' && c != '\r') = true) :
    '\n' ∉ (String.ofList l).toList
      ∧ dropReturn (String.ofList l).toList = (String.ofList l).toList := by
  rw [String.toList_ofList]
  have hall : ∀ c ∈ l, c ≠ '\n' ∧ c ≠ '\r' := fun c hc => by
    simpa using List.all_eq_true.mp h c hc
  refine ⟨fun hc => (hall _ hc).1 rfl, if_neg fun hlast => ?_⟩
  exact (hall _ (List.mem_of_getLast? hlast)).2 rfl

theorem rules_plain : ∀ r ∈ rules, '\n' ∉ r.toList ∧ dropReturn r.toList = r.toList := by
  simp only [rules, blockLines, List.filterMap_cons, BlockLine.pattern?, List.filterMap_nil,
    List.forall_mem_cons, List.not_mem_nil, false_imp_iff, implies_true, and_true]
  and_intros <;> first | exact (plain_of _ (by decide)).1 | exact (plain_of _ (by decide)).2

theorem required_subset : marker ∈ rules ∧ ∀ r ∈ requiredIntegrationRules, r ∈ rules := by
  simp [marker, requiredIntegrationRules, rules, blockLines, BlockLine.pattern?]

theorem gitLines_of_plain {l : Text} (hnew : '\n' ∉ l) (hreturn : dropReturn l = l) :
    gitLines l = [l] := by
  have hone := List.splitOn_intercalate '\n' (by simpa using hnew) (List.cons_ne_nil l [])
  rw [List.intercalate_singleton] at hone
  unfold gitLines
  rw [hone, List.map_singleton, hreturn]

theorem mem_gitLines_unlines {ls : List Text} {l : Text} (hl : l ∈ ls) (hnew : '\n' ∉ l)
    (hreturn : dropReturn l = l) : l ∈ gitLines (unlines ls) := by
  induction ls with
  | nil => cases hl
  | cons m ls ih =>
      have hunlines : unlines (m :: ls) = m ++ '\n' :: unlines ls := by simp [unlines]
      rw [hunlines, gitLines_append, List.mem_append]
      rcases List.mem_cons.mp hl with rfl | hl
      · rw [gitLines_of_plain hnew hreturn]
        exact Or.inl (List.mem_singleton_self l)
      · exact Or.inr (ih hl)

theorem rules_subset_block : ∀ r ∈ rules, r.toList ∈ gitLines vaultGitignore := by
  intro r hr
  obtain ⟨line, hline, hpattern⟩ := List.mem_filterMap.mp hr
  obtain ⟨hnew, hreturn⟩ := rules_plain r hr
  refine mem_gitLines_unlines (List.mem_map.mpr ⟨line, hline, ?_⟩) hnew hreturn
  cases line with
  | comment => cases hpattern
  | rule => rw [← Option.some.inj hpattern]; rfl

theorem infix_of_mem_gitLines {r text : Text} (h : r ∈ gitLines text) : r <:+: text := by
  obtain ⟨l, hl, rfl⟩ := List.mem_map.mp h
  refine List.IsInfix.trans ?_ (infix_of_mem_splitOn hl)
  unfold dropReturn
  split
  · exact (List.dropLast_prefix _).isInfix
  · exact List.infix_rfl

/-! ## What is appended -/

theorem mem_gitLines_upgrade {text : Text} {r : String} (hne : missingRules text ≠ [])
    (hr : r ∈ rules) : r.toList ∈ gitLines (text ++ upgrade (missingRules text)) ↔
      r.toList ∈ gitLines text ∨ r ∈ missingRules text := by
  have hcomment : r.toList ∉ gitLines upgradeComment.toList := by
    have hplain : '\n' ∉ upgradeComment.toList
        ∧ dropReturn upgradeComment.toList = upgradeComment.toList := plain_of _ (by decide)
    rw [gitLines_of_plain hplain.1 hplain.2, List.mem_singleton, String.toList_inj]
    rintro rfl
    simp [rules, blockLines, BlockLine.pattern?, upgradeComment] at hr
  have hempty : r.toList ∉ gitLines [] := by
    rw [gitLines_of_plain (by simp) rfl, List.mem_singleton, String.toList_eq_nil_iff]
    rintro rfl
    simp [rules, blockLines, BlockLine.pattern?] at hr
  have hmissing : ∀ m ∈ missingRules text, '\n' ∉ m.toList ∧ dropReturn m.toList = m.toList :=
    fun m hm => rules_plain m (required_subset.2 m (mem_missingRules.mp hm).1)
  have hlines : gitLines (['\n'].intercalate ((missingRules text).map String.toList))
      = (missingRules text).map String.toList := by
    unfold gitLines
    rw [splitOn_join (by simpa using hne) fun l hl => ?_]
    · refine (List.map_congr_left fun l hl => ?_).trans (List.map_id _)
      obtain ⟨m, hm, rfl⟩ := List.mem_map.mp hl
      exact (hmissing m hm).2
    · obtain ⟨m, hm, rfl⟩ := List.mem_map.mp hl
      exact (hmissing m hm).1
  unfold upgrade
  rw [gitLines_append, gitLines_append, gitLines_append, hlines]
  simp only [List.mem_append, hcomment, hempty, false_or, or_false, List.mem_map,
    String.toList_inj, exists_eq_right]

variable (existing : Option Text)

theorem required_after : marker.toList <:+: (ensureVaultGitignore existing).2
      ∧ ∀ r ∈ requiredIntegrationRules, r.toList <:+: (ensureVaultGitignore existing).2 := by
  have hblock : ∀ r, r ∈ rules → r.toList <:+: vaultGitignore :=
    fun r hr => infix_of_mem_gitLines (rules_subset_block r hr)
  obtain ⟨hmarker, hrequired⟩ := required_subset
  cases existing with
  | none => exact ⟨hblock _ hmarker, fun r hr => hblock r (hrequired r hr)⟩
  | some text =>
      by_cases hin : marker.toList <:+: text
      · by_cases hnone : missingRules text = []
        · rw [ensure_complete hin hnone]
          refine ⟨hin, fun r hr => ?_⟩
          by_contra hnot
          have hmem : r ∈ missingRules text := mem_missingRules.mpr ⟨hr, hnot⟩
          rw [hnone] at hmem
          cases hmem
        · rw [ensure_older hin hnone]
          have hgrown : text <:+: text ++ upgrade (missingRules text) :=
            (List.prefix_append _ _).isInfix
          refine ⟨hin.trans hgrown, fun r hr => ?_⟩
          by_cases hpart : r.toList <:+: text
          · exact hpart.trans hgrown
          · exact infix_of_mem_gitLines ((mem_gitLines_upgrade hnone
              (hrequired r hr)).mpr (Or.inr (mem_missingRules.mpr ⟨hr, hpart⟩)))
      · rw [ensure_without hin]
        have hgrown : vaultGitignore <:+: text ++ '\n' :: vaultGitignore :=
          ⟨text ++ ['\n'], [], by simp⟩
        exact ⟨(hblock _ hmarker).trans hgrown,
          fun r hr => (hblock r (hrequired r hr)).trans hgrown⟩

/-- **A second call finds nothing to do.** -/
theorem ensure_again : ensureVaultGitignore (some (ensureVaultGitignore existing).2)
      = (.present, (ensureVaultGitignore existing).2) := by
  obtain ⟨hmarker, hrequired⟩ := required_after existing
  have hnone : missingRules (ensureVaultGitignore existing).2 = [] :=
    List.filter_eq_nil_iff.mpr fun r hr => by simpa using hrequired r hr
  exact ensure_complete hmarker hnone

theorem prefix_ensure : existing.getD [] <+: (ensureVaultGitignore existing).2 := by
  cases existing with
  | none => exact List.nil_prefix
  | some text =>
      by_cases hin : marker.toList <:+: text
      · by_cases hnone : missingRules text = []
        · rw [ensure_complete hin hnone]
          exact List.prefix_rfl
        · rw [ensure_older hin hnone]
          exact List.prefix_append _ _
      · rw [ensure_without hin]
        exact List.prefix_append _ _

/-! ## When the block is there -/

/-- What the call is for: every rule is a line of the file, what was there is at its
    start, and a second call changes nothing. -/
def BlockThere (existing : Option Text) : Prop :=
  (∀ r ∈ rules, r.toList ∈ gitLines (ensureVaultGitignore existing).2)
    ∧ existing.getD [] <+: (ensureVaultGitignore existing).2
    ∧ ensureVaultGitignore (some (ensureVaultGitignore existing).2)
      = (.present, (ensureVaultGitignore existing).2)

/-- **The block is there unless the text has the marker and lacks, as a line, a rule that
    is not required or that is a part of some other line.** -/
theorem blockThere_iff (existing : Option Text) :
    BlockThere existing ↔ ∀ text ∈ existing, marker.toList <:+: text → ∀ r ∈ rules,
      r.toList ∈ gitLines text ∨ r ∈ requiredIntegrationRules ∧ ¬ r.toList <:+: text := by
  have hlines : BlockThere existing ↔
      ∀ r ∈ rules, r.toList ∈ gitLines (ensureVaultGitignore existing).2 :=
    ⟨fun h => h.1, fun h => ⟨h, prefix_ensure existing, ensure_again existing⟩⟩
  rw [hlines]
  cases existing with
  | none => exact ⟨fun _ _ h => (nomatch h), fun _ => rules_subset_block⟩
  | some text =>
      by_cases hin : marker.toList <:+: text
      · have hafter : ∀ r ∈ rules, (r.toList ∈ gitLines (ensureVaultGitignore (some text)).2 ↔
            r.toList ∈ gitLines text ∨ r ∈ missingRules text) := by
          intro r hr
          by_cases hnone : missingRules text = []
          · simp [ensure_complete hin hnone, hnone]
          · rw [ensure_older hin hnone]
            exact mem_gitLines_upgrade hnone hr
        constructor
        · rintro h _ ⟨⟩ _ r hr
          exact ((hafter r hr).mp (h r hr)).imp_right mem_missingRules.mp
        · intro h r hr
          exact (hafter r hr).mpr ((h text rfl hin r hr).imp_right mem_missingRules.mpr)
      · constructor
        · rintro - _ ⟨⟩ hmarker
          exact absurd hmarker hin
        · intro _ r hr
          rw [ensure_without hin, gitLines_append]
          exact List.mem_append_right _ (rules_subset_block r hr)

def olderBlock : Text :=
  unlines (["# old Daftari block", ".daftari/index.db", ".daftari/distill-state.json"].map
    String.toList)

/-- The edge log stays out of it. -/
theorem older_block_incomplete : ¬ BlockThere (some olderBlock) := by
  have hmarker : marker.toList <:+: olderBlock :=
    ⟨"# old Daftari block\n".toList, "\n.daftari/distill-state.json\n".toList, by decide +kernel⟩
  have hnot : ¬ (".daftari/edges.jsonl".toList ∈ gitLines olderBlock
      ∨ ".daftari/edges.jsonl" ∈ requiredIntegrationRules
        ∧ ¬ ".daftari/edges.jsonl".toList <:+: olderBlock) := by
    decide +kernel
  rw [blockThere_iff]
  intro h
  exact hnot (h _ rfl hmarker _ (by simp [rules, blockLines, BlockLine.pattern?]))

end VaultGitignore
