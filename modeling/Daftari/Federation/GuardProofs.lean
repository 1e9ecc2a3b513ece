import Daftari.Frontmatter.SchemaProofs
import Daftari.Storage.LocalProofs

/-! # The federation guard — mounts, aliases, and the scan of a call's arguments

    A mounted vault's documents are addressed as `alias:path`.  A canonical file of that name would
    be ambiguous, so the server refuses every call of a writing tool whose path arguments are
    addressed so.

    * `scanArgsForFederatedPath`, `refusal`: the scan of a call;
    * `shadows_iff_parse`: **a path shadows a mount exactly when it parses as an address**;
    * `refusal_of_shadows`: **a path argument that shadows as it is written is refused.** -/

namespace Federation

open Frontmatter (Value Raw)

/-! ## Mounts -/

/-- `MOUNT_ALIAS_PATTERN` without `RESERVED_MOUNT_ALIASES`. -/
def isMountAlias (name : String) : Bool :=
  match name.toList with
  | [] => false
  | c :: rest =>
      c.isLower && 1 ≤ rest.length && rest.length ≤ 31
        && rest.all (fun c => c.isLower || c.isDigit || c = '_' || c = '-')
        && name ≠ "local"

/-- `MountRegistry`, by the aliases that are declared. -/
structure MountRegistry where
  aliases : List String
  declared : ∀ name ∈ aliases, isMountAlias name = true

structure FederatedPath where
  mount : String
  relPath : String
  raw : String

variable (registry : MountRegistry)

/-- `parseFederatedPath`: what stands before the first colon is a declared alias. -/
def parseFederatedPath (path : String) : Option FederatedPath :=
  let before := path.toList.takeWhile fun c => c ≠ ':'
  match path.toList.dropWhile fun c => c ≠ ':' with
  | [] => none
  | _ :: relPath =>
      if before = [] then none
      else if String.ofList before ∈ registry.aliases then
        some { mount := String.ofList before, relPath := String.ofList relPath, raw := path }
      else none

/-- Does a vault-relative path begin with a declared alias and a colon? -/
def shadows (relPath : String) : Bool :=
  registry.aliases.any fun name => (name.toList ++ [':']).isPrefixOf relPath.toList

/-! ## Tools and their arguments -/

def federatedTools : List String :=
  ["vault_search", "vault_search_related", "vault_read", "vault_index", "vault_status",
    "vault_reindex"]

def writeShapedTools : List String :=
  ["vault_write", "vault_patch", "vault_append", "vault_promote", "vault_deprecate",
    "vault_supersede", "vault_unsupersede", "vault_merge", "vault_set_confidence",
    "vault_set_tier", "vault_assert", "vault_consolidate", "vault_stage_action",
    "vault_ratify", "vault_tension_log", "vault_tension_resolve", "vault_edge_observe",
    "vault_edge_contest", "vault_tier2_verdict", "vault_board_dispose",
    "vault_board_resolve"]

def readOnlyRefusal (path : String) : String :=
  "federated mount is read-only: \"" ++ path ++ "\" — writes apply only to the local vault"

def stateRefusal : String :=
  "vault state (tensions, edges, provenance, positions, curation and graph surfaces) is "
    ++ "not federated in v1 — mounts expose documents only"

def federatedRefusal (toolName path : String) : Option String :=
  if toolName ∈ federatedTools then none
  else if toolName ∈ writeShapedTools then some (readOnlyRefusal path)
  else some stateRefusal

/-- `isPathKey`: `/(^|_)paths?$/`, and the keys of the edge and tension tools. -/
def isPathKey (key : String) : Bool :=
  key ∈ ["path", "paths", "from", "to", "source_a", "source_b"]
    || "_path".toList.isSuffixOf key.toList || "_paths".toList.isSuffixOf key.toList

def scanArg : Value → Option FederatedPath
  | .str text => parseFederatedPath registry text
  | .arr items => items.findSome? fun item =>
      match item with
      | .str text => parseFederatedPath registry text
      | _ => none
  | _ => none

def scanArgsForFederatedPath (args : Raw) : Option FederatedPath :=
  args.findSome? fun e => if isPathKey e.1 then scanArg registry e.2 else none

/-- The server's refusal of a call, before any handler runs. -/
def refusal (toolName : String) (args : Raw) : Option String :=
  (scanArgsForFederatedPath registry args).bind fun fed =>
    federatedRefusal toolName fed.raw

/-! ## What the guard sees -/

variable {registry}

theorem isMountAlias_plain {name : String} (h : isMountAlias name = true) :
    name.toList ≠ [] ∧ ∀ c ∈ name.toList, c ≠ ':' := by
  unfold isMountAlias at h
  split at h
  · cases h
  · rename_i c rest hname
    rw [hname]
    refine ⟨List.cons_ne_nil _ _, ?_⟩
    simp only [Bool.and_eq_true, List.all_eq_true] at h
    obtain ⟨⟨⟨⟨hc, -⟩, -⟩, hrest⟩, -⟩ := h
    intro d hd
    rcases List.mem_cons.mp hd with rfl | hd
    · rintro rfl
      exact absurd hc (by decide)
    · rintro rfl
      exact absurd (hrest _ hd) (by decide)

theorem shadows_eq_true {relPath : String} : shadows registry relPath = true
    ↔ ∃ name ∈ registry.aliases, name.toList ++ [':'] <+: relPath.toList := by
  unfold shadows
  rw [List.any_eq_true]
  constructor
  · rintro ⟨name, hname, hpre⟩
    exact ⟨name, hname, List.isPrefixOf_iff_prefix.mp hpre⟩
  · rintro ⟨name, hname, hpre⟩
    exact ⟨name, hname, List.isPrefixOf_iff_prefix.mpr hpre⟩

/-- **A path shadows a mount exactly when it parses as an address.** -/
theorem shadows_iff_parse {path : String} :
    shadows registry path = true ↔ (parseFederatedPath registry path).isSome = true := by
  rw [shadows_eq_true]
  constructor
  · rintro ⟨name, hname, rest, hpath⟩
    obtain ⟨hne, hplain⟩ := isMountAlias_plain (registry.declared name hname)
    have hkeep : ∀ c ∈ name.toList, (decide (c ≠ ':')) = true := fun c hc =>
      decide_eq_true (hplain c hc)
    have hsplit : path.toList = name.toList ++ ':' :: rest := by
      rw [← hpath, List.append_assoc]
      rfl
    unfold parseFederatedPath
    rw [hsplit, List.takeWhile_append_of_pos hkeep, List.dropWhile_append_of_pos hkeep,
      List.takeWhile_cons_of_neg (by decide), List.dropWhile_cons_of_neg (by decide),
      List.append_nil]
    dsimp only
    rw [if_neg hne, String.ofList_toList, if_pos hname]
    rfl
  · intro h
    unfold parseFederatedPath at h
    dsimp only at h
    split at h
    · cases h
    · rename_i c relPath hdrop
      split at h
      · cases h
      · split at h
        · rename_i hmem
          refine ⟨_, hmem, relPath, ?_⟩
          -- the text is what stands before its first colon, the colon, and the rest
          have hc : c = ':' := by
            have hhead := List.head?_dropWhile_not (fun c => decide (c ≠ ':')) path.toList
            rw [hdrop] at hhead
            simpa using hhead
          have hwhole := List.takeWhile_append_dropWhile
            (p := fun c => decide (c ≠ ':')) (l := path.toList)
          rw [hdrop, hc] at hwhole
          rw [String.toList_ofList, List.append_assoc]
          exact hwhole
        · cases h

/-- **A path argument that shadows as it is written is refused** by every tool that
    does not read mounts. -/
theorem refusal_of_shadows {toolName : String} (htool : toolName ∉ federatedTools)
    {args : Raw} {key text : String} (harg : (key, Value.str text) ∈ args)
    (hkey : isPathKey key = true) (hshadows : shadows registry text = true) :
    (refusal registry toolName args).isSome = true := by
  unfold refusal
  cases hscan : scanArgsForFederatedPath registry args with
  | none =>
      unfold scanArgsForFederatedPath at hscan
      rw [List.findSome?_eq_none_iff] at hscan
      have hnone := hscan _ harg
      rw [if_pos hkey] at hnone
      have hparse := shadows_iff_parse.mp hshadows
      change parseFederatedPath registry text = none at hnone
      rw [hnone] at hparse
      cases hparse
  | some fed =>
      rw [Option.bind_some]
      unfold federatedRefusal
      rw [if_neg htool]
      split
      · rfl
      · rfl

end Federation
