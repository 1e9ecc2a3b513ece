import Daftari.Lib.JsonWriteProofs
import Daftari.Lib.LinesProofs
import Daftari.Lib.SortProofs
import Daftari.Lib.AssocProofs

/-! # The identity and the fingerprint of a finding

    A finding of the tension log or of the staged actions is known by the id it
    already has; every other by the hash of its source, check, target and
    discriminator, joined by NUL.  Its evidence is hashed separately, rebuilt with
    sorted keys first, so that the order of the keys does not count.

    * `deriveIdentity_iff`: **findings share a key exactly when they are one finding**, whatever the
      shapes of their targets;
    * `fingerprint_iff`: **fingerprints see the evidence outside `__proto__`.**  A member of that
      name sets the prototype of the rebuilt object, and is not written. -/

namespace Identity

open JsonText

/-! ## The key -/

inductive FindingSource where
  | lint
  | staleness
  | tension
  | staged
  | tier2
deriving DecidableEq

def FindingSource.text : FindingSource → String
  | .lint => "lint"
  | .staleness => "staleness"
  | .tension => "tension"
  | .staged => "staged"
  | .tier2 => "tier2"

inductive FindingTarget where
  | lint (path : String)
  | staleness (path : String)
  | tension (tensionId : String)
  | staged (stagedActionId : String)
  | tier2 (artifact unit edgeClass : String)
deriving DecidableEq

/-- What the key of a finding is made of. -/
structure Finding where
  source : FindingSource
  check : String
  target : FindingTarget
  discriminator : Option String
deriving DecidableEq

def canonicalizeTarget : FindingTarget → List String
  | .lint path => ["lint", path]
  | .staleness path => ["staleness", path]
  | .tension tensionId => ["tension", tensionId]
  | .staged stagedActionId => ["staged", stagedActionId]
  | .tier2 artifact unit edgeClass => ["tier2", artifact, edgeClass, unit]

def Finding.parts (f : Finding) : List String :=
  [f.source.text, f.check] ++ canonicalizeTarget f.target ++ f.discriminator.toList

def nul : Char := Char.ofNat 0

def joined (parts : List String) : String :=
  String.ofList ([nul].intercalate (parts.map String.toList))

def deriveIdentity (sha256Hex : String → String) (f : Finding) : String :=
  match f.target with
  | .tension tensionId => "tension:" ++ tensionId
  | .staged stagedActionId => "staged:" ++ stagedActionId
  | _ => sha256Hex (joined f.parts)

/-- The target has an id of its own. -/
def FindingTarget.isNative : FindingTarget → Bool
  | .tension _ | .staged _ => true
  | _ => false

/-- Two findings are one: by their own id, or in everything. -/
def SameFinding (f g : Finding) : Prop :=
  (∃ id, f.target = .tension id ∧ g.target = .tension id) ∨
    (∃ id, f.target = .staged id ∧ g.target = .staged id) ∨ f = g

def Finding.NulFree (f : Finding) : Prop := ∀ s ∈ f.parts, nul ∉ s.toList

theorem text_injective {s t : FindingSource} (h : s.text = t.text) : s = t := by
  cases s <;> cases t <;> first | rfl | (revert h; decide)

/-- **The parts tell the finding**, by the kind in the third place. -/
theorem parts_injective {f g : Finding} (h : f.parts = g.parts) : f = g := by
  obtain ⟨source, check, target, discriminator⟩ := f
  obtain ⟨source', check', target', discriminator'⟩ := g
  obtain ⟨hsource, htail⟩ := List.cons.inj h
  obtain ⟨hcheck, hrest⟩ := List.cons.inj htail
  obtain rfl := text_injective hsource
  have hcheck' : check = check' := hcheck
  subst hcheck'
  have hboth : target = target' ∧ discriminator = discriminator' := by
    cases target <;> cases target' <;> cases discriminator <;> cases discriminator' <;>
      simp_all [canonicalizeTarget]
  obtain ⟨rfl, rfl⟩ := hboth
  rfl

/-- **A NUL between NUL-free parts is read back.** -/
theorem joined_injective {ps qs : List String} (hps : ps ≠ []) (hqs : qs ≠ [])
    (hp : ∀ s ∈ ps, nul ∉ s.toList) (hq : ∀ s ∈ qs, nul ∉ s.toList)
    (h : joined ps = joined qs) : ps = qs := by
  have hread : ∀ {rs : List String}, rs ≠ [] → (∀ s ∈ rs, nul ∉ s.toList) →
      ([nul].intercalate (rs.map String.toList)).splitOn nul = rs.map String.toList := by
    intro rs hne hr
    refine Lines.splitOn_join (fun hnil => hne (List.map_eq_nil_iff.mp hnil)) fun l hl => ?_
    obtain ⟨s, hs, rfl⟩ := List.mem_map.mp hl
    exact hr s hs
  have hlist := String.ofList_injective h
  have hmaps : ps.map String.toList = qs.map String.toList := by
    rw [← hread hps hp, hlist, hread hqs hq]
  exact List.map_injective_iff.mpr (fun _ _ => String.toList_inj.mp) hmaps

section Keys

variable {sha256Hex : String → String} (hinj : Function.Injective sha256Hex)
  (hhex : ∀ s, ∀ c ∈ (sha256Hex s).toList, c.isDigit = true ∨ 'a' ≤ c ∧ c ≤ 'f')

theorem deriveIdentity_hash {f : Finding} (h : f.target.isNative = false) :
    deriveIdentity sha256Hex f = sha256Hex (joined f.parts) := by
  unfold deriveIdentity
  cases ht : f.target <;> rw [ht] at h <;> first | rfl | cases h

/-- The key of a finding that has an id. -/
theorem deriveIdentity_native (sha256Hex : String → String) {f : Finding}
    (h : f.target.isNative = true) :
    (∃ id, f.target = .tension id ∧ deriveIdentity sha256Hex f = "tension:" ++ id) ∨
      ∃ id, f.target = .staged id ∧ deriveIdentity sha256Hex f = "staged:" ++ id := by
  obtain ⟨source, check, target, discriminator⟩ := f
  cases target with
  | tension id => exact Or.inl ⟨id, rfl, rfl⟩
  | staged id => exact Or.inr ⟨id, rfl, rfl⟩
  | lint path => cases h
  | staleness path => cases h
  | tier2 artifact unit edgeClass => cases h

theorem colon_mem (sha256Hex : String → String) {f : Finding} (h : f.target.isNative = true) :
    ':' ∈ (deriveIdentity sha256Hex f).toList := by
  rcases deriveIdentity_native sha256Hex h with ⟨id, -, hkey⟩ | ⟨id, -, hkey⟩
  · rw [hkey, String.toList_append]
    exact List.mem_append_left _ (by decide)
  · rw [hkey, String.toList_append]
    exact List.mem_append_left _ (by decide)

include hhex in
/-- **A hash is no key of an id.** -/
theorem identity_ne {f g : Finding} (hf : f.target.isNative = false)
    (hg : g.target.isNative = true) : deriveIdentity sha256Hex f ≠ deriveIdentity sha256Hex g := by
  intro heq
  have hcolon := colon_mem sha256Hex hg
  rw [← heq, deriveIdentity_hash hf] at hcolon
  rcases hhex _ _ hcolon with h | h <;> revert h <;> decide

theorem append_right_inj {s t u : String} (h : s ++ t = s ++ u) : t = u := by
  have hlist := congrArg String.toList h
  rw [String.toList_append, String.toList_append] at hlist
  exact String.toList_inj.mp (List.append_cancel_left hlist)

theorem tension_ne_staged (i j : String) : "tension:" ++ i ≠ "staged:" ++ j := by
  intro h
  have hlist := congrArg String.toList h
  rw [String.toList_append, String.toList_append] at hlist
  exact absurd (List.cons.inj hlist).1 (by decide)

theorem deriveIdentity_of_same {f g : Finding} (h : SameFinding f g) :
    deriveIdentity sha256Hex f = deriveIdentity sha256Hex g := by
  rcases h with ⟨id, hf, hg⟩ | ⟨id, hf, hg⟩ | rfl
  · simp only [deriveIdentity, hf, hg]
  · simp only [deriveIdentity, hf, hg]
  · rfl

theorem same_of_native {f g : Finding} (hf : f.target.isNative = true)
    (hg : g.target.isNative = true)
    (heq : deriveIdentity sha256Hex f = deriveIdentity sha256Hex g) : SameFinding f g := by
  rcases deriveIdentity_native sha256Hex hf with ⟨i, hi, hf⟩ | ⟨i, hi, hf⟩ <;>
    rcases deriveIdentity_native sha256Hex hg with ⟨j, hj, hg⟩ | ⟨j, hj, hg⟩ <;>
    rw [hf, hg] at heq
  · exact Or.inl ⟨i, hi, append_right_inj heq ▸ hj⟩
  · exact absurd heq (tension_ne_staged i j)
  · exact absurd heq.symm (tension_ne_staged j i)
  · exact Or.inr (Or.inl ⟨i, hi, append_right_inj heq ▸ hj⟩)

include hinj hhex in
/-- **Findings share a key exactly when they are one finding.** -/
theorem deriveIdentity_iff {f g : Finding} (hf : f.NulFree) (hg : g.NulFree) :
    deriveIdentity sha256Hex f = deriveIdentity sha256Hex g ↔ SameFinding f g := by
  refine ⟨fun heq => ?_, deriveIdentity_of_same⟩
  have hne : ∀ h : Finding, h.parts ≠ [] := fun h => List.cons_ne_nil _ _
  cases hfn : f.target.isNative with
  | true =>
      cases hgn : g.target.isNative with
      | true => exact same_of_native hfn hgn heq
      | false => exact absurd heq.symm (identity_ne hhex hgn hfn)
  | false =>
      cases hgn : g.target.isNative with
      | true => exact absurd heq (identity_ne hhex hfn hgn)
      | false =>
          rw [deriveIdentity_hash hfn, deriveIdentity_hash hgn] at heq
          exact Or.inr (Or.inr (parts_injective
            (joined_injective (hne f) (hne g) hf hg (hinj heq))))

end Keys

/-! ## The evidence -/

/-- The units of `__proto__`. -/
def protoName : List Nat := Text.units "__proto__".toList

/-- The place of a name that is an array index, as the properties of an object are ordered. -/
def arrayIndex (name : List Nat) : Option Nat :=
  let n := name.foldl (fun n u => n * 10 + (u - 48)) 0
  if name ≠ [] ∧ (∀ u ∈ name, 48 ≤ u ∧ u ≤ 57) ∧ (name.head? = some 48 → name = [48]) ∧
      n < 2 ^ 32 - 1 then some n
  else none

/-- The properties in the order in which an object lists them: indices first, by number. -/
def ownOrder (members : List (List Nat × Json)) : List (List Nat × Json) :=
  Stable.sort (fun a b => compare (arrayIndex a.1) (arrayIndex b.1))
      (members.filter fun m => (arrayIndex m.1).isSome)
    ++ members.filter fun m => !(arrayIndex m.1).isSome

/-- The order of `sort()`, by UTF-16 units. -/
def byName (a b : List Nat × Json) : Ordering := compare a.1 b.1

/-- `sorted[key] = value`; under `__proto__` it sets no property of its own. -/
def assign (sorted : List (List Nat × Json)) (m : List Nat × Json) : List (List Nat × Json) :=
  if m.1 = protoName then sorted else Assoc.set sorted m.1 m.2

/-- The object `sorted` at the end of the loop. -/
def rebuilt (members : List (List Nat × Json)) : List (List Nat × Json) :=
  ownOrder ((Stable.sort byName members).foldl assign [])

mutual

def canonicalizeEvidence : Json → Json
  | .arr items => .arr (canonicalizeItems items)
  | .obj members => .obj (rebuilt (canonicalizeMembers members))
  | value => value

def canonicalizeItems : List Json → List Json
  | [] => []
  | v :: vs => canonicalizeEvidence v :: canonicalizeItems vs

def canonicalizeMembers : List (List Nat × Json) → List (List Nat × Json)
  | [] => []
  | (k, v) :: ms => (k, canonicalizeEvidence v) :: canonicalizeMembers ms

end

def fingerprint (sha256Hex : String → String) (evidence : List (List Nat × Json)) : String :=
  sha256Hex (String.ofList (write (canonicalizeEvidence (.obj evidence))))

/-- A step into an object or an array. -/
inductive Place where
  | name (k : List Nat)
  | index (i : Nat)
deriving DecidableEq

/-- What stands at a path: a scalar, or the kind of what has parts. -/
def look : List Place → Json → Option Json
  | [], .arr _ => some (.arr [])
  | [], .obj _ => some (.obj [])
  | [], v => some v
  | .name k :: path, .obj members => (members.lookup k).bind (look path)
  | .index i :: path, .arr items => items[i]?.bind (look path)
  | _ :: _, _ => none

/-- Equal up to the order of the names, at every depth: every path reads alike. -/
def SameEvidence (v w : Json) : Prop := ∀ path, look path v = look path w

/-- Equal in that way outside the members named `__proto__`. -/
def SameBesidesProto (v w : Json) : Prop :=
  ∀ path, .name protoName ∉ path → look path v = look path w

theorem canonicalizeItems_eq (vs : List Json) :
    canonicalizeItems vs = vs.map canonicalizeEvidence := by
  induction vs with
  | nil => rfl
  | cons v vs ih => rw [canonicalizeItems, ih, List.map_cons]

theorem canonicalizeMembers_eq (ms : List (List Nat × Json)) :
    canonicalizeMembers ms = ms.map fun m => (m.1, canonicalizeEvidence m.2) := by
  induction ms with
  | nil => rfl
  | cons m ms ih => rw [canonicalizeMembers, ih, List.map_cons]

section Rebuilt

variable {ms ms' : List (List Nat × Json)}

theorem ownOrder_perm (ms : List (List Nat × Json)) : (ownOrder ms).Perm ms :=
  ((Stable.sort_perm _ _).append_right _).trans (List.filter_append_perm _ ms)

/-- Distinct names are written one after another. -/
theorem foldl_assign {acc : List (List Nat × Json)} (h : (Assoc.keys (acc ++ ms)).Nodup) :
    ms.foldl assign acc = acc ++ ms.filter fun m => m.1 ≠ protoName := by
  induction ms generalizing acc with
  | nil => rw [List.filter_nil, List.append_nil]; rfl
  | cons m ms ih =>
      have hperm : (Assoc.keys (acc ++ m :: ms)).Perm (m.1 :: Assoc.keys (acc ++ ms)) := by
        rw [Assoc.keys, Assoc.keys, List.map_append, List.map_append, List.map_cons]
        exact List.perm_middle
      obtain ⟨hm, hrest⟩ := List.nodup_cons.mp (hperm.nodup_iff.mp h)
      rw [List.foldl_cons]
      by_cases hproto : m.1 = protoName
      · rw [assign, if_pos hproto, ih hrest, List.filter_cons_of_neg (by simp [hproto])]
      · have hnew : m.1 ∉ Assoc.keys acc := fun hk => hm (by
          rw [Assoc.keys, List.map_append]
          exact List.mem_append_left _ hk)
        have hnext : (Assoc.keys ((acc ++ [m]) ++ ms)).Nodup := by
          rw [List.append_assoc]
          exact h
        rw [assign, if_neg hproto, Assoc.set_of_not_mem _ hnew, ih hnext,
          List.filter_cons_of_pos (by simpa using hproto), List.append_assoc]
        rfl

theorem rebuilt_eq (h : (Assoc.keys ms).Nodup) :
    rebuilt ms = ownOrder ((Stable.sort byName ms).filter fun m => m.1 ≠ protoName) := by
  have hsorted : (Assoc.keys ([] ++ Stable.sort byName ms)).Nodup :=
    ((Stable.sort_perm byName ms).map Prod.fst).nodup_iff.mpr h
  rw [rebuilt, foldl_assign hsorted]
  rfl

/-- **The rebuilt object has the members** but one. -/
theorem mem_rebuilt (h : (Assoc.keys ms).Nodup) {m : List Nat × Json} :
    m ∈ rebuilt ms ↔ m ∈ ms ∧ m.1 ≠ protoName := by
  rw [rebuilt_eq h, (ownOrder_perm _).mem_iff, List.mem_filter, (Stable.sort_perm _ _).mem_iff,
    decide_eq_true_iff]

theorem nodup_rebuilt (h : (Assoc.keys ms).Nodup) : (Assoc.keys (rebuilt ms)).Nodup := by
  rw [rebuilt_eq h]
  refine ((ownOrder_perm _).map Prod.fst).nodup_iff.mpr (List.Nodup.sublist ?_
    (((Stable.sort_perm byName ms).map Prod.fst).nodup_iff.mpr h))
  exact List.filter_sublist.map Prod.fst

instance : Std.TransCmp byName := Stable.transCmp_on compare Prod.fst

theorem eq_of_byName (h : (Assoc.keys ms).Nodup) {a b : List Nat × Json} (ha : a ∈ ms)
    (hb : b ∈ ms) (hcmp : byName a b = .eq) : a = b := by
  have hname : a.1 = b.1 := Std.LawfulEqCmp.eq_of_compare hcmp
  have ha' := Assoc.lookup_of_mem h (k := a.1) (v := a.2) ha
  have hb' := Assoc.lookup_of_mem h (k := b.1) (v := b.2) hb
  rw [hname] at ha'
  exact Prod.ext hname (Option.some.inj (ha'.symm.trans hb'))

/-- **The rebuilt object forgets the order**, whatever names look like indices. -/
theorem rebuilt_congr (h : (Assoc.keys ms).Nodup) (h' : (Assoc.keys ms').Nodup)
    (hsame : ∀ k, k ≠ protoName → ms.lookup k = ms'.lookup k) : rebuilt ms = rebuilt ms' := by
  have hmem : ∀ {ns : List (List Nat × Json)}, (Assoc.keys ns).Nodup → ∀ m,
      (m ∈ (Stable.sort byName ns).filter (fun m => m.1 ≠ protoName)
        ↔ ns.lookup m.1 = some m.2 ∧ m.1 ≠ protoName) := by
    intro ns hns m
    rw [List.mem_filter, (Stable.sort_perm _ _).mem_iff, decide_eq_true_iff]
    exact and_congr_left fun _ => ⟨Assoc.lookup_of_mem hns, Assoc.mem_of_lookup⟩
  have hnodup : ∀ {ns : List (List Nat × Json)}, (Assoc.keys ns).Nodup →
      ((Stable.sort byName ns).filter fun m => m.1 ≠ protoName).Nodup := fun hns =>
    ((Stable.sort_perm _ _).nodup_iff.mpr (List.Nodup.of_map _ hns)).filter _
  have hperm : ((Stable.sort byName ms).filter fun m => m.1 ≠ protoName).Perm
      ((Stable.sort byName ms').filter fun m => m.1 ≠ protoName) := by
    refine (List.perm_ext_iff_of_nodup (hnodup h) (hnodup h')).mpr fun m => ?_
    rw [hmem h, hmem h']
    exact and_congr_left fun hm => by rw [hsame _ hm]
  rw [rebuilt_eq h, rebuilt_eq h']
  refine congrArg ownOrder (hperm.eq_of_pairwise ?_ ((Stable.sort_pairwise byName ms).filter _)
    ((Stable.sort_pairwise byName ms').filter _))
  intro a b ha hb hab hba
  have ha' : a ∈ ms := Assoc.mem_of_lookup ((hmem h a).mp ha).1
  have hb' : b ∈ ms := Assoc.mem_of_lookup ((hmem h b).mp (hperm.mem_iff.mpr hb)).1
  exact eq_of_byName h ha' hb' (Stable.eq_of_le_of_le byName hab hba)

end Rebuilt

theorem keys_map (ms : List (List Nat × Json)) :
    Assoc.keys (ms.map fun m => (m.1, canonicalizeEvidence m.2)) = ms.map Prod.fst := by
  rw [Assoc.keys, List.map_map]
  rfl

theorem lookup_map (ms : List (List Nat × Json)) (k : List Nat) :
    (ms.map fun m => (m.1, canonicalizeEvidence m.2)).lookup k
      = (ms.lookup k).map canonicalizeEvidence := by
  induction ms with
  | nil => rfl
  | cons m ms ih =>
      rw [List.map_cons, List.lookup_cons, List.lookup_cons, ih]
      cases k == m.1 <;> rfl

theorem canonicalizeEvidence_proper {v : Json} (h : Proper v) :
    Proper (canonicalizeEvidence v) := by
  induction h with
  | null => exact Proper.null
  | bool b => exact Proper.bool b
  | num h => exact Proper.num h
  | str h => exact Proper.str h
  | arr h ih =>
      rw [canonicalizeEvidence, canonicalizeItems_eq]
      refine Proper.arr fun v hv => ?_
      obtain ⟨w, hw, rfl⟩ := List.mem_map.mp hv
      exact ih w hw
  | obj hnames hunits h ih =>
      rename_i ms
      rw [canonicalizeEvidence, canonicalizeMembers_eq]
      have hkeys := hnames
      rw [← keys_map] at hkeys
      have hfrom : ∀ m ∈ rebuilt (ms.map fun m => (m.1, canonicalizeEvidence m.2)),
          ∃ n ∈ ms, (n.1, canonicalizeEvidence n.2) = m := fun m hm =>
        List.mem_map.mp ((mem_rebuilt hkeys).mp hm).1
      refine Proper.obj (nodup_rebuilt hkeys) (fun m hm => ?_) fun m hm => ?_
      · obtain ⟨n, hn, rfl⟩ := hfrom m hm
        exact hunits n hn
      · obtain ⟨n, hn, rfl⟩ := hfrom m hm
        exact ih n hn

/-- **Outside `__proto__` the rebuilt value reads like the value.** -/
theorem look_canonicalizeEvidence {v : Json} (h : Proper v) {path : List Place}
    (hpath : .name protoName ∉ path) : look path (canonicalizeEvidence v) = look path v := by
  induction path generalizing v with
  | nil => cases v <;> rfl
  | cons p path ih =>
      obtain ⟨hp, hrest⟩ := not_or.mp (List.mem_cons.not.mp hpath)
      cases h with
      | null => rfl
      | bool b => rfl
      | num h => rfl
      | str h => rfl
      | arr h =>
          rename_i items
          rw [canonicalizeEvidence, canonicalizeItems_eq]
          cases p with
          | name k => rfl
          | index i =>
              rw [look, look, List.getElem?_map]
              cases hi : items[i]? with
              | none => rfl
              | some w => exact ih (h w (List.mem_of_getElem? hi)) hrest
      | obj hnames hunits h =>
          rename_i ms
          rw [canonicalizeEvidence, canonicalizeMembers_eq]
          cases p with
          | index i => rfl
          | name k =>
              have hk : k ≠ protoName := fun he => hp (he ▸ rfl)
              have hkeys := hnames
              rw [← keys_map] at hkeys
              have hlookup : (rebuilt (ms.map fun m => (m.1, canonicalizeEvidence m.2))).lookup k
                  = (ms.lookup k).map canonicalizeEvidence := by
                rw [← lookup_map]
                refine Option.ext fun w => ⟨fun hw => ?_, fun hw => ?_⟩
                · have hin := (mem_rebuilt hkeys).mp (Assoc.mem_of_lookup hw)
                  exact Assoc.lookup_of_mem hkeys hin.1
                · exact Assoc.lookup_of_mem (nodup_rebuilt hkeys)
                    ((mem_rebuilt hkeys).mpr ⟨Assoc.mem_of_lookup hw, hk⟩)
              rw [look, look, hlookup]
              cases hw : ms.lookup k with
              | none => rfl
              | some w => exact ih (h _ (Assoc.mem_of_lookup hw)) hrest

theorem look_nil_ne_none (v : Json) : look [] v ≠ none := by
  cases v <;> exact Option.some_ne_none _

/-- What the two values have at one place reads alike, or neither has anything there. -/
theorem parts_agree {x y : Option Json}
    (hagree : ∀ rest, .name protoName ∉ rest → x.bind (look rest) = y.bind (look rest))
    (heq : ∀ v w, x = some v → y = some w → SameBesidesProto v w →
      canonicalizeEvidence v = canonicalizeEvidence w) :
    x.map canonicalizeEvidence = y.map canonicalizeEvidence := by
  have hhere := hagree [] List.not_mem_nil
  cases x with
  | none =>
      cases y with
      | none => rfl
      | some w => exact absurd hhere.symm (look_nil_ne_none w)
  | some v =>
      cases y with
      | none => exact absurd hhere (look_nil_ne_none v)
      | some w => exact congrArg some (heq v w rfl rfl hagree)

/-- **Values that read alike outside `__proto__` are rebuilt alike.** -/
theorem canonicalizeEvidence_congr {v w : Json} (hv : Proper v) (hw : Proper w)
    (h : SameBesidesProto v w) : canonicalizeEvidence v = canonicalizeEvidence w := by
  have hhere := fun {v w : Json} (h : SameBesidesProto v w) => h [] List.not_mem_nil
  induction hv generalizing w with
  | null => cases hw <;> first | rfl | cases hhere h
  | bool b => cases hw <;> first | cases hhere h; rfl | cases hhere h
  | num hn => cases hw <;> first | cases hhere h; rfl | cases hhere h
  | str hs => cases hw <;> first | cases hhere h; rfl | cases hhere h
  | arr hvs ih =>
      cases hw with
      | arr hws =>
          rw [canonicalizeEvidence, canonicalizeEvidence, canonicalizeItems_eq,
            canonicalizeItems_eq]
          refine congrArg Json.arr (List.ext_getElem? fun i => ?_)
          rw [List.getElem?_map, List.getElem?_map]
          refine parts_agree (fun rest hrest => h (.index i :: rest) ?_) fun x y hx hy hxy => ?_
          · exact List.mem_cons.not.mpr (not_or.mpr ⟨nofun, hrest⟩)
          · exact ih x (List.mem_of_getElem? hx) (hws y (List.mem_of_getElem? hy)) hxy
      | _ => cases hhere h
  | obj hnames hunits hms ih =>
      cases hw with
      | obj hnames' hunits' hms' =>
          rw [canonicalizeEvidence, canonicalizeEvidence, canonicalizeMembers_eq,
            canonicalizeMembers_eq]
          refine congrArg Json.obj (rebuilt_congr ?_ ?_ fun k hk => ?_)
          · rw [keys_map]
            exact hnames
          · rw [keys_map]
            exact hnames'
          · rw [lookup_map, lookup_map]
            refine parts_agree (fun rest hrest => h (.name k :: rest) ?_)
              fun x y hx hy hxy => ?_
            · exact List.mem_cons.not.mpr
                (not_or.mpr ⟨fun he => hk (Place.name.inj he).symm, hrest⟩)
            · exact ih _ (Assoc.mem_of_lookup hx) (hms' _ (Assoc.mem_of_lookup hy)) hxy
      | _ => cases hhere h

/-- **Fingerprints see the evidence outside `__proto__`.** -/
theorem fingerprint_iff {sha256Hex : String → String} (hinj : Function.Injective sha256Hex)
    {e e' : List (List Nat × Json)} (he : Proper (.obj e)) (he' : Proper (.obj e')) :
    fingerprint sha256Hex e = fingerprint sha256Hex e' ↔ SameBesidesProto (.obj e) (.obj e') := by
  constructor
  · intro heq path hpath
    have htext := String.ofList_injective (hinj heq)
    have hvalue := write_injective (canonicalizeEvidence_proper he)
      (canonicalizeEvidence_proper he') htext
    rw [← look_canonicalizeEvidence he hpath, hvalue, look_canonicalizeEvidence he' hpath]
  · intro h
    exact congrArg (fun v => sha256Hex (String.ofList (write v)))
      (canonicalizeEvidence_congr he he' h)

/-! ## Both together -/

/-- What the header promises of two findings and of two pieces of evidence. -/
structure OneIdentityEach (sha256Hex : String → String) (f g : Finding)
    (e e' : List (List Nat × Json)) : Prop where
  key_iff : deriveIdentity sha256Hex f = deriveIdentity sha256Hex g ↔ SameFinding f g
  hash_ne_native : f.target.isNative = false → g.target.isNative = true →
    deriveIdentity sha256Hex f ≠ deriveIdentity sha256Hex g
  fingerprint_iff : fingerprint sha256Hex e = fingerprint sha256Hex e'
    ↔ SameEvidence (.obj e) (.obj e')

/-- **The promise is kept unless two pieces of evidence differ in members named
    `__proto__` alone.** -/
theorem one_identity_iff {sha256Hex : String → String} (hinj : Function.Injective sha256Hex)
    (hhex : ∀ s, ∀ c ∈ (sha256Hex s).toList, c.isDigit = true ∨ 'a' ≤ c ∧ c ≤ 'f')
    {f g : Finding} (hf : f.NulFree) (hg : g.NulFree) {e e' : List (List Nat × Json)}
    (he : Proper (.obj e)) (he' : Proper (.obj e')) :
    OneIdentityEach sha256Hex f g e e' ↔
      (SameBesidesProto (.obj e) (.obj e') → SameEvidence (.obj e) (.obj e')) := by
  constructor
  · rintro ⟨-, -, hprint⟩ hbesides
    exact hprint.mp ((fingerprint_iff hinj he he').mpr hbesides)
  · intro honly
    refine ⟨deriveIdentity_iff hinj hhex hf hg, identity_ne hhex, ?_⟩
    rw [fingerprint_iff hinj he he']
    exact ⟨honly, fun hsame path _ => hsame path⟩

/-! ## A member that is not seen -/

def aFinding : Finding := ⟨.lint, "missingProvenance", .lint "notes/a.md", none⟩

def plainEvidence : List (List Nat × Json) := [(Text.units "detail".toList, .bool true)]

def protoEvidence : List (List Nat × Json) := (protoName, .num ['1']) :: plainEvidence

/-- A hash without collisions: every character as so many zeros and a one. -/
def tally (s : String) : String :=
  String.ofList (s.toList.flatMap fun c => List.replicate c.toNat '0' ++ ['1'])

theorem replicate_inj {m n : Nat} {u v : List Char}
    (h : List.replicate m '0' ++ '1' :: u = List.replicate n '0' ++ '1' :: v) : m = n ∧ u = v := by
  induction m generalizing n with
  | zero =>
      cases n with
      | zero => exact ⟨rfl, (List.cons.inj h).2⟩
      | succ n => exact absurd (List.cons.inj h).1 (by decide)
  | succ m ih =>
      cases n with
      | zero => exact absurd (List.cons.inj h).1 (by decide)
      | succ n =>
          obtain ⟨rfl, huv⟩ := ih (List.cons.inj h).2
          exact ⟨rfl, huv⟩

theorem tally_injective : Function.Injective tally := by
  intro s t h
  refine String.toList_inj.mp ?_
  have hlist := String.ofList_injective h
  generalize s.toList = cs at hlist ⊢
  generalize t.toList = ds at hlist ⊢
  induction cs generalizing ds with
  | nil =>
      cases ds with
      | nil => rfl
      | cons d ds => simp at hlist
  | cons c cs ih =>
      cases ds with
      | nil => simp at hlist
      | cons d ds =>
          rw [List.flatMap_cons, List.flatMap_cons, List.append_assoc, List.append_assoc] at hlist
          obtain ⟨hcd, hrest⟩ := replicate_inj hlist
          rw [ih ds hrest, Char.toNat_inj.mp hcd]

theorem tally_hex (s : String) : ∀ c ∈ (tally s).toList, c.isDigit = true ∨ 'a' ≤ c ∧ c ≤ 'f' := by
  intro c hc
  rw [tally, String.toList_ofList] at hc
  obtain ⟨d, -, hd⟩ := List.mem_flatMap.mp hc
  rcases List.mem_append.mp hd with hd | hd
  · rw [(List.mem_replicate.mp hd).2]
    exact Or.inl rfl
  · rw [List.mem_singleton.mp hd]
    exact Or.inl rfl

/-- **A member named `__proto__` is not seen**, with a hash that has no collisions. -/
theorem proto_unseen : Function.Injective tally ∧
    ¬ OneIdentityEach tally aFinding aFinding protoEvidence plainEvidence := by
  refine ⟨tally_injective, fun h => ?_⟩
  have htext : write (canonicalizeEvidence (.obj protoEvidence))
      = write (canonicalizeEvidence (.obj plainEvidence)) := by decide +kernel
  have hsame := h.fingerprint_iff.mp (congrArg (fun s => tally (String.ofList s)) htext)
  have hproto : look [.name protoName] (.obj protoEvidence) = some (.num ['1']) := by
    rfl
  have hplain : look [.name protoName] (.obj plainEvidence) = none := rfl
  have hpath := hsame [.name protoName]
  cases hpath

def otherFinding : Finding :=
  ⟨.tier2, "compat", .tier2 "notes/a.md" "notes/b.md" "cites", some "x"⟩

def indexName : List Nat := Text.units "10".toList

/-- **Two orders of the same members**, one of them a name that objects list first. -/
theorem one_identity_two_orders :
    OneIdentityEach tally aFinding otherFinding ((indexName, .null) :: plainEvidence)
      (plainEvidence ++ [(indexName, .null)]) := by
  have hproper : ∀ m ∈ (indexName, Json.null) :: plainEvidence, Proper m.2 := by
    rintro m (_ | ⟨_, _ | ⟨_, ⟨⟩⟩⟩)
    · exact Proper.null
    · exact Proper.bool true
  have hproper' : ∀ m ∈ plainEvidence ++ [(indexName, Json.null)], Proper m.2 := fun m hm =>
    hproper m (List.perm_append_comm.mem_iff.mp hm)
  refine (one_identity_iff tally_injective tally_hex (by unfold Finding.NulFree; decide)
    (by unfold Finding.NulFree; decide) (Proper.obj (by decide) (by decide) hproper)
    (Proper.obj (by decide) (by decide) hproper')).mpr fun _ path => ?_
  cases path with
  | nil => rfl
  | cons p path =>
      cases p with
      | index i => rfl
      | name k =>
          have hlookup : ((indexName, Json.null) :: plainEvidence).lookup k
              = (plainEvidence ++ [(indexName, Json.null)]).lookup k := by
            by_cases hk : k = indexName
            · rw [hk]
              rfl
            · have hne : (k == indexName) = false := beq_false_of_ne hk
              simp only [plainEvidence, List.cons_append, List.nil_append, List.lookup_cons, hne]
          rw [look, look, hlookup]

end Identity
