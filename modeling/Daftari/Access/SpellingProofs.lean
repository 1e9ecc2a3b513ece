import Daftari.Access.PathsProofs
import Daftari.Lib.TextProofs

/-! # Spellings — the one form a path is compared in

    A caller may write a path with `./`, `..`, doubled or back slashes, and with
    space around it.  `canonicalRel` is the form all these have in common, and
    the gates on a source look at it: a path that is blank or climbs out of the
    vault is readable by no role.

    * `exists_spelling`: **every path has spellings that are not on a given list.** -/

namespace Rbac

/-- `replace(/\\/g, "/")`. -/
def slashes (p : Path) : Path := p.map fun c => if c = '\\' then '/' else c

def canonicalRel (p : Path) : Path :=
  let n := normalize (slashes (Text.trim p))
  if n = ['.'] then [] else if ['.', '/'] <+: n then n.drop 2 else n

/-- `collectionForPath`, without an index. -/
def collectionForPath (path : Path) : String :=
  String.ofList ((path.splitOn '/').headD [])

/-- `sourceReadable`; `collection` is `collectionForPath` over the index, if there is one. -/
def sourceReadable (collection : Path → String) (access : AccessContext) (source : Path) : Bool :=
  let canonical := canonicalRel source
  if canonical = [] ∨ ['.', '.'] <+: canonical then false
  else canRead access.role (collection canonical)

/-- `canSeeTension`; no access context sees everything. -/
def canSeeTension (collection : Path → String) (access : Option AccessContext)
    (sourceA sourceB : Path) : Bool :=
  match access with
  | none => true
  | some a => sourceReadable collection a sourceA && sourceReadable collection a sourceB

/-! ## Longer spellings -/

/-- One step further from the canonical spelling: a `./` before a relative path, a `/`
    before one that is not. -/
def respell (p : Path) : Path :=
  let q := Text.trim p
  if (slashes q).head? = some '/' then '/' :: q else '.' :: '/' :: q

theorem trim_cons {a : Char} {q : Path} (ha : Text.isSpace a = false)
    (hq : Text.trimEnd q = q) : Text.trim (a :: q) = a :: q := by
  rw [Text.trim, Text.trimStart_cons ha, Text.trimEnd, List.rdropWhile_eq_self_iff]
  intro hne hlast
  cases q with
  | nil => simp [ha] at hlast
  | cons c q =>
      have hself := List.rdropWhile_eq_self_iff.mp hq (List.cons_ne_nil c q)
      exact hself hlast

variable (p : Path)

theorem trimEnd_trim : Text.trimEnd (Text.trim p) = Text.trim p :=
  List.rdropWhile_idempotent _ _

theorem splitOn_cons_here : ('.' :: '/' :: p).splitOn '/' = ['.'] :: p.splitOn '/' := by
  rfl

theorem normalSegments_cons (above : Bool) {seg : Path} (h : seg = [] ∨ seg = ['.'])
    (segs : List Path) : normalSegments above (seg :: segs) = normalSegments above segs := by
  unfold normalSegments
  rw [List.foldl_cons, if_pos h]

theorem normalize_cons_here {p : Path} (hne : p ≠ []) (hrel : p.head? ≠ some '/') :
    normalize ('.' :: '/' :: p) = normalize p := by
  have hp : normalize p = normalizeRelative p := by
    cases p with
    | nil => exact absurd rfl hne
    | cons c p =>
        unfold normalize
        split
        · rename_i h
          cases h
        · rename_i h
          cases h
          exact absurd rfl hrel
        · rfl
  rw [hp]
  show normalizeRelative ('.' :: '/' :: p) = _
  unfold normalizeRelative
  have hlast : ('.' :: '/' :: p).getLast? = p.getLast? := by
    cases p with
    | nil => exact absurd rfl hne
    | cons c p => exact List.getLast?_cons_cons
  rw [splitOn_cons_here, normalSegments_cons true (Or.inr rfl), hlast]

theorem normalize_cons_slash : normalize ('/' :: '/' :: p) = normalize ('/' :: p) := by
  show (if joinSegments (normalSegments false (('/' :: p).splitOn '/')) ≠ [] ∧
      ('/' :: p).getLast? = some '/' then _ else _) = _
  cases p with
  | nil => rfl
  | cons c p =>
      rfl

theorem trim_respell : Text.trim (respell p) = respell p := by
  have hend := trimEnd_trim p
  unfold respell
  by_cases habs : (slashes (Text.trim p)).head? = some '/'
  · simp only [habs, if_true]
    exact trim_cons (by decide) hend
  · simp only [habs, if_false]
    have hstep : Text.trimEnd ('/' :: Text.trim p) = '/' :: Text.trim p := by
      have htrim := trim_cons (by decide : Text.isSpace '/' = false) hend
      rwa [Text.trim, Text.trimStart_cons (by decide)] at htrim
    exact trim_cons (by decide) hstep

theorem canonicalRel_respell : canonicalRel (respell p) = canonicalRel p := by
  unfold canonicalRel
  rw [trim_respell]
  unfold respell
  by_cases habs : (slashes (Text.trim p)).head? = some '/'
  · simp only [habs, if_true]
    obtain ⟨rest, hrest⟩ : ∃ rest, slashes (Text.trim p) = '/' :: rest := by
      cases hs : slashes (Text.trim p) with
      | nil =>
          rw [hs] at habs
          cases habs
      | cons c rest =>
          rw [hs] at habs
          exact ⟨rest, by rw [Option.some.inj habs]⟩
    have hcons : slashes ('/' :: Text.trim p) = '/' :: '/' :: rest := by
      rw [← hrest]
      rfl
    rw [hcons, hrest, normalize_cons_slash]
  · simp only [habs, if_false]
    have hcons : slashes ('.' :: '/' :: Text.trim p) = '.' :: '/' :: slashes (Text.trim p) := rfl
    rw [hcons]
    by_cases hnil : slashes (Text.trim p) = []
    · -- the blank path
      rw [hnil]
      decide
    · rw [normalize_cons_here hnil habs]

theorem length_respell : (Text.trim p).length < (respell p).length := by
  unfold respell
  by_cases habs : (slashes (Text.trim p)).head? = some '/'
  · simp only [habs, if_true, List.length_cons]
    omega
  · simp only [habs, if_false, List.length_cons]
    omega

theorem exists_long_spelling (n : Nat) :
    ∃ q, canonicalRel q = canonicalRel p ∧ Text.trim q = q ∧ n ≤ q.length := by
  induction n with
  | zero => exact ⟨respell p, canonicalRel_respell p, trim_respell p, Nat.zero_le _⟩
  | succ n ih =>
      obtain ⟨q, hq, htrim, hlen⟩ := ih
      have hlonger := length_respell q
      rw [htrim] at hlonger
      exact ⟨respell q, (canonicalRel_respell q).trans hq, trim_respell q, by omega⟩

/-- **There is a spelling that is not on the list.** -/
theorem exists_spelling (l : List Path) :
    ∃ q, canonicalRel q = canonicalRel p ∧ Text.trim q = q ∧ q ∉ l := by
  obtain ⟨q, hq, htrim, hlen⟩ := exists_long_spelling p (l.flatten.length + 1)
  refine ⟨q, hq, htrim, ?_⟩
  intro hmem
  have hle := (List.sublist_flatten_of_mem hmem).length_le
  omega

end Rbac
