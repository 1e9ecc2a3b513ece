import Daftari.Access.SpellingProofs
import Daftari.Curation.TensionLogProofs
import Daftari.Lib.SortProofs

/-! # Contested hits — the tension log joined onto search results

    Every unresolved entry of the log is filed under the canonical form of each
    of its two sources, and a hit is annotated with what is filed under the
    canonical form of its path, as far as the caller may read the other side.

    * `Respelled`: two logs that differ in how their sources are spelled. -/

namespace Contested

open Tension Rbac

/-- A log whose sources may be spelled differently. -/
structure SameButSpelling (e e' : TensionEntry) : Prop where
  sourceA : canonicalRel e.sourceA = canonicalRel e'.sourceA
  sourceB : canonicalRel e.sourceB = canonicalRel e'.sourceB
  rest : e' = { e with sourceA := e'.sourceA, sourceB := e'.sourceB }

abbrev Respelled : List TensionEntry → List TensionEntry → Prop :=
  List.Forall₂ SameButSpelling

def contestedCap : Nat := 3

structure SideRecord where
  order : Nat
  id : Option Str
  kind : TensionKind
  date : Str
  counterpart : Path
  claimSelf : Str
  claimOther : Str
deriving DecidableEq

structure ContestedTension where
  id : Option Str
  kind : TensionKind
  counterpart : Path
  claimSelf : Str
  claimOther : Str
  loggedAt : Str
deriving DecidableEq

/-- What one entry files, under which path. -/
def sides (entry : TensionEntry) (order : Nat) : List (Path × SideRecord) :=
  if entry.resolved then []
  else
    let a := canonicalRel entry.sourceA
    let b := canonicalRel entry.sourceB
    if a = [] ∨ b = [] then []
    else
      (a, ⟨order, entry.id, entry.kind, entry.date, b, entry.claimA, entry.claimB⟩) ::
        if a ≠ b then
          [(b, ⟨order, entry.id, entry.kind, entry.date, a, entry.claimB, entry.claimA⟩)]
        else []

/-- `buildByPath`, as the records in the order they are filed. -/
def buildByPath (entries : List TensionEntry) : List (Path × SideRecord) :=
  (entries.zipIdx.map fun e => sides e.1 e.2).flatten

/-- The order of the annotations: the later date first, then the later entry. -/
def compareRecords (localeCompare : Str → Str → Ordering) (x y : SideRecord) : Ordering :=
  (localeCompare y.date x.date).then (compare y.order x.order)

def SideRecord.shown (r : SideRecord) : ContestedTension :=
  ⟨r.id, r.kind, r.counterpart, r.claimSelf, r.claimOther, r.date⟩

/-- `contestedFor`: the records are filtered for a caller with an access context when the
    index is open; `index` is `collectionForPath` over it. -/
def contestedFor (localeCompare : Str → Str → Ordering) (entries : List TensionEntry)
    (index : Option (Path → String)) (hitPath : Path) (access : Option AccessContext) :
    Option (List ContestedTension × Nat) :=
  let records := ((buildByPath entries).filter fun r => r.1 = canonicalRel hitPath).map Prod.snd
  let visible := match access, index with
    | some a, some collection =>
        records.filter fun r => sourceReadable collection a r.counterpart
    | _, _ => records
  if visible = [] then none
  else
    let ordered := Stable.sort (compareRecords localeCompare) visible
    some ((ordered.take contestedCap).map SideRecord.shown, ordered.length)

end Contested
