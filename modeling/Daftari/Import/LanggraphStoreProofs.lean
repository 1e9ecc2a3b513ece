import Daftari.Access.PathsProofs
import Daftari.Distill.ExtractProofs
import Daftari.Lib.JsonTextProofs
import Daftari.Lib.LikeProofs
import Daftari.Lib.LinesProofs

/-! # The LangGraph store — one note for a memory

    `import/langgraph-store.ts`.  The rows of a store below a namespace become notes, each in a file
    that is named by the last segment of the row's namespace, a slug of the title and the first
    eight units of the key.  The namespace goes into a `LIKE` pattern as it is, and the name goes
    through `join`.

    * `import_exact_iff`: **every memory has a file of its own, and the rows are those below the
      namespace, exactly if the namespace has no special character and the names of the files stay
      below the folder and out of each other's way.** -/

namespace LanggraphStore

open Rbac (Path normalSegments joinSegments NormalPath NormalSegment)
open JsonText (Json ofUnits)

/-! ## Rows -/

structure StoreRow where
  storePrefix : List Char
  key : List Char
  value : Json
  created_at : List Char
  updated_at : List Char

/-- What the code asks of its host. -/
structure Host where
  toLowerCase : List Char → List Char
  /-- `isoDate`. -/
  isoDate : List Char → List Char
  /-- `dump` of js-yaml. -/
  dump : List (String × List (List Char)) → List Char
  /-- `ORDER BY prefix, key`, in the collation of the database. -/
  orderBy : List StoreRow → List StoreRow

def pattern (ns : List Char) : List Char := ns ++ ['.', '%']

/-- `readStoreRows`: an empty namespace is none. -/
def readStoreRows (host : Host) (store : List StoreRow) (ns : List Char) : List StoreRow :=
  host.orderBy (if ns = [] then store
    else store.filter fun row => row.storePrefix = ns || Like.like (pattern ns) row.storePrefix)

/-! ## Notes -/

/-- `[^a-z0-9]+` as dashes, cut to sixty characters. -/
def slugifyKey (host : Host) (text : List Char) : List Char :=
  let slug := (((Distill.dashed false (host.toLowerCase text)).dropWhile (· = '-')).rdropWhile
    (· = '-')).take 60
  if slug = [] then "memory".toList else slug

/-- The kind of a value, and its text if it is a semantic memory. -/
def classify (host : Host) (value : Json) : List Char × Option (List Char) :=
  if JsonText.isObject value = false then ("unknown".toList, none)
  else
    let kind := ((JsonText.strOf (JsonText.field value "kind")).map ofUnits).getD
      "unknown".toList
    let lower := host.toLowerCase kind
    if "episod".toList <:+: lower ∨ "procedur".toList <:+: lower then (kind, none)
    else
      match JsonText.field value "content" with
      | some (.str s) => (kind, some (ofUnits s))
      | some inner =>
          (kind, (JsonText.strOf (JsonText.field inner "content")).map ofUnits)
      | none => (kind, none)

/-- Each run of white space as one blank; the flag is set inside a run. -/
def spaced : Bool → List Char → List Char
  | _, [] => []
  | inRun, c :: rest =>
      if Text.isSpace c then if inRun then spaced true rest else ' ' :: spaced true rest
      else c :: spaced false rest

/-- The first ten words. -/
def titleOf (text : List Char) : List Char :=
  [' '].intercalate (((spaced false text).splitOn ' ').take 10)

/-- The last segment of the namespace: what comes after the last dot. -/
def sessionOf (row : StoreRow) : List Char := row.storePrefix.rtakeWhile (· ≠ '.')

/-- `langgraph-store:<prefix>/<key>`. -/
def sourceRef (row : StoreRow) : List Char :=
  "langgraph-store:".toList ++ row.storePrefix ++ '/' :: row.key

/-- The first eight units of the key, as a file name spells them. -/
def key8 (row : StoreRow) : List Char := ofUnits ((Text.units row.key).take 8)

def fileName (host : Host) (row : StoreRow) (text : List Char) : List Char :=
  slugifyKey host (titleOf text) ++ "--".toList ++ key8 row ++ ".md".toList

/-- What is joined below the collection. -/
def steps (host : Host) (row : StoreRow) (text : List Char) : List Path :=
  (sessionOf row).splitOn '/' ++ (fileName host row text).splitOn '/'

/-- `join` of a collection, which is not absolute, and of what comes below it. -/
def relPathOf (host : Host) (collection : Path) (row : StoreRow) (text : List Char) : Path :=
  joinSegments (normalSegments true (collection.splitOn '/' ++ steps host row text))

structure DerivedNote where
  relPath : Path
  title : List Char
  body : List Char
  sourceRef : List Char
  session : List Char

/-- The frontmatter of a note; what is null has no value. -/
def frontmatterOf (host : Host) (collection : Path) (agent : List Char) (row : StoreRow)
    (text : List Char) : List (String × List (List Char)) :=
  [("title", [titleOf text]), ("domain", ["accumulation".toList]), ("collection", [collection]),
    ("status", ["draft".toList]), ("confidence", ["medium".toList]),
    ("created", [host.isoDate row.created_at]), ("updated", [host.isoDate row.updated_at]),
    ("updated_by", [agent]), ("provenance", ["direct".toList]), ("sources", [sourceRef row]),
    ("superseded_by", []), ("ttl_days", []),
    ("tags", ["langgraph-import".toList, "session:".toList ++ sessionOf row])]

/-- The file of a row: its frontmatter, its text and where it comes from. -/
def bodyOf (host : Host) (collection : Path) (agent : List Char) (row : StoreRow)
    (text : List Char) : List Char :=
  ['\n'].intercalate
    ["---".toList, Text.trimEnd (host.dump (frontmatterOf host collection agent row text)),
      "---".toList, [], Text.trim text, [], "## Provenance".toList, [],
      "- **Store:** langgraph `store` table (read-only import)".toList,
      "- **Namespace:** `".toList ++ row.storePrefix ++ "`".toList,
      "- **Memory id:** `".toList ++ row.key ++ "`".toList,
      "- **Memory kind:** ".toList ++ (classify host row.value).1,
      "- **Store created_at:** ".toList ++ row.created_at,
      "- **Store updated_at:** ".toList ++ row.updated_at, []]

def noteOf (host : Host) (collection : Path) (agent : List Char) (row : StoreRow)
    (text : List Char) : DerivedNote where
  relPath := relPathOf host collection row text
  title := titleOf text
  body := bodyOf host collection agent row text
  sourceRef := sourceRef row
  session := sessionOf row

/-- `ImportPlan`; the counts are in the order of first occurrence. -/
structure ImportPlan where
  notes : List DerivedNote
  skipped : List (List Char × Nat)
  byPrefix : List (List Char × Nat)

/-- How often each name occurs. -/
def tally (names : List (List Char)) : List (List Char × Nat) :=
  (names.reverse.dedup.reverse).map fun name => (name, names.count name)

def deriveNotes (host : Host) (collection : Path) (agent : List Char) (rows : List StoreRow) :
    ImportPlan where
  notes := rows.filterMap fun row =>
    (classify host row.value).2.map (noteOf host collection agent row)
  skipped := tally (rows.filterMap fun row =>
    if (classify host row.value).2 = none then some (classify host row.value).1 else none)
  byPrefix := tally (rows.filterMap fun row =>
    (classify host row.value).2.map fun _ => row.storePrefix)

attribute [local instance] Text.lawful

abbrev Files := Table Path (List Char)

/-- The writes of `applyPlan`, and how many it says there were; a write that fails ends it. -/
def applyPlan (plan : ImportPlan) (files : Files) : Files × Nat :=
  (plan.notes.foldl (fun files note => files.set note.relPath note.body) files,
    plan.notes.length)

/-! ## What an import is to do -/

def memories (host : Host) (rows : List StoreRow) : List (StoreRow × List Char) :=
  rows.filterMap fun row => (classify host row.value).2.map fun text => (row, text)

/-- Two files that do not get in each other's way: neither is the other, nor a folder of it. -/
def Clear (p q : Path) : Prop :=
  p ≠ q ∧ ∀ below, q ≠ p ++ '/' :: below ∧ p ≠ q ++ '/' :: below

/-- **No memory is lost**: each has its own path inside the collection folder, as many files are
    written as there are notes, and each holds the note of its row. -/
structure Imported (host : Host) (collection : Path) (agent : List Char)
    (rows : List StoreRow) : Prop where
  inside : ∀ note ∈ (deriveNotes host collection agent rows).notes,
    ∃ below, below ≠ [] ∧ note.relPath = collection ++ '/' :: below
  own : ((deriveNotes host collection agent rows).notes.map DerivedNote.relPath).Pairwise Clear
  written : ∀ files, (applyPlan (deriveNotes host collection agent rows) files).2 =
    ((deriveNotes host collection agent rows).notes.map DerivedNote.relPath).dedup.length
  held : ∀ files, ∀ e ∈ memories host rows,
    (applyPlan (deriveNotes host collection agent rows) files).1.find
        (relPathOf host collection e.1 e.2) = some (bodyOf host collection agent e.1 e.2)

def ReadsBelow (host : Host) (ns : List Char) : Prop :=
  ∀ store, ∀ row, row ∈ readStoreRows host store ns ↔ row ∈ store ∧ Like.Under ns row.storePrefix

/-- The steps of a path never lead above their start; `depth` is how far below it they are. -/
def stays : Nat → List Path → Bool
  | _, [] => true
  | depth, seg :: rest =>
      if seg = [] ∨ seg = ['.'] then stays depth rest
      else if seg = ['.', '.'] then depth ≠ 0 && stays (depth - 1) rest
      else stays (depth + 1) rest

/-- Where a file is below the collection. -/
def placeOf (host : Host) (e : StoreRow × List Char) : List Path :=
  normalSegments true (steps host e.1 e.2)

/-- No name of a file leads out of the folder, is another's or is where another's folder is. -/
structure Apart (host : Host) (rows : List StoreRow) : Prop where
  below : ∀ e ∈ memories host rows, stays 0 (steps host e.1 e.2) = true
  different : (memories host rows).Pairwise fun e e' =>
    ¬ placeOf host e <+: placeOf host e' ∧ ¬ placeOf host e' <+: placeOf host e

/-! ## Paths as steps -/

/-- One step of `normalSegments true`. -/
private def walk (acc : List Path) (seg : Path) : List Path :=
  if seg = [] ∨ seg = ['.'] then acc
  else if seg = ['.', '.'] then
    match acc with
    | [] => if true then [seg] else []
    | last :: rest => if last = ['.', '.'] then seg :: acc else rest
  else seg :: acc

private theorem normalSegments_eq (segs : List Path) :
    normalSegments true segs = (segs.foldl walk []).reverse := rfl

private theorem walk_normal (acc : List Path) {seg : Path} (h : NormalSegment seg) :
    walk acc seg = seg :: acc := by
  unfold walk
  rw [if_neg (not_or.mpr ⟨h.1, h.2.1⟩), if_neg h.2.2]

private theorem walk_up {last : Path} (acc : List Path) (h : NormalSegment last) :
    walk (last :: acc) ['.', '.'] = acc := by
  show (if last = ['.', '.'] then _ else acc) = acc
  rw [if_neg h.2.2]

private theorem segment_cases (seg : Path) :
    (seg = [] ∨ seg = ['.']) ∨ seg = ['.', '.'] ∨ NormalSegment seg := by
  by_cases hskip : seg = [] ∨ seg = ['.']
  · exact .inl hskip
  · by_cases hup : seg = ['.', '.']
    · exact .inr (.inl hup)
    · obtain ⟨hnil, hdot⟩ := not_or.mp hskip
      exact .inr (.inr ⟨hnil, hdot, hup⟩)

private theorem stays_normal (depth : Nat) {seg : Path} (rest : List Path)
    (h : NormalSegment seg) : stays depth (seg :: rest) = stays (depth + 1) rest := by
  rw [stays, if_neg (not_or.mpr ⟨h.1, h.2.1⟩), if_neg h.2.2]

variable {segs : List Path}

private theorem foldl_of_stays {acc : List Path} (hacc : ∀ s ∈ acc, NormalSegment s)
    (h : stays acc.length segs = true) : (∀ s ∈ segs.foldl walk acc, NormalSegment s) ∧
      ∀ base, segs.foldl walk (acc ++ base) = segs.foldl walk acc ++ base := by
  induction segs generalizing acc with
  | nil => exact ⟨hacc, fun _ => rfl⟩
  | cons seg segs ih =>
      rw [List.foldl_cons]
      rcases segment_cases seg with hskip | rfl | hnormal
      · have hwalk : ∀ st, walk st seg = st := fun st => if_pos hskip
        rw [stays, if_pos hskip] at h
        rw [hwalk]
        refine ⟨(ih hacc h).1, fun base => ?_⟩
        rw [List.foldl_cons, hwalk, (ih hacc h).2]
      · cases acc with
        | nil => cases h
        | cons last acc =>
            obtain ⟨hlast, hrest⟩ := List.forall_mem_cons.mp hacc
            rw [walk_up _ hlast]
            refine ⟨(ih hrest h).1, fun base => ?_⟩
            rw [List.foldl_cons, List.cons_append, walk_up _ hlast, (ih hrest h).2]
      · have hnext : ∀ s ∈ seg :: acc, NormalSegment s := List.forall_mem_cons.mpr ⟨hnormal, hacc⟩
        rw [stays_normal _ _ hnormal] at h
        rw [walk_normal _ hnormal]
        refine ⟨(ih hnext h).1, fun base => ?_⟩
        rw [List.foldl_cons, walk_normal _ hnormal, ← List.cons_append, (ih hnext h).2]

private theorem mem_foldl {acc : List Path} {s : Path} (h : s ∈ segs.foldl walk acc) :
    s ∈ acc ∨ s ∈ segs := by
  induction segs generalizing acc with
  | nil => exact .inl h
  | cons seg segs ih =>
      rcases ih h with hin | hin
      · have hwalk : s ∈ acc ∨ s = seg := by
          rcases segment_cases seg with hskip | rfl | hnormal
          · have hwalk : walk acc seg = acc := if_pos hskip
            rw [hwalk] at hin
            exact .inl hin
          · cases acc with
            | nil => exact .inr (List.mem_singleton.mp hin)
            | cons last acc =>
                show s ∈ last :: acc ∨ s = ['.', '.']
                have hstep : walk (last :: acc) ['.', '.'] =
                    if last = ['.', '.'] then ['.', '.'] :: last :: acc else acc := rfl
                rw [hstep] at hin
                split at hin
                · rcases List.mem_cons.mp hin with rfl | hin
                  · exact .inr rfl
                  · exact .inl hin
                · exact .inl (List.mem_cons_of_mem _ hin)
          · rw [walk_normal _ hnormal] at hin
            exact (List.mem_cons.mp hin).symm
        rcases hwalk with hold | rfl
        · exact .inl hold
        · exact .inr List.mem_cons_self
      · exact .inr (List.mem_cons_of_mem _ hin)

private theorem foldl_quiet (hquiet : ∀ s ∈ segs, s = [] ∨ NormalSegment s) :
    ∃ names : List Path, (∀ s ∈ names, NormalSegment s) ∧
      (∀ acc, segs.foldl walk acc = names ++ acc) ∧
      ∀ depth rest, stays depth (segs ++ rest) = stays (depth + names.length) rest := by
  induction segs with
  | nil => exact ⟨[], fun _ h => (nomatch h), fun _ => rfl, fun _ _ => rfl⟩
  | cons seg segs ih =>
      obtain ⟨hseg, hrest⟩ := List.forall_mem_cons.mp hquiet
      obtain ⟨names, hnames, hfold, hstays⟩ := ih hrest
      rcases hseg with rfl | hnormal
      · exact ⟨names, hnames, hfold, hstays⟩
      · refine ⟨names ++ [seg], ?_, fun acc => ?_, fun depth rest => ?_⟩
        · rw [List.forall_mem_append]
          exact ⟨hnames, List.forall_mem_singleton.mpr hnormal⟩
        · rw [List.foldl_cons, walk_normal _ hnormal, hfold, List.append_assoc]
          rfl
        · rw [List.cons_append, stays_normal _ _ hnormal, hstays, List.length_append,
            List.length_singleton]
          congr 1
          omega

/-- How many characters some segments take, each with its separator. -/
private def cost (segs : List Path) : Nat := (segs.map fun s => s.length + 1).sum

private theorem cost_cons (seg : Path) (segs : List Path) :
    cost (seg :: segs) = seg.length + 1 + cost segs := rfl

private theorem foldl_of_climbs {acc : List Path} {base : List Path} {last : Path}
    (hacc : ∀ s ∈ acc, NormalSegment s) (hbase : ∀ s ∈ base, NormalSegment s) (hne : base ≠ [])
    (hlast : NormalSegment last) (h : stays acc.length (segs ++ [last]) = false)
    (hcost : cost segs ≤ 3 * acc.length + 4) :
    ((segs ++ [last]).foldl walk (acc ++ base)).length ≤ base.length ∧
      ∀ s ∈ (segs ++ [last]).foldl walk (acc ++ base), NormalSegment s := by
  induction segs generalizing acc with
  | nil =>
      -- a last segment does not lead up
      rw [List.nil_append, stays_normal _ _ hlast] at h
      cases h
  | cons seg segs ih =>
      rw [cost_cons] at hcost
      rw [List.cons_append, List.foldl_cons]
      rcases segment_cases seg with hskip | rfl | hnormal
      · have hwalk : walk (acc ++ base) seg = acc ++ base := if_pos hskip
        rw [List.cons_append, stays, if_pos hskip] at h
        rw [hwalk]
        exact ih hacc h (by omega)
      · cases acc with
        | cons above acc =>
            rw [List.cons_append, walk_up _ (hacc above List.mem_cons_self)]
            refine ih (fun s hs => hacc s (List.mem_cons_of_mem _ hs)) h ?_
            simp only [List.length_cons, List.length_nil] at hcost
            omega
        | nil =>
            -- one segment of the start is gone, and there is room for the last one only
            obtain ⟨top, base, rfl⟩ := List.exists_cons_of_ne_nil hne
            rw [List.nil_append, walk_up _ (hbase top List.mem_cons_self)]
            have hrest : segs = [] ∨ segs = [[]] := by
              cases segs with
              | nil => exact .inl rfl
              | cons s segs =>
                  rw [cost_cons] at hcost
                  simp only [List.length_cons, List.length_nil] at hcost
                  have hs : s = [] := List.length_eq_zero_iff.mp (by omega)
                  cases segs with
                  | nil => exact .inr (by rw [hs])
                  | cons s' segs =>
                      rw [cost_cons] at hcost
                      omega
            have hend : (segs ++ [last]).foldl walk base = last :: base := by
              rcases hrest with rfl | rfl
              · exact walk_normal base hlast
              · exact walk_normal base hlast
            rw [hend]
            exact ⟨le_refl _, List.forall_mem_cons.mpr
              ⟨hlast, fun s hs => hbase s (List.mem_cons_of_mem _ hs)⟩⟩
      · rw [List.cons_append, stays_normal _ _ hnormal] at h
        rw [walk_normal _ hnormal, ← List.cons_append]
        refine ih (List.forall_mem_cons.mpr ⟨hnormal, hacc⟩) h ?_
        rw [List.length_cons]
        omega

/-! ## The steps of a row -/

private theorem length_ofUnits : ∀ u : List Nat, (ofUnits u).length ≤ u.length
  | [] => le_refl _
  | [_] => le_refl _
  | u :: v :: rest => by
      have hpair := length_ofUnits rest
      have hsingle := length_ofUnits (v :: rest)
      simp only [List.length_cons] at hsingle ⊢
      rw [ofUnits]
      split <;> simp only [List.length_cons] <;> omega

private theorem slash_not_mem_dashed (inMatch : Bool) (s : List Char) :
    '/' ∉ Distill.dashed inMatch s := by
  induction s generalizing inMatch with
  | nil => exact List.not_mem_nil
  | cons c s ih =>
      rw [Distill.dashed]
      split
      · rename_i hc
        refine List.not_mem_cons_of_ne_of_not_mem (fun h => ?_) (ih false)
        rw [← h] at hc
        exact absurd hc (by decide)
      · split
        · exact ih true
        · exact List.not_mem_cons_of_ne_of_not_mem (by decide) (ih true)

variable (host : Host)

private theorem slug_spec (text : List Char) :
    slugifyKey host text ≠ [] ∧ '/' ∉ slugifyKey host text := by
  unfold slugifyKey
  dsimp only
  split
  · exact ⟨by decide, by decide⟩
  · rename_i hne
    refine ⟨hne, fun h => slash_not_mem_dashed false (host.toLowerCase text) ?_⟩
    exact (List.dropWhile_sublist _).mem
      ((List.rdropWhile_prefix _ _).mem (List.mem_of_mem_take h))

private theorem normal_of_length {s : Path} (h : 2 < s.length) : NormalSegment s := by
  refine ⟨?_, ?_, ?_⟩ <;> rintro rfl <;> simp at h

private theorem joinSegments_append_last (segs : List Path) (s e : Path) :
    joinSegments (segs ++ [s ++ e]) = joinSegments (segs ++ [s]) ++ e := by
  unfold joinSegments
  cases segs with
  | nil => simp
  | cons x segs =>
      rw [Lines.join_append (List.cons_ne_nil _ _) (List.cons_ne_nil _ _),
        Lines.join_append (List.cons_ne_nil _ _) (List.cons_ne_nil _ _)]
      simp

private theorem joinSegments_append_head (e s : Path) (segs : List Path) :
    joinSegments ((e ++ s) :: segs) = e ++ joinSegments (s :: segs) := by
  unfold joinSegments
  cases segs with
  | nil => simp
  | cons x segs => simp [List.append_assoc]

private theorem cost_eq (hne : segs ≠ []) : cost segs = (joinSegments segs).length + 1 := by
  induction segs with
  | nil => exact absurd rfl hne
  | cons s segs ih =>
      cases segs with
      | nil => simp [cost, joinSegments]
      | cons x segs =>
          have hrest := ih (List.cons_ne_nil _ _)
          unfold joinSegments at hrest ⊢
          rw [cost_cons, hrest, List.intercalate_cons_cons, List.length_append,
            List.length_append, List.length_singleton]
          omega

/-- **The steps of a row**: those of the session lead nowhere up; the file name is one normal
    segment, or two with little between them. -/
private theorem steps_cases (row : StoreRow) (text : List Char) :
    ∃ first last : Path, ∃ middle : List Path, NormalSegment first ∧ NormalSegment last ∧
      cost middle ≤ 7 ∧ (steps host row text = (sessionOf row).splitOn '/' ++ [first] ∨
        steps host row text = ((sessionOf row).splitOn '/' ++ [first]) ++ (middle ++ [last])) := by
  obtain ⟨hslug, hslash⟩ := slug_spec host (titleOf text)
  have hpos := List.length_pos_iff.mpr hslug
  have hkey : joinSegments ((key8 row).splitOn '/') = key8 row := Rbac.joinSegments_splitOn _
  have hno : ∀ seg ∈ (key8 row).splitOn '/', '/' ∉ seg := fun seg hseg =>
    Rbac.not_mem_splitOn hseg
  have hcost : cost ((key8 row).splitOn '/') ≤ 9 := by
    rw [cost_eq (List.splitOn_ne_nil _ _), hkey]
    have hlen := length_ofUnits ((Text.units row.key).take 8)
    rw [List.length_take] at hlen
    show (ofUnits _).length + 1 ≤ 9
    omega
  set start := slugifyKey host (titleOf text) ++ "--".toList with hstart
  have hname : fileName host row text = start ++ key8 row ++ ".md".toList := rfl
  have hstartLen : 3 ≤ start.length := by
    rw [hstart, List.length_append]
    exact Nat.add_le_add hpos (le_refl 2)
  have hstartSlash : '/' ∉ start := by
    rw [hstart, List.mem_append, not_or]
    exact ⟨hslash, by decide⟩
  have hendSlash : '/' ∉ ".md".toList := by decide
  unfold steps
  cases hsegs : (key8 row).splitOn '/' with
  | nil => exact absurd hsegs (List.splitOn_ne_nil _ _)
  | cons k rest =>
      rw [hsegs] at hkey hno hcost
      obtain ⟨hk, hrestno⟩ := List.forall_mem_cons.mp hno
      rcases List.eq_nil_or_concat rest with rfl | ⟨middle, last, rfl⟩
      · -- no slash in the key's first units
        have hsame : key8 row = k := by rw [← hkey]; simp [joinSegments]
        have hwhole : (fileName host row text).splitOn '/' = [fileName host row text] := by
          refine List.splitOn_eq_singleton ?_
          rw [hname, hsame, List.mem_append, List.mem_append, not_or, not_or]
          exact ⟨⟨hstartSlash, hk⟩, hendSlash⟩
        have hnormal : NormalSegment (fileName host row text) := by
          refine normal_of_length ?_
          rw [hname, List.length_append, List.length_append]
          omega
        exact ⟨_, _, [], hnormal, hnormal, Nat.zero_le _, .inl (by rw [hwhole])⟩
      · rw [List.concat_eq_append] at hkey hrestno hcost
        have hsplit : (fileName host row text).splitOn '/' =
            (start ++ k) :: (middle ++ [last ++ ".md".toList]) := by
          have hspelled : fileName host row text =
              joinSegments ((start ++ k) :: (middle ++ [last ++ ".md".toList])) := by
            rw [joinSegments_append_head, ← List.cons_append, joinSegments_append_last, hname,
              ← hkey, List.append_assoc]
            rfl
          rw [hspelled]
          refine Rbac.splitOn_joinSegments (List.cons_ne_nil _ _) fun seg hseg => ?_
          rcases List.mem_cons.mp hseg with rfl | hseg
          · rw [List.mem_append, not_or]
            exact ⟨hstartSlash, hk⟩
          · rcases List.mem_append.mp hseg with hseg | hseg
            · exact hrestno seg (List.mem_append_left _ hseg)
            · rw [List.mem_singleton.mp hseg, List.mem_append, not_or]
              exact ⟨hrestno last (List.mem_append_right _ (List.mem_singleton_self _)), hendSlash⟩
        have hmiddle : cost middle ≤ 7 := by
          have hparts : cost (middle ++ [last]) = cost middle + (last.length + 1) := by
            unfold cost
            rw [List.map_append, List.sum_append]
            rfl
          rw [cost_cons, hparts] at hcost
          omega
        refine ⟨start ++ k, last ++ ".md".toList, middle, normal_of_length ?_, normal_of_length ?_,
          hmiddle, .inr ?_⟩
        · rw [List.length_append]
          omega
        · rw [List.length_append]
          show 2 < last.length + 3
          omega
        · rw [hsplit]
          exact (List.append_assoc _ [start ++ k] _).symm

private theorem session_quiet (row : StoreRow) :
    ∀ seg ∈ (sessionOf row).splitOn '/', seg = [] ∨ NormalSegment seg := by
  intro seg hseg
  have hdot : '.' ∉ seg := by
    intro h
    have hne := List.mem_rtakeWhile_imp ((Lines.of_mem_splitOn hseg).2 h)
    simp at hne
  by_cases hnil : seg = []
  · exact .inl hnil
  · refine .inr ⟨hnil, ?_, ?_⟩ <;> rintro rfl <;> simp at hdot

variable {collection : Path}

/-- **Where a file goes**: below the collection if the steps stay, and not below it if they
    do not. -/
private theorem relPath_spec (hcoll : NormalPath collection) (row : StoreRow) (text : List Char) :
    (stays 0 (steps host row text) = true → normalSegments true (steps host row text) ≠ [] ∧
      (∀ s ∈ normalSegments true (steps host row text), '/' ∉ s ∧ s ≠ []) ∧
      relPathOf host collection row text =
        collection ++ '/' :: joinSegments (normalSegments true (steps host row text))) ∧
    (stays 0 (steps host row text) = false → ∀ below, below ≠ [] →
      relPathOf host collection row text ≠ collection ++ '/' :: below) := by
  obtain ⟨first, last, middle, hfirst, hlast, hcost, hcases⟩ := steps_cases host row text
  obtain ⟨names, hnames, hfold, hstays⟩ := foldl_quiet (session_quiet row)
  have hroot : ∀ s ∈ (collection.splitOn '/').reverse, NormalSegment s := fun s hs =>
    hcoll s (List.mem_reverse.mp hs)
  have hcollFold : (collection.splitOn '/').foldl walk [] = (collection.splitOn '/').reverse := by
    have hall : ∀ (segs acc : List Path), (∀ s ∈ segs, NormalSegment s) →
        segs.foldl walk acc = segs.reverse ++ acc := by
      intro segs
      induction segs with
      | nil => exact fun _ _ => rfl
      | cons seg segs ih =>
          intro acc h
          obtain ⟨hseg, hrest⟩ := List.forall_mem_cons.mp h
          rw [List.foldl_cons, walk_normal _ hseg, ih _ hrest, List.reverse_cons, List.append_assoc]
          rfl
    rw [hall _ [] hcoll, List.append_nil]
  have hrel : normalSegments true (collection.splitOn '/' ++ steps host row text) =
      ((steps host row text).foldl walk (collection.splitOn '/').reverse).reverse := by
    rw [normalSegments_eq, List.foldl_append, hcollFold]
  have hfirstStep : ∀ acc, [first].foldl walk acc = first :: acc := fun acc =>
    walk_normal acc hfirst
  have hlastStep : ∀ acc, [last].foldl walk acc = last :: acc := fun acc => walk_normal acc hlast
  have hslash : ∀ s ∈ steps host row text, '/' ∉ s := by
    intro s hs
    rcases List.mem_append.mp hs with hs | hs
    · exact Rbac.not_mem_splitOn hs
    · exact Rbac.not_mem_splitOn hs
  constructor
  · intro hstay
    have hnone : ∀ s ∈ ([] : List Path), NormalSegment s := fun _ h => (nomatch h)
    obtain ⟨hnormal, hbase⟩ := foldl_of_stays hnone hstay
    have hplace : normalSegments true (steps host row text) ≠ [] := by
      -- the file's own name is walked to last
      rw [normalSegments_eq, List.reverse_ne_nil_iff]
      rcases hcases with h | h
      · rw [h, List.foldl_append, hfirstStep]
        exact List.cons_ne_nil _ _
      · rw [h, ← List.append_assoc, List.foldl_append, hlastStep]
        exact List.cons_ne_nil _ _
    have hmem : ∀ s ∈ normalSegments true (steps host row text), '/' ∉ s ∧ s ≠ [] := by
      intro s hs
      rw [normalSegments_eq, List.mem_reverse] at hs
      exact ⟨hslash s ((mem_foldl hs).resolve_left List.not_mem_nil), (hnormal s hs).1⟩
    refine ⟨hplace, hmem, ?_⟩
    have hwhole := hbase (collection.splitOn '/').reverse
    rw [List.nil_append] at hwhole
    show joinSegments (normalSegments true _) = _
    rw [hrel, hwhole, List.reverse_append, List.reverse_reverse, ← normalSegments_eq]
    show ['/'].intercalate _ = _
    rw [Lines.join_append (List.splitOn_ne_nil '/' collection) hplace]
    exact congrArg (· ++ _) (Rbac.joinSegments_splitOn collection)
  · intro hclimb below hbelow heq
    rcases hcases with h | h
    · rw [h, hstays, stays_normal _ _ hfirst] at hclimb
      cases hclimb
    · have hne : (collection.splitOn '/').reverse ≠ [] :=
        List.reverse_ne_nil_iff.mpr (List.splitOn_ne_nil _ _)
      have hin : stays (first :: names).length (middle ++ [last]) = false := by
        rw [h, List.append_assoc, hstays, List.singleton_append, stays_normal _ _ hfirst] at hclimb
        rwa [Nat.zero_add] at hclimb
      obtain ⟨hlen, -⟩ := foldl_of_climbs (List.forall_mem_cons.mpr ⟨hfirst, hnames⟩) hroot hne
        hlast hin (by simp only [List.length_cons]; omega)
      have hfoldAll : (steps host row text).foldl walk (collection.splitOn '/').reverse =
          (middle ++ [last]).foldl walk (first :: names ++ (collection.splitOn '/').reverse) := by
        have hstart : ∀ acc, ((sessionOf row).splitOn '/' ++ [first]).foldl walk acc =
            first :: names ++ acc := by
          intro acc
          rw [List.foldl_append, hfold, hfirstStep]
          rfl
        rw [h, List.foldl_append, hstart]
      -- a path below the collection has more segments
      have hsplit : (relPathOf host collection row text).splitOn '/' =
          normalSegments true (collection.splitOn '/' ++ steps host row text) := by
        refine Rbac.splitOn_joinSegments ?_ fun s hs => ?_
        · rw [hrel, hfoldAll, List.foldl_append, hlastStep, List.reverse_ne_nil_iff]
          exact List.cons_ne_nil _ _
        · rw [hrel, List.mem_reverse] at hs
          rcases mem_foldl hs with hs | hs
          · exact Rbac.not_mem_splitOn (List.mem_reverse.mp hs)
          · exact hslash s hs
      rw [heq, List.splitOn_append_cons_self, hrel, hfoldAll] at hsplit
      have hcount := congrArg List.length hsplit
      have hpos := List.length_pos_iff.mpr (List.splitOn_ne_nil '/' below)
      rw [List.length_append, List.length_reverse] at hcount
      rw [List.length_reverse] at hlen
      omega

private theorem relPath_in_way (hcoll : NormalPath collection) {e e' : StoreRow × List Char}
    (h : stays 0 (steps host e.1 e.2) = true) (h' : stays 0 (steps host e'.1 e'.2) = true) :
    (relPathOf host collection e.1 e.2 = relPathOf host collection e'.1 e'.2 ∨
      ∃ below, relPathOf host collection e'.1 e'.2 =
        relPathOf host collection e.1 e.2 ++ '/' :: below)
      ↔ placeOf host e <+: placeOf host e' := by
  obtain ⟨hne, hmem, heq⟩ := (relPath_spec host hcoll e.1 e.2).1 h
  obtain ⟨hne', hmem', heq'⟩ := (relPath_spec host hcoll e'.1 e'.2).1 h'
  have hsplit : (joinSegments (placeOf host e)).splitOn '/' = placeOf host e :=
    Rbac.splitOn_joinSegments hne fun s hs => (hmem s hs).1
  have hsplit' : (joinSegments (placeOf host e')).splitOn '/' = placeOf host e' :=
    Rbac.splitOn_joinSegments hne' fun s hs => (hmem' s hs).1
  rw [heq, heq']
  constructor
  · rintro (hsame | ⟨below, hfolder⟩)
    · have hjoined := (List.cons.inj (List.append_cancel_left hsame)).2
      rw [← hsplit, ← hsplit']
      exact (congrArg (List.splitOn '/') hjoined) ▸ List.prefix_rfl
    · rw [List.append_assoc] at hfolder
      have hjoined := (List.cons.inj (List.append_cancel_left hfolder)).2
      refine ⟨below.splitOn '/', ?_⟩
      rw [← hsplit, ← hsplit', ← List.splitOn_append_cons_self]
      exact congrArg (List.splitOn '/') hjoined.symm
  · rintro ⟨rest, hrest⟩
    rcases eq_or_ne rest [] with rfl | hnil
    · rw [List.append_nil] at hrest
      exact .inl (congrArg (fun place => collection ++ '/' :: joinSegments place) hrest)
    · refine .inr ⟨joinSegments rest, ?_⟩
      rw [List.append_assoc]
      refine congrArg (fun place => collection ++ '/' :: place) ?_
      show joinSegments (placeOf host e') = joinSegments (placeOf host e) ++ '/' :: _
      rw [← hrest]
      exact Lines.join_append hne hnil

/-! ## The files -/

private theorem find_foldl_of_not_mem {notes : List DerivedNote} {files : Files} {path : Path}
    (h : path ∉ notes.map DerivedNote.relPath) :
    (notes.foldl (fun files note => files.set note.relPath note.body) files).find path =
      files.find path := by
  induction notes generalizing files with
  | nil => rfl
  | cons note notes ih =>
      rw [List.map_cons, List.mem_cons, not_or] at h
      rw [List.foldl_cons, ih h.2, Table.find_set_of_ne _ _ h.1]

private theorem find_foldl {notes : List DerivedNote} {files : Files} {note : DerivedNote}
    (hown : (notes.map DerivedNote.relPath).Nodup) (h : note ∈ notes) :
    (notes.foldl (fun files note => files.set note.relPath note.body) files).find note.relPath =
      some note.body := by
  induction notes generalizing files with
  | nil => cases h
  | cons first notes ih =>
      rw [List.map_cons, List.nodup_cons] at hown
      rw [List.foldl_cons]
      rcases List.mem_cons.mp h with rfl | h
      · rw [find_foldl_of_not_mem hown.1, Table.find_set_self]
      · exact ih hown.2 h

theorem notes_eq (collection : Path) (agent : List Char) (rows : List StoreRow) :
    (deriveNotes host collection agent rows).notes =
      (memories host rows).map fun e => noteOf host collection agent e.1 e.2 := by
  unfold deriveNotes memories
  rw [List.map_filterMap]
  refine List.filterMap_congr fun row _ => ?_
  rw [Option.map_map]
  rfl

/-- **The files of an import** are in order exactly if their names are apart. -/
theorem imported_iff (hcoll : NormalPath collection) (agent : List Char) (rows : List StoreRow) :
    Imported host collection agent rows ↔ Apart host rows := by
  have hpaths : (deriveNotes host collection agent rows).notes.map DerivedNote.relPath =
      (memories host rows).map fun e => relPathOf host collection e.1 e.2 := by
    rw [notes_eq, List.map_map]
    rfl
  have hinside : (∀ note ∈ (deriveNotes host collection agent rows).notes,
      ∃ below, below ≠ [] ∧ note.relPath = collection ++ '/' :: below) ↔
      ∀ e ∈ memories host rows, stays 0 (steps host e.1 e.2) = true := by
    rw [notes_eq, List.forall_mem_map]
    refine forall₂_congr fun e _ => ?_
    obtain ⟨hstay, hclimb⟩ := relPath_spec host hcoll e.1 e.2
    constructor
    · rintro ⟨below, hbelow, heq⟩
      cases h : stays 0 (steps host e.1 e.2) with
      | true => rfl
      | false => exact absurd heq (hclimb h below hbelow)
    · intro h
      obtain ⟨hne, hmem, heq⟩ := hstay h
      refine ⟨_, fun hnil => ?_, heq⟩
      have hsplit := Rbac.splitOn_joinSegments hne fun s hs => (hmem s hs).1
      rw [hnil, List.splitOn_nil] at hsplit
      rw [← hsplit] at hmem
      exact (hmem [] (List.mem_singleton_self _)).2 rfl
  have hdifferent : (∀ e ∈ memories host rows, stays 0 (steps host e.1 e.2) = true) →
      (((deriveNotes host collection agent rows).notes.map DerivedNote.relPath).Pairwise Clear ↔
        (memories host rows).Pairwise fun e e' =>
          ¬ placeOf host e <+: placeOf host e' ∧ ¬ placeOf host e' <+: placeOf host e) := by
    intro hbelow
    rw [hpaths, List.pairwise_map]
    refine List.Pairwise.iff_of_mem fun {e e'} he he' => ?_
    have hway := relPath_in_way host hcoll (hbelow e he) (hbelow e' he')
    have hway' := relPath_in_way host hcoll (hbelow e' he') (hbelow e he)
    rw [← hway, ← hway']
    constructor
    · rintro ⟨hne, hfolder⟩
      exact ⟨not_or.mpr ⟨hne, fun ⟨below, h⟩ => (hfolder below).1 h⟩,
        not_or.mpr ⟨Ne.symm hne, fun ⟨below, h⟩ => (hfolder below).2 h⟩⟩
    · rintro ⟨h, h'⟩
      exact ⟨fun heq => h (.inl heq), fun below =>
        ⟨fun heq => h (.inr ⟨below, heq⟩), fun heq => h' (.inr ⟨below, heq⟩)⟩⟩
  constructor
  · intro h
    have hbelow := hinside.mp h.inside
    exact ⟨hbelow, (hdifferent hbelow).mp h.own⟩
  · intro h
    have hclear := (hdifferent h.below).mpr h.different
    have hown : ((deriveNotes host collection agent rows).notes.map
        DerivedNote.relPath).Nodup := hclear.imp And.left
    refine ⟨hinside.mpr h.below, hclear, fun files => ?_, fun files e he => ?_⟩
    · rw [List.Nodup.dedup hown, List.length_map]
      rfl
    · have hmem : noteOf host collection agent e.1 e.2 ∈
          (deriveNotes host collection agent rows).notes := by
        rw [notes_eq]
        exact List.mem_map_of_mem he
      exact find_foldl hown hmem

theorem mem_readStoreRows (horder : ∀ rows, (host.orderBy rows).Perm rows) {ns : List Char}
    (hns : ns ≠ []) (store : List StoreRow) (row : StoreRow) : row ∈ readStoreRows host store ns ↔
      row ∈ store ∧ (row.storePrefix = ns ∨ Like.like (pattern ns) row.storePrefix = true) := by
  rw [readStoreRows, (horder _).mem_iff, if_neg hns, List.mem_filter, Bool.or_eq_true,
    decide_eq_true_iff]

/-- **The rows that are read** are those of the namespace and below it exactly if it has no
    special character. -/
theorem readsBelow_iff (horder : ∀ rows, (host.orderBy rows).Perm rows) (ns : List Char) :
    ReadsBelow host ns ↔ ns ≠ [] ∧ Like.Plain ns := by
  constructor
  · intro h
    have hns : ns ≠ [] := by
      rintro rfl
      -- without a filter every row is read
      have hrow := h [⟨['x'], [], .null, [], []⟩] ⟨['x'], [], .null, [], []⟩
      rw [readStoreRows, (horder _).mem_iff, if_pos rfl] at hrow
      rcases (hrow.mp (List.mem_singleton_self _)).2 with heq | hbelow
      · cases heq
      · exact absurd hbelow (by decide)
    refine ⟨hns, ?_⟩
    by_contra hspecial
    obtain ⟨s, hlike, hnot⟩ := Like.exists_astray hspecial
    have hrow := (mem_readStoreRows host horder hns [⟨s, [], .null, [], []⟩]
      ⟨s, [], .null, [], []⟩).mpr ⟨List.mem_singleton_self _, .inr hlike⟩
    exact hnot ((h _ _).mp hrow).2
  · rintro ⟨hns, hplain⟩ store row
    rw [mem_readStoreRows host horder hns]
    exact and_congr Iff.rfl (or_congr Iff.rfl (Like.like_of_plain hplain _))

/-- **AN IMPORT LOSES NO MEMORY AND TAKES NO OTHER'S** exactly if the namespace has no special
    character and the names of the files are apart. -/
theorem import_exact_iff (host : Host) (horder : ∀ rows, (host.orderBy rows).Perm rows)
    {collection : Path} (hcoll : NormalPath collection) (agent ns : List Char)
    (rows : List StoreRow) :
    (ReadsBelow host ns ∧ Imported host collection agent rows) ↔
      (ns ≠ [] ∧ Like.Plain ns) ∧ Apart host rows :=
  and_congr (readsBelow_iff host horder ns) (imported_iff host hcoll agent rows)

def plainHost : Host where
  toLowerCase := List.map Char.toLower
  isoDate := List.take 10
  dump entries := ['\n'].intercalate (entries.map fun e => e.1.toList ++ ": ".toList ++ e.2.flatten)
  orderBy := id

def memoryRow (ns key text : String) : StoreRow where
  storePrefix := ns.toList
  key := key.toList
  value := .obj [(Text.units "content".toList, .str (Text.units text.toList))]
  created_at := "2026-07-01".toList
  updated_at := "2026-07-02".toList

theorem import_exact_two_users :
    ReadsBelow plainHost "v1".toList ∧
      Imported plainHost "langgraph".toList "importer".toList
        [memoryRow "v1.ada" "0001" "Likes tea", memoryRow "v1.bob" "0001" "Likes tea"] :=
  (import_exact_iff plainHost (fun _ => .refl _) (by decide) "importer".toList "v1".toList _).mpr
    ⟨⟨by decide, by simp [Like.Plain]⟩, ⟨by decide +kernel, by decide +kernel⟩⟩

def sameName : List StoreRow :=
  [memoryRow "v1.ada" "0001" "Likes tea", memoryRow "v2.ada" "0001" "Likes tea"]

/-- **Two users of one name**: their memories go to one file, and one of them is lost.  And an
    underscore of the namespace takes the rows of another. -/
theorem same_name_one_file :
    ¬ Imported plainHost "langgraph".toList "importer".toList sameName ∧
    ¬ ReadsBelow plainHost "team_a".toList := by
  constructor
  · intro h
    have hnotes : (deriveNotes plainHost "langgraph".toList "importer".toList
        sameName).notes.length = 2 := by decide +kernel
    have hfiles : ((deriveNotes plainHost "langgraph".toList "importer".toList
        sameName).notes.map DerivedNote.relPath).dedup.length = 1 := by decide +kernel
    have hwritten := h.written Table.empty
    exact absurd (hnotes.symm.trans hwritten) (by decide)
  · intro h
    let row := memoryRow "team-a.ada" "0001" "Likes tea"
    have hlike : Like.like (pattern "team_a".toList) row.storePrefix = true := by decide +kernel
    have hread := (mem_readStoreRows plainHost (fun _ => .refl _) (by decide) [row] row).mpr
      ⟨List.mem_singleton_self _, .inr hlike⟩
    have hunder : Like.Under "team_a".toList "team-a.ada".toList := ((h [row] row).mp hread).2
    rcases hunder with heq | hbelow
    · exact absurd heq (by decide)
    · exact absurd hbelow (by decide)

end LanggraphStore
