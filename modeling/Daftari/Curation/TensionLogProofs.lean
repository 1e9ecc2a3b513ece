import Daftari.Lib.NumberedIdsProofs
import Daftari.Curation.TensionProofs
import Daftari.Lib.AssocProofs

/-! # The tension log — adding, resolving, and what the file still says

    `curation/tension.ts`, the file `.daftari/tensions.md`: `addTension` appends a block,
    `resolveTension` finds a block by its id and rewrites it in place, `parseTensionLog` reads the
    file.  Both writers hold one lease for their whole read-modify-write, so a history of calls is a
    list.

    The file is only ever a blank line and the written blocks one after another (`logText`).  Since
    a written block has no inner line that starts like a header, it is cut where it was put together
    (`blocks_logText`) and every entry reads back on its own (`parse_logText`).  The rest is an
    invariant over histories: `Keeps` for one entry, `LogOk` for the file. -/

namespace Tension

open Text

/-! ## The file -/

def blockMark : Str := "## ".toList

def parseTensionLog (raw : Str) : List TensionEntry :=
  (blocks blockMark raw).filterMap fun block =>
    if blockMark.isPrefixOf (trim block) then parseBlock (trim block) else none

/-- `tension-NNN`, padded to three digits. -/
def tensionId (n : Nat) : Str :=
  let digits := Nat.toDigits 10 n
  "tension-".toList ++ List.replicate (3 - digits.length) '0' ++ digits

/-- `/^tension-(\d+)$/`: the number of an id. -/
def idNumber (id : Str) : Option Nat :=
  if "tension-".toList.isPrefixOf id then
    let digits := id.drop 8
    if digits ≠ [] ∧ digits.all Char.isDigit then
      some (Nat.ofDigitChars 10 digits 0)
    else none
  else none

/-- `nextTensionId`: one more than the highest number in use. -/
def nextTensionId (existing : List TensionEntry) : Str :=
  tensionId ((existing.filterMap fun e => e.id.bind idNumber).foldl max 0 + 1)

/-- `addTension`'s argument; `kind` is checked at run time. -/
structure TensionInput where
  title : Str
  kind : Str
  sourceA : Str
  claimA : Str
  sourceB : Str
  claimB : Str
  loggedBy : Str
  date : Option Str := none
  status : Option Str := none
  decidedByPrincipal : Option Str := none
  positionA : Option Str := none
  positionB : Option Str := none
  readerA : Option Str := none
  readerB : Option Str := none

/-- An optional text, trimmed, and left out when nothing is left of it. -/
def trimmed (v : Option Str) : Option Str := nonEmpty (v.map trim)

/-- Is an optional text missing or blank? -/
def blank (v : Option Str) : Bool := trimmed v = none

/-- The fields that must not be blank, in the order they are checked. -/
def requiredFields (input : TensionInput) : List (String × Str) :=
  [("title", input.title), ("sourceA", input.sourceA), ("claimA", input.claimA),
    ("sourceB", input.sourceB), ("claimB", input.claimB),
    ("loggedBy", input.loggedBy)]

/-- The checks of `addTension`, in order; the kind they let through. -/
def checkInput (input : TensionInput) : Except String TensionKind :=
  match (requiredFields input).find? fun f => trim f.2 = [] with
  | some (field, _) =>
      .error ("addTension requires a non-empty '" ++ field ++ "'")
  | none =>
      match (TensionKind.ofText input.kind).filter (· ≠ .unspecified) with
      | none => .error ("addTension 'kind' must be one of: temporal, factual, "
          ++ "interpretive, inter-proposal, positional "
          ++ "(unspecified is for legacy entries only)")
      | some kind =>
          if (kind = .interProposal ∨ kind = .positional) ∧
              trim input.sourceA ≠ trim input.sourceB then
            .error ("addTension: a '" ++ String.ofList kind.text
              ++ "' tension is a self-tension — sourceA and sourceB must both "
              ++ "be the contested target path")
          else if kind = .positional ∧
              (blank input.positionA ∨ blank input.positionB) then
            .error ("addTension: a 'positional' tension requires both "
              ++ "'positionA' and 'positionB'")
          else .ok kind

/-- The entry `addTension` appends. -/
def newEntry (id today : Str) (kind : TensionKind) (input : TensionInput) :
    TensionEntry where
  id := some id
  date := input.date.getD today
  title := trim input.title
  kind := kind
  sourceA := trim input.sourceA
  claimA := trim input.claimA
  sourceB := trim input.sourceB
  claimB := trim input.claimB
  status := input.status.getD defaultTensionStatus
  loggedBy := trim input.loggedBy
  decidedByPrincipal := trimmed input.decidedByPrincipal
  resolved := false
  resolution := none
  positionA := input.positionA
  positionB := input.positionB
  readerA := trimmed input.readerA
  readerB := trimmed input.readerB

/-- `addTension`: the entry and the file after it.  `today` is the clock's
    date, and an absent file reads as empty. -/
def addTension (file : Option Str) (today : Str) (input : TensionInput) :
    Except String (TensionEntry × Str) :=
  match checkInput input with
  | .error e => .error e
  | .ok kind =>
      let raw := file.getD []
      let entry := newEntry (nextTensionId (parseTensionLog raw)) today kind input
      .ok (entry, raw ++ '\n' :: renderEntry entry)

/-- The first block whose entry has this id, with its index. -/
def findBlock (id : Str) (bs : List Str) : Option (Nat × TensionEntry) :=
  match bs with
  | [] => none
  | b :: bs =>
      match (parseBlock (trim b)).filter fun e => e.id = some id with
      | some e => some (0, e)
      | none => (findBlock id bs).map fun (i, e) => (i + 1, e)

/-- What `RESOLVED_TENSION_STATUS` says. -/
def resolvedStatus : Str := "resolved".toList

/-- `resolveTension`: the entry and the file after it.  The blank lines before
    the block are kept. -/
def resolveTension (file : Option Str) (id : Str) (r : TensionResolution) :
    Except String (TensionEntry × Str) :=
  match file with
  | none => .error ("tension not found: " ++ String.ofList id)
  | some raw =>
      let segments := blocks blockMark raw
      let preamble := match segments with
        | s :: _ => if blockMark.isPrefixOf s then [] else s
        | [] => []
      let bs := segments.filter blockMark.isPrefixOf
      match findBlock id bs with
      | none => .error ("tension not found: " ++ String.ofList id)
      | some (i, found) =>
          if found.resolved then
            .error ("tension is already resolved: " ++ String.ofList id)
          else
            let updated := { found with
              status := resolvedStatus, resolved := true, resolution := some r }
            let leading := ((bs.getD i []).takeWhile (· = '\n'))
            .ok (updated, preamble ++ (bs.set i (leading ++ renderEntry updated)).flatten)

/-! ## The file is its blocks -/

/-- A written entry and the blank lines after it. -/
abbrev Item := TensionEntry × Nat

def Item.block (it : Item) : Str :=
  renderEntry it.1 ++ List.replicate it.2 '\n'

/-- The file of a list of items: nothing, or a blank line and the blocks. -/
def logText : List Item → Str
  | [] => []
  | it :: items => '\n' :: ((it :: items).map Item.block).flatten

variable (n : Nat)

theorem unbroken_lines {ls : List Str} (hflat : ∀ l ∈ ls, ∀ c ∈ l, isTerminator c = false)
    (hmark : ∀ l ∈ ls.tail, ∃ t, l = '-' :: t) :
    Unbroken blockMark (['\n'].intercalate ls ++ List.replicate n '\n') := by
  have hblank : ∀ n, Unbroken blockMark (List.replicate n '\n') := by
    intro n
    induction n with
    | zero => trivial
    | succ n ih =>
        refine ⟨?_, ih⟩
        intro _ hp
        have hmem := hp.subset (show '#' ∈ blockMark by decide)
        exact absurd (List.eq_of_mem_replicate hmem) (by decide)
  induction ls with
  | nil => exact hblank n
  | cons l ls ih =>
      have hl := hflat l List.mem_cons_self
      cases ls with
      | nil =>
          have happ : ['\n'].intercalate [l] ++ List.replicate n '\n' =
              l ++ List.replicate n '\n' := by simp
          rw [happ]
          cases n with
          | zero =>
              clear happ ih hmark hflat
              induction l with
              | nil => trivial
              | cons c l ih =>
                  refine ⟨?_, ih fun d hd => hl d (List.mem_cons_of_mem _ hd)⟩
                  intro hc
                  rw [hl c List.mem_cons_self] at hc
                  cases hc
          | succ n =>
              refine unbroken_line hl ?_ (hblank n)
              intro hp
              have hmem := hp.subset (show '#' ∈ blockMark by decide)
              exact absurd (List.eq_of_mem_replicate hmem) (by decide)
      | cons l' ls =>
          have ih' := ih (fun x hx => hflat x (List.mem_cons_of_mem _ hx))
            (fun x hx => hmark x (List.mem_cons_of_mem _ hx))
          obtain ⟨t, rfl⟩ := hmark l' List.mem_cons_self
          have happ : ['\n'].intercalate (l :: ('-' :: t) :: ls) ++
              List.replicate n '\n' = l ++ '\n' ::
                (['\n'].intercalate (('-' :: t) :: ls) ++
                  List.replicate n '\n') := by
            simp
          rw [happ]
          refine unbroken_line hl ?_ ih'
          intro hp
          have hhead : ∃ u, ['\n'].intercalate (('-' :: t) :: ls) ++
              List.replicate n '\n' = '-' :: u := by
            cases ls with
            | nil => exact ⟨_, by simp; rfl⟩
            | cons x xs =>
                exact ⟨_, by simp; rfl⟩
          obtain ⟨u, hu⟩ := hhead
          rw [hu] at hp
          obtain ⟨r, hr⟩ := hp
          exact absurd (List.cons.inj hr).1 (by decide)

/-- A block starts with the mark, ends its last line, and has no inner line
    that starts with the mark. -/
theorem block_shape (it : Item) : (∃ t, it.block = blockMark ++ t) ∧ it.block.getLast? = some '\n' ∧
      Unbroken blockMark it.block := by
  obtain ⟨e, n⟩ := it
  have hblock : Item.block (e, n) =
      ['\n'].intercalate (headerLine e :: (entryFields e).map fieldLine) ++
        List.replicate (n + 1) '\n' := by
    simp [Item.block, renderEntry, List.replicate_succ]
  have hne : (entryFields e).map fieldLine ≠ [] := by simp [entryFields]
  refine ⟨?_, ?_, ?_⟩
  · rw [hblock, List.intercalate_cons_of_ne_nil hne]
    exact ⟨oneLine e.date ++ " — ".toList ++ oneLine e.title ++ ['\n'] ++
      ['\n'].intercalate ((entryFields e).map fieldLine) ++
      List.replicate (n + 1) '\n', by simp [headerLine, blockMark]⟩
  · rw [hblock, List.replicate_succ', ← List.append_assoc]
    exact List.getLast?_concat
  · rw [hblock]
    refine unbroken_lines (n + 1) ?_ ?_
    · intro l hl
      rcases List.mem_cons.mp hl with rfl | hl
      · exact headerLine_flat e
      · obtain ⟨f, hf, rfl⟩ := List.mem_map.mp hl
        exact fieldLine_flat (entryFields_flat e f hf)
    · intro l hl
      obtain ⟨f, _, rfl⟩ := List.mem_map.mp hl
      exact ⟨_, rfl⟩

variable {items : List Item}

/-- **The file is cut where it was put together.** -/
theorem blocks_logText (hne : items ≠ []) :
    blocks blockMark (logText items) = ['\n'] :: items.map Item.block := by
  have hnl : isTerminator '\n' = true ∧ '\n' ∉ blockMark := by decide
  have hall : ∀ items : List Item, items ≠ [] →
      blocks blockMark (items.map Item.block).flatten = items.map Item.block ∧
      blockMark <+: (items.map Item.block).flatten := by
    intro items hne
    induction items with
    | nil => exact absurd rfl hne
    | cons it items ih =>
        obtain ⟨⟨t, ht⟩, hlast, hu⟩ := block_shape it
        have hpre : blockMark <+: ((it :: items).map Item.block).flatten := by
          rw [List.map_cons, List.flatten_cons, ht, List.append_assoc]
          exact List.prefix_append _ _
        refine ⟨?_, hpre⟩
        cases items with
        | nil =>
            rw [List.map_singleton, List.flatten_singleton]
            exact blocks_unbroken hu
        | cons it' items =>
            obtain ⟨hb, hp⟩ := ih (List.cons_ne_nil _ _)
            rw [List.map_cons, List.flatten_cons, blocks_append hu hlast hnl.1 hnl.2 hp, hb]
  cases items with
  | nil => exact absurd rfl hne
  | cons it items =>
      obtain ⟨hb, hp⟩ := hall (it :: items) (List.cons_ne_nil _ _)
      have hu : Unbroken blockMark ['\n'] := ⟨fun _ h => by
        have hlen := h.length_le
        exact absurd hlen (by decide), trivial⟩
      have happ := blocks_append hu (by rfl) hnl.1 hnl.2 hp
      rw [hb] at happ
      exact happ

/-! ## Every entry reads back on its own -/

/-- What the header of an entry must have to be read. -/
structure Good (e : TensionEntry) : Prop where
  date : isDate e.date = true
  title : trim e.title ≠ []

/-- An entry as it is read from its own block. -/
@[irreducible] def reread (e : TensionEntry) : TensionEntry :=
  (parseBlock (trim (renderEntry e))).getD e

theorem trim_block (it : Item) : trim it.block = trim (renderEntry it.1) := by
  refine trim_append_space ?_
  intro c hc
  rw [List.eq_of_mem_replicate hc]
  decide

variable {e : TensionEntry}

theorem parseBlock_reread (h : Good e) : parseBlock (trim (renderEntry e)) = some (reread e) ∧
      Rereads e (reread e) := by
  obtain ⟨r, hr, hread⟩ := parseBlock_renderEntry h.date h.title
    (w := []) (fun _ hc => nomatch hc)
  rw [List.append_nil] at hr
  unfold reread
  rw [hr]
  exact ⟨rfl, hread⟩

theorem mark_trim (e : TensionEntry) : blockMark.isPrefixOf (trim (renderEntry e)) = true := by
  obtain ⟨fs, l, v, hfs⟩ := entryFields_last e
  have hsplit := splitOn_block e (w := []) (fun _ hc => nomatch hc) hfs
  rw [List.append_nil] at hsplit
  have hjoin : List.intercalate ['\n'] ((trim (renderEntry e)).splitOn '\n')
      = trim (renderEntry e) := List.intercalate_splitOn '\n'
  rw [← hjoin, hsplit, List.intercalate_cons_of_ne_nil (by simp)]
  unfold headerLine
  simp [blockMark]

/-- **The log reads back entry by entry.** -/
theorem parse_logText (h : ∀ it ∈ items, Good it.1) :
    parseTensionLog (logText items) = items.map fun it => reread it.1 := by
  cases items with
  | nil => rfl
  | cons it items =>
      unfold parseTensionLog
      rw [blocks_logText (List.cons_ne_nil _ _)]
      have hpre : blockMark.isPrefixOf (trim ['\n']) = false := by decide
      have hcons : ∀ its : List Item, (∀ it ∈ its, Good it.1) →
          (its.map Item.block).filterMap (fun block =>
            if blockMark.isPrefixOf (trim block) then parseBlock (trim block)
            else none) = its.map fun it => reread it.1 := by
        intro its
        induction its with
        | nil => exact fun _ => rfl
        | cons it its ih =>
            intro hg
            have hit := (parseBlock_reread (hg it List.mem_cons_self)).1
            rw [List.map_cons, List.filterMap_cons, trim_block, if_pos (mark_trim it.1),
              hit, List.map_cons, ih fun x hx => hg x (List.mem_cons_of_mem _ hx)]
      rw [List.filterMap_cons, hpre, if_neg Bool.false_ne_true]
      exact hcons _ h

/-! ## What the two writers do to the file -/

/-- One more blank line after the last block. -/
def padLast : List Item → List Item
  | [] => []
  | [(e, n)] => [(e, n + 1)]
  | it :: items => it :: padLast items

theorem padLast_entries (items : List Item) :
    (padLast items).map Prod.fst = items.map Prod.fst := by
  fun_induction padLast items with
  | case1 => rfl
  | case2 e n => rfl
  | case3 it items _ ih => rw [List.map_cons, List.map_cons, ih]

/-- **Adding** appends a blank line and a block. -/
theorem logText_add (items : List Item) (e : TensionEntry) :
    logText items ++ '\n' :: renderEntry e = logText (padLast items ++ [(e, 0)]) := by
  have hpad : ∀ items : List Item, items ≠ [] →
      (items.map Item.block).flatten ++ '\n' :: renderEntry e =
        ((padLast items ++ [(e, 0)]).map Item.block).flatten := by
    intro items
    fun_induction padLast items with
    | case1 => exact fun h => absurd rfl h
    | case2 e' n =>
        simp [Item.block, List.replicate_succ']
    | case3 it items hne ih =>
        intro _
        have hcons : items ≠ [] := by
          rintro rfl
          exact hne it.1 it.2 rfl rfl
        rw [List.map_cons, List.flatten_cons, List.append_assoc, ih hcons,
          List.cons_append, List.map_cons, List.flatten_cons]
  cases items with
  | nil => simp [logText, padLast, Item.block]
  | cons it items =>
      have h := hpad (it :: items) (List.cons_ne_nil _ _)
      have hshape : ∀ its : List Item, its ≠ [] →
          logText its = '\n' :: (its.map Item.block).flatten := by
        intro its hits
        cases its with
        | nil => exact absurd rfl hits
        | cons x xs => rfl
      rw [hshape _ (List.cons_ne_nil _ _), hshape _ (by simp), List.cons_append, h]

theorem findBlock_items (hgood : ∀ it ∈ items, Good it.1) {id : Str} {i : Nat}
    {found : TensionEntry} (h : findBlock id (items.map Item.block) = some (i, found)) :
    ∃ it, items[i]? = some it ∧ found = reread it.1 ∧ (reread it.1).id = some id := by
  induction items generalizing i with
  | nil => cases h
  | cons it items ih =>
      have hread := (parseBlock_reread (hgood it List.mem_cons_self)).1
      rw [List.map_cons, findBlock, trim_block, hread] at h
      by_cases hid : (reread it.1).id = some id
      · rw [Option.filter_some_pos (by simpa using hid)] at h
        obtain ⟨rfl, rfl⟩ := Prod.mk.inj (Option.some.inj h)
        exact ⟨it, rfl, rfl, hid⟩
      · rw [Option.filter_some_neg (by simpa using hid)] at h
        cases hf : findBlock id (items.map Item.block) with
        | none => rw [hf] at h; cases h
        | some q =>
            rw [hf] at h
            obtain ⟨rfl, rfl⟩ := Prod.mk.inj (Option.some.inj h)
            obtain ⟨it', hit, he, hid'⟩ :=
              ih (fun x hx => hgood x (List.mem_cons_of_mem _ hx)) hf
            exact ⟨it', hit, he, hid'⟩

/-- The entry `resolveTension` writes over the one it found. -/
def resolvedEntry (e : TensionEntry) (r : TensionResolution) : TensionEntry :=
  { reread e with
    status := resolvedStatus, resolved := true, resolution := some r }

variable {r : TensionResolution} {u : TensionEntry}

/-- **Resolving** rewrites one block, the one with the id, which was open. -/
theorem resolveTension_items (hne : items ≠ []) (hgood : ∀ it ∈ items, Good it.1) {id : Str}
    {raw : Str} (h : resolveTension (some (logText items)) id r = .ok (u, raw)) :
    ∃ i it, items[i]? = some it ∧ (reread it.1).id = some id ∧
      (reread it.1).resolved = false ∧ u = resolvedEntry it.1 r ∧
      raw = logText (items.set i (u, 0)) := by
  have hfilter : (['\n'] :: items.map Item.block).filter blockMark.isPrefixOf =
      items.map Item.block := by
    rw [List.filter_cons_of_neg (by decide)]
    refine List.filter_eq_self.mpr ?_
    intro b hb
    obtain ⟨it, _, rfl⟩ := List.mem_map.mp hb
    obtain ⟨⟨t, ht⟩, _⟩ := block_shape it
    rw [ht]
    exact List.isPrefixOf_iff_prefix.mpr (List.prefix_append _ _)
  unfold resolveTension at h
  simp only [blocks_logText hne, hfilter] at h
  cases hf : findBlock id (items.map Item.block) with
  | none => rw [hf] at h; cases h
  | some q =>
      obtain ⟨i, found⟩ := q
      rw [hf] at h
      obtain ⟨it, hit, rfl, hid⟩ := findBlock_items hgood hf
      refine ⟨i, it, hit, hid, ?_⟩
      simp only at h
      by_cases hres : (reread it.1).resolved = true
      · rw [if_pos hres] at h
        cases h
      · rw [if_neg hres] at h
        obtain ⟨rfl, rfl⟩ := Prod.mk.inj (Except.ok.inj h)
        refine ⟨by simpa using hres, rfl, ?_⟩
        have hget : (items.map Item.block).getD i [] = it.block := by
          rw [List.getD_eq_getElem?_getD, List.getElem?_map, hit]
          rfl
        have hlead : it.block.takeWhile (· = '\n') = [] := by
          obtain ⟨⟨t, ht⟩, _⟩ := block_shape it
          rw [ht]
          rfl
        have hset : (items.map Item.block).set i (renderEntry (resolvedEntry it.1 r)) =
            (items.set i (resolvedEntry it.1 r, 0)).map Item.block := by
          simp [Item.block]
        have hpre : blockMark.isPrefixOf ['\n'] = false := by decide
        rw [hget, hlead, List.nil_append, hpre, if_neg Bool.false_ne_true]
        show ['\n'] ++ ((items.map Item.block).set i
          (renderEntry (resolvedEntry it.1 r))).flatten = _
        rw [hset]
        have hne' : items.set i (resolvedEntry it.1 r, 0) ≠ [] := by
          simpa using hne
        cases hs : items.set i (resolvedEntry it.1 r, 0) with
        | nil => exact absurd hs hne'
        | cons x xs =>
            show _ = logText (items.set i (resolvedEntry it.1 r, 0))
            rw [hs]
            rfl

/-! ## Numbers of ids -/

def paddedDigits (n : Nat) : Str :=
  List.replicate (3 - (Nat.toDigits 10 n).length) '0' ++ Nat.toDigits 10 n

theorem tensionId_eq : tensionId n = "tension-".toList ++ paddedDigits n := by
  unfold tensionId paddedDigits
  rw [List.append_assoc]

theorem paddedDigits_digit : ∀ c ∈ paddedDigits n, c.isDigit = true :=
  NumberedIds.isDigit_padded n

theorem idNumber_tensionId : idNumber (tensionId n) = some n := by
  have hread : NumberedIds.numberOf (paddedDigits n) = some n := NumberedIds.numberOf_padded n
  have hdrop : ("tension-".toList ++ paddedDigits n).drop 8 = paddedDigits n := rfl
  unfold idNumber
  exact hread

theorem tensionId_inj {m n : Nat} (h : tensionId m = tensionId n) : m = n := by
  have hm := idNumber_tensionId m
  rw [h, idNumber_tensionId] at hm
  exact (Option.some.inj hm).symm

theorem trim_oneLine_tensionId : trim (oneLine (tensionId n)) = tensionId n := by
  have hplain : ∀ c ∈ tensionId n, isSpace c = false ∧ isTerminator c = false := by
    intro c hc
    rw [tensionId_eq] at hc
    rcases List.mem_append.mp hc with hc | hc
    · have hpre : ∀ c ∈ "tension-".toList,
          isSpace c = false ∧ isTerminator c = false := forall_mem_of_all (by decide)
      exact hpre c hc
    · exact digit_plain (paddedDigits_digit n c hc)
  rw [oneLine_of_flat fun c hc => (hplain c hc).2]
  unfold trim trimStart trimEnd
  rw [List.dropWhile_eq_self_iff.mpr ?_, List.rdropWhile_eq_self_iff.mpr ?_]
  · intro hne hl
    rw [(hplain _ (List.getLast_mem hne)).1] at hl
    cases hl
  · intro hlt hl
    cases hl

/-- **The next id** is one past the entries there are, when these are numbered from one on. -/
theorem nextTensionId_eq {es : List TensionEntry}
    (h : ∀ i e, es[i]? = some e → e.id = some (tensionId (i + 1))) :
    nextTensionId es = tensionId (es.length + 1) := by
  have hnext : ∀ es : List TensionEntry,
      (∀ i e, es[i]? = some e → e.id = some (tensionId (i + 1))) →
      NumberedIds.nextNumber (fun e : TensionEntry => e.id.bind idNumber) es =
        es.length + 1 := by
    intro es
    induction es using List.reverseRecOn with
    | nil =>
        intro _
        rfl
    | append_singleton es e ih =>
        intro h
        have hlast : e.id.bind idNumber = some (es.length + 1) := by
          rw [h es.length e (by simp), Option.bind_some, idNumber_tensionId]
        have hinit := ih fun i e' he => h i e' (by
          rw [List.getElem?_append_left (List.getElem?_eq_some_iff.mp he).1]
          exact he)
        rw [NumberedIds.nextNumber_append, hinit, hlast, List.length_append]
        simp
  rw [← hnext es h]
  rfl

/-! ## Histories -/

/-- A call on the log; `today` is what the clock says at an add. -/
inductive Call where
  | add (today : Str) (input : TensionInput)
  | resolve (id : Str) (r : TensionResolution)

/-- Dates are absent or `YYYY-MM-DD`, the clock's included. -/
def Call.Dated : Call → Prop
  | .add today input => isDate today = true ∧ ∀ d ∈ input.date, isDate d = true
  | .resolve _ _ => True

/-- The file, and what succeeded so far: the inputs added, in order, and the
    ids resolved with the kind of their resolution. -/
structure Log where
  file : Option Str
  added : List TensionInput
  resolved : List (Str × ResolutionKind)

/-- One call.  A call that fails changes nothing. -/
def Log.step (s : Log) : Call → Log
  | .add today input =>
      match addTension s.file today input with
      | .error _ => s
      | .ok (_, raw) => { s with file := some raw, added := s.added ++ [input] }
  | .resolve id r =>
      match resolveTension s.file id r with
      | .error _ => s
      | .ok (_, raw) =>
          { s with file := some raw, resolved := s.resolved ++ [(id, r.kind)] }

/-- The log after a history, from an absent file. -/
def Log.run (calls : List Call) : Log := calls.foldl Log.step ⟨none, [], []⟩

/-- The entries of the log, as `parseTensionLog` reads them. -/
def Log.entries (s : Log) : List TensionEntry := parseTensionLog (s.file.getD [])

/-- What the file keeps of the `n`-th add: its id, its kind, and the status and
    the resolution the history gave it. -/
structure Keeps (resolved : List (Str × ResolutionKind)) (n : Nat)
    (input : TensionInput) (e : TensionEntry) : Prop where
  id : e.id = some (tensionId n)
  kind : TensionKind.ofText input.kind = some e.kind
  resolution : e.resolution.map (·.kind) = resolved.lookup (tensionId n)
  status : trim (oneLine e.status) =
    if (resolved.lookup (tensionId n)).isSome then resolvedStatus
    else trim (oneLine (input.status.getD defaultTensionStatus))

/-- The file is the blocks of one entry per add, in order. -/
structure LogOk (s : Log) (items : List Item) : Prop where
  file : s.file.getD [] = logText items
  absent : items = [] → s.file = none
  good : ∀ e ∈ items.map Prod.fst, Good e
  length : items.length = s.added.length
  keeps : ∀ i e, (items.map Prod.fst)[i]? = some e →
    ∃ input, s.added[i]? = some input ∧ Keeps s.resolved (i + 1) input e
  once : (Assoc.keys s.resolved).Nodup
  known : ∀ id ∈ Assoc.keys s.resolved,
    ∃ j < items.length, id = tensionId (j + 1)

variable {s : Log}

theorem LogOk.entries (h : LogOk s items) : s.entries = (items.map Prod.fst).map reread := by
  have hgood : ∀ it ∈ items, Good it.1 :=
    fun it hit => h.good it.1 (List.mem_map.mpr ⟨it, hit, rfl⟩)
  have hfile : s.entries = parseTensionLog (logText items) := by
    rw [← h.file, Log.entries]
  rw [hfile, parse_logText hgood]
  simp only [List.map_map, Function.comp_def]

theorem logOk_start : LogOk ⟨none, [], []⟩ [] where
  file := rfl
  absent _ := rfl
  good _ h := nomatch h
  length := rfl
  keeps _ _ h := nomatch h
  once := List.nodup_nil
  known _ h := nomatch h

theorem LogOk.reread_id (h : LogOk s items) {i : Nat} (he : (items.map Prod.fst)[i]? = some e) :
    (reread e).id = some (tensionId (i + 1)) := by
  obtain ⟨input, _, hk⟩ := h.keeps i e he
  have hread := (parseBlock_reread (h.good e (List.mem_of_getElem? he))).2
  rw [hread.id, hk.id, Option.map_some, trim_oneLine_tensionId]

theorem checkInput_ok {input : TensionInput} {kind : TensionKind}
    (h : checkInput input = .ok kind) : (∀ f ∈ requiredFields input, trim f.2 ≠ [])
      ∧ TensionKind.ofText input.kind = some kind := by
  unfold checkInput at h
  cases hf : (requiredFields input).find? fun f => trim f.2 = [] with
  | some f =>
      rw [hf] at h
      cases h
  | none =>
      rw [hf] at h
      have hrequired := List.find?_eq_none.mp hf
      cases hk : (TensionKind.ofText input.kind).filter (· ≠ .unspecified) with
      | none =>
          rw [hk] at h
          cases h
      | some k =>
          rw [hk] at h
          simp only at h
          obtain ⟨hof, _⟩ := Option.filter_eq_some_iff.mp hk
          split at h
          · cases h
          · split at h
            · cases h
            · obtain rfl := Except.ok.inj h
              exact ⟨fun f hf => by simpa using hrequired f hf, hof⟩

/-- **An add** writes one more entry, under the next id. -/
theorem LogOk.add (h : LogOk s items) {today : Str} {input : TensionInput}
    (hdated : (Call.add today input).Dated) :
    ∃ items', LogOk (s.step (.add today input)) items' := by
  cases hc : checkInput input with
  | error e =>
      refine ⟨items, ?_⟩
      simp only [Log.step, addTension, hc]
      exact h
  | ok kind =>
      obtain ⟨hrequired, hkind⟩ := checkInput_ok hc
      have htitle : trim input.title ≠ [] := hrequired ("title", input.title) List.mem_cons_self
      have hlen : s.entries.length = items.length := by
        rw [h.entries]
        simp
      have hnext : nextTensionId s.entries = tensionId (items.length + 1) := by
        rw [nextTensionId_eq ?_, hlen]
        intro i e he
        rw [h.entries, List.getElem?_map] at he
        obtain ⟨e', he', rfl⟩ := Option.map_eq_some_iff.mp he
        exact h.reread_id he'
      set entry := newEntry (tensionId (items.length + 1)) today kind input
        with hentry
      have hgood : Good entry := by
        refine ⟨?_, ?_⟩
        · show isDate (input.date.getD today) = true
          cases hd : input.date with
          | none => exact hdated.1
          | some d => exact hdated.2 d hd
        · show trim (trim input.title) ≠ []
          rw [trim_trim]
          exact htitle
      have hfst : (padLast items ++ [(entry, 0)]).map Prod.fst =
          items.map Prod.fst ++ [entry] := by
        rw [List.map_append, padLast_entries]
        rfl
      have hcount : (padLast items).length = items.length := by
        have hl := congrArg List.length (padLast_entries items)
        simpa using hl
      have hunresolved : s.resolved.lookup (tensionId (items.length + 1)) = none := by
        cases hl : s.resolved.lookup (tensionId (items.length + 1)) with
        | none => rfl
        | some k =>
            have hmem := Assoc.mem_of_lookup hl
            obtain ⟨j, hj, he⟩ := h.known _ (List.mem_map_of_mem hmem)
            have hinj := tensionId_inj he
            omega
      have hstep : s.step (.add today input) =
          { s with
            file := some (s.file.getD [] ++ '\n' :: renderEntry entry)
            added := s.added ++ [input] } := by
        have hcur : parseTensionLog (s.file.getD []) = s.entries := rfl
        simp only [Log.step, addTension, hc, hcur, hnext, hentry]
      refine ⟨padLast items ++ [(entry, 0)], ?_⟩
      rw [hstep]
      refine ⟨?_, ?_, ?_, ?_, ?_, h.once, ?_⟩
      · show s.file.getD [] ++ _ = _
        rw [h.file]
        exact logText_add items entry
      · intro hnil
        exact absurd hnil (by simp)
      · intro e he
        rw [hfst] at he
        rcases List.mem_append.mp he with he | he
        · exact h.good e he
        · obtain rfl := List.mem_singleton.mp he
          exact hgood
      · simp [hcount, h.length]
      · intro i e he
        rw [hfst] at he
        by_cases hi : i < items.length
        · rw [List.getElem?_append_left (by simpa using hi)] at he
          obtain ⟨input', hin, hk⟩ := h.keeps i e he
          refine ⟨input', ?_, hk⟩
          rw [List.getElem?_append_left (by rw [← h.length]; exact hi)]
          exact hin
        · have hi' : i = items.length := by
            have := (List.getElem?_eq_some_iff.mp he).1
            simp at this
            omega
          subst hi'
          obtain rfl : entry = e := by simpa using he
          refine ⟨input, by simp [h.length], rfl, hkind, ?_, ?_⟩
          · rw [hunresolved]
            rfl
          · rw [hunresolved]
            rfl
      · intro id hid
        obtain ⟨j, hj, he⟩ := h.known id hid
        refine ⟨j, ?_, he⟩
        simp [hcount]
        omega

/-- **A resolution** rewrites the one entry with the id, which was open. -/
theorem LogOk.resolve (h : LogOk s items) {id : Str} {raw : Str}
    (hr : resolveTension s.file id r = .ok (u, raw)) :
    ∃ i it, items[i]? = some it ∧ id = tensionId (i + 1) ∧
      u = resolvedEntry it.1 r ∧ raw = logText (items.set i (u, 0)) ∧
      LogOk { s with file := some raw, resolved := s.resolved ++ [(id, r.kind)] }
        (items.set i (u, 0)) := by
  have hgood : ∀ it ∈ items, Good it.1 :=
    fun it hit => h.good it.1 (List.mem_map.mpr ⟨it, hit, rfl⟩)
  have hne : items ≠ [] := by
    intro hnil
    rw [h.absent hnil] at hr
    cases hr
  have hfile : s.file = some (logText items) := by
    rw [← h.file]
    cases hf : s.file with
    | none => rw [hf] at hr; cases hr
    | some raw => rfl
  rw [hfile] at hr
  obtain ⟨i, it, hit, hid, hopen, hu, hraw⟩ := resolveTension_items hne hgood hr
  have hi : i < items.length := (List.getElem?_eq_some_iff.mp hit).1
  have hfst : (items.map Prod.fst)[i]? = some it.1 := by
    rw [List.getElem?_map, hit, Option.map_some]
  have hread := (parseBlock_reread (hgood it (List.mem_of_getElem? hit))).2
  obtain ⟨input, hin, hk⟩ := h.keeps i it.1 hfst
  obtain rfl : id = tensionId (i + 1) := by
    rw [h.reread_id hfst] at hid
    exact (Option.some.inj hid).symm
  have hunresolved : s.resolved.lookup (tensionId (i + 1)) = none := by
    rw [← hk.resolution]
    rw [hread.resolved] at hopen
    cases hres : it.1.resolution with
    | none => rfl
    | some x => rw [hres] at hopen; cases hopen
  have hlook : ∀ n, (s.resolved ++ [(tensionId (i + 1), r.kind)]).lookup
      (tensionId n) = if n = i + 1 then some r.kind
        else s.resolved.lookup (tensionId n) := by
    intro n
    rw [List.lookup_append]
    by_cases hn : n = i + 1
    · rw [if_pos hn, hn, hunresolved, Option.none_or, List.lookup_cons_self]
    · have hno : tensionId n ≠ tensionId (i + 1) := fun he => hn (tensionId_inj he)
      rw [if_neg hn, Assoc.lookup_cons_of_ne _ _ hno]
      simp
  have hset : (items.set i (u, 0)).map Prod.fst = (items.map Prod.fst).set i u :=
    List.map_set
  have hgoodu : Good u := by
    have hg := hgood it (List.mem_of_getElem? hit)
    refine ⟨?_, ?_⟩
    · have hdate : u.date = (reread it.1).date := by rw [hu, resolvedEntry]
      rw [hdate, hread.date]
      exact hg.date
    · have htitle : u.title = (reread it.1).title := by rw [hu, resolvedEntry]
      rw [htitle, hread.title, trim_trim]
      exact trim_ne_nil.mpr (oneLine_visible (trim_ne_nil.mp hg.title))
  refine ⟨i, it, hit, rfl, hu, hraw, ?_, ?_, ?_, ?_, ?_, ?_, ?_⟩
  · exact hraw
  · intro hnil
    exact absurd hnil (by simpa using hne)
  · intro e he
    rw [hset] at he
    rcases List.mem_or_eq_of_mem_set he with he | he
    · exact h.good e he
    · rw [he]
      exact hgoodu
  · simp [h.length]
  · intro j e he
    rw [hset] at he
    by_cases hj : j = i
    · subst hj
      rw [List.getElem?_set_self (by simpa using hi)] at he
      rw [← Option.some.inj he, hu]
      refine ⟨input, hin, ?_, ?_, ?_, ?_⟩
      · rw [resolvedEntry]
        exact h.reread_id hfst
      · rw [resolvedEntry, hread.kind]
        exact hk.kind
      · rw [hlook, if_pos rfl, resolvedEntry, Option.map_some]
      · have hstatus : trim (oneLine resolvedStatus) = resolvedStatus := by decide
        rw [hlook, if_pos rfl, resolvedEntry, hstatus]
        rfl
    · rw [List.getElem?_set_ne (Ne.symm hj)] at he
      obtain ⟨input', hin', hk'⟩ := h.keeps j e he
      have hsame : (s.resolved ++ [(tensionId (i + 1), r.kind)]).lookup
          (tensionId (j + 1)) = s.resolved.lookup (tensionId (j + 1)) := by
        rw [hlook, if_neg (by omega)]
      exact ⟨input', hin', hk'.id, hk'.kind, by rw [hsame]; exact hk'.resolution,
        by rw [hsame]; exact hk'.status⟩
  · show (Assoc.keys (s.resolved ++ [(tensionId (i + 1), r.kind)])).Nodup
    unfold Assoc.keys
    rw [List.map_append, List.nodup_append]
    refine ⟨h.once, List.nodup_singleton _, ?_⟩
    intro a ha b hb
    obtain rfl := List.mem_singleton.mp hb
    rintro rfl
    obtain ⟨⟨id, k⟩, hmem, hid'⟩ := List.mem_map.mp ha
    obtain rfl : id = tensionId (i + 1) := hid'
    rw [Assoc.lookup_of_mem h.once hmem] at hunresolved
    cases hunresolved
  · intro id hid'
    unfold Assoc.keys at hid'
    rw [List.map_append] at hid'
    rcases List.mem_append.mp hid' with hid' | hid'
    · obtain ⟨j, hj, he⟩ := h.known id hid'
      exact ⟨j, by simpa using hj, he⟩
    · obtain rfl := List.mem_singleton.mp hid'
      exact ⟨i, by simpa using hi, rfl⟩

/-- **Every history** leaves a file of one block per add. -/
theorem logOk_run {calls : List Call} (hd : ∀ c ∈ calls, c.Dated) :
    ∃ items, LogOk (Log.run calls) items := by
  have hfold : ∀ (calls : List Call) (s : Log) (items : List Item), LogOk s items →
      (∀ c ∈ calls, c.Dated) → ∃ items', LogOk (calls.foldl Log.step s) items' := by
    intro calls
    induction calls with
    | nil => exact fun s items h _ => ⟨items, h⟩
    | cons c calls ih =>
        intro s items h hd
        have hstep : ∃ items', LogOk (s.step c) items' := by
          cases c with
          | add today input => exact h.add (hd _ List.mem_cons_self)
          | resolve id r =>
              cases hr : resolveTension s.file id r with
              | error e =>
                  refine ⟨items, ?_⟩
                  simp only [Log.step, hr]
                  exact h
              | ok q =>
                  obtain ⟨i, it, _, _, _, _, hok⟩ := h.resolve hr
                  refine ⟨items.set i (q.1, 0), ?_⟩
                  simp only [Log.step, hr]
                  exact hok
        obtain ⟨items', h'⟩ := hstep
        exact ih _ items' h' fun c hc => hd c (List.mem_cons_of_mem _ hc)
  exact hfold calls _ [] logOk_start hd

/-! ## What the parsed log says about the history -/

/-- One entry per add, under its own id and with its own kind, resolved exactly as the history
    resolved it.  An entry nobody resolved has the status it was added with. -/
structure Faithful (s : Log) : Prop where
  one_per_add : s.entries.length = s.added.length
  ids : ∀ (i : Nat) (e : TensionEntry), s.entries[i]? = some e → e.id = some (tensionId (i + 1))
  distinct : (s.entries.map (·.id)).Nodup
  kinds : ∀ (i : Nat) (e : TensionEntry) (input : TensionInput),
    s.entries[i]? = some e → s.added[i]? = some input →
    TensionKind.ofText input.kind = some e.kind
  resolutions : ∀ e ∈ s.entries, ∀ id k, e.id = some id →
    (e.resolution.map (·.kind) = some k ↔ (id, k) ∈ s.resolved)
  flags : ∀ e ∈ s.entries, e.resolved = e.resolution.isSome
  closed : ∀ e ∈ s.entries, ∀ id k, e.id = some id → (id, k) ∈ s.resolved →
    e.status = resolvedStatus
  open_ : ∀ (i : Nat) (e : TensionEntry) (input : TensionInput) (id : Str),
    s.entries[i]? = some e → s.added[i]? = some input →
    e.id = some id → (∀ k, (id, k) ∉ s.resolved) →
    e.status = trim (oneLine (input.status.getD defaultTensionStatus))

/-- Every entry but the one with this id is what it was, where it was. -/
def OthersKept (id : Str) (es es' : List TensionEntry) : Prop :=
  es'.length = es.length ∧
    ∀ (i : Nat) (e : TensionEntry), es[i]? = some e → e.id ≠ some id → es'[i]? = some e

theorem LogOk.entry (h : LogOk s items) {i : Nat} (he : s.entries[i]? = some e) :
    ∃ input, s.added[i]? = some input ∧ e.id = some (tensionId (i + 1)) ∧
      TensionKind.ofText input.kind = some e.kind ∧
      e.resolution.map (·.kind) = s.resolved.lookup (tensionId (i + 1)) ∧
      e.resolved = e.resolution.isSome ∧
      e.status = if (s.resolved.lookup (tensionId (i + 1))).isSome then resolvedStatus
        else trim (oneLine (input.status.getD defaultTensionStatus)) := by
  rw [h.entries, List.getElem?_map] at he
  obtain ⟨e', he', rfl⟩ := Option.map_eq_some_iff.mp he
  obtain ⟨input, hin, hk⟩ := h.keeps i e' he'
  have hread := (parseBlock_reread (h.good e' (List.mem_of_getElem? he'))).2
  have hres : (reread e').resolution.map (·.kind) = e'.resolution.map (·.kind) := by
    have hkind := congrArg (Option.map fun x => x.2.2) hread.resolution
    rw [Option.map_map, Option.map_map] at hkind
    exact hkind
  refine ⟨input, hin, h.reread_id he', ?_, ?_, ?_, ?_⟩
  · rw [hread.kind]
    exact hk.kind
  · rw [hres]
    exact hk.resolution
  · have hsome := congrArg Option.isSome hres
    rw [Option.isSome_map, Option.isSome_map] at hsome
    rw [hread.resolved, hsome]
  · rw [hread.status]
    exact hk.status

theorem LogOk.faithful (h : LogOk s items) : Faithful s := by
  have hlook : ∀ id k, (id, k) ∈ s.resolved ↔ s.resolved.lookup id = some k :=
    fun id k => ⟨Assoc.lookup_of_mem h.once, Assoc.mem_of_lookup⟩
  refine ⟨?_, ?_, ?_, ?_, ?_, ?_, ?_, ?_⟩
  · rw [h.entries]
    simpa using h.length
  · intro i e he
    obtain ⟨_, _, hid, _⟩ := h.entry he
    exact hid
  · rw [List.nodup_iff_getElem?_ne_getElem?]
    intro i j hij hj heq
    obtain ⟨a, ha⟩ : ∃ a, s.entries[i]? = some a :=
      ⟨_, List.getElem?_eq_getElem (by simp at hj; omega)⟩
    obtain ⟨b, hb⟩ : ∃ b, s.entries[j]? = some b :=
      ⟨_, List.getElem?_eq_getElem (by simpa using hj)⟩
    rw [List.getElem?_map, List.getElem?_map, ha, hb] at heq
    obtain ⟨_, _, hida, _⟩ := h.entry ha
    obtain ⟨_, _, hidb, _⟩ := h.entry hb
    simp only [Option.map_some, Option.some.injEq, hida, hidb] at heq
    have hinj := tensionId_inj heq
    omega
  · intro i e input he hin
    obtain ⟨input', hin', _, hkind, _⟩ := h.entry he
    obtain rfl := Option.some.inj (hin.symm.trans hin')
    exact hkind
  · intro e he id k hid
    obtain ⟨i, hi⟩ := List.mem_iff_getElem?.mp he
    obtain ⟨_, _, hid', _, hres, _⟩ := h.entry hi
    obtain rfl := Option.some.inj (hid.symm.trans hid')
    rw [hres, hlook]
  · intro e he
    obtain ⟨i, hi⟩ := List.mem_iff_getElem?.mp he
    obtain ⟨_, _, _, _, _, hflag, _⟩ := h.entry hi
    exact hflag
  · intro e he id k hid hmem
    obtain ⟨i, hi⟩ := List.mem_iff_getElem?.mp he
    obtain ⟨_, _, hid', _, _, _, hstatus⟩ := h.entry hi
    obtain rfl := Option.some.inj (hid.symm.trans hid')
    rw [hstatus, (hlook _ _).mp hmem]
    rfl
  · intro i e input id he hin hid hno
    obtain ⟨input', hin', hid', _, _, _, hstatus⟩ := h.entry he
    obtain rfl := Option.some.inj (hin.symm.trans hin')
    obtain rfl := Option.some.inj (hid.symm.trans hid')
    have hnone : s.resolved.lookup (tensionId (i + 1)) = none := by
      cases hl : s.resolved.lookup (tensionId (i + 1)) with
      | none => rfl
      | some k => exact absurd ((hlook _ _).mpr hl) (hno k)
    rw [hstatus, hnone]
    rfl

theorem LogOk.othersKept (h : LogOk s items) {id : Str} {raw : Str}
    (hr : resolveTension s.file id r = .ok (u, raw)) :
    OthersKept id s.entries (parseTensionLog raw) := by
  obtain ⟨i, it, hit, hid, _, _, hok⟩ := h.resolve hr
  have hafter := hok.entries
  have hparse : Log.entries { s with
      file := some raw, resolved := s.resolved ++ [(id, r.kind)] } =
      parseTensionLog raw := by
    rw [Log.entries, Option.getD_some]
  rw [hparse] at hafter
  rw [hafter, h.entries]
  refine ⟨by simp, ?_⟩
  intro j e he hne
  have hji : j ≠ i := by
    rintro rfl
    rw [← h.entries] at he
    obtain ⟨_, _, hide, _⟩ := h.entry he
    exact hne (hide.trans (congrArg some hid.symm))
  rw [List.getElem?_map, List.getElem?_map] at he ⊢
  rw [List.getElem?_set_ne (Ne.symm hji)]
  exact he

/-- **THE TENSION LOG IS FORGERY-PROOF AND LOSES NOTHING**: after every history
    of adds and resolutions with any free text in every field, the parsed file
    says what the history did, and a resolution moves one entry only. -/
theorem tension_log_faithful {calls : List Call} (hd : ∀ c ∈ calls, c.Dated) :
    Faithful (Log.run calls) ∧
      ∀ id r u raw, resolveTension (Log.run calls).file id r = .ok (u, raw) →
        OthersKept id (Log.run calls).entries (parseTensionLog raw) := by
  obtain ⟨items, h⟩ := logOk_run hd
  exact ⟨h.faithful, fun _ _ _ _ hr => h.othersKept hr⟩

/-- A tension whose title tries to open a block and whose claim tries to close
    it, added with a status of its own. -/
def settledInput : TensionInput where
  title := "A\n## 2026-01-01 — B".toList
  kind := "factual".toList
  sourceA := "a.md".toList
  claimA := "x\n- **Resolution kind:** accepted".toList
  sourceB := "b.md".toList
  claimB := "y".toList
  loggedBy := "agent:m".toList
  status := some "resolved".toList

def settledHistory : List Call := [.add "2026-01-01".toList settledInput]

theorem settledHistory_dated : ∀ c ∈ settledHistory, c.Dated := by
  intro c hc
  obtain rfl := List.mem_singleton.mp hc
  exact ⟨by decide, fun d hd => nomatch hd⟩

theorem settled_faithful : Faithful (Log.run settledHistory) :=
  (tension_log_faithful settledHistory_dated).1

/-- **A RESOLVED STATUS WITHOUT A RESOLUTION**: `addTension` takes the status it is given. -/
theorem resolved_without_resolution :
    ¬ ∀ calls : List Call, (∀ c ∈ calls, c.Dated) →
      ∀ e ∈ (Log.run calls).entries, e.status = resolvedStatus →
        ∃ id k, e.id = some id ∧ (id, k) ∈ (Log.run calls).resolved := by
  intro hclaim
  have hone : (Log.run settledHistory).entries.map (·.status) = [resolvedStatus] ∧
      (Log.run settledHistory).resolved = [] := by
    decide +kernel
  obtain ⟨hstatus, hnone⟩ := hone
  cases he : (Log.run settledHistory).entries with
  | nil => rw [he] at hstatus; cases hstatus
  | cons e es =>
      rw [he] at hstatus
      obtain ⟨_, k, _, hmem⟩ := hclaim _ settledHistory_dated e
        (by rw [he]; exact List.mem_cons_self) (List.cons.inj hstatus).1
      cases hmem

end Tension
