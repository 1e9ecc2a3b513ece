import Daftari.Search.ReindexProofs

/-! # A fresh index — when the manifest speaks for the rows

    The manifest compares times taken at the end of an operation with rows staged at its start.
    What makes it tell the truth is that nothing happens to a file between the moment an operation
    reads it and the moment it stats it, and that no operation overwrites the manifest entry another
    one wrote.

    * `fresh_of_calm`: **in every run of calm steps a fresh index is a true index**;
      `fresh_and_false` has the two runs in which it is not. -/

namespace Search

open Rbac (isListed)

/-! ## Windows -/

/-- Has the operation read the file, or found it missing, without having statted it since? -/
def Op.watches (ignored : String → Bool) (p : String) : Op → Bool
  | .staging todo _ => isListed ignored p && !decide (p ∈ todo)
  | .written => isListed ignored p
  | .stating todo _ => decide (p ∈ todo)
  | .staged path _ => decide (p = path)
  | .patching path _ => decide (p = path)
  | .stated _ _ _ => false

/-- Will the operation still write a manifest entry for the path, or replace the
    whole table before it writes the manifest? -/
def Op.awaits (ignored : String → Bool) (p : String) : Op → Bool
  | .staging _ _ => true
  | .written => isListed ignored p
  | .stating todo manifest => decide (p ∈ todo) || (manifest.find p).isSome
  | .staged path _ => decide (p = path)
  | .patching path _ => decide (p = path)
  | .stated path _ _ => decide (p = path)

def Op.nextManifest : Op → Option Manifest
  | .stating [] manifest => some manifest
  | .stated path stored t => some (stored.set path t)
  | _ => none

variable {B : Type} {ix : Indexer B}

/-- **The condition on one step.**  A file is not changed or deleted inside the
    window of an operation that has read it; a manifest that is stored has an
    entry for every row, but for those another operation will still enter.  A
    file the vault does not list may be edited at any time. -/
def Calm (ix : Indexer B) (s : System B) : Action B → Prop
  | .edit path _ => isListed ix.ignored path = true →
      ∀ e ∈ s.ops.entries, e.2.watches ix.ignored path = false
  | .delete path => ∀ e ∈ s.ops.entries, e.2.watches ix.ignored path = false
  | .writeManifest id => ∀ op ∈ s.ops.find id, ∀ m ∈ op.nextManifest, ∀ p ∈ s.rows.keys,
      m.find p ≠ none ∨ ∃ e ∈ s.ops.entries, e.1 ≠ id ∧ e.2.awaits ix.ignored p = true
  | _ => True

instance (s : System B) (a : Action B) : Decidable (Calm ix s a) := by
  cases a <;> unfold Calm <;> infer_instance

/-! ## The invariant -/

def Truth (ix : Indexer B) (s : System B) (p : String) : Prop :=
  s.rows.find p = (s.stagedNow ix p).map documentRow

/-- A manifest entry of the path can be trusted: its time has passed, and if it
    is still the file's time then the row is true. -/
def Entry (ix : Indexer B) (s : System B) (p : String) (t : Nat) : Prop :=
  t < s.clock ∧ (isListed ix.ignored p = true → s.mtimeOf p = some t → Truth ix s p)

def Honest (ix : Indexer B) (s : System B) (m : Manifest) : Prop :=
  ∀ p t, m.find p = some t → Entry ix s p t

def HonestOff (ix : Indexer B) (s : System B) (q : String) (m : Manifest) : Prop :=
  ∀ p t, p ≠ q → m.find p = some t → Entry ix s p t

/-- What holds of an operation in flight. -/
def OpOk (ix : Indexer B) (s : System B) : Op → Prop
  | .staging todo staged =>
      (∀ p, isListed ix.ignored p = true → p ∉ todo → staged.find p = s.stagedNow ix p)
        ∧ (∀ p, staged.find p ≠ none → p ∉ todo)
        ∧ ∀ p, p ∈ todo ∨ staged.find p ≠ none → isListed ix.ignored p = true
  | .written => ∀ p, isListed ix.ignored p = true → Truth ix s p
  | .stating todo manifest =>
      (∀ p ∈ todo, isListed ix.ignored p = true ∧ s.disk.find p ≠ none ∧ Truth ix s p)
        ∧ Honest ix s manifest
  | .staged path doc =>
      (isListed ix.ignored path = true → s.stagedNow ix path = some doc)
        ∧ s.disk.find path ≠ none
  | .patching path stored =>
      (isListed ix.ignored path = true → Truth ix s path) ∧ s.disk.find path ≠ none
        ∧ HonestOff ix s path stored
  | .stated path stored t => HonestOff ix s path stored ∧ Entry ix s path t

/-- Some operation in flight will still enter the path. -/
def Awaited (ix : Indexer B) (s : System B) (p : String) : Prop :=
  ∃ id op, s.ops.find id = some op ∧ op.awaits ix.ignored p = true

/-- **The invariant of calm runs.** -/
structure Inv (ix : Indexer B) (s : System B) : Prop where
  times : ∀ p f, s.disk.find p = some f → f.mtime < s.clock
  honest : ∀ m, s.manifest = some m → Honest ix s m
  recorded : ∀ m, s.manifest = some m → ∀ p, s.rows.find p ≠ none →
    m.find p ≠ none ∨ Awaited ix s p
  ops : ∀ id op, s.ops.find id = some op → OpOk ix s op

variable {s t : System B}

/-! ## What a change keeps -/

/-- A change that an operation which has read the path does not notice. -/
structure Unnoticed (ix : Indexer B) (s t : System B) (p : String) : Prop where
  staged : isListed ix.ignored p = true → t.stagedNow ix p = s.stagedNow ix p
  there : s.disk.find p ≠ none → t.disk.find p ≠ none
  truth : isListed ix.ignored p = true → Truth ix s p → Truth ix t p

/-- An operation stands as it did, when the change is unnoticed where it watches
    and entries that could be trusted still can. -/
theorem OpOk.change {op : Op} (h : OpOk ix s op) (hentry : ∀ p τ, Entry ix s p τ → Entry ix t p τ)
    (hwatch : ∀ p, op.watches ix.ignored p = true → Unnoticed ix s t p) : OpOk ix t op := by
  cases op with
  | staging todo staged =>
      obtain ⟨hstaged, hlisted⟩ := h
      refine ⟨?_, hlisted⟩
      intro p hp hnot
      have hw : (Op.staging todo staged).watches ix.ignored p = true := by
        show (isListed ix.ignored p && !decide (p ∈ todo)) = true
        rw [hp, decide_eq_false hnot]
        rfl
      rw [hstaged p hp hnot, (hwatch p hw).staged hp]
  | written =>
      intro p hp
      exact (hwatch p hp).truth hp (h p hp)
  | stating todo manifest =>
      obtain ⟨htodo, hhonest⟩ := h
      refine ⟨?_, fun p τ hτ => hentry p τ (hhonest p τ hτ)⟩
      intro p hp
      obtain ⟨hlisted, hthere, htruth⟩ := htodo p hp
      have hw := hwatch p (decide_eq_true hp)
      exact ⟨hlisted, hw.there hthere, hw.truth hlisted htruth⟩
  | staged path doc =>
      obtain ⟨hstaged, hthere⟩ := h
      have hw := hwatch path (decide_eq_true rfl)
      exact ⟨fun hp => (hw.staged hp).trans (hstaged hp), hw.there hthere⟩
  | patching path stored =>
      obtain ⟨htruth, hthere, hoff⟩ := h
      have hw := hwatch path (decide_eq_true rfl)
      refine ⟨fun hp => hw.truth hp (htruth hp), hw.there hthere, ?_⟩
      intro p τ hne hτ
      exact hentry p τ (hoff p τ hne hτ)
  | stated path stored τ₀ =>
      obtain ⟨hoff, he⟩ := h
      refine ⟨?_, hentry path τ₀ he⟩
      intro p τ hne hτ
      exact hentry p τ (hoff p τ hne hτ)

/-- **A change of the files or the tables.**  The operations stay where they are. -/
theorem Inv.change (h : Inv ix s) (hops : t.ops = s.ops)
    (htimes : ∀ p f, t.disk.find p = some f → f.mtime < t.clock)
    (hentry : ∀ p τ, Entry ix s p τ → Entry ix t p τ)
    (hwatch : ∀ id op, s.ops.find id = some op → ∀ p, op.watches ix.ignored p = true →
      Unnoticed ix s t p) (hmanifest : ∀ m, t.manifest = some m → Honest ix s m)
    (hrecorded : ∀ m, t.manifest = some m → ∀ p, t.rows.find p ≠ none →
      m.find p ≠ none ∨ Awaited ix s p) : Inv ix t := by
  refine ⟨htimes, ?_, ?_, ?_⟩
  · intro m hm p τ hτ
    exact hentry p τ (hmanifest m hm p τ hτ)
  · intro m hm p hp
    refine (hrecorded m hm p hp).imp_right ?_
    rintro ⟨id, op, hop, haw⟩
    exact ⟨id, op, by rw [hops]; exact hop, haw⟩
  · intro id op hop
    rw [hops] at hop
    exact (h.ops id op hop).change hentry (hwatch id op hop)

/-- **A change of the rows** that leaves true rows true, with the manifest's other entries. -/
theorem Inv.rows (h : Inv ix s) (hops : t.ops = s.ops) (hdisk : t.disk = s.disk)
    (hclock : t.clock = s.clock)
    (htruth : ∀ p, isListed ix.ignored p = true → Truth ix s p → Truth ix t p)
    (hmanifest : ∀ m, t.manifest = some m → Honest ix s m)
    (hrecorded : ∀ m, t.manifest = some m → ∀ p, t.rows.find p ≠ none →
      m.find p ≠ none ∨ Awaited ix s p) : Inv ix t := by
  refine h.change hops ?_ ?_ ?_ hmanifest hrecorded
  · rw [hdisk, hclock]
    exact h.times
  · rintro p τ ⟨hlt, he⟩
    refine ⟨by rw [hclock]; exact hlt, ?_⟩
    intro hp hτ
    unfold System.mtimeOf at hτ
    rw [hdisk] at hτ
    exact htruth p hp (he hp hτ)
  · intro id op hop p hw
    refine ⟨?_, ?_, htruth p⟩
    · intro hp
      unfold System.stagedNow
      rw [hdisk]
    · intro hthere
      rw [hdisk]
      exact hthere

variable {id : Nat}

/-- **An operation goes on**: it stands well in its new place and still awaits
    the rows it has not entered. -/
theorem Inv.put (h : Inv ix s) {op : Op} (hop : OpOk ix s op)
    (haw : ∀ m old, s.manifest = some m → s.ops.find id = some old → ∀ p,
      s.rows.find p ≠ none → old.awaits ix.ignored p = true →
      m.find p ≠ none ∨ op.awaits ix.ignored p = true) : Inv ix (s.put id op) := by
  refine ⟨h.times, h.honest, ?_, ?_⟩
  · intro m hm p hp
    rcases h.recorded m hm p hp with hin | ⟨id', old, hold, hawait⟩
    · exact Or.inl hin
    by_cases hid : id' = id
    · subst hid
      refine (haw m old hm hold p hp hawait).imp_right ?_
      intro hnew
      exact ⟨id', op, Table.find_set_self _ _ _, hnew⟩
    · refine Or.inr ⟨id', old, ?_, hawait⟩
      show (s.ops.set id op).find id' = some old
      rw [Table.find_set_of_ne _ _ hid]
      exact hold
  · intro id' op' hfind
    change (s.ops.set id op).find id' = some op' at hfind
    rw [Table.find_set] at hfind
    split at hfind
    · obtain rfl := Option.some.inj hfind
      exact hop
    · exact h.ops id' op' hfind

/-- **An operation returns** when every row it awaited has its entry. -/
theorem Inv.drop (h : Inv ix s)
    (haw : ∀ m, s.manifest = some m → ∀ p, s.rows.find p ≠ none → m.find p ≠ none
      ∨ ∃ id' op, id' ≠ id ∧ s.ops.find id' = some op ∧ op.awaits ix.ignored p = true) :
    Inv ix (s.drop id) := by
  refine ⟨h.times, h.honest, ?_, ?_⟩
  · intro m hm p hp
    refine (haw m hm p hp).imp_right ?_
    rintro ⟨id', op, hid, hop, hawait⟩
    refine ⟨id', op, ?_, hawait⟩
    show (s.ops.erase id).find id' = some op
    rw [Table.find_erase_of_ne _ hid]
    exact hop
  · intro id' op hfind
    change (s.ops.erase id).find id' = some op at hfind
    rw [Table.find_erase] at hfind
    split at hfind
    · cases hfind
    · exact h.ops id' op hfind

/-! ## External changes -/

variable {p : String}

theorem Unnoticed.of_find (hrows : t.rows = s.rows) (hfind : t.disk.find p = s.disk.find p) :
    Unnoticed ix s t p := by
  have hstaged : t.stagedNow ix p = s.stagedNow ix p := by
    unfold System.stagedNow
    rw [hfind]
  refine ⟨fun _ => hstaged, fun hthere => by rw [hfind]; exact hthere, ?_⟩
  intro _ htruth
  unfold Truth
  rw [hrows, hstaged]
  exact htruth

theorem Inv.external (h : Inv ix s) (path : String) (hops : t.ops = s.ops)
    (hrows : t.rows = s.rows) (hmanifest : t.manifest = s.manifest) (hclock : s.clock ≤ t.clock)
    (htimes : ∀ p f, t.disk.find p = some f → f.mtime < t.clock)
    (hother : ∀ p, p ≠ path → t.disk.find p = s.disk.find p)
    (hnew : ∀ τ, t.mtimeOf path = some τ → s.clock ≤ τ)
    (hcalm : ∀ id op, s.ops.find id = some op → op.watches ix.ignored path = true →
      Unnoticed ix s t path) : Inv ix t := by
  refine h.change hops htimes ?_ ?_ ?_ ?_
  · rintro p τ ⟨hlt, he⟩
    refine ⟨Nat.lt_of_lt_of_le hlt hclock, ?_⟩
    intro hp hτ
    by_cases hpath : p = path
    · -- the entry is older than the change
      subst hpath
      exact absurd (hnew τ hτ) (Nat.not_le_of_lt hlt)
    · have hm : s.mtimeOf p = some τ := by
        unfold System.mtimeOf at hτ ⊢
        rw [← hother p hpath]
        exact hτ
      exact (Unnoticed.of_find hrows (hother p hpath)).truth hp (he hp hm)
  · intro id op hop p hw
    by_cases hpath : p = path
    · subst hpath
      exact hcalm id op hop hw
    · exact .of_find hrows (hother p hpath)
  · intro m hm
    exact h.honest m (by rw [← hmanifest]; exact hm)
  · intro m hm p hp
    rw [hmanifest] at hm
    rw [hrows] at hp
    exact h.recorded m hm p hp

variable {path : String}

theorem Inv.edit (h : Inv ix s) {bytes : B} (hcalm : Calm ix s (.edit path bytes)) :
    Inv ix { s with clock := s.clock + 1, disk := s.disk.set path ⟨bytes, s.clock⟩ } := by
  refine h.external path rfl rfl rfl (Nat.le_succ _) ?_ ?_ ?_ ?_
  · intro p f hf
    rw [Table.find_set] at hf
    split at hf
    · obtain rfl := Option.some.inj hf
      exact Nat.lt_succ_self _
    · exact Nat.lt_succ_of_lt (h.times p f hf)
  · intro p hp
    exact Table.find_set_of_ne _ _ hp
  · intro τ hτ
    unfold System.mtimeOf at hτ
    simp only [Table.find_set_self, Option.map_some, Option.some.injEq] at hτ
    exact Nat.le_of_eq hτ
  · intro id op hop hw
    -- inside a window only a file that is not listed is edited
    have hlisted : ¬ isListed ix.ignored path = true := by
      intro hp
      have := hcalm hp (id, op) (Table.mem_entries.mpr hop)
      rw [hw] at this
      cases this
    refine ⟨fun hp => absurd hp hlisted, ?_, fun hp => absurd hp hlisted⟩
    intro _
    simp only [Table.find_set_self, ne_eq, reduceCtorEq, not_false_eq_true]

theorem Inv.delete (h : Inv ix s) (hcalm : Calm ix s (.delete path)) :
    Inv ix { s with disk := s.disk.erase path } := by
  refine h.external path rfl rfl rfl (Nat.le_refl _) ?_ ?_ ?_ ?_
  · intro p f hf
    rw [Table.find_erase] at hf
    split at hf
    · cases hf
    · exact h.times p f hf
  · intro p hp
    exact Table.find_erase_of_ne _ hp
  · intro τ hτ
    unfold System.mtimeOf at hτ
    simp only [Table.find_erase_self, Option.map_none, reduceCtorEq] at hτ
  · intro id op hop hw
    have := hcalm (id, op) (Table.mem_entries.mpr hop)
    rw [hw] at this
    cases this

/-! ## The full pass -/

theorem mem_listFiles :
    p ∈ s.listFiles ix ↔ isListed ix.ignored p = true ∧ s.disk.find p ≠ none := by
  unfold System.listFiles
  rw [List.mem_filter, Table.mem_keys, and_comm]

theorem stagedNow_of_absent (h : s.disk.find p = none) : s.stagedNow ix p = none := by
  unfold System.stagedNow
  rw [h]
  rfl

theorem Inv.startReindex (h : Inv ix s) (hid : s.ops.find id = none) :
    Inv ix (s.startReindex ix id) := by
  refine h.put ⟨?_, ?_, ?_⟩ ?_
  · intro p hp hnot
    have habs : s.disk.find p = none := by
      by_contra hthere
      exact hnot (mem_listFiles.mpr ⟨hp, hthere⟩)
    rw [stagedNow_of_absent habs]
    rfl
  · intro p hp
    exact absurd (Table.find_empty p) hp
  · rintro p (hp | hp)
    · exact (mem_listFiles.mp hp).1
    · exact absurd (Table.find_empty p) hp
  · intro m old _ hold
    rw [hid] at hold
    cases hold

variable {staged : Table String IndexedDocument}

theorem Inv.stage (h : Inv ix s) {todo : List String}
    (hop : s.ops.find id = some (.staging todo staged)) (hpath : path ∈ todo) :
    Inv ix (s.put id (.staging (todo.filter (· ≠ path))
      (match s.stagedNow ix path with
        | some doc => staged.set path doc
        | none => staged))) := by
  obtain ⟨hstaged, hnot, hlisted⟩ := h.ops id _ hop
  have hrest : ∀ p, p ∉ todo.filter (· ≠ path) ↔ p ∉ todo ∨ p = path := by
    intro p
    rw [List.mem_filter, decide_eq_true_eq]
    tauto
  have hnone : staged.find path = none := by
    by_contra hne
    exact hnot path hne hpath
  -- the file that was read now finds its document, the others what they found
  have hfind : ∀ p, (match s.stagedNow ix path with
      | some doc => staged.set path doc
      | none => staged).find p = if p = path then s.stagedNow ix path else staged.find p := by
    intro p
    cases hdoc : s.stagedNow ix path with
    | some doc => exact Table.find_set _ _ _ _
    | none =>
        show staged.find p = _
        by_cases hp : p = path
        · rw [if_pos hp, hp, hnone]
        · rw [if_neg hp]
  refine h.put ⟨?_, ?_, ?_⟩ fun _ _ _ _ _ _ _ => Or.inr rfl
  · intro p hp hp'
    rw [hfind]
    by_cases hpp : p = path
    · rw [if_pos hpp, hpp]
    · rw [if_neg hpp]
      exact hstaged p hp (((hrest p).mp hp').resolve_right hpp)
  · intro p hp
    rw [hrest]
    by_cases hpp : p = path
    · exact Or.inr hpp
    · rw [hfind, if_neg hpp] at hp
      exact Or.inl (hnot p hp)
  · rintro p (hp | hp)
    · exact hlisted p (Or.inl (List.mem_filter.mp hp).1)
    · by_cases hpp : p = path
      · rw [hpp]
        exact hlisted path (Or.inl hpath)
      · rw [hfind, if_neg hpp] at hp
        exact hlisted p (Or.inr hp)

theorem find_writeRows (s : System B) (staged : Table String IndexedDocument) (p : String) :
    (s.writeRows ix staged).rows.find p = (staged.find p).map documentRow := by
  show (Table.ofKeys staged.keys _).find p = _
  rw [Table.find_ofKeys]
  split
  · rfl
  · rename_i hp
    rw [Table.mem_keys, not_not] at hp
    rw [hp]
    rfl

theorem Inv.writeRows (h : Inv ix s) (hop : s.ops.find id = some (.staging [] staged)) :
    Inv ix ((s.writeRows ix staged).put id .written) := by
  obtain ⟨hstaged, -, hlisted⟩ := h.ops id _ hop
  have htruth : ∀ p, isListed ix.ignored p = true → Truth ix (s.writeRows ix staged) p := by
    intro p hp
    unfold Truth
    rw [find_writeRows, hstaged p hp List.not_mem_nil]
    rfl
  have hrows : Inv ix (s.writeRows ix staged) := by
    refine h.rows rfl rfl rfl (fun p hp _ => htruth p hp) h.honest ?_
    -- the pass itself will enter every row it has just written
    intro m _ p _
    exact Or.inr ⟨id, _, hop, rfl⟩
  refine hrows.put htruth ?_
  intro m old _ _ p hp _
  rw [find_writeRows] at hp
  refine Or.inr (hlisted p (Or.inr ?_))
  intro hnone
  rw [hnone] at hp
  exact hp rfl

theorem Inv.list (h : Inv ix s) (hop : s.ops.find id = some .written) :
    Inv ix (s.put id (.stating (s.listFiles ix) .empty)) := by
  have htruth : ∀ p, isListed ix.ignored p = true → Truth ix s p := h.ops id _ hop
  refine h.put ⟨?_, ?_⟩ ?_
  · intro p hp
    obtain ⟨hlisted, hthere⟩ := mem_listFiles.mp hp
    exact ⟨hlisted, hthere, htruth p hlisted⟩
  · intro p τ hτ
    cases hτ
  · intro m old _ hold p hp haw
    obtain rfl := Option.some.inj (hop.symm.trans hold)
    refine Or.inr ?_
    -- a row of a listed path is its file's, so the file is there to be listed
    have hthere : s.disk.find p ≠ none := by
      intro habs
      have hrow := htruth p haw
      unfold Truth at hrow
      rw [stagedNow_of_absent habs] at hrow
      exact hp hrow
    show (decide (p ∈ s.listFiles ix) || _) = true
    rw [decide_eq_true (mem_listFiles.mpr ⟨haw, hthere⟩)]
    rfl

theorem Inv.entry_now (h : Inv ix s) {τ : Nat} (hτ : s.mtimeOf p = some τ)
    (htruth : isListed ix.ignored p = true → Truth ix s p) : Entry ix s p τ := by
  refine ⟨?_, fun hp _ => htruth hp⟩
  obtain ⟨f, hf, rfl⟩ := Option.map_eq_some_iff.mp hτ
  exact h.times p f hf

theorem mtimeOf_isSome (h : s.disk.find p ≠ none) : ∃ τ, s.mtimeOf p = some τ := by
  obtain ⟨f, hf⟩ := Option.ne_none_iff_exists'.mp h
  exact ⟨f.mtime, by unfold System.mtimeOf; rw [hf]; rfl⟩

theorem Inv.statListed (h : Inv ix s) {todo : List String} {manifest : Manifest} {τ : Nat}
    (hop : s.ops.find id = some (.stating todo manifest)) (hpath : path ∈ todo)
    (hτ : s.mtimeOf path = some τ) :
    Inv ix (s.put id (.stating (todo.filter (· ≠ path)) (manifest.set path τ))) := by
  obtain ⟨htodo, hhonest⟩ := h.ops id _ hop
  refine h.put ⟨?_, ?_⟩ ?_
  · intro p hp
    exact htodo p (List.mem_filter.mp hp).1
  · intro p τ' hτ'
    rw [Table.find_set] at hτ'
    split at hτ'
    · rename_i hp
      subst hp
      obtain rfl := Option.some.inj hτ'
      exact h.entry_now hτ fun _ => (htodo p hpath).2.2
    · exact hhonest p τ' hτ'
  · intro m old _ hold p _ haw
    obtain rfl := Option.some.inj (hop.symm.trans hold)
    refine Or.inr ?_
    change (decide (p ∈ todo) || (manifest.find p).isSome) = true at haw
    show (decide (p ∈ todo.filter (· ≠ path)) || ((manifest.set path τ).find p).isSome) = true
    rw [Bool.or_eq_true] at haw ⊢
    by_cases hp : p = path
    · subst hp
      rw [Table.find_set_self]
      exact Or.inr rfl
    · rw [Table.find_set_of_ne _ _ hp]
      refine haw.imp_left ?_
      intro hmem
      exact decide_eq_true (List.mem_filter.mpr ⟨of_decide_eq_true hmem, decide_eq_true hp⟩)

/-! ## The single file -/

theorem Inv.evictDocument (h : Inv ix s) (hpath : ix.ignored path = true) :
    Inv ix (s.evictDocument path) := by
  have hunlisted : ∀ p, isListed ix.ignored p = true → p ≠ path := by
    rintro p hp rfl
    unfold isListed Rbac.isIgnoredVaultPath at hp
    rw [hpath, Bool.or_true, Bool.not_true, Bool.and_false] at hp
    cases hp
  have hfind : ∀ m, (s.evictDocument path).manifest = some m → ∃ m₀, s.manifest = some m₀
      ∧ (∀ p, p ≠ path → m.find p = m₀.find p) ∧ ∀ p τ, m.find p = some τ →
        m₀.find p = some τ := by
    intro m hm
    obtain ⟨m₀, hm₀, rfl⟩ := Option.map_eq_some_iff.mp hm
    refine ⟨m₀, hm₀, ?_, ?_⟩
    · intro p hp
      split
      · exact Table.find_erase_of_ne _ hp
      · rfl
    · intro p τ hτ
      split at hτ
      · rw [Table.find_erase] at hτ
        split at hτ
        · cases hτ
        · exact hτ
      · exact hτ
  refine h.rows rfl rfl rfl ?_ ?_ ?_
  · intro p hp htruth
    show (s.rows.erase path).find p = _
    rw [Table.find_erase_of_ne _ (hunlisted p hp)]
    exact htruth
  · intro m hm p τ hτ
    obtain ⟨m₀, hm₀, -, hsub⟩ := hfind m hm
    exact h.honest m₀ hm₀ p τ (hsub p τ hτ)
  · intro m hm p hp
    obtain ⟨m₀, hm₀, hsame, -⟩ := hfind m hm
    change (s.rows.erase path).find p ≠ none at hp
    have hne : p ≠ path := by
      rintro rfl
      exact hp (Table.find_erase_self _ _)
    rw [Table.find_erase_of_ne _ hne] at hp
    rw [hsame p hne]
    exact h.recorded m₀ hm₀ p hp

theorem Inv.startIndex (h : Inv ix s) (hid : s.ops.find id = none) (path : String) :
    Inv ix (s.startIndex ix id path) := by
  unfold System.startIndex
  split
  · rename_i hpath
    exact h.evictDocument hpath
  split
  · exact h.startReindex hid
  split
  · exact h.startReindex hid
  cases hdoc : s.stagedNow ix path with
  | none => exact h
  | some doc =>
      refine h.put ⟨fun _ => hdoc, ?_⟩ ?_
      · intro habs
        rw [stagedNow_of_absent habs] at hdoc
        cases hdoc
      · intro m old _ hold
        rw [hid] at hold
        cases hold

theorem Inv.insert (h : Inv ix s) {doc : IndexedDocument}
    (hop : s.ops.find id = some (.staged path doc)) :
    Inv ix (match s.manifest with
      | some stored => System.put { s with rows := s.rows.set path (documentRow doc) } id
          (.patching path stored)
      | none => System.drop { s with rows := s.rows.set path (documentRow doc) } id) := by
  obtain ⟨hstaged, hthere⟩ := h.ops id _ hop
  set t : System B := { s with rows := s.rows.set path (documentRow doc) } with ht
  have hself : isListed ix.ignored path = true → Truth ix t path := by
    intro hp
    show (s.rows.set path (documentRow doc)).find path = (s.stagedNow ix path).map documentRow
    rw [hstaged hp, Table.find_set_self]
    rfl
  have hother : ∀ p, p ≠ path → t.rows.find p = s.rows.find p := fun p hp =>
    Table.find_set_of_ne _ _ hp
  have hrows : Inv ix t := by
    refine h.rows rfl rfl rfl ?_ h.honest ?_
    · intro p hp htruth
      by_cases hpath : p = path
      · rw [hpath]
        exact hself (hpath ▸ hp)
      · show t.rows.find p = _
        rw [hother p hpath]
        exact htruth
    · intro m hm p hp
      by_cases hpath : p = path
      · exact Or.inr ⟨id, _, hop, decide_eq_true hpath⟩
      · rw [hother p hpath] at hp
        exact h.recorded m hm p hp
  cases hm : s.manifest with
  | some stored =>
      refine hrows.put ⟨hself, hthere, ?_⟩ ?_
      · intro p τ _ hτ
        exact hrows.honest stored hm p τ hτ
      · intro m old _ hold p _ haw
        obtain rfl := Option.some.inj (hop.symm.trans hold)
        exact Or.inr haw
  | none =>
      refine hrows.drop ?_
      intro m hm'
      exact absurd (hm.symm.trans hm') (Option.some_ne_none m).symm

theorem Inv.statOne (h : Inv ix s) {stored : Manifest} {τ : Nat}
    (hop : s.ops.find id = some (.patching path stored)) (hτ : s.mtimeOf path = some τ) :
    Inv ix (s.put id (.stated path stored τ)) := by
  obtain ⟨htruth, -, hoff⟩ := h.ops id _ hop
  refine h.put ⟨hoff, h.entry_now hτ htruth⟩ ?_
  intro m old _ hold p _ haw
  obtain rfl := Option.some.inj (hop.symm.trans hold)
  exact Or.inr haw

/-! ## Storing a manifest -/

theorem Inv.writeManifest (h : Inv ix s) {op : Op} {m : Manifest} (hop : s.ops.find id = some op)
    (hm : op.nextManifest = some m) (hcalm : Calm ix s (.writeManifest id)) :
    Inv ix (System.drop { s with manifest := some m } id) := by
  have hhonest : Honest ix s m := by
    have hok := h.ops id op hop
    unfold Op.nextManifest at hm
    split at hm
    · obtain rfl := Option.some.inj hm
      exact hok.2
    · obtain rfl := Option.some.inj hm
      obtain ⟨hoff, he⟩ := hok
      intro p τ hτ
      rw [Table.find_set] at hτ
      split at hτ
      · rename_i hp
        obtain rfl := Option.some.inj hτ
        rw [hp]
        exact he
      · rename_i hp
        exact hoff p τ hp hτ
    · cases hm
  have hrec : ∀ p, s.rows.find p ≠ none → m.find p ≠ none
      ∨ ∃ id' op', id' ≠ id ∧ s.ops.find id' = some op' ∧ op'.awaits ix.ignored p = true := by
    intro p hp
    refine (hcalm op hop m hm p (Table.mem_keys.mpr hp)).imp_right ?_
    rintro ⟨⟨id', op'⟩, he, hid, haw⟩
    exact ⟨id', op', hid, Table.mem_entries.mp he, haw⟩
  refine Inv.drop (s := { s with manifest := some m }) ⟨h.times, ?_, ?_, h.ops⟩ ?_
  · intro m' hm'
    obtain rfl := Option.some.inj hm'
    exact hhonest
  · intro m' hm' p hp
    obtain rfl := Option.some.inj hm'
    refine (hrec p hp).imp_right ?_
    rintro ⟨id', op', -, hop', haw⟩
    exact ⟨id', op', hop', haw⟩
  · intro m' hm' p hp
    obtain rfl := Option.some.inj hm'
    exact hrec p hp

/-! ## One step and whole runs -/

/-- **Every calm step keeps the invariant.** -/
theorem Inv.step (h : Inv ix s) {a : Action B} (hstep : s.step? ix a = some t)
    (hcalm : Calm ix s a) : Inv ix t := by
  cases a with
  | edit path bytes =>
      obtain rfl := Option.some.inj hstep
      exact h.edit hcalm
  | delete path =>
      obtain rfl := Option.some.inj hstep
      exact h.delete hcalm
  | reindex id =>
      obtain ⟨hid, ht⟩ := Option.ite_none_right_eq_some.mp hstep
      obtain rfl := Option.some.inj ht
      exact h.startReindex hid
  | stage id path =>
      simp only [System.step?] at hstep
      split at hstep
      · rename_i todo staged hop
        obtain ⟨hpath, ht⟩ := Option.ite_none_right_eq_some.mp hstep
        obtain rfl := Option.some.inj ht
        exact h.stage hop hpath
      · cases hstep
  | writeRows id =>
      simp only [System.step?] at hstep
      split at hstep
      · rename_i staged hop
        obtain rfl := Option.some.inj hstep
        exact h.writeRows hop
      · cases hstep
  | list id =>
      simp only [System.step?] at hstep
      split at hstep
      · rename_i hop
        obtain rfl := Option.some.inj hstep
        exact h.list hop
      · cases hstep
  | stat id path =>
      simp only [System.step?] at hstep
      split at hstep
      · rename_i todo manifest hop
        obtain ⟨hpath, ht⟩ := Option.ite_none_right_eq_some.mp hstep
        -- a file that is still to be statted is there
        obtain ⟨τ, hτ⟩ := mtimeOf_isSome ((h.ops id _ hop).1 path hpath).2.1
        rw [hτ] at ht
        obtain rfl := Option.some.inj ht
        exact h.statListed hop hpath hτ
      · rename_i path' stored hop
        obtain ⟨rfl, ht⟩ := Option.ite_none_right_eq_some.mp hstep
        obtain ⟨τ, hτ⟩ := mtimeOf_isSome (h.ops id _ hop).2.1
        rw [hτ] at ht
        obtain rfl := Option.some.inj ht
        exact h.statOne hop hτ
      · cases hstep
  | writeManifest id =>
      simp only [System.step?] at hstep
      split at hstep
      · rename_i manifest hop
        obtain rfl := Option.some.inj hstep
        exact h.writeManifest hop rfl hcalm
      · rename_i path stored τ hop
        obtain rfl := Option.some.inj hstep
        exact h.writeManifest hop rfl hcalm
      · cases hstep
  | index id path =>
      obtain ⟨hid, ht⟩ := Option.ite_none_right_eq_some.mp hstep
      obtain rfl := Option.some.inj ht
      exact h.startIndex hid path
  | insert id =>
      simp only [System.step?] at hstep
      split at hstep
      · rename_i path doc hop
        obtain rfl := Option.some.inj hstep
        exact h.insert hop
      · cases hstep

theorem Inv.unbuilt {clock : Nat} {disk : Table String (File B)}
    (htimes : ∀ p f, disk.find p = some f → f.mtime < clock) : Inv ix (unbuilt clock disk) := by
  refine ⟨htimes, ?_, ?_, ?_⟩
  · intro m hm
    cases hm
  · intro m hm
    cases hm
  · intro id op hop
    cases hop

theorem Inv.fresh (h : Inv ix s) (hidle : s.ops = .empty) (hfresh : s.isIndexFresh ix = true) :
    (∀ p f, isListed ix.ignored p = true → s.disk.find p = some f →
        s.rows.find p = (stageOne ix p f.bytes).map documentRow)
      ∧ ∀ p, s.rows.find p ≠ none → s.disk.find p ≠ none := by
  unfold System.isIndexFresh at hfresh
  split at hfresh
  · cases hfresh
  split at hfresh
  · cases hfresh
  split at hfresh
  · cases hfresh
  rename_i m hm
  have hsame : ∀ p, m.find p = if p ∈ s.listFiles ix then s.mtimeOf p else none := by
    intro p
    rw [Table.agrees_iff.mp hfresh p]
    exact Table.find_ofKeys _ _ _
  constructor
  · intro p f hp hf
    have hin : p ∈ s.listFiles ix := mem_listFiles.mpr ⟨hp, by rw [hf]; exact nofun⟩
    have hτ : s.mtimeOf p = some f.mtime := by
      unfold System.mtimeOf
      rw [hf]
      rfl
    have htruth : Truth ix s p :=
      (h.honest m hm p f.mtime (by rw [hsame, if_pos hin, hτ])).2 hp hτ
    unfold Truth System.stagedNow at htruth
    rw [hf] at htruth
    exact htruth
  · intro p hp
    rcases h.recorded m hm p hp with hin | ⟨id, op, hop, -⟩
    · rw [hsame] at hin
      split at hin
      · rename_i hlisted
        exact (mem_listFiles.mp hlisted).2
      · exact absurd rfl hin
    · rw [hidle] at hop
      cases hop

/-- **A FRESH INDEX IS A TRUE INDEX.**  From a vault with any files whose index was never built,
    after any interleaving of external changes and operations in which every step is calm: if no
    operation is in progress and the index counts as fresh, then every listed file has the row
    staged from its current bytes, or none when it does not parse, and every row has its file. -/
theorem fresh_of_calm {B : Type} (ix : Indexer B) (clock : Nat)
    (disk : Table String (File B))
    (htimes : ∀ p f, disk.find p = some f → f.mtime < clock) (s : System B)
    (hrun : ((machine ix).restrict (Calm ix)).Reach (unbuilt clock disk) s)
    (hidle : s.ops = .empty) (hfresh : s.isIndexFresh ix = true) :
    (∀ p f, isListed ix.ignored p = true → s.disk.find p = some f →
        s.rows.find p = (stageOne ix p f.bytes).map documentRow)
      ∧ ∀ p, s.rows.find p ≠ none → s.disk.find p ≠ none := by
  have hinv : Inv ix s := by
    refine Machine.reach_invariant ?_ (Inv.unbuilt htimes) hrun
    intro s a h ha
    exact h.step (step_of_enabled ix ha.1) ha.2
  exact hinv.fresh hidle hfresh

/-! ## Three runs -/

open Frontmatter in
/-- An index over files kept as their parts, with no ignore list and no schema extensions. -/
def plainIndexer : Indexer PlainFile where
  codec := plainCodec
  json _ := ""
  toLowerCase s := s
  ignored _ := false
  schemaExtensions := []
  fingerprint := "[]"

open Frontmatter in
def note (body : List Char) : PlainFile := ⟨[], body, List.nodup_nil⟩

def page (name : Char) : String := String.ofList [name, '.', 'm', 'd']

open Frontmatter in
def quietPass : List (Action PlainFile) :=
  [.edit (page 'a') (note ['x']), .reindex 0, .stage 0 (page 'a'), .writeRows 0, .list 0,
    .stat 0 (page 'a'), .writeManifest 0]

/-- The pass is calm, and the index is fresh after it. -/
theorem fresh_of_calm_quietPass : ∃ s : System Frontmatter.PlainFile,
    s.isIndexFresh plainIndexer = true ∧
      (∀ p f, isListed plainIndexer.ignored p = true → s.disk.find p = some f →
        s.rows.find p = (stageOne plainIndexer p f.bytes).map documentRow)
      ∧ ∀ p, s.rows.find p ≠ none → s.disk.find p ≠ none := by
  obtain ⟨s, hrun, hs⟩ := Machine.reach_of_runs_any
    (M := (machine plainIndexer).restrict (Calm plainIndexer)) (s := unbuilt 0 .empty)
    (l := quietPass)
    (Q := fun s => decide (s.ops = .empty) && s.isIndexFresh plainIndexer) (by decide +kernel)
  rw [Bool.and_eq_true, decide_eq_true_eq] at hs
  exact ⟨s, hs.2, fresh_of_calm plainIndexer 0 .empty nofun s hrun hs.1 hs.2⟩

open Frontmatter in
def overtakenPass : List (Action PlainFile) :=
  [.edit (page 'a') (note ['x']), .reindex 0, .stage 0 (page 'a'),
    .edit (page 'a') (note ['y']), .writeRows 0, .list 0, .stat 0 (page 'a'), .writeManifest 0]

open Frontmatter in
/-- Two new files are indexed at once: both operations read the manifest before either stores it,
    the second one drops the first one's entry, and then the first file is deleted. -/
def lostEntry : List (Action PlainFile) :=
  quietPass ++ [.edit (page 'b') (note ['y']), .edit (page 'c') (note ['z']),
    .index 1 (page 'b'), .index 2 (page 'c'), .insert 1, .insert 2, .stat 1 (page 'b'),
    .writeManifest 1, .stat 2 (page 'c'), .writeManifest 2, .delete (page 'b')]

/-- **FRESH AND FALSE.**  In one run the row of `a.md` is the old file's, in the other `b.md` has a
    row and no file; no operation is in progress and the index counts as fresh in both. -/
theorem fresh_and_false :
    (∃ s, (machine plainIndexer).Reach (unbuilt 0 .empty) s ∧ s.ops = .empty
        ∧ s.isIndexFresh plainIndexer = true
        ∧ isListed plainIndexer.ignored (page 'a') = true
        ∧ ∃ f, s.disk.find (page 'a') = some f
          ∧ s.rows.find (page 'a') ≠ (stageOne plainIndexer (page 'a') f.bytes).map documentRow)
      ∧ ∃ s, (machine plainIndexer).Reach (unbuilt 0 .empty) s ∧ s.ops = .empty
        ∧ s.isIndexFresh plainIndexer = true
        ∧ s.rows.find (page 'b') ≠ none ∧ s.disk.find (page 'b') = none := by
  constructor
  · obtain ⟨s, hrun, hs⟩ := Machine.reach_of_runs_any (M := machine plainIndexer)
      (s := unbuilt 0 .empty) (l := overtakenPass)
      (Q := fun s => decide (s.ops = .empty) && s.isIndexFresh plainIndexer
        && isListed plainIndexer.ignored (page 'a')
        && (s.disk.find (page 'a')).any fun f => decide (s.rows.find (page 'a') ≠
          (stageOne plainIndexer (page 'a') f.bytes).map documentRow)) (by decide +kernel)
    simp only [Bool.and_eq_true, decide_eq_true_eq, Option.any_eq_true] at hs
    obtain ⟨⟨⟨hidle, hfresh⟩, hlisted⟩, hrow⟩ := hs
    exact ⟨s, hrun, hidle, hfresh, hlisted, hrow⟩
  · obtain ⟨s, hrun, hs⟩ := Machine.reach_of_runs_any (M := machine plainIndexer)
      (s := unbuilt 0 .empty) (l := lostEntry)
      (Q := fun s => decide (s.ops = .empty) && s.isIndexFresh plainIndexer
        && decide (s.rows.find (page 'b') ≠ none) && (s.disk.find (page 'b')).isNone)
      (by decide +kernel)
    simp only [Bool.and_eq_true, decide_eq_true_eq, Option.isNone_iff_eq_none] at hs
    obtain ⟨⟨⟨hidle, hfresh⟩, hrow⟩, hgone⟩ := hs
    exact ⟨s, hrun, hidle, hfresh, hrow, hgone⟩

end Search
