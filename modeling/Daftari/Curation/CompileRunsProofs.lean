import Daftari.Curation.CertificatesProofs

/-! # Compile runs — reads, writes and the edges between them

    `curation/read-log.ts` and `curation/consumes.ts`: a served read joins the inputs of its run,
    and a write that carries the run's id turns these inputs into edges of the document it wrote.
    The edges are stamped when they are made, after the write, and the stamp is the baseline that
    later changes of the inputs are measured from.

    * `Event`, `logsOf`: what happens in the order of one clock, and the three logs it leaves;
    * `no_slip_iff`: **in every history the baseline holds for every prefix exactly when no input
      changes between a run's last read of it and the stamp.** -/

namespace Staleness

/-! ## The read log -/

/-- `ReadLogEntry`, as far as a compile looks at it. -/
structure ReadLogEntry where
  timestamp : String
  tool : String
  file : String
  runId : Option String
deriving DecidableEq

/-- `readsForRun`: the paths a run read, each once. -/
def readsForRun (entries : List ReadLogEntry) (runId : String) : List String :=
  ((entries.filter fun e => e.runId = some runId).map ReadLogEntry.file).eraseDups

/-- What `mintConsumesEdges` appends for a write of `artifact`. -/
def mintConsumesEdges (log : List ReadLogEntry) (artifact runId compileTs : String) :
    List ConsumesEdge :=
  ((readsForRun log runId).filter fun p => p ≠ artifact).map fun unit =>
    { artifact := artifact, unit := unit, fields := ["*"], compileTs := compileTs }

variable {artifact : String}

theorem compileTs_of_mint {log : List ReadLogEntry} {runId ts : String} {edge : ConsumesEdge}
    (h : edge ∈ mintConsumesEdges log artifact runId ts) : edge.compileTs = ts := by
  obtain ⟨unit, _, rfl⟩ := List.mem_map.mp h
  rfl

/-! ## Histories -/

structure Clock where
  stamp : Nat → String
  later : ∀ m n, m < n → Text.lt (stamp m) (stamp n) = true
  stamped : ∀ n, stamp n ≠ ""

/-- What happens to a vault, one event at a tick. -/
inductive Event where
  | serve (tool file : String) (runId : Option String)
  /-- A write that landed; `changed` says whether the document's content is another one now. -/
  | write (file action : String) (runId : Option String) (bodyChanged : Option Bool)
      (diff : FrontmatterDiff) (changed : Bool)
  | refuse (file action : String)
  /-- The end of the write that happened at tick `wrote`: its inputs become edges. -/
  | mint (wrote : Nat) (artifact runId : String)

structure Logs where
  clock : Nat
  reads : List ReadLogEntry
  provenance : List ProvenanceEntry
  consumes : List ConsumesEdge

def Logs.step (clock : Clock) (s : Logs) : Event → Logs
  | .serve tool file runId =>
      { s with
        clock := s.clock + 1
        reads := s.reads ++ [⟨clock.stamp s.clock, tool, file, runId.filter (· ≠ "")⟩] }
  | .write file action _ bodyChanged diff _ =>
      { s with
        clock := s.clock + 1
        provenance := s.provenance ++
          [⟨clock.stamp s.clock, file, action, bodyChanged, some diff, clock.stamped _⟩] }
  | .refuse file action =>
      { s with
        clock := s.clock + 1
        provenance := s.provenance ++
          [⟨clock.stamp s.clock, file, action, none, none, clock.stamped _⟩] }
  | .mint _ artifact runId =>
      { s with
        clock := s.clock + 1
        consumes := s.consumes ++
          mintConsumesEdges s.reads artifact runId (clock.stamp s.clock) }

def logsOf (clock : Clock) (history : List Event) : Logs :=
  history.foldl (Logs.step clock) ⟨0, [], [], []⟩

def Event.writes (file : String) : Event → Bool
  | .write f _ _ _ _ _ => f = file
  | _ => false

def Event.changes (file : String) : Event → Bool
  | .write f _ _ _ _ changed => f = file && changed
  | _ => false

def Event.servedTo (file runId : String) : Event → Bool
  | .serve _ f run => f = file && run = some runId
  | _ => false

/-- Edges are made for the earlier write they end, under the run id it carried, and
    the action of a landed write is no refusal. -/
structure Valid (history : List Event) : Prop where
  minted : ∀ m wrote artifact runId, history[m]? = some (Event.mint wrote artifact runId) →
    wrote < m ∧ runId ≠ "" ∧ ∃ action bodyChanged diff changed,
      history[wrote]? =
        some (Event.write artifact action (some runId) bodyChanged diff changed)
  landed : ∀ e ∈ history, ∀ file action runId bodyChanged diff changed,
    e = .write file action runId bodyChanged diff changed → action ≠ "rejected_stale"

/-! ## What the logs hold -/

section Runs

variable {clock : Clock} {history : List Event}

theorem logsOf_snoc (history : List Event) (e : Event) :
    logsOf clock (history ++ [e]) = (logsOf clock history).step clock e := by
  unfold logsOf
  rw [List.foldl_append]
  rfl

variable (clock) in
theorem clock_logsOf (history : List Event) : (logsOf clock history).clock = history.length := by
  induction history using List.reverseRecOn with
  | nil => rfl
  | append_singleton history e ih =>
      rw [logsOf_snoc, List.length_append, ← ih]
      cases e <;> rfl

/-- An entry of the provenance log is that of a write, or of a refusal, at its tick. -/
theorem mem_provenance {entry : ProvenanceEntry} (h : entry ∈ (logsOf clock history).provenance) :
    ∃ n < history.length, entry.timestamp = clock.stamp n := by
  induction history using List.reverseRecOn with
  | nil => cases h
  | append_singleton history e ih =>
      have hold : entry ∈ (logsOf clock history).provenance →
          ∃ n < (history ++ [e]).length, entry.timestamp = clock.stamp n := by
        intro hmem
        obtain ⟨n, hn, hts⟩ := ih hmem
        exact ⟨n, by rw [List.length_append]; omega, hts⟩
      have hnew : clock.stamp (logsOf clock history).clock = clock.stamp history.length := by
        rw [clock_logsOf]
      rw [logsOf_snoc] at h
      cases e with
      | serve tool file runId => exact hold h
      | mint wrote artifact runId => exact hold h
      | write file action runId bodyChanged diff changed =>
          rcases List.mem_append.mp h with hmem | hmem
          · exact hold hmem
          · rw [List.mem_singleton.mp hmem]
            exact ⟨history.length, by simp, hnew⟩
      | refuse file action =>
          rcases List.mem_append.mp h with hmem | hmem
          · exact hold hmem
          · rw [List.mem_singleton.mp hmem]
            exact ⟨history.length, by simp, hnew⟩

variable (clock) in
theorem provenance_of_write {t : Nat} {file action : String} {runId : Option String}
    {bodyChanged : Option Bool} {diff : FrontmatterDiff} {changed : Bool}
    (h : history[t]? = some (.write file action runId bodyChanged diff changed)) :
    ∃ entry ∈ (logsOf clock history).provenance,
      entry.file = file ∧ entry.action = action ∧ entry.timestamp = clock.stamp t := by
  induction history using List.reverseRecOn with
  | nil => cases h
  | append_singleton history e ih =>
      rw [logsOf_snoc]
      by_cases ht : t < history.length
      · rw [List.getElem?_append_left ht] at h
        obtain ⟨entry, hmem, hentry⟩ := ih h
        refine ⟨entry, ?_, hentry⟩
        cases e with
        | serve tool file runId => exact hmem
        | mint wrote artifact runId => exact hmem
        | write file action runId bodyChanged diff changed =>
            exact List.mem_append_left _ hmem
        | refuse file action => exact List.mem_append_left _ hmem
      · rw [List.getElem?_append_right (Nat.le_of_not_lt ht), List.getElem?_singleton] at h
        split at h
        · rename_i hz
          obtain rfl := Option.some.inj h
          refine ⟨_, List.mem_append_right _ List.mem_cons_self, rfl, rfl, ?_⟩
          rw [show t = history.length by omega, ← clock_logsOf clock history]
        · cases h

/-- An edge was made by an event of its artifact that had inputs, at the tick of its stamp. -/
theorem mem_consumes {edge : ConsumesEdge} (h : edge ∈ (logsOf clock history).consumes) :
    ∃ m wrote runId, history[m]? = some (.mint wrote edge.artifact runId) ∧
      edge ∈ mintConsumesEdges (logsOf clock (history.take m)).reads edge.artifact runId
        (clock.stamp m) := by
  induction history using List.reverseRecOn with
  | nil => cases h
  | append_singleton history e ih =>
      have hold : edge ∈ (logsOf clock history).consumes →
          ∃ m wrote runId, (history ++ [e])[m]? = some (.mint wrote edge.artifact runId) ∧
            edge ∈ mintConsumesEdges (logsOf clock ((history ++ [e]).take m)).reads
              edge.artifact runId (clock.stamp m) := by
        intro hmem
        obtain ⟨m, wrote, runId, hm, hedge⟩ := ih hmem
        have hlt := (List.getElem?_eq_some_iff.mp hm).1
        refine ⟨m, wrote, runId, ?_, ?_⟩
        · rw [List.getElem?_append_left hlt]
          exact hm
        · rw [List.take_append_of_le_length (Nat.le_of_lt hlt)]
          exact hedge
      rw [logsOf_snoc] at h
      cases e with
      | serve tool file runId => exact hold h
      | write file action runId bodyChanged diff changed => exact hold h
      | refuse file action => exact hold h
      | mint wrote artifact runId =>
          rcases List.mem_append.mp h with hmem | hmem
          · exact hold hmem
          · obtain ⟨unit, hunit, rfl⟩ := List.mem_map.mp hmem
            refine ⟨history.length, wrote, runId, by simp, ?_⟩
            rw [List.take_left' rfl, ← clock_logsOf clock history]
            exact List.mem_map.mpr ⟨unit, hunit, rfl⟩

theorem mem_readsForRun {t : Nat} {tool file runId : String}
    (h : history[t]? = some (.serve tool file (some runId))) (hrun : runId ≠ "") :
    file ∈ readsForRun (logsOf clock history).reads runId := by
  have hentry : ∃ entry ∈ (logsOf clock history).reads,
      entry.file = file ∧ entry.runId = some runId := by
    induction history using List.reverseRecOn with
    | nil => cases h
    | append_singleton history e ih =>
        rw [logsOf_snoc]
        by_cases ht : t < history.length
        · rw [List.getElem?_append_left ht] at h
          obtain ⟨entry, hmem, hentry⟩ := ih h
          refine ⟨entry, ?_, hentry⟩
          cases e with
          | serve tool file runId => exact List.mem_append_left _ hmem
          | mint wrote artifact runId => exact hmem
          | write file action runId bodyChanged diff changed => exact hmem
          | refuse file action => exact hmem
        · rw [List.getElem?_append_right (Nat.le_of_not_lt ht), List.getElem?_singleton] at h
          split at h
          · obtain rfl := Option.some.inj h
            refine ⟨_, List.mem_append_right _ List.mem_cons_self, rfl, ?_⟩
            simp [hrun]
          · cases h
  obtain ⟨entry, hmem, hfile, hid⟩ := hentry
  unfold readsForRun
  rw [List.mem_eraseDups]
  refine List.mem_map.mpr ⟨entry, List.mem_filter.mpr ⟨hmem, ?_⟩, hfile⟩
  exact decide_eq_true hid

end Runs

/-! ## The newest compile -/

/-- One step of `currentConsumesEdges`: the newest stamp of each artifact so far. -/
def latestStamp (m : List (String × String)) (e : ConsumesEdge) : List (String × String) :=
  match m.lookup e.artifact with
  | none => Assoc.set m e.artifact e.compileTs
  | some seen =>
      if Text.lt e.compileTs seen then m else Assoc.set m e.artifact e.compileTs

theorem mem_currentConsumesEdges {all : List ConsumesEdge} {e : ConsumesEdge} :
    e ∈ currentConsumesEdges all ↔
      e ∈ all ∧ (all.foldl latestStamp []).lookup e.artifact = some e.compileTs := by
  unfold currentConsumesEdges
  rw [List.mem_filter, decide_eq_true_iff]
  rfl

theorem latestStamp_eq {all : List ConsumesEdge} {ts : String}
    (hmax : ∀ e ∈ all, e.artifact = artifact → Text.lt ts e.compileTs = false)
    (hex : ∃ e ∈ all, e.artifact = artifact ∧ e.compileTs = ts) :
    (all.foldl latestStamp []).lookup artifact = some ts := by
  have hstep : ∀ (l : List ConsumesEdge), (∀ e ∈ l, e ∈ all) →
      (∀ seen, (l.foldl latestStamp []).lookup artifact = some seen → Text.lt ts seen = false) ∧
      ((∃ e ∈ l, e.artifact = artifact ∧ e.compileTs = ts) →
        (l.foldl latestStamp []).lookup artifact = some ts) := by
    intro l
    induction l using List.reverseRecOn with
    | nil =>
        intro _
        refine ⟨fun seen h => (nomatch h), ?_⟩
        rintro ⟨e, he, _⟩
        cases he
    | append_singleton l e ih =>
        intro hall
        obtain ⟨hseen, hfound⟩ := ih fun x hx => hall x (List.mem_append_left _ hx)
        have he := hmax e (hall e (by simp))
        rw [List.foldl_append]
        show (∀ seen, (latestStamp (l.foldl latestStamp []) e).lookup artifact = some seen →
            Text.lt ts seen = false) ∧
          (_ → (latestStamp (l.foldl latestStamp []) e).lookup artifact = some ts)
        generalize l.foldl latestStamp [] = m at hseen hfound
        by_cases hart : e.artifact = artifact
        · obtain rfl := hart
          unfold latestStamp
          cases hm : m.lookup e.artifact with
          | none =>
              rw [Assoc.lookup_set_self]
              refine ⟨?_, ?_⟩
              · rintro seen hs
                rw [← Option.some.inj hs]
                exact he rfl
              · rintro ⟨x, hx, hxa, hxts⟩
                rcases List.mem_append.mp hx with hx | hx
                · rw [hfound ⟨x, hx, hxa, hxts⟩] at hm
                  cases hm
                · rw [List.mem_singleton.mp hx] at hxts
                  rw [hxts]
          | some seen =>
              dsimp only
              by_cases hlt : Text.lt e.compileTs seen = true
              · rw [if_pos hlt]
                refine ⟨hseen, ?_⟩
                rintro ⟨x, hx, hxa, hxts⟩
                rcases List.mem_append.mp hx with hx | hx
                · exact hfound ⟨x, hx, hxa, hxts⟩
                · -- the edge cannot carry the newest stamp: it is below one that is seen
                  rw [List.mem_singleton.mp hx] at hxts
                  rw [hxts, hseen seen hm] at hlt
                  cases hlt
              · rw [if_neg hlt, Assoc.lookup_set_self]
                refine ⟨?_, ?_⟩
                · rintro s hs
                  rw [← Option.some.inj hs]
                  exact he rfl
                · rintro ⟨x, hx, hxa, hxts⟩
                  rcases List.mem_append.mp hx with hx | hx
                  · have hts := hfound ⟨x, hx, hxa, hxts⟩
                    rw [hm] at hts
                    rw [Option.some.inj hts] at hlt
                    rw [Text.eq_of_not_lt (Bool.eq_false_iff.mpr hlt) (he rfl)]
                  · rw [List.mem_singleton.mp hx] at hxts
                    rw [hxts]
        · have hsame : (latestStamp m e).lookup artifact = m.lookup artifact := by
            unfold latestStamp
            cases m.lookup e.artifact with
            | none => exact Assoc.lookup_set_of_ne _ _ (Ne.symm hart)
            | some seen =>
                dsimp only
                split
                · rfl
                · exact Assoc.lookup_set_of_ne _ _ (Ne.symm hart)
          rw [hsame]
          refine ⟨hseen, ?_⟩
          rintro ⟨x, hx, hxa, hxts⟩
          rcases List.mem_append.mp hx with hx | hx
          · exact hfound ⟨x, hx, hxa, hxts⟩
          · rw [List.mem_singleton.mp hx] at hxa
            exact absurd hxa hart
  exact (hstep all fun _ h => h).2 hex

/-! ## What the baseline is for -/

/-- A compile of `artifact` from `unit`: the run read the unit at tick `read`, last
    before the write at `wrote`, whose edges were made at `made`. -/
structure Compiles (history : List Event) (made wrote read : Nat)
    (artifact unit runId : String) : Prop where
  mint : history[made]? = some (.mint wrote artifact runId)
  serve : ∃ tool, history[read]? = some (.serve tool unit (some runId))
  before : read < wrote
  last : ∀ t, read < t → t < wrote → ∀ e, history[t]? = some e → e.servedTo unit runId = false
  other : unit ≠ artifact

/-- The artifact was not compiled again: no later end of a write of it found inputs. -/
def Stands (clock : Clock) (history : List Event) (made : Nat) (artifact : String) : Prop :=
  ∀ m, made < m → ∀ wrote runId, history[m]? = some (.mint wrote artifact runId) →
    mintConsumesEdges (logsOf clock (history.take m)).reads artifact runId (clock.stamp m) = []

/-- **No change slips between read and compile**: while a compile stands, an input
    that changed after the run's last read of it is not classified as current. -/
def NoSlip (clock : Clock) (history : List Event) : Prop :=
  ∀ made wrote read artifact unit runId, Compiles history made wrote read artifact unit runId →
    Stands clock history made artifact →
    (∃ t e, read < t ∧ history[t]? = some e ∧ e.changes unit = true) →
    ∀ isVerifiable, ∀ row ∈ compiledUpstreamStaleness artifact (logsOf clock history).consumes
      (logsOf clock history).provenance isVerifiable, row.unit = unit →
      row.staleness ≠ .current

/-- No input of a compile changes between the run's last read of it and the stamp. -/
def Undisturbed (history : List Event) : Prop :=
  ∀ made wrote read artifact unit runId, Compiles history made wrote read artifact unit runId →
    ∀ t, read < t → t < made → ∀ e, history[t]? = some e → e.changes unit = false

section Slip

variable {clock : Clock} {history : List Event}

theorem classifyEdge_unit (log : List ProvenanceEntry) (input : EdgeInput) :
    (classifyEdge log input).unit = input.unit := by
  have htier2 : ∀ changed row, tier2Resolved log input changed = some row →
      row.unit = input.unit := by
    intro changed row hrow
    obtain ⟨v, _, rfl⟩ := Option.map_eq_some_iff.mp hrow
    split <;> rfl
  have hgetD : ∀ (changed : List String) (row : UpstreamStaleness), row.unit = input.unit →
      ((tier2Resolved log input changed).getD row).unit = input.unit := by
    intro changed row hrow
    cases hr : tier2Resolved log input changed with
    | none => exact hrow
    | some found => exact htier2 changed found hr
  unfold classifyEdge
  split
  · rfl
  · split
    · exact hgetD _ _ rfl
    · dsimp only
      split
      · rfl
      · split
        · rfl
        · split
          · exact hgetD _ _ rfl
          · rfl

variable {artifact : String}

theorem staleness_ne_current {log : List ProvenanceEntry} {isVerifiable : Option (String → Bool)}
    {edge : ConsumesEdge} (hwrites : (changedFieldsSince log edge.unit edge.compileTs).2 ≠ 0) :
    (classifyEdge log (compiledInput artifact isVerifiable edge)).staleness ≠ .current := by
  have hkind : ∀ v : Tier1VerdictKind, v.staleness ≠ .current := by
    intro v
    cases v <;> exact nofun
  have htier2 : ∀ changed row,
      tier2Resolved log (compiledInput artifact isVerifiable edge) changed = some row →
        row.staleness ≠ .current := by
    intro changed row hrow
    obtain ⟨v, _, rfl⟩ := Option.map_eq_some_iff.mp hrow
    split <;> exact nofun
  unfold classifyEdge
  split
  · exact nofun
  · dsimp only [compiledInput] at htier2 ⊢
    rw [if_neg hwrites]
    split
    · exact nofun
    · split
      · cases hr : tier2Resolved log _ _ with
        | none => exact hkind _
        | some row => exact htier2 _ row hr
      · exact hkind _

theorem staleness_current {log : List ProvenanceEntry} {edge : ConsumesEdge}
    (hwrites : (changedFieldsSince log edge.unit edge.compileTs).2 = 0) :
    (classifyEdge log (compiledInput artifact none edge)).staleness = .current := by
  unfold classifyEdge
  split
  · rename_i hwithheld
    cases hwithheld
  · dsimp only [compiledInput]
    rw [if_pos hwrites]

variable (clock) in
theorem logsOf_take_consumes {made wrote : Nat} {runId : String}
    (hm : history[made]? = some (.mint wrote artifact runId)) :
    (logsOf clock (history.take (made + 1))).consumes =
      (logsOf clock (history.take made)).consumes ++
        mintConsumesEdges (logsOf clock (history.take made)).reads artifact runId
          (clock.stamp made) ∧ (logsOf clock (history.take (made + 1))).provenance =
      (logsOf clock (history.take made)).provenance := by
  obtain ⟨hlt, hget⟩ := List.getElem?_eq_some_iff.mp hm
  have hclock : (logsOf clock (history.take made)).clock = made := by
    rw [clock_logsOf, List.length_take, Nat.min_eq_left (Nat.le_of_lt hlt)]
  rw [List.take_succ_eq_append_getElem hlt, hget, logsOf_snoc]
  refine ⟨?_, rfl⟩
  show _ ++ mintConsumesEdges _ artifact runId (clock.stamp (logsOf clock _).clock) = _
  rw [hclock]

/-- **An undisturbed history hides no change**: a change after the last read is one
    after the stamp, and its entry counts. -/
theorem noSlip_of_undisturbed (hvalid : Valid history) (h : Undisturbed history) :
    NoSlip clock history := by
  intro made wrote read artifact unit runId hcompiles hstands hchange isVerifiable row hrow hunit
  obtain ⟨t, e, hread, ht, hchanged⟩ := hchange
  have hafter : made < t := by
    rcases Nat.lt_trichotomy t made with hlt | rfl | hgt
    · rw [h made wrote read artifact unit runId hcompiles t hread hlt e ht] at hchanged
      cases hchanged
    · rw [hcompiles.mint] at ht
      rw [← Option.some.inj ht] at hchanged
      cases hchanged
    · exact hgt
  obtain ⟨edge, hedge, rfl⟩ := List.mem_map.mp hrow
  have hmem : edge ∈ (logsOf clock history).consumes ∧ edge.artifact = artifact := by
    have hforward := (List.mem_filter.mp hedge).1
    obtain ⟨hcurrent, hart⟩ := List.mem_filter.mp hforward
    exact ⟨(mem_currentConsumesEdges.mp hcurrent).1, of_decide_eq_true hart⟩
  have hedgeUnit : edge.unit = unit := by
    rwa [classifyEdge_unit] at hunit
  -- the edge is from this compile or an earlier one
  obtain ⟨m, w, run, hm, hminted⟩ := mem_consumes hmem.1
  rw [hmem.2] at hm hminted
  have hle : m ≤ made := by
    by_contra hgt
    have hnil := hstands m (Nat.lt_of_not_le hgt) w run hm
    rw [hnil] at hminted
    cases hminted
  have hts : edge.compileTs = clock.stamp m := compileTs_of_mint hminted
  cases e with
  | write file action runOf bodyChanged diff changed =>
      have hfile : file = unit := by
        unfold Event.changes at hchanged
        simp only [Bool.and_eq_true, decide_eq_true_eq] at hchanged
        exact hchanged.1
      obtain ⟨entry, hentry, hefile, heaction, hets⟩ := provenance_of_write clock ht
      have hlanded : entry.rejectedStale = false := by
        unfold ProvenanceEntry.rejectedStale
        rw [heaction]
        exact decide_eq_false (hvalid.landed _ (List.mem_of_getElem? ht) _ _ _ _ _ _ rfl)
      refine staleness_ne_current (writes_ne_zero hentry (counts_of_after ?_ hlanded ?_))
      · rw [hefile, hfile, hedgeUnit]
      · rw [hts, hets]
        exact clock.later m t (by omega)
  | serve tool file runOf => cases hchanged
  | refuse file action => cases hchanged
  | mint w artifact runOf => cases hchanged

/-- **A change between the last read and the stamp slips**: right after the stamp the
    row of the input is current. -/
theorem slips_of_disturbed (hvalid : Valid history) {made wrote read t : Nat}
    {unit runId : String} {e : Event}
    (hcompiles : Compiles history made wrote read artifact unit runId) (hread : read < t)
    (hmade : t < made) (ht : history[t]? = some e) (hchanged : e.changes unit = true) :
    ¬ NoSlip clock (history.take (made + 1)) := by
  intro hno
  have hget : ∀ i ≤ made, (history.take (made + 1))[i]? = history[i]? := by
    intro i hi
    rw [List.getElem?_take, if_pos (by omega)]
  have hwm := (hvalid.minted _ _ _ _ hcompiles.mint).1
  have hbefore := hcompiles.before
  have hthen : Compiles (history.take (made + 1)) made wrote read artifact unit runId := by
    refine ⟨?_, ?_, hbefore, ?_, hcompiles.other⟩
    · rw [hget made (Nat.le_refl _)]
      exact hcompiles.mint
    · rw [hget read (by omega)]
      exact hcompiles.serve
    · intro i hi hiw x hx
      rw [hget i (by omega)] at hx
      exact hcompiles.last i hi hiw x hx
  have hstands : Stands clock (history.take (made + 1)) made artifact := by
    intro m hm w run hx
    have hlt := (List.getElem?_eq_some_iff.mp hx).1
    rw [List.length_take] at hlt
    omega
  obtain ⟨hconsumes, hprovenance⟩ := logsOf_take_consumes clock hcompiles.mint
  set before := logsOf clock (history.take made) with hbeforeDef
  have hlen : (history.take made).length ≤ made := by
    rw [List.length_take]
    exact Nat.min_le_left _ _
  -- the edge of the unit, made just now
  obtain ⟨tool, hserve⟩ := hcompiles.serve
  have hserved : (history.take made)[read]? = some (.serve tool unit (some runId)) := by
    rw [List.getElem?_take, if_pos (by omega)]
    exact hserve
  have hrun := (hvalid.minted _ _ _ _ hcompiles.mint).2.1
  set edge : ConsumesEdge := ⟨artifact, unit, ["*"], clock.stamp made⟩ with hedgeDef
  have hminted : edge ∈ mintConsumesEdges before.reads artifact runId (clock.stamp made) := by
    refine List.mem_map.mpr ⟨unit, List.mem_filter.mpr ⟨?_, ?_⟩, rfl⟩
    · exact mem_readsForRun hserved hrun
    · exact decide_eq_true hcompiles.other
  have hmem : edge ∈ (logsOf clock (history.take (made + 1))).consumes := by
    rw [hconsumes]
    exact List.mem_append_right _ hminted
  have hnewest : ((logsOf clock (history.take (made + 1))).consumes.foldl latestStamp
      []).lookup artifact = some (clock.stamp made) := by
    refine latestStamp_eq ?_ ⟨edge, hmem, rfl, rfl⟩
    intro x hx _
    rw [hconsumes] at hx
    rcases List.mem_append.mp hx with hx | hx
    · obtain ⟨m, w, run, hm, hxm⟩ := mem_consumes hx
      have hmlt := (List.getElem?_eq_some_iff.mp hm).1
      rw [compileTs_of_mint hxm]
      exact Text.not_lt_of_lt (clock.later m made (by omega))
    · rw [compileTs_of_mint hx]
      by_contra hlt
      have h := Bool.eq_true_of_not_eq_false hlt
      have hself := Text.not_lt_of_lt h
      rw [hself] at h
      cases h
  have hcurrent : edge ∈ forwardConsumes (logsOf clock (history.take (made + 1))).consumes
      artifact := by
    refine List.mem_filter.mpr ⟨mem_currentConsumesEdges.mpr ⟨hmem, hnewest⟩, ?_⟩
    exact decide_eq_true rfl
  have hrow : classifyEdge (logsOf clock (history.take (made + 1))).provenance
      (compiledInput artifact none edge) ∈ compiledUpstreamStaleness artifact
        (logsOf clock (history.take (made + 1))).consumes
        (logsOf clock (history.take (made + 1))).provenance none := by
    refine List.mem_map.mpr ⟨edge, List.mem_filter.mpr ⟨hcurrent, ?_⟩, rfl⟩
    exact decide_eq_true hcompiles.other
  refine hno made wrote read artifact unit runId hthen hstands
    ⟨t, e, hread, by rw [hget t (by omega)]; exact ht, hchanged⟩ none _ hrow
    (classifyEdge_unit _ _) ?_
  refine staleness_current ?_
  rw [hprovenance, writes_eq, List.countP_eq_zero]
  intro entry hentry hcounts
  obtain ⟨n, hn, hts⟩ := mem_provenance hentry
  have hlater : Text.lt (clock.stamp made) entry.timestamp = true := by
    unfold counts at hcounts
    simp only [Bool.and_eq_true] at hcounts
    exact hcounts.2
  rw [hts, Text.not_lt_of_lt (clock.later n made (by omega))] at hlater
  cases hlater

theorem Valid.initial {g : List Event} (h : Valid history) (hg : g <+: history) : Valid g := by
  have hget : ∀ (i : Nat) (e : Event), g[i]? = some e → history[i]? = some e := by
    intro i e hi
    obtain ⟨rest, rfl⟩ := hg
    rw [List.getElem?_append_left (List.getElem?_eq_some_iff.mp hi).1]
    exact hi
  refine ⟨?_, fun e he => h.landed e (hg.subset he)⟩
  intro m wrote artifact runId hm
  obtain ⟨hlt, hrun, action, bodyChanged, diff, changed, hw⟩ := h.minted m _ _ _ (hget _ _ hm)
  refine ⟨hlt, hrun, action, bodyChanged, diff, changed, ?_⟩
  have hmlt := (List.getElem?_eq_some_iff.mp hm).1
  obtain ⟨rest, rfl⟩ := hg
  rwa [List.getElem?_append_left (by omega)] at hw

theorem Undisturbed.initial {g : List Event} (hvalid : Valid history) (h : Undisturbed history)
    (hg : g <+: history) : Undisturbed g := by
  have hsame : ∀ i, i < g.length → history[i]? = g[i]? := by
    intro i hi
    obtain ⟨rest, rfl⟩ := hg
    exact List.getElem?_append_left hi
  intro made wrote read artifact unit runId hc t hread hmade e ht
  have hlt := (List.getElem?_eq_some_iff.mp hc.mint).1
  have hwm := ((hvalid.initial hg).minted _ _ _ _ hc.mint).1
  have hbefore := hc.before
  refine h made wrote read artifact unit runId ⟨?_, ?_, hbefore, ?_, hc.other⟩ t hread hmade e ?_
  · rw [hsame made hlt]
    exact hc.mint
  · rw [hsame read (by omega)]
    exact hc.serve
  · intro i hi hiw x hx
    rw [hsame i (by omega)] at hx
    exact hc.last i hi hiw x hx
  · rw [hsame t (by omega)]
    exact ht

/-- **A CHANGE SLIPS EXACTLY BETWEEN THE LAST READ AND THE STAMP**: at every point of a history no
    input that changed since it was read is current, if and only if no input of a compile changes
    after the run's last read of it and before the edge is stamped. -/
theorem no_slip_iff (clock : Clock) (hvalid : Valid history) :
    (∀ g, g <+: history → NoSlip clock g) ↔ Undisturbed history := by
  constructor
  · intro hno made wrote read artifact unit runId hc t hread hmade e ht
    by_contra hchanged
    have hinitial : history.take (made + 1) <+: history :=
      ⟨history.drop (made + 1), List.take_append_drop _ _⟩
    exact slips_of_disturbed hvalid hc hread hmade ht (Bool.eq_true_of_not_eq_false hchanged)
      (hno _ hinitial)
  · intro h g hg
    exact noSlip_of_undisturbed (hvalid.initial hg) (h.initial hvalid hg)

end Slip

/-! ## A change between read and write -/

def tally : Clock where
  stamp n := String.ofList (List.replicate (n + 1) '1')
  later m n h := by
    have hunits : ∀ k, Text.units (List.replicate k '1') = List.replicate k 49 := by
      intro k
      induction k with
      | zero => rfl
      | succ k ih => exact congrArg (List.cons 49) ih
    have hlt : ∀ k d : Nat, List.replicate k 49 < List.replicate (k + (d + 1)) 49 := by
      intro k d
      induction k with
      | zero =>
          rw [Nat.zero_add]
          exact List.nil_lt_cons _ _
      | succ k ih =>
          rw [Nat.succ_add]
          exact List.cons_lt_cons_iff.mpr (Or.inr ⟨rfl, ih⟩)
    obtain ⟨d, rfl⟩ := Nat.exists_eq_add_of_lt h
    unfold Text.lt
    rw [String.toList_ofList, String.toList_ofList, hunits, hunits]
    have hsum : m + d + 1 + 1 = m + 1 + (d + 1) := by omega
    rw [hsum]
    exact decide_eq_true (hlt (m + 1) d)
  stamped n := by
    intro h
    have hnil := congrArg String.toList h
    simp [List.replicate_succ] at hnil

def rewrite (file : String) (runId : Option String) : Event :=
  .write file "update" runId (some true) [] true

/-- A run reads the pricing note and then compiles the summary from it. -/
def summarised : List Event :=
  [.serve "vault_read" "pricing.md" (some "run-1"),
    rewrite "summary.md" (some "run-1"), .mint 1 "summary.md" "run-1",
    rewrite "pricing.md" none]

/-- The same run, with a change of the note before the summary is written. -/
def overtaken : List Event :=
  [.serve "vault_read" "pricing.md" (some "run-1"), rewrite "pricing.md" none,
    rewrite "summary.md" (some "run-1"), .mint 2 "summary.md" "run-1"]

theorem minted_summarised {m wrote : Nat} {runId : String}
    (h : summarised[m]? = some (.mint wrote artifact runId)) :
    m = 2 ∧ wrote = 1 ∧ artifact = "summary.md" ∧ runId = "run-1" := by
  match m, h with
  | 0, h => cases Option.some.inj h
  | 1, h => cases Option.some.inj h
  | 2, h =>
      obtain ⟨rfl, rfl, rfl⟩ := Event.mint.inj (Option.some.inj h)
      exact ⟨rfl, rfl, rfl, rfl⟩
  | 3, h => cases Option.some.inj h
  | _ + 4, h => cases h

theorem summarised_valid : Valid summarised where
  minted m wrote artifact runId h := by
    obtain ⟨rfl, rfl, rfl, rfl⟩ := minted_summarised h
    exact ⟨by decide, by decide, _, _, _, _, rfl⟩
  landed e he file action runId bodyChanged diff changed h := by
    subst h
    simp only [summarised, rewrite, List.mem_cons, Event.write.injEq, List.not_mem_nil,
      reduceCtorEq, or_false, false_or] at he
    rcases he with ⟨_, rfl, _⟩ | ⟨_, rfl, _⟩ <;> decide

theorem summarised_undisturbed : Undisturbed summarised := by
  intro made wrote read artifact unit runId hc t hread hmade e ht
  obtain ⟨rfl, rfl, rfl, rfl⟩ := minted_summarised hc.mint
  obtain rfl : t = 1 := by omega
  obtain rfl := Option.some.inj ht
  simp [Event.changes, rewrite, Ne.symm hc.other]

/-- **A CHANGE AFTER THE STAMP IS SEEN**, at the end of the first history. -/
theorem summarised_no_slip : NoSlip tally summarised :=
  (no_slip_iff tally summarised_valid).mpr summarised_undisturbed summarised List.prefix_rfl

/-- **A CHANGE BETWEEN READ AND WRITE SLIPS**: the summary of the old pricing note is
    classified as current. -/
theorem overtaken_slips : ¬ NoSlip tally overtaken := by
  intro hno
  have hcompiles : Compiles overtaken 3 2 0 "summary.md" "pricing.md" "run-1" := by
    refine ⟨rfl, ⟨_, rfl⟩, by decide, ?_, by decide⟩
    intro t h0 h2 e he
    obtain rfl : t = 1 := by omega
    obtain rfl := Option.some.inj he
    rfl
  have hstands : Stands tally overtaken 3 "summary.md" := by
    intro m hm wrote runId h
    have hlt : m < 4 := (List.getElem?_eq_some_iff.mp h).1
    omega
  have hrow : (compiledUpstreamStaleness "summary.md" (logsOf tally overtaken).consumes
      (logsOf tally overtaken).provenance none).any (fun row =>
        row.unit = "pricing.md" && row.staleness = .current) = true := by
    decide +kernel
  obtain ⟨row, hmem, hcurrent⟩ := List.any_eq_true.mp hrow
  rw [Bool.and_eq_true, decide_eq_true_iff, decide_eq_true_iff] at hcurrent
  exact hno 3 2 0 _ _ _ hcompiles hstands ⟨1, _, by decide, rfl, by decide⟩ none row hmem
    hcurrent.1 hcurrent.2

end Staleness
