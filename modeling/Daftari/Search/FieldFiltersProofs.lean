import Daftari.Lib.SqlProofs
import Mathlib

/-! # Field filters — two compiled queries and one meaning

    `search/field-filters.ts`.  Filters on indexed fields are compiled in two ways: as `EXISTS`
    conditions on the path of another query, and as a query of its own that starts from the rows of
    the first filter.  Field, kind and value are positional parameters.

    * `compileFieldFilterSql`, `compileFieldFilterCandidateSql`: the conditions and their
      parameters, in step;
    * `one_meaning`: **both forms say that each filter is met, of every table and every list with a
      filter in it.** -/

namespace FieldFilters

open Sql

/-! ## Filters -/

inductive IndexedFieldType where
  | string
  | date
  | number
  | boolean
  | enum
deriving DecidableEq

/-- The word of a type, which is stored as the kind of a row. -/
def IndexedFieldType.word : IndexedFieldType → String
  | .string => "string"
  | .date => "date"
  | .number => "number"
  | .boolean => "boolean"
  | .enum => "enum"

inductive FilterValue (N : Type) where
  | text (s : String)
  | number (n : N)
  | bool (b : Bool)

/-- `CompiledFieldFilter`; `op` is written by `SQL_OPERATOR`. -/
structure CompiledFieldFilter (N : Type) where
  field : String
  type : IndexedFieldType
  op : Op
  value : FilterValue N

/-- The columns of `document_fields`. -/
inductive Column where
  | path
  | field
  | kind
  | text_value
  | number_value
  | bool_value
deriving DecidableEq

def Column.name : Column → String
  | .path => "path"
  | .field => "field"
  | .kind => "kind"
  | .text_value => "text_value"
  | .number_value => "number_value"
  | .bool_value => "bool_value"

/-- A row of `document_fields`, whose first three columns are not null. -/
structure FieldRow (N : Type) where
  path : String
  field : String
  kind : String
  text_value : Cell N
  number_value : Cell N
  bool_value : Cell N

/-- What a column of a row holds. -/
def FieldRow.cell {N : Type} (row : FieldRow N) : Row Column N
  | .path => .text row.path
  | .field => .text row.field
  | .kind => .text row.kind
  | .text_value => row.text_value
  | .number_value => row.number_value
  | .bool_value => row.bool_value

variable {N : Type}

/-- The column of `filterStorage`. -/
def CompiledFieldFilter.column (filter : CompiledFieldFilter N) : Column :=
  match filter.type with
  | .number => .number_value
  | .boolean => .bool_value
  | _ => .text_value

/-- The value of `filterStorage`. -/
def CompiledFieldFilter.stored [Zero N] [One N] (filter : CompiledFieldFilter N) : Cell N :=
  match filter.value with
  | .text s => .text s
  | .number n => .number n
  | .bool b => .number (if b then 1 else 0)

/-! ## The two forms -/

/-- `FieldFilterSql`, its text kept as conditions. -/
structure FieldFilterSql (N : Type) (S : Type) where
  sql : S
  params : List (Cell N)

def aliasOf (index : Nat) : String := "df" ++ toString index

/-- The `EXISTS` of one filter. -/
def existsClause (outer df : String) (filter : CompiledFieldFilter N) : Condition Column :=
  .exists_ df
    [⟨df, .path, .eq, .column outer .path⟩, ⟨df, .field, .eq, .placeholder⟩,
      ⟨df, .kind, .eq, .placeholder⟩, ⟨df, filter.column, filter.op, .placeholder⟩]

/-- The comparisons of the first filter, whose rows drive the candidate query. -/
def drivingClause (first : CompiledFieldFilter N) : List (Condition Column) :=
  [.compare ⟨"df0", .field, .eq, .placeholder⟩, .compare ⟨"df0", .kind, .eq, .placeholder⟩,
    .compare ⟨"df0", first.column, first.op, .placeholder⟩]

section Compile

variable [Zero N] [One N]

def CompiledFieldFilter.params (filter : CompiledFieldFilter N) : List (Cell N) :=
  [.text filter.field, .text filter.type.word, filter.stored]

/-- `compileCorrelatedFilters`, on the path of the alias `outer`. -/
def compileCorrelatedFilters (filters : List (CompiledFieldFilter N)) (outer : String)
    (aliasOffset : Nat) : FieldFilterSql N (List (Condition Column)) where
  sql := (filters.zipIdx aliasOffset).map fun e => existsClause outer (aliasOf e.2) e.1
  params := filters.flatMap CompiledFieldFilter.params

def compileFieldFilterSql (filters : List (CompiledFieldFilter N)) (outer : String) :
    FieldFilterSql N (List (Condition Column)) := compileCorrelatedFilters filters outer 0

/-- `compileFieldFilterCandidateSql`; `none` is `SELECT NULL AS path WHERE 0`. -/
def compileFieldFilterCandidateSql :
    List (CompiledFieldFilter N) → FieldFilterSql N (Option (Select Column))
  | [] => ⟨none, []⟩
  | first :: rest =>
      let trailing := compileCorrelatedFilters rest "df0" 1
      ⟨some ⟨"df0", .path, drivingClause first ++ trailing.sql⟩,
        first.params ++ trailing.params⟩

variable [LinearOrder N]

/-- The condition holds of a path: it is that of the alias in the query around. -/
def Correlated (table : List (FieldRow N)) (filters : List (CompiledFieldFilter N))
    (outer path : String) : Prop :=
  ∀ env : Env Column N, env outer .path = .text path →
    holdAll (table.map FieldRow.cell) env (compileFieldFilterSql filters outer).sql
      (compileFieldFilterSql filters outer).params = true

def candidates (table : List (FieldRow N)) (filters : List (CompiledFieldFilter N)) :
    List (Cell N) :=
  match (compileFieldFilterCandidateSql filters).sql with
  | none => []
  | some query => query.run (table.map FieldRow.cell) (fun _ _ => .null)
      (compileFieldFilterCandidateSql filters).params

/-! ## What is meant -/

/-- A path meets a filter: some row of it has the filter's field and kind, and a value in the
    filter's column that stands in its relation. -/
def Meets (table : List (FieldRow N)) (path : String) (filter : CompiledFieldFilter N) : Prop :=
  ∃ row ∈ table, row.path = path ∧ row.field = filter.field ∧ row.kind = filter.type.word ∧
    filter.op.holds (row.cell filter.column) filter.stored = true

def expected (filters : List (CompiledFieldFilter N)) (aliasOffset : Nat) :
    List ((String × Column) × Cell N) :=
  (filters.zipIdx aliasOffset).flatMap fun e =>
    [((aliasOf e.2, .field), .text e.1.field), ((aliasOf e.2, .kind), .text e.1.type.word),
      ((aliasOf e.2, e.1.column), e.1.stored)]

/-- **One meaning**, whatever alias other than its own the conditions are correlated with. -/
structure OneMeaning (table : List (FieldRow N)) (filters : List (CompiledFieldFilter N))
    (outer : String) : Prop where
  candidate : ∀ path, .text path ∈ candidates table filters ↔
    Correlated table filters outer path
  correlated : ∀ path, Correlated table filters outer path ↔
    ∀ filter ∈ filters, Meets table path filter
  adding : ∀ more path, filters ⊆ more → .text path ∈ candidates table more →
    .text path ∈ candidates table filters
  order : ∀ other path, other.Perm filters →
    (.text path ∈ candidates table other ↔ .text path ∈ candidates table filters)
  lineUp : ∃ query, (compileFieldFilterCandidateSql filters).sql = some query ∧
    (slotsOf query.conditions).zip (compileFieldFilterCandidateSql filters).params =
      expected filters 0 ∧
    (slotsOf query.conditions).length = (compileFieldFilterCandidateSql filters).params.length
  lineUpCorrelated :
    (slotsOf (compileFieldFilterSql filters outer).sql).zip
      (compileFieldFilterSql filters outer).params = expected filters 0 ∧
    (slotsOf (compileFieldFilterSql filters outer).sql).length =
      (compileFieldFilterSql filters outer).params.length

/-! ## Both forms -/

theorem aliasOf_injective {i j : Nat} (h : aliasOf i = aliasOf j) : i = j := by
  have hdigits : Nat.toDigits 10 i = Nat.toDigits 10 j := by
    simpa [aliasOf] using congrArg String.toList h
  have hvalue := congrArg (Nat.ofDigitChars 10 · 0) hdigits
  simpa only [Nat.ofDigitChars_toDigits (b := 10) (by omega) (by omega)] using hvalue

variable {table : List (FieldRow N)} {env : Env Column N}

theorem compare_iff {row : FieldRow N} {filter : CompiledFieldFilter N} :
    (Op.eq.holds (row.cell .field) (.text filter.field) &&
      (Op.eq.holds (row.cell .kind) (.text filter.type.word) &&
        filter.op.holds (row.cell filter.column) filter.stored)) = true ↔
    row.field = filter.field ∧ row.kind = filter.type.word ∧
      filter.op.holds (row.cell filter.column) filter.stored = true := by
  rw [Bool.and_eq_true, Bool.and_eq_true]
  exact and_congr holds_eq_text (and_congr holds_eq_text Iff.rfl)

theorem holds_existsClause {outer df path : String} {filter : CompiledFieldFilter N}
    (rest : List (Cell N)) (hdf : outer ≠ df) (henv : env outer .path = .text path) :
    (existsClause outer df filter).holds (table.map FieldRow.cell) env (filter.params ++ rest) =
      true ↔ Meets table path filter := by
  have hrow : ∀ row : FieldRow N,
      compareAll (env.bind df row.cell) [⟨df, .path, .eq, .column outer .path⟩,
        ⟨df, .field, .eq, .placeholder⟩, ⟨df, .kind, .eq, .placeholder⟩,
        ⟨df, filter.column, filter.op, .placeholder⟩] (filter.params ++ rest) =
      (Op.eq.holds (.text row.path) (.text path : Cell N) &&
        (Op.eq.holds (row.cell .field) (.text filter.field) &&
          (Op.eq.holds (row.cell .kind) (.text filter.type.word) &&
            filter.op.holds (row.cell filter.column) filter.stored))) := by
    intro row
    have hpath : env.bind df row.cell outer .path = .text path := by
      rw [Env.bind_of_ne env _ hdf, henv]
    simp only [compareAll, Comparison.holds, Comparison.slots, Env.bind_self, hpath, Bool.and_true]
    rfl
  show ((table.map FieldRow.cell).any fun row => compareAll (env.bind df row) _ _) = true ↔ _
  rw [List.any_map, List.any_eq_true]
  refine exists_congr fun row => and_congr Iff.rfl ?_
  show compareAll (env.bind df row.cell) _ _ = true ↔ _
  rw [hrow, Bool.and_eq_true, compare_iff, holds_eq_text]

/-- **The correlated conditions** say that the path meets every filter. -/
theorem holdAll_correlated {outer path : String} (filters : List (CompiledFieldFilter N))
    (offset : Nat) (hdf : ∀ i, offset ≤ i → outer ≠ aliasOf i)
    (henv : env outer .path = .text path) :
    holdAll (table.map FieldRow.cell) env (compileCorrelatedFilters filters outer offset).sql
      (compileCorrelatedFilters filters outer offset).params = true ↔
    ∀ filter ∈ filters, Meets table path filter := by
  induction filters generalizing offset with
  | nil => exact ⟨fun _ _ h => (nomatch h), fun _ => rfl⟩
  | cons filter filters ih =>
      have hrest := ih (offset + 1) fun i hi => hdf i (by omega)
      show ((existsClause outer (aliasOf offset) filter).holds _ env (filter.params ++ _) &&
        holdAll _ env _ ((filter.params ++ _).drop 3)) = true ↔ _
      rw [Bool.and_eq_true, holds_existsClause _ (hdf offset le_rfl) henv, List.forall_mem_cons]
      exact and_congr Iff.rfl hrest

/-- **The candidate query** returns the paths that meet every filter. -/
theorem mem_candidates {path : String} (first : CompiledFieldFilter N)
    (rest : List (CompiledFieldFilter N)) : .text path ∈ candidates table (first :: rest) ↔
      ∀ filter ∈ first :: rest, Meets table path filter := by
  -- the row that drives the query meets the first filter, and its path all the others
  have hrow : ∀ row : FieldRow N,
      holdAll (table.map FieldRow.cell) (Env.bind (fun _ _ => .null) "df0" row.cell)
          (drivingClause first ++ (compileCorrelatedFilters rest "df0" 1).sql)
          (first.params ++ (compileCorrelatedFilters rest "df0" 1).params) = true ↔
        (row.field = first.field ∧ row.kind = first.type.word ∧
          first.op.holds (row.cell first.column) first.stored = true) ∧
        ∀ filter ∈ rest, Meets table row.path filter := by
    intro row
    rw [holdAll_append, Bool.and_eq_true]
    refine and_congr ?_ ?_
    · rw [← compare_iff]
      simp only [drivingClause, holdAll, Condition.holds, Comparison.holds, Condition.slots,
        Comparison.slots, Env.bind_self, Bool.and_true]
      rfl
    · refine holdAll_correlated rest 1 (fun i hi h => ?_) (congrFun (Env.bind_self _ _ _) _)
      have hzero := aliasOf_injective (i := 0) h
      omega
  show Cell.text path ∈ ((table.map FieldRow.cell).filter _).map _ ↔ _
  constructor
  · intro h
    obtain ⟨cells, hcells, hpath⟩ := List.mem_map.mp h
    obtain ⟨hmem, hholds⟩ := List.mem_filter.mp hcells
    obtain ⟨row, hrowmem, rfl⟩ := List.mem_map.mp hmem
    obtain ⟨hfirst, hrest⟩ := (hrow row).mp hholds
    have hsame : row.path = path := Cell.text.inj hpath
    rw [List.forall_mem_cons, ← hsame]
    exact ⟨⟨row, hrowmem, rfl, hfirst⟩, hrest⟩
  · intro h
    obtain ⟨⟨row, hrowmem, hsame, hfirst⟩, hrest⟩ := List.forall_mem_cons.mp h
    refine List.mem_map.mpr ⟨row.cell, List.mem_filter.mpr
      ⟨List.mem_map_of_mem hrowmem, (hrow row).mpr ⟨hfirst, ?_⟩⟩, ?_⟩
    · rw [hsame]
      exact hrest
    · exact congrArg Cell.text hsame

omit [LinearOrder N] in
theorem slots_correlated (filters : List (CompiledFieldFilter N)) (outer : String) (offset : Nat) :
    (slotsOf (compileCorrelatedFilters filters outer offset).sql).zip
        (compileCorrelatedFilters filters outer offset).params = expected filters offset ∧
      (slotsOf (compileCorrelatedFilters filters outer offset).sql).length =
        (compileCorrelatedFilters filters outer offset).params.length := by
  induction filters generalizing offset with
  | nil => exact ⟨rfl, rfl⟩
  | cons filter filters ih =>
      obtain ⟨hzip, hlen⟩ := ih (offset + 1)
      constructor
      · exact congrArg (((aliasOf offset, .field), .text filter.field) ::
          ((aliasOf offset, .kind), .text filter.type.word) ::
          ((aliasOf offset, filter.column), filter.stored) :: ·) hzip
      · exact congrArg (· + 3) hlen

/-- **FIELD FILTERS MEAN ONE THING**, of every table and every list with a filter in it. -/
theorem one_meaning (table : List (FieldRow N)) (filters : List (CompiledFieldFilter N))
    (outer : String) (hsome : filters ≠ []) (houter : ∀ i, outer ≠ aliasOf i) :
    OneMeaning table filters outer := by
  have hcorrelated : ∀ path, Correlated table filters outer path ↔
      ∀ filter ∈ filters, Meets table path filter := by
    intro path
    constructor
    · intro h
      exact (holdAll_correlated filters 0 (fun i _ => houter i) rfl).mp
        (h (fun _ _ => .text path) rfl)
    · intro h env henv
      exact (holdAll_correlated filters 0 (fun i _ => houter i) henv).mpr h
  have hcandidates : ∀ list : List (CompiledFieldFilter N), list ≠ [] → ∀ path,
      .text path ∈ candidates table list ↔ ∀ filter ∈ list, Meets table path filter := by
    intro list hlist path
    cases list with
    | nil => exact absurd rfl hlist
    | cons first rest => exact mem_candidates first rest
  refine ⟨fun path => ?_, hcorrelated, fun more path hsub hmore => ?_,
    fun other path hperm => ?_, ?_, slots_correlated filters outer 0⟩
  · rw [hcandidates filters hsome, hcorrelated]
  · have hmem : more ≠ [] := fun h => hsome (List.subset_nil.mp (h ▸ hsub))
    rw [hcandidates filters hsome]
    exact fun filter hfilter => (hcandidates more hmem path).mp hmore filter (hsub hfilter)
  · have hother : other ≠ [] := fun h => hsome (List.nil_perm.mp (h ▸ hperm))
    rw [hcandidates filters hsome, hcandidates other hother]
    exact ⟨fun h filter hf => h filter (hperm.mem_iff.mpr hf),
      fun h filter hf => h filter (hperm.mem_iff.mp hf)⟩
  · cases filters with
    | nil => exact absurd rfl hsome
    | cons first rest =>
        obtain ⟨hzip, hlen⟩ := slots_correlated rest "df0" 1
        refine ⟨_, rfl, ?_, ?_⟩
        · exact congrArg (((aliasOf 0, .field), .text first.field) ::
            ((aliasOf 0, .kind), .text first.type.word) ::
            ((aliasOf 0, first.column), first.stored) :: ·) hzip
        · exact congrArg (· + 3) hlen

end Compile

/-! ## A range, and no filter -/

def atLeastTwo : CompiledFieldFilter Nat := ⟨"score", .number, .ge, .number 2⟩

def belowFive : CompiledFieldFilter Nat := ⟨"score", .number, .lt, .number 5⟩

def scored : FieldRow Nat := ⟨"notes/a.md", "score", "number", .null, .number 3, .null⟩

example : (compileFieldFilterCandidateSql [atLeastTwo, belowFive]).sql.map
      (Select.text "document_fields" Column.name) =
    some ("SELECT df0.path AS path FROM document_fields AS df0 WHERE df0.field = ? " ++
      "AND df0.kind = ? AND df0.number_value >= ? AND EXISTS (SELECT 1 FROM document_fields " ++
      "AS df1 WHERE df1.path = df0.path AND df1.field = ? AND df1.kind = ? " ++
      "AND df1.number_value < ?)") := by
  decide +kernel

theorem one_meaning_range : OneMeaning [scored] [atLeastTwo, belowFive] "d" := by
  refine one_meaning [scored] [atLeastTwo, belowFive] "d" (List.cons_ne_nil _ _) fun i h => ?_
  -- an alias has at least two letters
  have hlen := congrArg (fun s => s.toList.length) h
  simp [aliasOf] at hlen

/-- **Without filters**, as `parseFieldFilters` makes them of an absent argument, the candidate
    query returns nothing, although every path meets them all and the correlated condition is
    empty; with one filter more it returns the document. -/
theorem no_filters_no_candidates :
    (.text "notes/a.md" ∉ candidates [scored] []) ∧ Correlated [scored] [] "d" "notes/a.md" ∧
      (∀ filter ∈ ([] : List (CompiledFieldFilter Nat)), Meets [scored] "notes/a.md" filter) ∧
      .text "notes/a.md" ∈ candidates [scored] [atLeastTwo] := by
  refine ⟨List.not_mem_nil, fun _ _ => rfl, fun _ h => (nomatch h), ?_⟩
  decide +kernel

end FieldFilters
