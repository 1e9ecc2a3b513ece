import Mathlib.Order.Defs.LinearOrder
import Mathlib.Data.String.Basic
import Mathlib.Order.Compare

/-! # SQL conditions with positional parameters

    Conjunctions of comparisons and of `EXISTS` subqueries over one table, with `?` for a parameter.
    The parameters are bound to the placeholders from left to right; an source is resolved from the
    inside out.

    * `Cell`, `Op.holds`: values and comparisons, where NULL stands in no relation;
    * `Condition`, `Select`: the conditions, how they are written and what they mean;
    * `holdAll_append`: a conjunction takes its parameters one part after another;
    * `slotsOf`, `bindings`: what the placeholders are compared with, in the order of the text. -/

namespace Sql

/-- A value, its numbers in any linear order. -/
inductive Cell (N : Type) where
  | null
  | number (n : N)
  | text (s : String)
deriving DecidableEq

/-- The comparisons. -/
inductive Op where
  | eq
  | gt
  | ge
  | lt
  | le
deriving DecidableEq

/-- How a comparison is written. -/
def Op.text : Op → String
  | .eq => "="
  | .gt => ">"
  | .ge => ">="
  | .lt => "<"
  | .le => "<="

/-- Which outcomes a comparison accepts. -/
def Op.meets : Op → Ordering → Bool
  | .eq, o => o = .eq
  | .gt, o => o = .gt
  | .ge, o => o ≠ .lt
  | .lt, o => o = .lt
  | .le, o => o ≠ .gt

section Values

variable {N : Type} [LinearOrder N]

/-- Numbers come before texts; NULL is compared with nothing. -/
def Cell.compare : Cell N → Cell N → Option Ordering
  | .number a, .number b => some (Ord.compare a b)
  | .number _, .text _ => some .lt
  | .text _, .number _ => some .gt
  | .text a, .text b => some (Ord.compare a b)
  | _, _ => none

/-- Two values stand in a relation. -/
def Op.holds (op : Op) (a b : Cell N) : Bool := (a.compare b).any op.meets

theorem holds_eq_text {s t : String} : Op.eq.holds (.text s : Cell N) (.text t) = true ↔ s = t := by
  show decide (Ord.compare s t = .eq) = true ↔ s = t
  rw [decide_eq_true_iff, compare_eq_iff_eq]

end Values

/-! ## Conditions -/

/-- The right-hand side of a comparison. -/
inductive Operand (C : Type) where
  | column (source : String) (c : C)
  | placeholder
deriving DecidableEq

structure Comparison (C : Type) where
  source : String
  column : C
  op : Op
  right : Operand C
deriving DecidableEq

/-- A comparison, or `EXISTS (SELECT 1 FROM … AS … WHERE …)`. -/
inductive Condition (C : Type) where
  | compare (c : Comparison C)
  | exists_ (source : String) (conditions : List (Comparison C))
deriving DecidableEq

/-- `SELECT … FROM … AS … WHERE …`. -/
structure Select (C : Type) where
  source : String
  column : C
  conditions : List (Condition C)
deriving DecidableEq

variable {C : Type}

section Text

variable (table : String) (name : C → String)

/-- A comparison as it is written. -/
def Comparison.text (c : Comparison C) : String :=
  c.source ++ "." ++ name c.column ++ " " ++ c.op.text ++ " " ++
    match c.right with
    | .column source column => source ++ "." ++ name column
    | .placeholder => "?"

/-- A condition as it is written. -/
def Condition.text : Condition C → String
  | .compare c => c.text name
  | .exists_ source conditions =>
      "EXISTS (SELECT 1 FROM " ++ table ++ " AS " ++ source ++ " WHERE " ++
        " AND ".intercalate (conditions.map (Comparison.text name)) ++ ")"

/-- A conjunction as it is written. -/
def textOf (conditions : List (Condition C)) : String :=
  " AND ".intercalate (conditions.map (Condition.text table name))

/-- A query as it is written. -/
def Select.text (q : Select C) : String :=
  "SELECT " ++ q.source ++ "." ++ name q.column ++ " AS " ++ name q.column ++ " FROM " ++ table ++
    " AS " ++ q.source ++ " WHERE " ++ textOf table name q.conditions

end Text

/-! ## Placeholders -/

def Comparison.slots (c : Comparison C) : List (String × C) :=
  match c.right with
  | .column _ _ => []
  | .placeholder => [(c.source, c.column)]

/-- The same, of a condition. -/
def Condition.slots : Condition C → List (String × C)
  | .compare c => c.slots
  | .exists_ _ conditions => conditions.flatMap Comparison.slots

/-- The same, of a conjunction. -/
def slotsOf (conditions : List (Condition C)) : List (String × C) :=
  conditions.flatMap Condition.slots

/-! ## Meaning -/

abbrev Row (C N : Type) := C → Cell N

/-- What the aliases in scope stand for. -/
abbrev Env (C N : Type) := String → Row C N

def Env.bind {N : Type} (env : Env C N) (source : String) (row : Row C N) : Env C N :=
  fun a => if a = source then row else env a

variable {N : Type}

@[simp] theorem Env.bind_self (env : Env C N) (source : String) (row : Row C N) :
    env.bind source row source = row := if_pos rfl

theorem Env.bind_of_ne (env : Env C N) {source a : String} (row : Row C N) (h : a ≠ source) :
    env.bind source row a = env a := if_neg h

variable [LinearOrder N]

/-- A comparison holds; a placeholder takes the first parameter that is left. -/
def Comparison.holds (env : Env C N) (c : Comparison C) (params : List (Cell N)) : Bool :=
  c.op.holds (env c.source c.column)
    (match c.right with
    | .column source column => env source column
    | .placeholder => params.headD .null)

/-- Comparisons hold, one after another. -/
def compareAll (env : Env C N) : List (Comparison C) → List (Cell N) → Bool
  | [], _ => true
  | c :: cs, params => c.holds env params && compareAll env cs (params.drop c.slots.length)

variable (rows : List (Row C N))

/-- A condition holds; an `EXISTS` looks for a row. -/
def Condition.holds (env : Env C N) (params : List (Cell N)) : Condition C → Bool
  | .compare c => c.holds env params
  | .exists_ source conditions =>
      rows.any fun row => compareAll (env.bind source row) conditions params

/-- Conditions hold, one after another. -/
def holdAll (env : Env C N) : List (Condition C) → List (Cell N) → Bool
  | [], _ => true
  | c :: cs, params =>
      c.holds rows env params && holdAll env cs (params.drop c.slots.length)

def Select.run (q : Select C) (env : Env C N) (params : List (Cell N)) : List (Cell N) :=
  (rows.filter fun row => holdAll rows (env.bind q.source row) q.conditions params).map
    fun row => row q.column

/-- **A conjunction** takes the parameters of its parts one after another. -/
theorem holdAll_append (env : Env C N) (a b : List (Condition C)) (params : List (Cell N)) :
    holdAll rows env (a ++ b) params =
      (holdAll rows env a params && holdAll rows env b (params.drop (slotsOf a).length)) := by
  induction a generalizing params with
  | nil => rfl
  | cons c a ih =>
      show (c.holds rows env params && holdAll rows env (a ++ b) _) = _
      rw [ih, List.drop_drop]
      show _ = (c.holds rows env params && holdAll rows env a _ && _)
      have hslots : slotsOf (c :: a) = c.slots ++ slotsOf a := List.flatMap_cons
      rw [hslots, List.length_append, Bool.and_assoc]

end Sql
