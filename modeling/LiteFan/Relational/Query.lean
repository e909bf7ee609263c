import LiteFan.Relational.Batch
import Mathlib.Data.List.Dedup
import Mathlib.Data.Prod.Lex

/-!
# Queries with null values

An expression of a query is evaluated where its aliases are bound to rows. A
comparison with a null value is unknown, the connectives take three truth
values, and a condition selects a row when it is true, not when it is unknown.
An aggregate leaves out null values; the least of no value is null.
-/

namespace Relational

/-- A value of a column. -/
inductive Value where
  | null
  | int (n : ℤ)
  | text (s : String)
  | blob (bytes : List UInt8)
  deriving DecidableEq, Inhabited

/-- True, false, or none when it is unknown. -/
abbrev Truth := Option Bool

/-- A conjunction with a false part is false, whatever the other part. -/
def conjunction : Truth → Truth → Truth
  | some false, _ | _, some false => some false
  | some true, some true => some true
  | _, _ => none

/-- A disjunction with a true part is true, whatever the other part. -/
def disjunction : Truth → Truth → Truth
  | some true, _ | _, some true => some true
  | some false, some false => some false
  | _, _ => none

namespace Value

/-- A value as a condition. -/
def truth : Value → Truth
  | .null => none
  | .int n => some (decide (n ≠ 0))
  | .text _ | .blob _ => some false

/-- A truth value as a value. -/
def ofTruth : Truth → Value
  | none => .null
  | some true => .int 1
  | some false => .int 0

/-- A column that may be null. -/
def ofOption {α : Type} (f : α → Value) : Option α → Value
  | none => .null
  | some a => f a

/-- A number that is read, none for null. -/
def int? : Value → Option ℤ
  | .int n => some n
  | _ => none

/-- A text that is read, none for null. -/
def text? : Value → Option String
  | .text s => some s
  | _ => none

/-- Bytes that are read, none for null. -/
def blob? : Value → Option (List UInt8)
  | .blob bytes => some bytes
  | _ => none

@[simp] theorem int?_ofOption (o : Option ℤ) : (ofOption .int o).int? = o := by
  cases o <;> rfl

@[simp] theorem text?_ofOption (o : Option String) : (ofOption .text o).text? = o := by
  cases o <;> rfl

/-- Null comes first, then the numbers, the texts and the blobs. -/
def before : Value → Value → Bool
  | .null, .null => false
  | .null, _ => true
  | .int a, .int b => decide (a < b)
  | .int _, .text _ | .int _, .blob _ => true
  | .text a, .text b => decide (a < b)
  | .text _, .blob _ => true
  | .blob a, .blob b => decide (a < b)
  | _, _ => false

/-- A sum with a null part is null. -/
def plus : Value → Value → Value
  | .int a, .int b => .int (a + b)
  | _, _ => .null

/-- The greater of two values, null when one of them is null. -/
def greatest : Value → Value → Value
  | .null, _ | _, .null => .null
  | a, b => if a.before b then b else a

/-- The lesser of two values that are not null. -/
def least : Value → Value → Value
  | .null, b => b
  | a, .null => a
  | a, b => if b.before a then b else a

/-- `MIN` of a column: its null values do not count. -/
def minimum : List Value → Value
  | [] => .null
  | v :: vs => least v (minimum vs)

/-- The greater of two values that are not null. -/
def most : Value → Value → Value
  | .null, b => b
  | a, .null => a
  | a, b => if a.before b then b else a

/-- `MAX` of a column: its null values do not count. -/
def maximum : List Value → Value
  | [] => .null
  | v :: vs => most v (maximum vs)

end Value

/-- `=`, `<`, `<=` and `>`. -/
inductive Comparison where
  | eq
  | lt
  | le
  | gt

/-- A comparison with null is unknown. -/
def Comparison.apply : Comparison → Value → Value → Truth
  | _, .null, _ | _, _, .null => none
  | .eq, a, b => some (decide (a = b))
  | .lt, a, b => some (a.before b)
  | .le, a, b => some (!b.before a)
  | .gt, a, b => some (b.before a)

/-- The comparison of two numbers. -/
def Comparison.ofInts : Comparison → ℤ → ℤ → Bool
  | .eq, x, y => decide (x = y)
  | .lt, x, y => decide (x < y)
  | .le, x, y => decide (x ≤ y)
  | .gt, x, y => decide (y < x)

theorem Comparison.ofInts_eq (x y : ℤ) : Comparison.eq.ofInts x y = (y == x) := by
  rw [BEq.comm]
  rfl

section Queries

variable (τ ν κ : Type)

/-- An expression over tables, aliases and columns. -/
inductive Expr where
  | literal (v : Value)
  | column (source : ν) (name : κ)
  | compare (op : Comparison) (a b : Expr)
  /-- `AND`. -/
  | both (a b : Expr)
  /-- `OR`. -/
  | either (a b : Expr)
  /-- `NOT`. -/
  | negate (a : Expr)
  | isNull (a : Expr)
  | coalesce (a b : Expr)
  | plus (a b : Expr)
  /-- `MAX` of two values. -/
  | greatest (a b : Expr)
  /-- `EXISTS (SELECT 1 FROM … WHERE …)`. -/
  | exists (sources : List (τ × ν)) (cond : Expr)
  /-- `(SELECT COUNT(*) FROM … WHERE …)`. -/
  | count (sources : List (τ × ν)) (cond : Expr)
  /-- `(SELECT MIN(…) FROM … WHERE …)`. -/
  | min (arg : Expr) (sources : List (τ × ν)) (cond : Expr)
  /-- `(SELECT MAX(…) FROM … WHERE …)`. -/
  | max (arg : Expr) (sources : List (τ × ν)) (cond : Expr)

/-- A row gives a value for each column. -/
abbrev Row := κ → Value

/-- The rows the aliases are bound to, the innermost first. -/
abbrev Scope := List (ν × Row κ)

/-- The rows of each table. -/
abbrev Tables := τ → List (Row κ)

end Queries

/-- `x IN (…)`: one of several conditions. -/
def Expr.anyOf {τ ν κ : Type} (conds : List (Expr τ ν κ)) : Expr τ ν κ :=
  conds.foldr .either (.literal (.int 0))

section Evaluation

variable {τ ν κ : Type} [DecidableEq ν]

/-- The value of a column. -/
def Scope.column (scope : Scope ν κ) (source : ν) (name : κ) : Value :=
  match scope.lookup source with
  | none => .null
  | some row => row name

/-- Every choice of a row from each source. -/
def bindings (tables : Tables τ κ) : List (τ × ν) → Scope ν κ → List (Scope ν κ)
  | [], scope => [scope]
  | (table, source) :: sources, scope =>
    (tables table).flatMap fun row => bindings tables sources ((source, row) :: scope)

/-- The value of an expression. -/
def eval (tables : Tables τ κ) : Expr τ ν κ → Scope ν κ → Value
  | .literal v, _ => v
  | .column source name, scope => scope.column source name
  | .compare op a b, scope => .ofTruth (op.apply (eval tables a scope) (eval tables b scope))
  | .both a b, scope =>
    .ofTruth (conjunction (eval tables a scope).truth (eval tables b scope).truth)
  | .either a b, scope =>
    .ofTruth (disjunction (eval tables a scope).truth (eval tables b scope).truth)
  | .negate a, scope => .ofTruth ((eval tables a scope).truth.map Bool.not)
  | .isNull a, scope => .ofTruth (some (decide (eval tables a scope = .null)))
  | .coalesce a b, scope =>
    if eval tables a scope = .null then eval tables b scope else eval tables a scope
  | .plus a b, scope => (eval tables a scope).plus (eval tables b scope)
  | .greatest a b, scope => (eval tables a scope).greatest (eval tables b scope)
  | .exists sources cond, scope => .ofTruth (some ((bindings tables sources scope).any fun inner =>
      (eval tables cond inner).truth == some true))
  | .count sources cond, scope => .int ((bindings tables sources scope).filter fun inner =>
      (eval tables cond inner).truth == some true).length
  | .min arg sources cond, scope => .minimum (((bindings tables sources scope).filter fun inner =>
      (eval tables cond inner).truth == some true).map (eval tables arg))
  | .max arg sources cond, scope => .maximum (((bindings tables sources scope).filter fun inner =>
      (eval tables cond inner).truth == some true).map (eval tables arg))

/-- A condition selects what it is true of. -/
def holds (tables : Tables τ κ) (cond : Expr τ ν κ) (scope : Scope ν κ) : Bool :=
  (eval tables cond scope).truth == some true

/-- `FROM … WHERE …`. -/
def selected (tables : Tables τ κ) (sources : List (τ × ν)) (cond : Expr τ ν κ) :
    List (Scope ν κ) := (bindings tables sources []).filter (holds tables cond)

/-- The columns that a query selects of a row. -/
def project (tables : Tables τ κ) (columns : List (Expr τ ν κ)) (scope : Scope ν κ) :
    List Value := columns.map fun column => eval tables column scope

/-- `ORDER BY` a number. -/
def orderBy (tables : Tables τ κ) (key : Expr τ ν κ) (scopes : List (Scope ν κ)) :
    List (Scope ν κ) := sortBy (fun scope => (eval tables key scope).int?.getD 0) scopes

/-- `ORDER BY` a number and then another. -/
def orderByTwo (tables : Tables τ κ) (first second : Expr τ ν κ) (scopes : List (Scope ν κ)) :
    List (Scope ν κ) :=
  sortBy (fun scope => (toLex ((eval tables first scope).int?.getD 0,
    (eval tables second scope).int?.getD 0) : ℤ ×ₗ ℤ)) scopes

/-- `WITH name(column) AS (SELECT …)` of a query without sources. -/
def Tables.withRow [DecidableEq τ] [DecidableEq κ] (tables : Tables τ κ) (name : τ) (column : κ)
    (value : Expr τ ν κ) : Tables τ κ :=
  Function.update tables name
    [Function.update (fun _ => .null) column (eval tables value [])]

/-- `FROM left LEFT JOIN right ON …`: a row that nothing joins is joined by nulls. -/
def leftJoin (tables : Tables τ κ) (left right : τ × ν) (on : Expr τ ν κ) : List (Scope ν κ) :=
  (tables left.1).flatMap fun row =>
    let joined := ((tables right.1).map fun other => [(right.2, other), (left.2, row)]).filter
      (holds tables on)
    if joined.isEmpty then [[(right.2, fun _ => .null), (left.2, row)]] else joined

/-- `GROUP BY`: the rows with the same value, for each value. -/
def groupBy (tables : Tables τ κ) (key : Expr τ ν κ) (scopes : List (Scope ν κ)) :
    List (List (Scope ν κ)) :=
  (scopes.map (eval tables key)).dedup.map fun value =>
    scopes.filter fun scope => eval tables key scope == value

end Evaluation

section Conditions

variable {τ ν κ : Type} [DecidableEq ν] {tables : Tables τ κ} {scope : Scope ν κ}
  {a b cond : Expr τ ν κ} {x y : ℤ}

@[simp] theorem truth_ofTruth (t : Truth) : (Value.ofTruth t).truth = t := by
  rcases t with _ | _ | _ <;> rfl

/-- A condition whose value is a truth value holds when that is true. -/
theorem holds_ofTruth {t : Truth} (h : eval tables cond scope = .ofTruth t) :
    holds tables cond scope = (t == some true) := by
  rw [holds, h, truth_ofTruth]

/-- Both parts are true. -/
@[simp] theorem holds_both : holds tables (.both a b) scope =
    (holds tables a scope && holds tables b scope) := by
  rw [holds_ofTruth rfl, holds, holds]
  rcases (eval tables a scope).truth with _ | _ | _ <;>
    rcases (eval tables b scope).truth with _ | _ | _ <;> rfl

/-- One of the parts is true. -/
@[simp] theorem holds_either : holds tables (.either a b) scope =
    (holds tables a scope || holds tables b scope) := by
  rw [holds_ofTruth rfl, holds, holds]
  rcases (eval tables a scope).truth with _ | _ | _ <;>
    rcases (eval tables b scope).truth with _ | _ | _ <;> rfl

@[simp] theorem holds_isNull : holds tables (.isNull a) scope =
    decide (eval tables a scope = .null) := by
  rw [holds_ofTruth rfl]
  cases decide (eval tables a scope = .null) <;> rfl

@[simp] theorem holds_exists {sources : List (τ × ν)} : holds tables (.exists sources cond) scope =
    (bindings tables sources scope).any (holds tables cond) := by
  rw [holds_ofTruth rfl]
  change (some ((bindings tables sources scope).any (holds tables cond)) == some true) = _
  cases (bindings tables sources scope).any (holds tables cond) <;> rfl

/-- That something exists is never unknown. -/
@[simp] theorem holds_not_exists {sources : List (τ × ν)} :
    holds tables (.negate (.exists sources cond)) scope =
      !(bindings tables sources scope).any (holds tables cond) := by
  have hvalue : eval tables (.exists sources cond) scope =
      .ofTruth (some ((bindings tables sources scope).any (holds tables cond))) := rfl
  rw [holds_ofTruth rfl, hvalue, truth_ofTruth]
  cases (bindings tables sources scope).any (holds tables cond) <;> rfl

/-- Both parts, each with what it comes to. -/
theorem holds_both_of {p q : Bool} (ha : holds tables a scope = p)
    (hb : holds tables b scope = q) : holds tables (.both a b) scope = (p && q) := by
  rw [holds_both, ha, hb]

/-- One of several conditions is true. -/
@[simp] theorem holds_anyOf {conds : List (Expr τ ν κ)} :
    holds tables (.anyOf conds) scope = conds.any fun cond => holds tables cond scope := by
  induction conds with
  | nil => rfl
  | cons cond conds ih =>
    rw [List.any_cons, ← ih]
    exact holds_either

/-- Two numbers are compared as such. -/
theorem holds_compare_int {op : Comparison} (ha : eval tables a scope = .int x)
    (hb : eval tables b scope = .int y) :
    holds tables (.compare op a b) scope = op.ofInts x y := by
  rw [holds_ofTruth rfl, ha, hb]
  cases op with
  | eq => simp [Comparison.apply, Comparison.ofInts]
  | lt => simp [Comparison.apply, Comparison.ofInts, Value.before]
  | le =>
    have hle : decide (x ≤ y) = !decide (y < x) := by
      rw [← decide_not, decide_eq_decide, not_lt]
    simp [Comparison.apply, Comparison.ofInts, Value.before, hle]
  | gt => simp [Comparison.apply, Comparison.ofInts, Value.before]

/-- `x IN (…)` of numbers. -/
theorem holds_in_ints {xs : List ℤ} (ha : eval tables a scope = .int x) :
    holds tables (.anyOf (xs.map fun y => .compare .eq a (.literal (.int y)))) scope =
      decide (x ∈ xs) := by
  rw [holds_anyOf]
  induction xs with
  | nil => rfl
  | cons y ys ih =>
    have hone : holds tables (.compare .eq a (.literal (.int y))) scope = decide (x = y) :=
      holds_compare_int ha rfl
    rw [List.map_cons, List.any_cons, ih, hone]
    simp only [List.mem_cons, Bool.decide_or]

/-- A null text equals no text, not even a null one. -/
theorem holds_eq_text {s t : Option String}
    (ha : eval tables a scope = .ofOption .text s) (hb : eval tables b scope = .ofOption .text t) :
    holds tables (.compare .eq a b) scope = (s.isSome && t.isSome && s == t) := by
  rw [holds_ofTruth rfl, ha, hb]
  cases s with
  | none => cases t <;> rfl
  | some s =>
    cases t with
    | none => rfl
    | some t => simp [Value.ofOption, Comparison.apply, beq_eq_decide]

/-- A number that may be null, with a number in its place. -/
theorem eval_coalesce_int {o : Option ℤ} (ha : eval tables a scope = .ofOption .int o)
    (hb : eval tables b scope = .int y) :
    eval tables (.coalesce a b) scope = .int (o.getD y) := by
  have hvalue : eval tables (.coalesce a b) scope = if eval tables a scope = .null then
      eval tables b scope else eval tables a scope := rfl
  rw [hvalue, ha, hb]
  cases o <;> rfl

/-- The greater of two numbers. -/
theorem eval_greatest_int (ha : eval tables a scope = .int x) (hb : eval tables b scope = .int y) :
    eval tables (.greatest a b) scope = .int (max x y) := by
  have hvalue : eval tables (.greatest a b) scope =
      (eval tables a scope).greatest (eval tables b scope) := rfl
  have hgreatest : (Value.int x).greatest (.int y) =
      if decide (x < y) then .int y else .int x := rfl
  rw [hvalue, ha, hb, hgreatest]
  by_cases h : x < y
  · simp [h, max_eq_right h.le]
  · simp [h, max_eq_left (not_lt.mp h)]

theorem eval_plus_int (ha : eval tables a scope = .int x) (hb : eval tables b scope = .int y) :
    eval tables (.plus a b) scope = .int (x + y) := by
  have hvalue : eval tables (.plus a b) scope =
      (eval tables a scope).plus (eval tables b scope) := rfl
  rw [hvalue, ha, hb]
  rfl

end Conditions

section Aggregates

theorem least_int (n m : ℤ) : Value.least (.int n) (.int m) = .int (min n m) := by
  have hleast : Value.least (.int n) (.int m) = if decide (m < n) then .int m else .int n := rfl
  rw [hleast]
  by_cases h : m < n
  · simp [h, min_eq_right h.le]
  · simp [h, min_eq_left (not_lt.mp h)]

theorem most_int (n m : ℤ) : Value.most (.int n) (.int m) = .int (max n m) := by
  have hmost : Value.most (.int n) (.int m) = if decide (n < m) then .int m else .int n := rfl
  rw [hmost]
  by_cases h : n < m
  · simp [h, max_eq_right h.le]
  · simp [h, max_eq_left (not_lt.mp h)]

/-- The least of numbers. -/
theorem minimum_int (ns : List ℤ) :
    Value.minimum (ns.map .int) = .ofOption .int ns.min? := by
  induction ns with
  | nil => rfl
  | cons n ns ih =>
    rw [List.map_cons, Value.minimum, ih, List.min?_cons]
    cases ns.min? with
    | none => rfl
    | some m => exact least_int n m

/-- The greatest of numbers. -/
theorem maximum_int (ns : List ℤ) :
    Value.maximum (ns.map .int) = .ofOption .int ns.max? := by
  induction ns with
  | nil => rfl
  | cons n ns ih =>
    rw [List.map_cons, Value.maximum, ih, List.max?_cons]
    cases ns.max? with
    | none => rfl
    | some m => exact most_int n m

variable {τ ν κ : Type} [DecidableEq ν] {tables : Tables τ κ} {scope : Scope ν κ}

omit [DecidableEq ν] in
/-- One source binds its alias to each row. -/
theorem bindings_one (table : τ) (source : ν) : bindings tables [(table, source)] scope =
    (tables table).map fun row => (source, row) :: scope := by
  simp only [bindings]
  exact List.map_eq_flatMap.symm

omit [DecidableEq ν] in
/-- A further source of one row binds its alias to that. -/
theorem bindings_single {table single : τ} {source other : ν} {row : Row κ}
    (h : tables single = [row]) : bindings tables [(table, source), (single, other)] scope =
      (tables table).map fun first => (other, row) :: (source, first) :: scope := by
  simp only [bindings, h, List.flatMap_cons, List.flatMap_nil, List.append_nil]
  exact List.map_eq_flatMap.symm

variable {α : Type} {rows : List α} {f : α → Scope ν κ} {p : α → Bool} {g : α → ℤ}
  {sources : List (τ × ν)} {arg cond : Expr τ ν κ}

/-- Rows selected from what stands for other rows. -/
theorem filter_bound (hcond : ∀ a, holds tables cond (f a) = p a) :
    (rows.map f).filter (holds tables cond) = (rows.filter p).map f := by
  rw [List.filter_map]
  exact congrArg (List.map f) (List.filter_congr fun a _ => hcond a)

omit [DecidableEq ν] in
/-- A condition on the joined rows that only depends on the left one selects the left ones. -/
theorem filter_flatMap_of {f : α → List (Scope ν κ)} {q : Scope ν κ → Bool}
    (h : ∀ a, ∀ scope ∈ f a, q scope = p a) :
    (rows.flatMap f).filter q = (rows.filter p).flatMap f := by
  induction rows with
  | nil => rfl
  | cons a rows ih =>
    rw [List.flatMap_cons, List.filter_append, ih]
    cases ha : p a with
    | true =>
      rw [List.filter_cons_of_pos ha, List.flatMap_cons,
        List.filter_eq_self.mpr fun scope hscope => (h a scope hscope).trans ha]
    | false =>
      have hnone : (f a).filter q = [] := List.filter_eq_nil_iff.mpr fun scope hscope => by
        rw [h a scope hscope, ha]
        exact Bool.false_ne_true
      rw [List.filter_cons_of_neg (by rw [ha]; exact Bool.false_ne_true), hnone, List.nil_append]

/-- Rows that stand for others are ordered like these. -/
theorem orderBy_of {key : Expr τ ν κ} (hkey : ∀ a, eval tables key (f a) = .int (g a)) :
    orderBy tables key (rows.map f) = (sortBy g rows).map f := by
  have hvalue : (fun a => (eval tables key (f a)).int?.getD 0) = g := by
    funext a
    rw [hkey]
    rfl
  rw [orderBy, sortBy_map, hvalue]

theorem orderByTwo_of {first second : Expr τ ν κ} {h : α → ℤ}
    (hfirst : ∀ a, eval tables first (f a) = .int (g a))
    (hsecond : ∀ a, eval tables second (f a) = .int (h a)) :
    orderByTwo tables first second (rows.map f) =
      (sortBy (fun a => (toLex (g a, h a) : ℤ ×ₗ ℤ)) rows).map f := by
  have hvalue : (fun a => (toLex ((eval tables first (f a)).int?.getD 0,
      (eval tables second (f a)).int?.getD 0) : ℤ ×ₗ ℤ)) = fun a => toLex (g a, h a) := by
    funext a
    rw [hfirst, hsecond]
    rfl
  rw [orderByTwo, sortBy_map, hvalue]

/-- Something exists if one of the rows is selected. -/
theorem holds_exists_bound (hbind : bindings tables sources scope = rows.map f)
    (hcond : ∀ a, holds tables cond (f a) = p a) :
    holds tables (.exists sources cond) scope = rows.any p := by
  rw [holds_exists, hbind, List.any_map]
  exact List.any_congr rfl hcond

/-- Nothing exists if none of the rows is selected. -/
theorem holds_not_exists_bound (hbind : bindings tables sources scope = rows.map f)
    (hcond : ∀ a, holds tables cond (f a) = p a) :
    holds tables (.negate (.exists sources cond)) scope = !rows.any p := by
  rw [holds_not_exists, hbind, List.any_map]
  exact congrArg Bool.not (List.any_congr rfl hcond)

/-- A count is the number of selected rows. -/
theorem eval_count (hbind : bindings tables sources scope = rows.map f)
    (hcond : ∀ a, holds tables cond (f a) = p a) :
    eval tables (.count sources cond) scope = .int (rows.filter p).length := by
  have hvalue : eval tables (.count sources cond) scope =
      .int ((bindings tables sources scope).filter (holds tables cond)).length := rfl
  rw [hvalue, hbind, filter_bound hcond, List.length_map]

/-- A column of numbers of selected rows. -/
theorem column_bound (hbind : bindings tables sources scope = rows.map f)
    (hcond : ∀ a, holds tables cond (f a) = p a)
    (harg : ∀ a, eval tables arg (f a) = .int (g a)) :
    ((bindings tables sources scope).filter (holds tables cond)).map (eval tables arg) =
      ((rows.filter p).map g).map .int := by
  rw [hbind, filter_bound hcond, List.map_map, List.map_map]
  exact List.map_congr_left fun a _ => harg a

/-- The least of a column of numbers. -/
theorem eval_min (hbind : bindings tables sources scope = rows.map f)
    (hcond : ∀ a, holds tables cond (f a) = p a)
    (harg : ∀ a, eval tables arg (f a) = .int (g a)) :
    eval tables (.min arg sources cond) scope = .ofOption .int ((rows.filter p).map g).min? := by
  have hvalue : eval tables (.min arg sources cond) scope = .minimum
      (((bindings tables sources scope).filter (holds tables cond)).map (eval tables arg)) := rfl
  rw [hvalue, column_bound hbind hcond harg, minimum_int]

/-- The greatest of a column of numbers. -/
theorem eval_max (hbind : bindings tables sources scope = rows.map f)
    (hcond : ∀ a, holds tables cond (f a) = p a)
    (harg : ∀ a, eval tables arg (f a) = .int (g a)) :
    eval tables (.max arg sources cond) scope = .ofOption .int ((rows.filter p).map g).max? := by
  have hvalue : eval tables (.max arg sources cond) scope = .maximum
      (((bindings tables sources scope).filter (holds tables cond)).map (eval tables arg)) := rfl
  rw [hvalue, column_bound hbind hcond harg, maximum_int]

omit [DecidableEq ν] in
/-- One source of rows that stand for others. -/
theorem bindings_of {table : τ} {source : ν} {columns : α → Row κ}
    (h : tables table = rows.map columns) :
    bindings tables [(table, source)] scope =
      rows.map fun a => (source, columns a) :: scope := by
  rw [bindings_one, h, List.map_map]
  rfl

omit [DecidableEq ν] in
/-- A source of rows that stand for others, and one of a single row. -/
theorem bindings_of_single {table single : τ} {source other : ν} {columns : α → Row κ}
    {row : Row κ} (h : tables table = rows.map columns) (hsingle : tables single = [row]) :
    bindings tables [(table, source), (single, other)] scope =
      rows.map fun a => (other, row) :: (source, columns a) :: scope := by
  rw [bindings_single hsingle, h, List.map_map]
  rfl

omit [DecidableEq ν] in
/-- Two sources of rows that stand for others. -/
theorem bindings_pair {β : Type} {left right : τ} {source other : ν} {columns : α → Row κ}
    {others : List β} {columns' : β → Row κ} (hleft : tables left = rows.map columns)
    (hright : tables right = others.map columns') :
    bindings tables [(left, source), (right, other)] scope =
      rows.flatMap fun a =>
        others.map fun b => (other, columns' b) :: (source, columns a) :: scope := by
  simp only [bindings, hleft, List.flatMap_map]
  refine List.flatMap_congr fun a _ => ?_
  have hone : bindings tables [(right, other)] ((source, columns a) :: scope) =
      others.map fun b => (other, columns' b) :: (source, columns a) :: scope := bindings_of hright
  simpa only [bindings] using hone

/-- Each row is joined with the rows that stand for what belongs to it, or with nulls. -/
theorem leftJoin_of {β : Type} {left right : τ × ν} {columns : α → Row κ} {others : List β}
    {columns' : β → Row κ} {on : Expr τ ν κ} {q : α → β → Bool}
    (hleft : tables left.1 = rows.map columns) (hright : tables right.1 = others.map columns')
    (hon : ∀ a b, holds tables on [(right.2, columns' b), (left.2, columns a)] = q a b) :
    leftJoin tables left right on = rows.flatMap fun a =>
      if (others.filter (q a)).isEmpty then [[(right.2, fun _ => .null), (left.2, columns a)]]
      else (others.filter (q a)).map fun b => [(right.2, columns' b), (left.2, columns a)] := by
  unfold leftJoin
  rw [hleft, List.flatMap_map]
  refine List.flatMap_congr fun a _ => ?_
  have hjoined : ((tables right.1).map fun other =>
      [(right.2, other), (left.2, columns a)]).filter (holds tables on) =
      (others.filter (q a)).map fun b => [(right.2, columns' b), (left.2, columns a)] := by
    rw [hright, List.map_map]
    exact filter_bound (hon a)
  simp only [hjoined, List.isEmpty_map]

/-- Rows with one value of the key are one group. -/
theorem groupBy_single {key : Expr τ ν κ} {scopes : List (Scope ν κ)} {value : Value}
    (hne : scopes ≠ []) (h : ∀ scope ∈ scopes, eval tables key scope = value) :
    groupBy tables key scopes = [scopes] := by
  have hkeys : scopes.map (eval tables key) = List.replicate scopes.length value :=
    List.map_eq_replicate_iff.mpr h
  have hlen : scopes.length ≠ 0 := fun hzero => hne (List.length_eq_zero_iff.mp hzero)
  unfold groupBy
  rw [hkeys, List.replicate_dedup hlen, List.map_singleton, List.filter_eq_self.mpr]
  intro scope hscope
  exact beq_iff_eq.mpr (h scope hscope)

/-- The value of a column of a bound row. -/
theorem Scope.column_of {source : ν} {row : Row κ} (h : scope.lookup source = some row)
    (name : κ) : scope.column source name = row name := by
  rw [Scope.column, h]

end Aggregates

end Relational
