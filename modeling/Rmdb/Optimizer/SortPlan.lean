import Rmdb.Parser.Lexer
import Rmdb.Analyze.Analyze
import Rmdb.Execution.SortExecutor

/-! From `ORDER BY` and `LIMIT` to the sort node of the plan. The literal is read as 64 bits and
stored in the `int` of the syntax tree, whose sign decides whether there is a limit. -/
namespace Rmdb

namespace Parser

def optLimitClause : Option String → Except Fault Int
  | some text => valueInt text
  | none => .ok (-1)

end Parser

namespace Ast

inductive OrderByDir where
  | default
  | asc
  | desc
  deriving DecidableEq, Repr

structure OrderBy where
  cols : TabCol
  orderbyDir : OrderByDir
  deriving DecidableEq, Repr

structure SelectStmt where
  hasSort : Bool
  orders : List OrderBy
  hasLimit : Bool
  limit : Int
  deriving DecidableEq, Repr

def SelectStmt.new (orders : List OrderBy) (limit : Int) : SelectStmt :=
  let limit := narrow limit
  ⟨!orders.isEmpty,orders,decide (limit ≥ 0),limit⟩

end Ast

structure SortPlan where
  sortKeys : List SortKey
  limit : Int
  deriving DecidableEq, Repr

namespace Planner

def resolveOrderCol (allCols : List ColMeta) (target : TabCol) : Except Fault TabCol :=
  if target.tabName ≠ "" then .ok target
  else do
    let matchedTab ← Analyze.inferTable target.colName allCols ""
    if matchedTab = "" then .error (.error (.columnNotFound target.colName)) else .ok {target with tabName := matchedTab}

def sortKeys (db : DbMeta) (tables : List String) (orders : List Ast.OrderBy) : Except Fault (List SortKey) := do
  let allCols ← Analyze.getAllCols db tables
  orders.mapM fun order => do
    let col ← resolveOrderCol allCols order.cols
    .ok ⟨col,decide (order.orderbyDir = .desc)⟩

def generateSortPlan (db : DbMeta) (tables : List String) (x : Ast.SelectStmt) : Except Fault (Option SortPlan) :=
  if !x.hasSort && !x.hasLimit then .ok none
  else do
    let keys ← sortKeys db tables x.orders
    .ok (some ⟨keys,x.limit⟩)

end Planner

namespace SortExecutor
open AbstractExecutor

variable {σ : Type}

def sortedRows [FloatOps] (db : DbMeta) (tables : List String) (x : Ast.SelectStmt) (child : AbstractExecutor σ)
    (fuel : Nat) : M (SortState σ) (List Bytes) := do
  match ← ofExcept (Planner.generateSortPlan db tables x) with
  | none => onPrev (child.drain fuel)
  | some plan =>
    let ex ← ofExcept (new child plan.sortKeys plan.limit)
    (ex.executor fuel).drain fuel

def firstRows (order : Bytes → Bytes → Bool) (literal : Option String) (value : Int) (rows : List Bytes) : List Bytes :=
  if literal.isNone then rows.mergeSort order else (rows.mergeSort order).take value.toNat

/- When the `int` limit cuts off what the literal does. -/
def Fits (literal : Option String) (value : Int) (size : Nat) : Prop :=
  literal = none ∨ value < 2^31 ∨ (0 ≤ narrow value ∧ size ≤ narrow value) ∨ (narrow value < 0 ∧ size ≤ value)

theorem narrowCases {value : Int} (low : 0 ≤ value) :
    (value < 2^31 → narrow value = value) ∧ (2^31 ≤ value → narrow value < value) := by
  rw [narrow,Int.bmod_def]
  constructor
  · intro small
    rw [Int.emod_eq_of_lt low (by norm_num; omega)]
    split <;> omega
  · intro large
    split <;> omega

theorem limitedFits {ex : SortExecutor σ} {literal : Option String} {value : Int} {order : Bytes → Bytes → Bool}
    {rows : List Bytes} (accepted : Parser.optLimitClause literal = .ok value) (natural : literal = none ∨ 0 ≤ value)
    (limit : ex.limit = narrow value) :
    ex.limited (rows.mergeSort order) = firstRows order literal value rows ↔ Fits literal value rows.length := by
  cases literal with
  | none =>
    cases Except.ok.inj accepted
    have absent : ex.limit = -1 := limit
    rw [limited,absent,if_neg (by omega)]
    exact iff_of_true rfl (.inl rfl)
  | some text =>
    have low : 0 ≤ value := natural.resolve_left (Option.some_ne_none text)
    obtain ⟨small,large⟩ := narrowCases low
    have sizes := @List.length_mergeSort _ order rows
    have whole : rows.mergeSort order = (rows.mergeSort order).take value.toNat ↔ (rows.length : Int) ≤ value := by
      rw [eq_comm,List.take_eq_self_iff,sizes]
      omega
    have written : firstRows order (some text) value rows = (rows.mergeSort order).take value.toNat := rfl
    have fits : Fits (some text) value rows.length ↔ value < 2^31 ∨
        (0 ≤ narrow value ∧ (rows.length : Int) ≤ narrow value) ∨
        (narrow value < 0 ∧ (rows.length : Int) ≤ value) := by simp [Fits]
    rw [limited,limit,sizes,written,fits]
    split
    · rw [List.take_eq_take_iff,sizes]
      omega
    · rw [whole]
      omega

section Shape
variable {db : DbMeta} {tables : List String} {orders : List Ast.OrderBy} {keys : List SortKey}

theorem unsortedShape {value : Int} (resolved : Planner.sortKeys db tables orders = .ok keys)
    (plain : (!(Ast.SelectStmt.new orders value).hasSort && !(Ast.SelectStmt.new orders value).hasLimit) = true) :
    keys = [] ∧ narrow value < 0 := by
  have shape : orders = [] ∧ narrow value < 0 := by simpa [Ast.SelectStmt.new] using plain
  refine ⟨?_,shape.2⟩
  rw [shape.1,Planner.sortKeys] at resolved
  cases catalog : Analyze.getAllCols db tables with
  | error e => rw [catalog] at resolved; cases resolved
  | ok allCols => rw [catalog] at resolved; exact (Except.ok.inj resolved).symm

theorem sortPlanned {value : Int} (resolved : Planner.sortKeys db tables orders = .ok keys)
    (sorted : ¬(!(Ast.SelectStmt.new orders value).hasSort && !(Ast.SelectStmt.new orders value).hasLimit) = true) :
    Planner.generateSortPlan db tables (.new orders value) = .ok (some ⟨keys,narrow value⟩) := by
  have same : Planner.sortKeys db tables (Ast.SelectStmt.new orders value).orders = .ok keys := resolved
  rw [Planner.generateSortPlan,if_neg sorted,same]
  rfl

end Shape

section Node
variable [FloatOps] {child : AbstractExecutor σ} {ready : σ → Prop} {stands : σ → List Bytes → Prop} {L : List Bytes}
  {db : DbMeta} {tables : List String} {orders : List Ast.OrderBy} {keys : List SortKey} {cols : List ColMeta}

theorem sortedRowsRun (restarts : child.Restarts ready stands L) (resolved : Planner.sortKeys db tables orders = .ok keys)
    (found : (keys.mapM fun key => findColMeta child.cols key.col) = .ok cols) (ordered : ∀ col ∈ cols, col.type ≠ .float)
    {fuel : Nat} (enough : L.length < fuel) {s : SortState σ} (known : ready s.prev) (value : Int) :
    ∃ t, sortedRows db tables (.new orders value) child fuel s =
        .ok (limited ⟨child,keys,cols,narrow value⟩ (L.mergeSort (sortOrder (keys.zip cols)))) t ∧ ready t.prev := by
  by_cases plain : (!(Ast.SelectStmt.new orders value).hasSort && !(Ast.SelectStmt.new orders value).hasLimit) = true
  · have planned : Planner.generateSortPlan db tables (.new orders value) = .ok none := if_pos plain
    obtain ⟨unsorted,unlimited⟩ := unsortedShape resolved plain
    have same : L.mergeSort (sortOrder (keys.zip cols)) = L := by
      rw [unsorted,List.zip_nil_left]
      exact List.mergeSort_of_pairwise (List.pairwise_of_forall fun _ _ => rfl)
    obtain ⟨p,drained,last⟩ := drainRun restarts known enough
    refine ⟨{s with prev := p},?_,restarts.kept _ _ last⟩
    rw [sortedRows,planned,bindEq (ofExceptOk _ s),same,limited,if_neg fun cut => unlimited.not_ge cut.1]
    exact zoomOk drained
  · have planned := sortPlanned resolved plain
    have built : new child keys (narrow value) = .ok ⟨child,keys,cols,narrow value⟩ := by
      rw [new,found]
      rfl
    have ex := @sortRestarts _ ⟨child,keys,cols,narrow value⟩ _ _ _ _ restarts _ enough
      fun key mem => ordered _ (List.of_mem_zip mem).2
    have size := limitedLength ⟨child,keys,cols,narrow value⟩ (L.mergeSort (sortOrder (keys.zip cols)))
    rw [List.length_mergeSort] at size
    obtain ⟨t,drained,last⟩ := drainRun ex known (size.trans_lt enough)
    refine ⟨t,?_,last.1⟩
    rw [sortedRows,planned,bindEq (ofExceptOk _ s)]
    dsimp only
    rw [built,bindEq (ofExceptOk _ s)]
    exact drained

theorem limitRows (restarts : child.Restarts ready stands L) (resolved : Planner.sortKeys db tables orders = .ok keys)
    (found : (keys.mapM fun key => findColMeta child.cols key.col) = .ok cols) (ordered : ∀ col ∈ cols, col.type ≠ .float)
    {literal : Option String} {value : Int} (accepted : Parser.optLimitClause literal = .ok value)
    (natural : literal = none ∨ 0 ≤ value) {fuel : Nat} (enough : L.length < fuel) {s : SortState σ} (known : ready s.prev) :
    ∃ rows t, sortedRows db tables (.new orders value) child fuel s = .ok rows t ∧ ready t.prev ∧
      (rows = firstRows (sortOrder (keys.zip cols)) literal value L ↔ Fits literal value L.length) := by
  obtain ⟨t,run,still⟩ := sortedRowsRun restarts resolved found ordered enough known value
  exact ⟨_,t,run,still,limitedFits accepted natural rfl⟩

end Node

def oneColumn : List ColMeta := [⟨"t","a",.string,1,0⟩]

def oneTable : DbMeta := ⟨"d",[("t",⟨"t",oneColumn,[]⟩)]⟩

theorem backwardsRows : ∃ rows t, @sortedRows _ FloatOps.whole oneTable ["t"] (.new [⟨⟨"","a"⟩,.desc⟩] 2)
    (ofRows [[1],[3],[2]] 1 oneColumn) 5 ⟨[],[],0⟩ = .ok rows t ∧
    rows = firstRows (sortOrder [(⟨⟨"t","a"⟩,true⟩,⟨"t","a",.string,1,0⟩)]) (some "2") 2 [[1],[3],[2]] := by
  let _ := FloatOps.whole
  have restarts := @ofRowsRestarts [[1],[3],[2]] 1 oneColumn (by decide)
  have resolved : Planner.sortKeys oneTable ["t"] [⟨⟨"","a"⟩,.desc⟩] = .ok [⟨⟨"t","a"⟩,true⟩] := by decide +kernel
  have found : ([⟨⟨"t","a"⟩,true⟩].mapM fun key : SortKey => findColMeta oneColumn key.col) = .ok oneColumn := by rfl
  have accepted : Parser.optLimitClause (some "2") = .ok 2 := by decide +kernel
  obtain ⟨rows,t,run,_,correct⟩ := limitRows restarts resolved found (by decide) accepted (.inr (by decide))
    (by decide : 3 < 5) (trivial : True) (s := ⟨[],[],0⟩)
  exact ⟨rows,t,run,correct.mpr (.inr (.inl (by decide)))⟩

theorem largeLimitEmpty : Parser.optLimitClause (some "4294967296") = .ok 4294967296 ∧
    eval (@sortedRows _ FloatOps.whole oneTable ["t"] (.new [] 4294967296) (ofRows [[1]] 1 oneColumn) 5) ⟨[],[],0⟩ = .ok [] ∧
    [] ≠ firstRows (sortOrder []) (some "4294967296") 4294967296 [[1]] := by
  refine ⟨by decide +kernel,by decide +kernel,?_⟩
  rw [firstRows,if_neg (by decide),List.mergeSort_singleton]
  decide

end SortExecutor
end Rmdb
