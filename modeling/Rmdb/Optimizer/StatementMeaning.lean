import Rmdb.Lib.RigorousSchedule
import Rmdb.Optimizer.DmlMeaning
import Rmdb.Optimizer.SelectAnswer

/-! Statements as operations on the tables as bags: what each looks at, what it may change and what
it answers. -/
namespace Rmdb
open Lib Record Analyze Planner

inductive Ast.Stmt where
  | dml (x : DmlStmt)
  | select (x : Select)

abbrev Answer := Option (List String × Multiset (List Bytes))

/- The rows under a limit depend on their order, which the bags leave open. -/
def answerOf (x : Ast.Select) (captions : List String) (rows : Multiset (List Bytes)) : Answer :=
  if x.sort.limit < 0 then some (captions,rows) else none

section Meaning
variable [FloatOps] (floatText : UInt32 → Bytes) (db : DbMeta)

def selectedRows (x : Ast.Select) (query : Query) (bags : Bags) : Multiset (List Bytes) :=
  ((selections bags x.tabs).filter fun f => query.conds.all (passes (tabOf db) f)).map fun f =>
    query.cols.map (cellOf (tabOf db) f floatText)

def selectAnswer (x : Ast.Select) (bags : Bags) : Option Answer :=
  (made (doAnalyze db x)).map fun query =>
    answerOf x (query.cols.map fun c => c.colName) (selectedRows floatText db x query bags)

def stmtMeaning : Ast.Stmt → Bags → Option (Bags × Answer)
  | .dml x,bags => (dmlMeaning db x bags).map fun after => (after,none)
  | .select x,bags => (selectAnswer floatText db x bags).map fun answer => (bags,answer)

end Meaning

namespace Ast.Stmt

def touched : Ast.Stmt → Set String
  | .dml x => {x.tabName}
  | .select x => {t | t ∈ x.tabs}

def written : Ast.Stmt → Set String
  | .dml x => {x.tabName}
  | .select _ => ∅

end Ast.Stmt

section Operations
variable [FloatOps] {floatText : UInt32 → Bytes} {db : DbMeta} {stmt : Ast.Stmt} {σ τ σ' : Bags} {o : Answer}

theorem selectNear {x : Ast.Select} (same : ∀ t ∈ x.tabs, τ t = σ t) :
    selectAnswer floatText db x τ = selectAnswer floatText db x σ := by
  simp only [selectAnswer,selectedRows,selectionsCongr same]

theorem stmtFrame (run : stmtMeaning floatText db stmt σ = some (σ',o)) : ∀ t ∉ stmt.written, σ' t = σ t := by
  cases stmt with
  | dml x =>
    obtain ⟨bags,meant,same⟩ := Option.map_eq_some_iff.mp run
    obtain ⟨bag,_,rfl⟩ := Option.map_eq_some_iff.mp meant
    cases same
    exact fun t outside => Function.update_of_ne outside _ _
  | select x =>
    obtain ⟨answer,_,same⟩ := Option.map_eq_some_iff.mp run
    cases same
    exact fun t _ => rfl

theorem stmtNear (run : stmtMeaning floatText db stmt σ = some (σ',o)) (same : ∀ t ∈ stmt.touched, τ t = σ t) :
    ∃ τ', stmtMeaning floatText db stmt τ = some (τ',o) ∧ ∀ t ∈ stmt.written, τ' t = σ' t := by
  cases stmt with
  | dml x =>
    obtain ⟨bags,meant,whole⟩ := Option.map_eq_some_iff.mp run
    obtain ⟨bag,target,rfl⟩ := Option.map_eq_some_iff.mp meant
    cases whole
    refine ⟨Function.update τ x.tabName bag,?_,fun t mem => ?_⟩
    · rw [stmtMeaning,dmlMeaning,same x.tabName rfl,target]
      rfl
    · rw [show t = x.tabName from mem,Function.update_self,Function.update_self]
  | select x =>
    obtain ⟨answer,meant,whole⟩ := Option.map_eq_some_iff.mp run
    cases whole
    refine ⟨τ,?_,fun t mem => absurd mem (Set.notMem_empty t)⟩
    rw [stmtMeaning,selectNear same,meant]
    rfl

def stmtOps (floatText : UInt32 → Bytes) (db : DbMeta) :
    Schedule.Operations Ast.Stmt String (Multiset Bytes) Answer where
  touched := Ast.Stmt.touched
  written := Ast.Stmt.written
  run := stmtMeaning floatText db
  part stmt := by
    cases stmt with
    | dml => exact subset_rfl
    | select => exact Set.empty_subset _
  frame := stmtFrame
  near := stmtNear

end Operations

/- What is asked of a statement: the tables of a `SELECT` are different ones, its sort node is as the
parser makes it, and columns that are compared have types that compare. -/
def Regular [FloatOps] (db : DbMeta) : Ast.Stmt → Prop
  | .dml x => TypesCompareIn db x
  | .select x => x.tabs ≠ [] ∧ x.tabs.Nodup ∧ (∃ orders value, x.sort = .new orders value) ∧
      ∀ query, doAnalyze db x = .ok query → ∀ cond ∈ query.conds, TypesCompare (tabOf db) cond

section Answers
variable [FloatOps] {floatText : UInt32 → Bytes} {s : TransactionManager} {x : Ast.Select} {methods : JoinMethods}
  {a : List String × List (List Bytes)}

theorem answered {fuel : Nat} (shown : QlManager.select floatText s.smManager methods x fuel = .ok a) :
    ∃ query, doAnalyze s.smManager.db x = .ok query ∧ ∀ t ∈ x.tabs, ∃ tab, s.smManager.db.getTable t = .ok tab := by
  obtain ⟨query,analyzed,_⟩ := exceptBind shown
  obtain ⟨_,listed,_⟩ := exceptBind analyzed
  exact ⟨query,analyzed,mapMAll listed⟩

omit [FloatOps] in
theorem plainTables (agreed : s.smManager.Agreed) (plain : Plain s.smManager) {ts : List String}
    (listed : ∀ t ∈ ts, ∃ tab, s.smManager.db.getTable t = .ok tab) (some : ts ≠ []) :
    ∃ fh : String → RmFileHandle, ∀ t ∈ ts, Usable s.smManager t (tabOf s.smManager.db t) (fh t) := by
  have each : ∀ t ∈ ts, ∃ fh, Usable s.smManager t (tabOf s.smManager.db t) fh := fun t mem => by
    obtain ⟨tab,here⟩ := listed t mem
    exact plainUsable agreed plain here
  obtain ⟨t,mem⟩ := List.exists_mem_of_ne_nil ts some
  have : Nonempty RmFileHandle := ⟨(each t mem).choose⟩
  choose! fh usable using each
  exact ⟨fh,usable⟩

theorem planCovers {query : Query} {plan : Plan} (agreed : s.smManager.Agreed) (plain : Plain s.smManager)
    (regular : Regular s.smManager.db (.select x)) (analyzed : doAnalyze s.smManager.db x = .ok query)
    (made : makeOneRel s.smManager.db methods query.tables query.conds = .ok plan) : plan.tables.Perm x.tabs := by
  obtain ⟨some,once,_,compare⟩ := regular
  obtain ⟨_,listed,_⟩ := exceptBind analyzed
  obtain ⟨fh,usable⟩ := plainTables agreed plain (mapMAll listed) some
  obtain ⟨t,ts,tables⟩ := List.exists_cons_of_ne_nil some
  obtain ⟨same,_,checked⟩ := analyzedColumns usable analyzed
  rw [same] at made
  rw [tables] at made usable once checked ⊢
  have sane := acceptedSane usable checked (compare query analyzed)
  by_cases on : methods.enableNestedloopJoin = true ∨ methods.enableSortmergeJoin = true
  · obtain ⟨_,_,plan',made',planned⟩ := makeOneRelPlanned on usable once sane
    rw [Except.ok.inj (made.symm.trans made')]
    exact planned.joins.perm
  · have free : ({} : JoinMethods).enableNestedloopJoin = true ∨ ({} : JoinMethods).enableSortmergeJoin = true := .inl rfl
    obtain ⟨_,_,plan',made',planned⟩ := makeOneRelPlanned free usable once sane
    rw [Except.ok.inj ((makeOneRelOff on made).symm.trans made')]
    exact planned.joins.perm

theorem selectMeant (agreed : s.smManager.Agreed) (plain : Plain s.smManager) (regular : Regular s.smManager.db (.select x))
    (answers : ∃ enough, ∀ fuel, enough ≤ fuel → QlManager.select floatText s.smManager methods x fuel = .ok a) :
    selectAnswer floatText s.smManager.db x (bagsOf s.smManager) = some (answerOf x a.1 a.2) := by
  obtain ⟨some,once,⟨orders,value,sorted⟩,compare⟩ := regular
  obtain ⟨query,analyzed,listed⟩ := answered (answers.choose_spec _ (le_refl _))
  obtain ⟨fh,usable⟩ := plainTables agreed plain listed some
  have noFloat : ∀ t ∈ x.tabs, ∀ col ∈ (tabOf s.smManager.db t).cols, col.type ≠ .float := fun t mem => by
    obtain ⟨tab,here⟩ := listed t mem
    rw [tabOf,here]
    exact (plain t tab here).2.1
  obtain ⟨keys,fs,perm,rfl⟩ := selectRight some usable noFloat once analyzed (compare query analyzed) sorted answers
  have rows : selections (bagsOf s.smManager) x.tabs = (assignments (rowsOf fh) x.tabs : Multiset (String → Bytes)) := by
    rw [← selectionsRows]
    refine selectionsCongr fun t mem => ?_
    rw [bagsOf,(usable t mem).table.handle,rowsOf]
  rw [selectAnswer,analyzed,made,Option.map_some,answerOf,answerOf]
  refine congrArg Option.some (ite_congr rfl (fun free => congrArg _ (congrArg _ ?_)) fun _ => rfl)
  have limit : narrow value < 0 := by rwa [sorted] at free
  rw [selectedRows,rows,Multiset.filter_coe,Multiset.map_coe,upTo,if_pos limit,Multiset.coe_eq_coe]
  have shown := (List.mergeSort_perm fs (orderedBy (tabOf s.smManager.db) keys)).trans perm
  rw [choices] at shown
  simp only [Bool.decide_eq_true]
  exact (shown.map fun f => query.cols.map (cellOf (tabOf s.smManager.db) f floatText)).symm

end Answers
end Rmdb
