import Rmdb.Optimizer.StatementMeaning
import Rmdb.Transaction.SelectLocks

/-! Transactions of any number of sessions, statement by statement: the committed ones have done what
they do one after the other in the order of their commits, whatever the others do in between. -/
namespace Rmdb
open Lib Record Index Recovery TransactionManager Analyze Planner
open Sessions (HoldsX)

structure Service where
  database : Database
  -- what a transaction has run and was answered, `none` once a failed statement has left something behind
  work : Int → Option (List (Ast.Stmt × Answer))
  history : List (Int × Option (List (Ast.Stmt × Answer)))

namespace Service

def mgr (s : Service) : TransactionManager := s.database.mgr

def sm (s : Service) : SmManager := s.database.mgr.smManager

def fdOf (s : Service) : String → Int := s.database.fdOf

def moved (s : Service) (m : TransactionManager) : Database := {s.database with mgr := m}

section Steps
variable [FloatOps] (floatText : UInt32 → Bytes)

/- How a statement of `t` ends. The loops of a `SELECT` have as much fuel as they need. -/
inductive Ends (fdOf : String → Int) (t : Int) (s : TransactionManager) :
    Ast.Stmt → Except Fault Answer → TransactionManager → Prop where
  | modified {x : Ast.DmlStmt} {s' : TransactionManager} (run : QlManager.modify fdOf t x s = .ok () s') :
      Ends fdOf t s (.dml x) (.ok none) s'
  | modifyFails {x : Ast.DmlStmt} {e : Fault} {s' : TransactionManager} (run : QlManager.modify fdOf t x s = .error e s') :
      Ends fdOf t s (.dml x) (.error e) s'
  | selected {x : Ast.Select} {methods : JoinMethods} {s' : TransactionManager} {a : List String × List (List Bytes)}
      (locks : QlManager.lockSelect fdOf t methods x s = .ok () s')
      (answers : ∃ enough, ∀ fuel, enough ≤ fuel → QlManager.select floatText s'.smManager methods x fuel = .ok a) :
      Ends fdOf t s (.select x) (.ok (answerOf x a.1 a.2)) s'
  | lockFails {x : Ast.Select} {methods : JoinMethods} {e : Fault} {s' : TransactionManager}
      (locks : QlManager.lockSelect fdOf t methods x s = .error e s') : Ends fdOf t s (.select x) (.error e) s'
  | selectFails {x : Ast.Select} {methods : JoinMethods} {e : Fault} {s' : TransactionManager}
      (locks : QlManager.lockSelect fdOf t methods x s = .ok () s')
      (fails : ∃ enough, ∀ fuel, enough ≤ fuel → QlManager.select floatText s'.smManager methods x fuel = .error e) :
      Ends fdOf t s (.select x) (.error e) s'

inductive Step : Service → Service → Prop where
  | begin {s : Service} :
      Step s ⟨s.moved (after (begin none s.mgr)),Function.update s.work s.mgr.nextTxnId (some []),s.history⟩
  | ran {s : Service} {t : Int} {stmt : Ast.Stmt} {a : Answer} {m : TransactionManager} (live : s.mgr.Live t)
      (ends : Ends floatText s.fdOf t s.mgr stmt (.ok a) m) :
      Step s ⟨s.moved m,Function.update s.work t ((s.work t).map (· ++ [(stmt,a)])),s.history⟩
  | refused {s : Service} {t : Int} {stmt : Ast.Stmt} {e : Fault} {m : TransactionManager} (live : s.mgr.Live t)
      (ends : Ends floatText s.fdOf t s.mgr stmt (.error e) m) (clean : m.writesOf t = s.mgr.writesOf t) :
      Step s ⟨s.moved m,s.work,s.history⟩
  | failed {s : Service} {t : Int} {stmt : Ast.Stmt} {e : Fault} {m : TransactionManager} (live : s.mgr.Live t)
      (ends : Ends floatText s.fdOf t s.mgr stmt (.error e) m) (dirty : m.writesOf t ≠ s.mgr.writesOf t) :
      Step s ⟨s.moved m,Function.update s.work t none,s.history⟩
  | commit {s : Service} {t : Int} {order : List LockDataId} (live : s.mgr.Live t) (reads : s.mgr.Reads t order) :
      Step s ⟨s.moved (after (commit t order s.mgr)),s.work,s.history ++ [(t,s.work t)]⟩
  | abort {s : Service} {t : Int} {order : List LockDataId} (live : s.mgr.Live t) (reads : s.mgr.Reads t order) :
      Step s ⟨s.moved (after (abort t order s.mgr)),s.work,s.history⟩

end Steps

abbrev Shadow := Schedule.State Int Ast.Stmt String (Multiset Bytes) Answer

abbrev ShadowTxn := Schedule.Txn Ast.Stmt String Answer

structure Mine [FloatOps] (db : DbMeta) (s : Service) (t : Int) (x : ShadowTxn) (before : Bags) : Prop where
  work : ∀ work, s.work t = some work → (∀ e ∈ work, Regular db e.1) → x.work = some work
  wrote : ∀ k ∈ x.wrote, HoldsX s.mgr t (s.fdOf k)
  saw : ∀ k ∈ x.saw, Asked s.mgr t (.onTable (s.fdOf k))
  named : ∀ ws, s.mgr.writesOf t = some ws → ∀ w ∈ ws, w.tabName ∈ x.wrote
  back : ∀ ws, s.mgr.writesOf t = some ws → ∀ k ∈ x.wrote, IsBag (tableOf (undoneAll ws.reverse (contents s.sm)) k) (before k)

structure Shows [FloatOps] (db : DbMeta) (s : Service) (a : Shadow) : Prop where
  store : a.store = bagsOf s.sm
  live : ∀ t, s.mgr.Live t ↔ ∃ x, a.live t = some x
  mine : ∀ t x, a.live t = some x → Mine db s t x (a.before t)
  history : s.history = a.history.map fun e => (e.1,some e.2)

structure Sound (db : DbMeta) (s : Service) : Prop where
  inv : s.database.Inv
  undoable : ∀ t, s.mgr.Live t → s.database.Undoable t
  plain : Plain s.sm
  db : s.sm.db = db

structure Started (s : Service) : Prop where
  database : s.database.Started
  plain : Plain s.sm
  history : s.history = []

section Frames
variable {s : Service} {t u : Int} {m : TransactionManager} {ws new : List WriteRecord} {c c' : Contents} {k : String}
  {work : Int → Option (List (Ast.Stmt × Answer))} {history : List (Int × Option (List (Ast.Stmt × Answer)))}

variable [FloatOps] {db : DbMeta} {y : ShadowTxn} {before : Bags}

theorem Mine.aside (mine : Mine db s u y before) (same : work u = s.work u)
    (holds : ∀ fd, HoldsX s.mgr u fd → HoldsX m u fd) (asked : ∀ id, Asked s.mgr u id → Asked m u id)
    (writes : m.writesOf u = s.mgr.writesOf u)
    (rows : ∀ k ∈ y.wrote, tableOf (contents m.smManager) k = tableOf (contents s.sm) k) :
    Mine db ⟨s.moved m,work,history⟩ u y before := by
  refine ⟨fun ran noted => mine.work ran (same.symm.trans noted),fun k mem => holds _ (mine.wrote k mem),
    fun k mem => asked _ (mine.saw k mem),fun ws written => mine.named ws (writes.symm.trans written),fun ws written k mem => ?_⟩
  have written : s.mgr.writesOf u = some ws := writes.symm.trans written
  have back := mine.back ws written k mem
  rwa [← Database.undoneAllRows (rows k mem) fun w inside => rows _ (mine.named ws written w (List.mem_reverse.mp inside))] at back

end Frames

section Act
variable [FloatOps] {s : Service} {a : Shadow} {x : ShadowTxn} {db : DbMeta} {t : Int} {m : TransactionManager} {k : String}
  {looks writes : Set String} {done : Option (Ast.Stmt × Answer)} {new : List WriteRecord} {floatText : UInt32 → Bytes}
  {ran : Option (List (Ast.Stmt × Answer))}

structure Acted (s : Service) (t : Int) (k : String) (new : List WriteRecord) (looks writes : Set String)
    (m : TransactionManager) : Prop where
  did : Did s.mgr m t k new
  kept : LocksKept s.mgr m t
  asked : ∀ u id, Asked s.mgr u id → Asked m u id
  looked : ∀ u ∈ looks, Asked m t (.onTable (s.fdOf u))
  wrote : ∀ u ∈ writes, HoldsX m t (s.fdOf u)
  inside : new ≠ [] → k ∈ writes

omit [FloatOps] in
theorem Acted.rows (acted : Acted s t k new looks writes m) {u : String} (outside : u ∉ writes) :
    tableOf (contents m.smManager) u = tableOf (contents s.sm) u := by
  refine Database.didOthers acted.did ?_
  by_cases none : new = []
  · exact .inl none
  · exact .inr fun same => outside (same ▸ acted.inside none)

theorem Acted.clear (acted : Acted s t k new looks writes m) (shown : Shows db s a) : a.Clear t looks writes := by
  intro u y other live
  have mine := shown.mine u y live
  refine ⟨Set.disjoint_left.mpr fun v look wrote => other ?_,Set.disjoint_left.mpr fun v write saw => other ?_⟩
  · exact holdsAlone acted.kept.safe (acted.kept.holds u _ (mine.wrote v wrote)) (acted.looked v look)
  · exact (holdsAlone acted.kept.safe (acted.wrote v write) (acted.asked u _ (mine.saw v saw))).symm

open scoped Classical in
theorem Acted.shown (acted : Acted s t k new looks writes m) (shown : Shows db s a) (active : a.live t = some x)
    (is : Schedule.Ran (stmtOps floatText db) looks writes done a.store (bagsOf m.smManager))
    (noted : ∀ work, ran = some work → (∀ e ∈ work, Regular db e.1) → (x.grown looks writes done).work = some work) :
    Shows db ⟨s.moved m,Function.update s.work t ran,s.history⟩ (a.did t x looks writes done (bagsOf m.smManager)) := by
  have mine := shown.mine t x active
  have clear := acted.clear shown
  have writesOf := acted.did.writes
  refine ⟨rfl,fun u => ?_,fun u y live => ?_,shown.history⟩
  · by_cases own : u = t
    · subst own
      exact iff_of_true acted.kept.live ⟨_,Function.update_self ..⟩
    · rw [Schedule.State.did]
      dsimp only
      rw [Function.update_of_ne own,← shown.live u]
      have same := acted.kept.others u own
      exact ⟨fun live => live.same same.symm,fun live => live.same same⟩
  · rcases Schedule.updateCases live with ⟨rfl,grown⟩ | ⟨other,old⟩
    · cases Option.some.inj grown
      rw [show (a.did u x looks writes done (bagsOf m.smManager)).before u = x.wrote.piecewise (a.before u) a.store from
        Function.update_self ..]
      have split {ws : List WriteRecord} (written : m.writesOf u = some ws) :
          ∃ old, s.mgr.writesOf u = some old ∧ old ++ new = ws := by
        rw [writesOf,Function.update_self] at written
        exact Option.map_eq_some_iff.mp written
      refine ⟨fun work same => noted work ((Function.update_self u ran s.work).symm.trans same),fun v mem => ?_,fun v mem => ?_,
        fun ws written w mem => ?_,fun ws written v _ => ?_⟩
      · exact mem.elim (fun old => acted.kept.holds u _ (mine.wrote v old)) (acted.wrote v)
      · exact mem.elim (fun old => acted.asked u _ (mine.saw v old)) (acted.looked v)
      · obtain ⟨old,before,rfl⟩ := split written
        rcases List.mem_append.mp mem with mem | mem
        · exact .inl (mine.named old before w mem)
        · exact .inr (acted.did.there w mem ▸ acted.inside (List.ne_nil_of_mem mem))
      · obtain ⟨old,before,rfl⟩ := split written
        have undone : undoneAll new.reverse (contents m.smManager) = contents s.sm := acted.did.undone
        rw [show (Service.sm ⟨s.moved m,Function.update s.work u ran,s.history⟩) = m.smManager from rfl,List.reverse_append,
          undoneAppend,undone]
        by_cases earlier : v ∈ x.wrote
        · rw [Set.piecewise_eq_of_mem _ _ _ earlier]
          exact mine.back old before v earlier
        · have away : ∀ w ∈ old.reverse, w.tabName ≠ v := fun w inside same =>
            earlier (same ▸ mine.named old before w (List.mem_reverse.mp inside))
          rw [Set.piecewise_eq_of_notMem _ _ _ earlier,Database.undoneAllOther away,shown.store]
          exact bagsIs s.sm v
    · have theirs := shown.mine u y old
      rw [show (a.did t x looks writes done (bagsOf m.smManager)).before u = a.before u from Function.update_of_ne other ..]
      refine theirs.aside (Function.update_of_ne other ..) (acted.kept.holds u) (acted.asked u) ?_ fun v wrote => ?_
      · rw [writesOf,Function.update_of_ne other]
      · refine acted.rows fun write => ?_
        exact Set.disjoint_left.mp (clear u y other old).1 (is.part write) wrote

theorem Ends.outcome {stmt : Ast.Stmt} {r : Except Fault Answer} (sound : Sound db s) (live : s.mgr.Live t)
    (ends : Ends floatText s.fdOf t s.mgr stmt r m) :
    ∃ k, Dml.Outcome s.fdOf s.mgr t k m ∧ ∀ u id, Asked s.mgr u id → Asked m u id := by
  have agreed : s.mgr.smManager.Agreed := sound.inv.sound.agreed
  have modifies (x : Ast.DmlStmt) : after (QlManager.modify s.fdOf t x s.mgr) = m →
      ∃ k, Dml.Outcome s.fdOf s.mgr t k m ∧ ∀ u id, Asked s.mgr u id → Asked m u id := by
    rintro rfl
    exact ⟨_,modifyOutcome x sound.inv.safe live agreed,askedModify x s.mgr⟩
  have locks (methods : JoinMethods) (x : Ast.Select) : after (QlManager.lockSelect s.fdOf t methods x s.mgr) = m →
      ∃ k, Dml.Outcome s.fdOf s.mgr t k m ∧ ∀ u id, Asked s.mgr u id → Asked m u id := by
    rintro rfl
    have grows := (@lockSelectGrows s.mgr t s.fdOf _ methods x sound.inv.safe live).1
    exact ⟨"",.nothing agreed grows.aside grows.kept,grows.asked⟩
  cases ends with
  | modified run => exact modifies _ (congrArg after run)
  | modifyFails run => exact modifies _ (congrArg after run)
  | selected run => exact locks _ _ (congrArg after run)
  | lockFails run => exact locks _ _ (congrArg after run)
  | selectFails run => exact locks _ _ (congrArg after run)

theorem Ends.spoils {stmt : Ast.Stmt} {r : Except Fault Answer} (sound : Sound db s) (live : s.mgr.Live t)
    (ends : Ends floatText s.fdOf t s.mgr stmt r m) : ∃ k new writes, Acted s t k new writes writes m ∧
      Schedule.Ran (stmtOps floatText db) writes writes none (bagsOf s.sm) (bagsOf m.smManager) := by
  obtain ⟨k,⟨⟨new,did,locked⟩,kept⟩,asked⟩ := ends.outcome sound live
  have acted : Acted s t k new {u | new ≠ [] ∧ u = k} {u | new ≠ [] ∧ u = k} m := by
    have wrote : ∀ u ∈ {u | new ≠ [] ∧ u = k}, HoldsX m t (s.fdOf u) := by
      rintro u ⟨some,rfl⟩
      exact locked some
    exact ⟨did,kept,asked,fun u mem => holdsAsked (wrote u mem),wrote,fun some => ⟨some,rfl⟩⟩
  exact ⟨k,new,_,acted,subset_rfl,fun u outside => bagsSame (acted.rows outside),fun _ _ same => by cases same⟩

theorem Ends.counts {stmt : Ast.Stmt} {o : Answer} (sound : Sound db s) (live : s.mgr.Live t) (regular : Regular db stmt)
    (ends : Ends floatText s.fdOf t s.mgr stmt (.ok o) m) : ∃ k new, Acted s t k new stmt.touched stmt.written m ∧
      Schedule.Ran (stmtOps floatText db) stmt.touched stmt.written (some (stmt,o)) (bagsOf s.sm) (bagsOf m.smManager) := by
  have safe := sound.inv.safe
  have agreed : s.mgr.smManager.Agreed := sound.inv.sound.agreed
  have sameDb : s.mgr.smManager.db = db := sound.db
  cases ends with
  | @modified x _ run =>
    have outcome := @modifyOutcome s.mgr t s.fdOf _ x safe live agreed
    have keeps := @askedModify t s.fdOf _ x s.mgr
    have ends := @modifyEnds s.mgr t s.fdOf _ x safe live agreed sound.plain (sameDb.symm ▸ regular)
    rw [run] at outcome keeps ends
    obtain ⟨⟨new,did,_⟩,kept⟩ := outcome
    cases ends with
    | done meant bags holds =>
      have whole : stmtMeaning floatText db (.dml x) (bagsOf s.sm) = some (bagsOf m.smManager,none) := by
        rw [stmtMeaning,dmlMeaning,← sameDb,show s.sm = s.mgr.smManager from rfl,meant,bags]
        rfl
      refine ⟨x.tabName,new,⟨did,kept,keeps,?_,?_,fun _ => rfl⟩,subset_rfl,stmtFrame whole,fun a o same => ?_⟩
      · rintro u rfl
        exact holdsAsked holds
      · rintro u rfl
        exact holds
      · cases same
        exact ⟨whole,rfl,rfl⟩
  | @selected x methods _ a run answers =>
    obtain ⟨grows,covers⟩ := @lockSelectGrows s.mgr t s.fdOf _ methods x safe live
    rw [run] at grows
    obtain ⟨query,plan,analyzed,made,asked⟩ := covers m run
    have perm := planCovers agreed sound.plain (sameDb.symm ▸ regular) analyzed made
    have same : m.smManager = s.mgr.smManager := grows.aside.sm
    have meant : selectAnswer floatText db x (bagsOf s.sm) = some (answerOf x a.1 a.2) := by
      have here := @selectMeant _ floatText m x methods a (same ▸ agreed) (same ▸ sound.plain) (by rw [same,sameDb]; exact regular)
        answers
      rw [same,sameDb] at here
      exact here
    have whole : stmtMeaning floatText db (.select x) (bagsOf s.sm) = some (bagsOf m.smManager,answerOf x a.1 a.2) := by
      rw [stmtMeaning,meant,same]
      rfl
    have did : Did s.mgr m t "" [] := ⟨(Led.refl agreed).after grows.aside,by simp⟩
    refine ⟨"",[],⟨did,grows.kept,grows.asked,?_,?_,fun some => absurd rfl some⟩,Set.empty_subset _,stmtFrame whole,
      fun a o same => ?_⟩
    · exact fun u mem => asked u (perm.mem_iff.mpr mem)
    · exact fun u mem => absurd mem (Set.notMem_empty u)
    · cases same
      exact ⟨whole,rfl,rfl⟩

end Act

section Runs
variable [FloatOps] {s s' : Service} {a : Shadow} {db : DbMeta} {t : Int} {m : TransactionManager} {floatText : UInt32 → Bytes}
  {order : List LockDataId} {ran : List (Ast.Stmt × Answer)} {work : Int → Option (List (Ast.Stmt × Answer))}
  {history : List (Int × Option (List (Ast.Stmt × Answer)))}

omit [FloatOps] in
theorem Sound.turn (sound : Sound db s) (turn : s.database.Turn .begin (s.moved m)) (same : s.sm.SameTables m.smManager) :
    Sound db ⟨s.moved m,work,history⟩ := by
  refine ⟨turn.inv sound.inv,fun t live ws written => ?_,fun t tab listed => ?_,same.db.trans sound.db⟩
  · have spares : s.database.Spares .begin := trivial
    exact (turn.carried t ws live written).undoable sound.inv sound.undoable spares
  · have listed : s.sm.db.getTable t = .ok tab := same.db ▸ listed
    obtain ⟨shaped,noFloat,size⟩ := sound.plain t tab listed
    refine ⟨shaped,noFloat,fun fh there => ?_⟩
    have files := same.files t
    rw [show m.smManager.fhs t = some fh from there] at files
    generalize here : s.sm.fhs t = x at files
    cases files with
    | some extended => exact extended.recordSize.trans (size _ here)

structure RolledBack (s : Service) (t : Int) (ws : List WriteRecord) (m : TransactionManager) : Prop where
  written : s.mgr.writesOf t = some ws
  turn : s.database.Turn .begin (s.moved m)
  same : s.sm.SameTables m.smManager
  undone : contents m.smManager = undoneAll ws.reverse (contents s.sm)
  writes : m.writesOf = Function.update s.mgr.writesOf t (some [])
  gone : ¬m.Live t

omit [FloatOps] in
theorem Sound.rollsBack (sound : Sound db s) (live : s.mgr.Live t) (reads : s.mgr.Reads t order) :
    ∃ ws m, abort t order s.mgr = .ok () m ∧ RolledBack s t ws m := by
  have undoable := sound.undoable t live
  obtain ⟨m,run,_,turn⟩ := @Database.abortTurn s.database t order .begin sound.inv live reads undoable
  obtain ⟨txn,found,alive⟩ := live
  have written : s.mgr.writesOf t = some txn.writeSet := by
    rw [writesOf,found,Option.map_some]
  have own := sound.inv.own t _ ⟨txn,found,alive⟩ written
  obtain ⟨m',txn',run',last,state,_,_,_,_,_,back,same,writes⟩ := abortRestores sound.inv.safe reads found alive
    sound.inv.sound.agreed own.traced (undoable _ written)
  cases run.symm.trans run'
  refine ⟨_,m,run,written,turn,same,back,writes,?_⟩
  rintro ⟨txn'',found'',active⟩
  obtain rfl := Option.some.inj (last.symm.trans found'')
  rw [state] at active
  cases active

theorem Sound.step (sound : Sound db s) (step : Step floatText s s') : Sound db s' := by
  cases step with
  | begin =>
    obtain ⟨m,run,_,sm,_⟩ := beginFresh s.mgr
    refine sound.turn (Database.beginTurn sound.inv) ?_
    rw [run,show (after (EStateM.Result.ok s.mgr.nextTxnId m)).smManager = s.sm from sm]
    exact .refl _
  | ran live ends =>
    obtain ⟨k,outcome,_⟩ := ends.outcome sound live
    obtain ⟨_,did,_⟩ := outcome.did
    exact sound.turn (Database.worksTurn sound.inv live outcome) did.same
  | refused live ends =>
    obtain ⟨k,outcome,_⟩ := ends.outcome sound live
    obtain ⟨_,did,_⟩ := outcome.did
    exact sound.turn (Database.worksTurn sound.inv live outcome) did.same
  | failed live ends =>
    obtain ⟨k,outcome,_⟩ := ends.outcome sound live
    obtain ⟨_,did,_⟩ := outcome.did
    exact sound.turn (Database.worksTurn sound.inv live outcome) did.same
  | @commit t order live reads =>
    refine sound.turn (Database.commitTurn sound.inv reads) ?_
    rw [(@Database.commitAside t order s.mgr).1]
    exact .refl _
  | abort live reads =>
    obtain ⟨ws,m,run,back⟩ := sound.rollsBack live reads
    rw [run]
    exact sound.turn back.turn back.same

theorem Shows.begins (sound : Sound db s) (shown : Shows db s a) : ∃ b, Schedule.Step (stmtOps floatText db) a b ∧
    Shows db ⟨s.moved (after (begin none s.mgr)),Function.update s.work s.mgr.nextTxnId (some []),s.history⟩ b := by
  obtain ⟨m,run,same,sm,writes⟩ := beginFresh s.mgr
  have fresh : a.live s.mgr.nextTxnId = none := by
    by_contra some
    obtain ⟨x,active⟩ := Option.ne_none_iff_exists'.mp some
    obtain ⟨txn,found,_⟩ := (shown.live _).mpr ⟨x,active⟩
    exact absurd (sound.inv.safe.named _ txn found).2 (lt_irrefl _)
  have moved : after (begin none s.mgr) = m := congrArg after run
  refine ⟨_,.begin fresh,?_⟩
  rw [moved]
  refine ⟨shown.store.trans (congrArg bagsOf sm.symm),fun u => ?_,fun u y live => ?_,shown.history⟩
  · have view := same.txns u
    by_cases own : u = s.mgr.nextTxnId
    · subst own
      simp only [TransactionManager.addTxn,Function.update_self,Option.map_some] at view
      obtain ⟨txn,found,state⟩ := Option.map_eq_some_iff.mp view
      exact iff_of_true ⟨txn,found,by rw [viewState state]; rfl⟩ ⟨_,Function.update_self ..⟩
    · dsimp only
      simp only [TransactionManager.addTxn,Function.update_of_ne own] at view
      rw [Function.update_of_ne own,← shown.live u]
      exact ⟨fun live => live.same view.symm,fun live => live.same view⟩
  · rcases Schedule.updateCases live with ⟨rfl,new⟩ | ⟨other,old⟩
    · cases Option.some.inj new
      have none : m.writesOf s.mgr.nextTxnId = some [] := by rw [writes,Function.update_self]
      refine ⟨fun work noted _ => (Function.update_self _ _ s.work).symm.trans noted,fun k mem => mem.elim,fun k mem => mem.elim,
        fun ws written w mem => ?_,fun ws written k mem => mem.elim⟩
      cases none.symm.trans written
      cases mem
    · refine (shown.mine u y old).aside (Function.update_of_ne other ..) (fun fd holds => ?_) (fun id asked => ?_) ?_ fun k _ => ?_
      · exact @HoldsX.same u s.mgr.addTxn m fd holds same
      · rw [Asked,same.table]
        exact asked
      · rw [writes,Function.update_of_ne other]
      · rw [sm]
        rfl

theorem Shows.refused {stmt : Ast.Stmt} {r : Except Fault Answer} (sound : Sound db s) (shown : Shows db s a) (live : s.mgr.Live t)
    (ends : Ends floatText s.fdOf t s.mgr stmt r m) (clean : m.writesOf t = s.mgr.writesOf t) :
    Shows db ⟨s.moved m,s.work,s.history⟩ a := by
  obtain ⟨k,⟨⟨new,did,_⟩,kept⟩,asked⟩ := ends.outcome sound live
  have none : new = [] := by
    obtain ⟨txn,found,_⟩ := live
    have written : s.mgr.writesOf t = some txn.writeSet := by rw [writesOf,found,Option.map_some]
    rw [did.writes,Function.update_self,written,Option.map_some] at clean
    exact List.append_right_eq_self.mp (Option.some.inj clean)
  have rows (v : String) : tableOf (contents m.smManager) v = tableOf (contents s.sm) v := Database.didOthers did (.inl none)
  refine ⟨shown.store.trans (funext fun v => (bagsSame (rows v)).symm),fun u => ?_,fun u y active => ?_,shown.history⟩
  · rw [← shown.live u]
    by_cases own : u = t
    · subst own
      exact iff_of_true kept.live live
    · exact ⟨fun live => live.same (kept.others u own).symm,fun live => live.same (kept.others u own)⟩
  · refine (shown.mine u y active).aside rfl (kept.holds u) (asked u) ?_ fun v _ => rows v
    rw [did.writes]
    by_cases own : u = t
    · rw [own,Function.update_self,none]
      simp
    · rw [Function.update_of_ne own]

structure Left (s : Service) (t : Int) (m : TransactionManager) : Prop where
  safe : m.Safe
  gone : ¬m.Live t
  others : ∀ u ≠ t, (m.txnMap u).map locksOf = (s.mgr.txnMap u).map locksOf
  holds : ∀ u ≠ t, ∀ fd, HoldsX s.mgr u fd → HoldsX m u fd
  writes : ∀ u ≠ t, m.writesOf u = s.mgr.writesOf u

theorem Left.shown {b : Shadow} (left : Left s t m) (sound : Sound db s) (shown : Shows db s a)
    (store : b.store = bagsOf m.smManager) (live : b.live = Function.update a.live t none) (before : b.before = a.before)
    (listed : history = b.history.map fun e => (e.1,some e.2))
    (rows : ∀ u y, u ≠ t → a.live u = some y → ∀ k ∈ y.wrote, tableOf (contents m.smManager) k = tableOf (contents s.sm) k) :
    Shows db ⟨s.moved m,s.work,history⟩ b := by
  refine ⟨store,fun u => ?_,fun u y active => ?_,listed⟩
  · rw [live]
    by_cases own : u = t
    · subst own
      rw [Function.update_self]
      exact iff_of_false left.gone fun some => by cases some.choose_spec
    · rw [Function.update_of_ne own,← shown.live u]
      exact ⟨fun live => live.same (left.others u own).symm,fun live => live.same (left.others u own)⟩
  · rw [live] at active
    rw [before]
    obtain ⟨other,old⟩ := (Schedule.updateCases active).resolve_left fun gone => by cases gone.2
    exact (shown.mine u y old).aside rfl (left.holds u other)
      (fun id => askedOther sound.inv.safe left.safe (left.others u other)) (left.writes u other) (rows u y other old)

def Counts (db : DbMeta) (work : Option (List (Ast.Stmt × Answer))) : Prop :=
  ∃ done, work = some done ∧ ∀ e ∈ done, Regular db e.1

theorem Shows.commits (sound : Sound db s) (shown : Shows db s a) (live : s.mgr.Live t) (reads : s.mgr.Reads t order)
    (counts : Counts db (s.work t)) : ∃ b, Schedule.Step (stmtOps floatText db) a b ∧
      Shows db ⟨s.moved (after (commit t order s.mgr)),s.work,s.history ++ [(t,s.work t)]⟩ b := by
  obtain ⟨done,noted,regular⟩ := counts
  obtain ⟨x,active⟩ := (shown.live t).mp live
  have mine := shown.mine t x active
  refine ⟨_,.commit active (mine.work done noted regular),?_⟩
  obtain ⟨m,txn,run,safe,found,past,_⟩ := commitRun sound.inv.safe reads
  have aside := @Database.commitAside t order s.mgr
  have others := onlyCommit (t := t) order s.mgr
  have holds := fun u fd (apart : u ≠ t) => @Database.commitX t u fd order apart s.mgr sound.inv.safe
  have moved : after (commit t order s.mgr) = m := congrArg after run
  rw [moved] at aside others holds ⊢
  have gone : ¬m.Live t := by
    rintro ⟨txn',found',alive⟩
    obtain rfl := Option.some.inj (found.symm.trans found')
    rw [past] at alive
    cases alive
  have left : Left s t m := ⟨safe,gone,others,fun u apart fd => holds u fd apart,aside.2⟩
  refine left.shown sound shown (shown.store.trans (congrArg bagsOf aside.1.symm)) rfl rfl ?_ fun u y _ _ k _ => ?_
  · rw [shown.history,noted,List.map_append]
    rfl
  · rw [aside.1]
    rfl

open scoped Classical in
theorem Shows.aborts (sound : Sound db s) (shown : Shows db s a) (live : s.mgr.Live t) (reads : s.mgr.Reads t order) :
    ∃ b, Schedule.Step (stmtOps floatText db) a b ∧ Shows db ⟨s.moved (after (abort t order s.mgr)),s.work,s.history⟩ b := by
  obtain ⟨x,active⟩ := (shown.live t).mp live
  have mine := shown.mine t x active
  refine ⟨_,.abort active,?_⟩
  obtain ⟨ws,m,run,back⟩ := sound.rollsBack live reads
  have others := onlyAbort (t := t) order s.mgr
  have holds := fun u fd (apart : u ≠ t) => @Database.abortX t u fd order apart s.mgr sound.inv.safe
  have moved : after (abort t order s.mgr) = m := congrArg after run
  rw [moved] at others holds ⊢
  have left : Left s t m := by
    refine ⟨back.turn.safe,back.gone,others,fun u apart fd => holds u fd apart,fun u apart => ?_⟩
    rw [back.writes,Function.update_of_ne apart]
  have away {k : String} (none : k ∉ x.wrote) : tableOf (contents m.smManager) k = tableOf (contents s.sm) k := by
    rw [back.undone]
    exact Database.undoneAllOther fun w mem same => none (same ▸ mine.named ws back.written w (List.mem_reverse.mp mem))
  refine left.shown sound shown (funext fun k => ?_) rfl rfl shown.history fun u y other old k mem => away fun own => ?_
  · dsimp only
    by_cases own : k ∈ x.wrote
    · rw [Set.piecewise_eq_of_mem _ _ _ own]
      have is := mine.back ws back.written k own
      rw [← back.undone] at is
      exact is.unique (bagsIs m.smManager k)
    · rw [Set.piecewise_eq_of_notMem _ _ _ own,shown.store]
      exact (bagsSame (away own)).symm
  · exact other (Sessions.holdsOne sound.inv.safe ((shown.mine u y old).wrote k mem) (mine.wrote k own))

theorem Shows.step (sound : Sound db s) (shown : Shows db s a) (step : Step floatText s s')
    (counts : ∀ e ∈ s'.history, Counts db e.2) :
    ∃ b, Relation.ReflTransGen (Schedule.Step (stmtOps floatText db)) a b ∧ Shows db s' b := by
  cases step with
  | begin =>
    obtain ⟨b,step,shows⟩ := shown.begins sound
    exact ⟨b,.single step,shows⟩
  | @ran t stmt o m live ends =>
    obtain ⟨x,active⟩ := (shown.live t).mp live
    by_cases regular : Regular db stmt
    · obtain ⟨k,new,acted,is⟩ := ends.counts sound live regular
      rw [← shown.store] at is
      refine ⟨_,.single (.act active (acted.clear shown) is),acted.shown shown active is fun work noted all => ?_⟩
      obtain ⟨old,before,rfl⟩ := Option.map_eq_some_iff.mp noted
      have same := (shown.mine t x active).work old before fun e mem => all e (List.mem_append_left _ mem)
      rw [Schedule.Txn.grown,same]
      rfl
    · obtain ⟨k,new,writes,acted,is⟩ := ends.spoils sound live
      rw [← shown.store] at is
      refine ⟨_,.single (.act active (acted.clear shown) is),acted.shown shown active is fun work noted all => ?_⟩
      obtain ⟨old,_,rfl⟩ := Option.map_eq_some_iff.mp noted
      exact absurd (all (stmt,o) (List.mem_append_right _ List.mem_cons_self)) regular
  | refused live ends clean => exact ⟨a,.refl,shown.refused sound live ends clean⟩
  | @failed t stmt e m live ends _ =>
    obtain ⟨x,active⟩ := (shown.live t).mp live
    obtain ⟨k,new,writes,acted,is⟩ := ends.spoils sound live
    rw [← shown.store] at is
    refine ⟨_,.single (.act active (acted.clear shown) is),acted.shown shown active is fun work noted _ => ?_⟩
    cases noted
  | @commit t order live reads =>
    obtain ⟨b,step,shows⟩ := shown.commits sound live reads (counts (t,s.work t) (List.mem_append_right _ List.mem_cons_self))
    exact ⟨b,.single step,shows⟩
  | abort live reads =>
    obtain ⟨b,step,shows⟩ := shown.aborts sound live reads
    exact ⟨b,.single step,shows⟩

theorem Step.keeps (step : Step floatText s s') : ∀ e ∈ s.history, e ∈ s'.history := by
  cases step with
  | commit => exact fun e mem => List.mem_append_left _ mem
  | _ => exact fun e mem => mem

def shadowOf (s : Service) : Shadow := ⟨bagsOf s.sm,fun _ => none,fun _ _ => 0,[]⟩

omit [FloatOps] in
theorem Started.idle (start : Started s) (t : Int) : ¬s.mgr.Live t := by
  rintro ⟨txn,found,_⟩
  rw [show s.mgr.txnMap t = none from start.database.fresh.1 t] at found
  cases found

omit [FloatOps] in
theorem Started.sound (start : Started s) : Sound s.sm.db s :=
  ⟨start.database.inv,fun t live => absurd live (start.idle t),start.plain,rfl⟩

theorem Started.shown (start : Started s) : Shows s.sm.db s (shadowOf s) := by
  refine ⟨rfl,fun t => iff_of_false (start.idle t) fun some => ?_,fun t x active => ?_,start.history⟩
  · cases some.choose_spec
  · cases active

theorem shownRun {s₀ : Service} (start : Started s₀) (run : Relation.ReflTransGen (Step floatText) s₀ s) :
    Sound s₀.sm.db s ∧ ((∀ e ∈ s.history, Counts s₀.sm.db e.2) →
      ∃ a, Relation.ReflTransGen (Schedule.Step (stmtOps floatText s₀.sm.db)) (shadowOf s₀) a ∧ Shows s₀.sm.db s a) := by
  induction run with
  | refl => exact ⟨start.sound,fun _ => ⟨_,.refl,start.shown⟩⟩
  | tail _ step ih =>
    obtain ⟨sound,shown⟩ := ih
    refine ⟨sound.step step,fun counts => ?_⟩
    obtain ⟨a,before,shows⟩ := shown fun e mem => counts e (step.keeps e mem)
    obtain ⟨b,later,shows'⟩ := shows.step sound step counts
    exact ⟨b,before.trans later,shows'⟩

end Runs

/- The committed transactions one after the other, each statement with the answer it was given, leave
every table as it is, apart from those a live transaction holds for writing. -/
theorem serializable [FloatOps] (floatText : UInt32 → Bytes) (s₀ s : Service) (start : Started s₀)
    (run : Relation.ReflTransGen (Step floatText) s₀ s) (counts : ∀ e ∈ s.history, Counts s₀.sm.db e.2) :
    ∃ base, Schedule.Replays (stmtOps floatText s₀.sm.db) (s.history.flatMap fun e => e.2.getD []) (bagsOf s₀.sm) base ∧
      ∀ k, (∀ t, s.mgr.Live t → ¬HoldsX s.mgr t (s.fdOf k)) → bagsOf s.sm k = base k := by
  obtain ⟨_,shown⟩ := shownRun start run
  obtain ⟨a,steps,shows⟩ := shown counts
  obtain ⟨base,replays,kept⟩ := Schedule.serialized ⟨rfl,fun _ => rfl⟩ steps
  have same : (s.history.flatMap fun e => e.2.getD []) = a.history.flatMap Prod.snd := by
    rw [shows.history,List.flatMap_map]
    rfl
  refine ⟨base,same ▸ replays,fun k free => ?_⟩
  have still := kept.still k fun t x active mem => free t ((shows.live t).mpr ⟨x,active⟩) ((shows.mine t x active).wrote k mem)
  rw [← still,shows.store]

section Served

def insertOne : Ast.DmlStmt := .insert "t" [⟨.int 1,none⟩]

def opened : Service := ⟨Database.atTable,fun _ => none,[]⟩
def enters (s : Service) : Service :=
  ⟨s.moved (after (begin none s.mgr)),Function.update s.work s.mgr.nextTxnId (some []),s.history⟩
def inserts (s : Service) (t : Int) : TransactionManager := after (@QlManager.modify .whole s.fdOf t insertOne s.mgr)
def answers (s : Service) (t : Int) : Service :=
  ⟨s.moved (s.inserts t),Function.update s.work t ((s.work t).map (· ++ [(.dml insertOne,none)])),s.history⟩
def refuses (s : Service) (t : Int) : Service := ⟨s.moved (s.inserts t),s.work,s.history⟩
def commits (s : Service) (t : Int) (order : List LockDataId) : Service :=
  ⟨s.moved (after (TransactionManager.commit t order s.mgr)),s.work,s.history ++ [(t,s.work t)]⟩

def bothIn : Service := opened.enters.enters
def oneIn : Service := (bothIn.answers 0).refuses 1
def served : Service := oneIn.commits 0 [.onTable 3]

theorem openedStarted : opened.Started := ⟨Database.atTableStarted,Dml.singlePlain (by decide +kernel) (by decide +kernel),rfl⟩

theorem okAfter {s : TransactionManager} {r : EStateM.Result Fault TransactionManager Unit} (here : after r = s)
    (ok : isOk r = true) : r = .ok () s := by
  cases r with
  | ok _ s' => exact congrArg _ here
  | error e s' => cases ok

theorem errorAfter {α : Type} {s : TransactionManager} {r : EStateM.Result Fault TransactionManager α} (here : after r = s)
    (failed : isOk r = false) : ∃ e, r = .error e s := by
  cases r with
  | ok _ s' => cases failed
  | error e s' => exact ⟨e,congrArg _ here⟩

theorem oneInRun : Relation.ReflTransGen (@Step .whole fun _ => []) opened oneIn := by
  let _ := FloatOps.whole
  have both : Relation.ReflTransGen (Step fun _ => []) opened bothIn := (Relation.ReflTransGen.single .begin).tail .begin
  have answered : Step (fun _ => []) bothIn (bothIn.answers 0) :=
    .ran (liveOf (by decide +kernel)) (.modified (okAfter rfl (by decide +kernel)))
  obtain ⟨e,fails⟩ := errorAfter (s := (bothIn.answers 0).inserts 1) rfl (by decide +kernel)
  have refused : Step (fun _ => []) (bothIn.answers 0) oneIn :=
    .refused (liveOf (by decide +kernel)) (.modifyFails fails) (by decide +kernel)
  exact (both.tail answered).tail refused

theorem servedRun : Relation.ReflTransGen (@Step .whole fun _ => []) opened served := by
  let _ := FloatOps.whole
  exact oneInRun.tail (.commit (liveOf (by decide +kernel)) (Database.readsOne (by decide +kernel)))

theorem entersOwn (s : Service) : s.enters.work s.mgr.nextTxnId = some [] := by
  simp only [enters,Function.update_self]

theorem entersOther {s : Service} {t : Int} (other : t ≠ s.mgr.nextTxnId) : s.enters.work t = s.work t := by
  simp only [enters,Function.update_of_ne other]

theorem answersOwn (s : Service) (t : Int) : (s.answers t).work t = (s.work t).map (· ++ [(.dml insertOne,none)]) := by
  simp only [answers,Function.update_self]

theorem servedWork : oneIn.work 0 = some [(.dml insertOne,none)] := by
  have first : opened.enters.work 0 = some [] := entersOwn opened
  have other : 0 ≠ opened.enters.mgr.nextTxnId := by decide +kernel
  calc oneIn.work 0 = (bothIn.work 0).map (· ++ [(.dml insertOne,none)]) := answersOwn bothIn 0
    _ = some [(.dml insertOne,none)] := by
      rw [bothIn,entersOther other,first]
      rfl

theorem insertedTarget : @dmlTarget .whole opened.sm.db insertOne (bagsOf opened.sm "t") = some {[1,0,0,0]} := by decide +kernel

theorem servedBags : bagsOf served.sm "t" = {[1,0,0,0]} := by
  let _ := FloatOps.whole
  have history : served.history = [(0,some [(.dml insertOne,none)])] := congrArg (fun work => [((0 : Int),work)]) servedWork
  have regular : TypesCompareIn opened.sm.db insertOne := by
    intro query analyzed cond mem
    obtain ⟨_,_,last⟩ := exceptBind analyzed
    cases Except.ok.inj last
    cases mem
  have counts : ∀ e ∈ served.history, Counts opened.sm.db e.2 := by
    rw [history]
    intro e mem
    rw [List.mem_singleton.mp mem]
    exact ⟨_,rfl,fun w inside => by rw [List.mem_singleton.mp inside]; exact regular⟩
  obtain ⟨base,replays,same⟩ := serializable (fun _ => []) opened served openedStarted servedRun counts
  have free : served.mgr.lockManager.requests (.onTable 3) = [] := by decide +kernel
  rw [same "t" fun t _ holds => ?_]
  · rw [history] at replays
    cases replays with
    | cons one later =>
      cases later
      have meant : stmtMeaning (fun _ => []) opened.sm.db (.dml insertOne) (bagsOf opened.sm) = some (base,none) := one
      rw [stmtMeaning,dmlMeaning,show insertOne.tabName = "t" from rfl,insertedTarget] at meant
      cases meant
      exact Function.update_self ..
  · obtain ⟨r,mem,_⟩ := holds
    have mem : r ∈ served.mgr.lockManager.requests (.onTable 3) := mem
    rw [free] at mem
    cases mem

end Served

end Service
end Rmdb
