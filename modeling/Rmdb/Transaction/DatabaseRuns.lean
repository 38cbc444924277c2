import Rmdb.Execution.AbortInverse
import Rmdb.System.DdlEffect

/-! Runs of the whole database: the statements of all sessions in any order, DDL among them, with
commits and rollbacks. Every transaction can be undone as long as no DDL statement gets in its way. -/
namespace Rmdb
open Record Index Recovery TransactionManager
open Sessions (HoldsX holdsOne lockHolds unlockHolds)

structure Database where
  mgr : TransactionManager
  isFile : String → Bool
  fdOf : String → Int

namespace Database

inductive Act where
  | begin
  | lock (t : Int) (id : LockDataId) (mode : LockMode)
  | dml (t : Int) (stmt : Dml)
  | ddl (stmt : Ddl)
  | commit (t : Int)
  | abort (t : Int)

def sm (s : Database) : SmManager := s.mgr.smManager

def dir (s : Database) : DbDir := ⟨s.sm,s.isFile⟩

def define (s : Database) (stmt : Ddl) (fdOf : String → Int) : Database :=
  let dir := after (stmt.run s.dir)
  ⟨{s.mgr with smManager := dir.sm},dir.isFile,fdOf⟩

/- A SELECT takes locks and leaves the rest alone. -/
inductive Step [FloatOps] : Database → Act → Database → Prop
  | begin {s : Database} : Step s .begin {s with mgr := after (begin none s.mgr)}
  | lock {s : Database} {t : Int} {id : LockDataId} {mode : LockMode} (live : s.mgr.Live t) :
      Step s (.lock t id mode) {s with mgr := after (withLocks t (LockManager.lock id mode) s.mgr)}
  | dml {s : Database} {t : Int} {stmt : Dml} (live : s.mgr.Live t) :
      Step s (.dml t stmt) {s with mgr := after (stmt.run s.fdOf t s.mgr)}
  -- a table that is made gets some descriptor
  | ddl {s : Database} {stmt : Ddl} {fdOf : String → Int} (stay : ∀ name, (s.sm.fhs name).isSome → fdOf name = s.fdOf name) :
      Step s (.ddl stmt) (s.define stmt fdOf)
  | commit {s : Database} {t : Int} {order : List LockDataId} (live : s.mgr.Live t) (reads : s.mgr.Reads t order) :
      Step s (.commit t) {s with mgr := after (commit t order s.mgr)}
  | abort {s : Database} {t : Int} {order : List LockDataId} (live : s.mgr.Live t) (reads : s.mgr.Reads t order) :
      Step s (.abort t) {s with mgr := after (abort t order s.mgr)}

structure Started (s : Database) : Prop where
  fresh : s.mgr.Fresh
  sound : s.dir.Sound

structure Own (s : Database) (t : Int) (ws : List WriteRecord) : Prop where
  traced : s.sm.Traced ws.reverse (contents s.sm)
  locked : ∀ w ∈ ws, HoldsX s.mgr t (s.fdOf w.tabName)

structure Inv (s : Database) : Prop where
  safe : Safe s.mgr
  sound : s.dir.Sound
  own : ∀ t ws, s.mgr.Live t → s.mgr.writesOf t = some ws → s.Own t ws

def Untouched (s : Database) (tabName : String) : Prop :=
  ∀ t ws, s.mgr.Live t → s.mgr.writesOf t = some ws → ∀ w ∈ ws, w.tabName ≠ tabName

def Undoable (s : Database) (t : Int) : Prop :=
  ∀ ws, s.mgr.writesOf t = some ws → SmManager.KeysApart s.sm.db ws.reverse (contents s.sm)

/- No live transaction has written to a table that goes; one that stays, a page of it being pinned,
has no index that would go. -/
def MayDrop (s : Database) (tabName : String) (pinned : Bool) : Prop :=
  Ddl.Finishes s.dir (.dropTable tabName pinned) ∧ (pinned = false → s.Untouched tabName)

/- A rollback meets no duplicate key. -/
def Keeps (s : Database) : Act → Prop
  | .ddl (.dropTable tabName pinned) => s.MayDrop tabName pinned
  | .abort t => s.Undoable t
  | _ => True

section Rows
variable {c c' : Contents} {w : WriteRecord} {ws : List WriteRecord} {tabName name : String} {rid : Rid} {value : Option Bytes}
  {sm sm' : SmManager}

theorem otherUpdate (apart : name ≠ tabName) : tableOf (Function.update c (tabName,rid) value) name = tableOf c name := by
  funext r
  have away : (name,r) ≠ (tabName,rid) := fun equal => apart (Prod.ext_iff.mp equal).1
  rw [tableOf,Function.update_of_ne away,tableOf]

theorem undoneOther (apart : name ≠ w.tabName) : tableOf (w.undone c) name = tableOf c name := by
  rw [WriteRecord.undone]
  cases w.wtype with
  | insertTuple => exact otherUpdate apart
  | deleteTuple => exact otherUpdate apart
  | updateTuple =>
    dsimp only
    split
    · exact otherUpdate apart
    · rfl

theorem undoneSame (same : tableOf c' w.tabName = tableOf c w.tabName) :
    tableOf (w.undone c') w.tabName = tableOf (w.undone c) w.tabName := by
  have here : c' w.place = c w.place := congrFun same w.rid
  rw [WriteRecord.undone,WriteRecord.undone]
  cases w.wtype with
  | insertTuple => rw [WriteRecord.place,SmManager.tableUpdate,SmManager.tableUpdate,same]
  | deleteTuple => rw [WriteRecord.place,SmManager.tableUpdate,SmManager.tableUpdate,same]
  | updateTuple =>
    dsimp only
    rw [here]
    split
    · rw [WriteRecord.place,SmManager.tableUpdate,SmManager.tableUpdate,same]
    · exact same

theorem undoneRows (rows : tableOf c' name = tableOf c name) (own : tableOf c' w.tabName = tableOf c w.tabName) :
    tableOf (w.undone c') name = tableOf (w.undone c) name := by
  by_cases here : name = w.tabName
  · rw [here]
    exact undoneSame own
  · rw [undoneOther here,undoneOther here,rows]

theorem undoneAllOther (away : ∀ w ∈ ws, w.tabName ≠ name) : tableOf (undoneAll ws c) name = tableOf c name := by
  induction ws generalizing c with
  | nil => rfl
  | cons w ws ih =>
    rw [undoneAll,List.foldl_cons,← undoneAll,ih fun w mem => away w (List.mem_cons_of_mem _ mem)]
    exact undoneOther (away w List.mem_cons_self).symm

theorem undoneAllRows (rows : tableOf c' name = tableOf c name) (own : ∀ w ∈ ws, tableOf c' w.tabName = tableOf c w.tabName) :
    tableOf (undoneAll ws c') name = tableOf (undoneAll ws c) name := by
  induction ws generalizing c c' with
  | nil => exact rows
  | cons w ws ih =>
    have here := own w List.mem_cons_self
    rw [undoneAll,undoneAll,List.foldl_cons,List.foldl_cons]
    refine ih (undoneRows rows here) fun x mem => ?_
    exact undoneRows (own x (List.mem_cons_of_mem w mem)) here

theorem didOthers {s m : TransactionManager} {t : Int} (did : Did s m t tabName ws) (away : ws = [] ∨ name ≠ tabName) :
    tableOf (contents m.smManager) name = tableOf (contents s.smManager) name := by
  have back : undoneAll ws.reverse (contents m.smManager) = contents s.smManager := did.undone
  rw [← back]
  refine (undoneAllOther fun w mem => ?_).symm
  have inside := List.mem_reverse.mp mem
  rw [did.there w inside]
  rcases away with none | other
  · rw [none] at inside
    cases inside
  · exact other.symm

theorem tracedMoved (located : ∀ w ∈ ws, sm.Located w → sm'.Located w)
    (rows : ∀ w ∈ ws, tableOf c' w.tabName = tableOf c w.tabName) (traced : sm.Traced ws c) : sm'.Traced ws c' := by
  induction ws generalizing c c' with
  | nil => exact traced
  | cons w ws ih =>
    obtain ⟨here,free,rest⟩ := traced
    have own := rows w List.mem_cons_self
    refine ⟨located w List.mem_cons_self here,fun kind => (congrFun own w.rid).trans (free kind),?_⟩
    exact ih (fun w mem => located w (List.mem_cons_of_mem _ mem))
      (fun x mem => undoneRows (rows x (List.mem_cons_of_mem _ mem)) own) rest

end Rows

section Locks
variable {s s' : TransactionManager} {t u fd : Int} {α β : Type}

theorem afterBind {P Q R : TransactionManager → Prop} {x : M TransactionManager α} {f : α → M TransactionManager β}
    (first : ∀ s, P s → Q (after (x s))) (next : ∀ a s, Q s → R (after (f a s))) (weaker : ∀ s, Q s → R s) (s : TransactionManager)
    (holds : P s) : R (after ((x >>= f) s)) := by
  have one := first s holds
  cases run : x s with
  | ok a s' =>
    rw [run] at one
    rw [bindEq run]
    exact next a s' one
  | error e s' =>
    rw [run] at one
    rw [bindError run]
    exact weaker s' one

def SafeX (u fd : Int) (s : TransactionManager) : Prop := Safe s ∧ HoldsX s u fd

theorem quietSafeX {x : M TransactionManager α} (quiet : Quiet x) (s : TransactionManager) (holds : SafeX u fd s) :
    SafeX u fd (after (x s)) := ⟨holds.1.same (quiet s),holds.2.same (quiet s)⟩

theorem quietX {x : M TransactionManager α} (quiet : Quiet x) (s : TransactionManager) (holds : HoldsX s u fd) :
    HoldsX (after (x s)) u fd := holds.same (quiet s)

theorem unlockX {id : LockDataId} (apart : u ≠ t) (s : TransactionManager) (holds : SafeX u fd s) :
    SafeX u fd (after (withLocks t (LockManager.unlock id) s)) := by
  refine ⟨?_,unlockHolds holds.1 apart holds.2⟩
  cases found : s.txnMap t with
  | none =>
    simp only [withLocks,found]
    exact holds.1
  | some txn =>
    rcases @unlockCases _ _ _ id holds.1 found with ⟨b,run,_⟩ | ⟨lm,run,_,_,safe,_⟩
    · rw [run]
      exact holds.1
    · rw [run]
      exact safe

theorem releaseX {order : List LockDataId} (apart : u ≠ t) : ∀ s, SafeX u fd s → HoldsX (after (releaseLocks t order s)) u fd := by
  refine afterBind (Q := SafeX u fd) ?_ (fun _ s holds => holds.2) (fun _ holds => holds.2)
  induction order with
  | nil => exact fun s holds => holds
  | cons id order ih =>
    exact afterBind (afterBind (unlockX apart) (fun _ s holds => holds) fun _ holds => holds) (fun _ => ih) fun _ holds => holds

theorem commitX {order : List LockDataId} (apart : u ≠ t) (s : TransactionManager) (safe : Safe s) (holds : HoldsX s u fd) :
    HoldsX (after (commit t order s)) u fd := by
  refine afterBind (P := SafeX u fd) (quietSafeX quietGetTxn) (fun object s holds => ?_) (fun _ holds => holds.2) s ⟨safe,holds⟩
  split
  · exact holds.2
  · refine afterBind (quietSafeX (quietAppendLog _)) (fun _ => ?_) (fun _ holds => holds.2) s holds
    refine afterBind (quietSafeX (quietOnLog _)) (fun _ => ?_) (fun _ holds => holds.2)
    have cleared : Quiet (modifyTxn t fun object => {object with writeSet := []}) := quietModifyTxn fun _ => rfl
    refine afterBind (quietSafeX cleared) (fun _ => ?_) (fun _ holds => holds.2)
    exact afterBind (Q := (HoldsX · u fd)) (releaseX apart) (fun _ s holds => holds) (fun _ holds => holds)

theorem abortX {order : List LockDataId} (apart : u ≠ t) (s : TransactionManager) (safe : Safe s) (holds : HoldsX s u fd) :
    HoldsX (after (abort t order s)) u fd := by
  refine afterBind (P := SafeX u fd) (quietSafeX quietGetTxn) (fun object s holds => ?_) (fun _ holds => holds.2) s ⟨safe,holds⟩
  split
  · exact holds.2
  · refine afterBind (quietSafeX (quietUndoWrites _)) (fun _ => ?_) (fun _ holds => holds.2) s holds
    refine afterBind (Q := (HoldsX · u fd)) (releaseX apart) (fun _ => ?_) (fun _ holds => holds)
    refine afterBind (Q := (HoldsX · u fd)) (quietX (quietAppendLog _)) (fun _ => ?_) (fun _ holds => holds)
    exact afterBind (Q := (HoldsX · u fd)) (quietX (quietOnLog _)) (fun _ s holds => holds) (fun _ holds => holds)

end Locks

section Commit
variable {s : TransactionManager} {t : Int} {order : List LockDataId} {α : Type}

def AsideBut (t : Int) (s s' : TransactionManager) : Prop :=
  s'.smManager = s.smManager ∧ ∀ u ≠ t, s'.writesOf u = s.writesOf u

theorem asideBut {x : M TransactionManager α} (aside : KeepsAside x) (s' : TransactionManager) (kept : AsideBut t s s') :
    AsideBut t s (after (x s')) :=
  ⟨(aside s').sm.trans kept.1,fun u apart => (congrFun (aside s').writes u).trans (kept.2 u apart)⟩

theorem modifyAsideBut (f : Transaction → Transaction) (s' : TransactionManager) (kept : AsideBut t s s') :
    AsideBut t s (after (modifyTxn t f s')) := by
  refine ⟨kept.1,fun u apart => Eq.trans ?_ (kept.2 u apart)⟩
  change (Function.update s'.txnMap t _ u).map _ = _
  rw [Function.update_of_ne apart]
  rfl

theorem commitAside (s : TransactionManager) : AsideBut t s (after (commit t order s)) := by
  refine afterBind (asideBut asideGetTxn) (fun object s' kept => ?_) (fun _ kept => kept) s ⟨rfl,fun _ _ => rfl⟩
  split
  · exact kept
  · refine afterBind (asideBut (asideAppendLog _)) (fun _ => ?_) (fun _ kept => kept) s' kept
    refine afterBind (asideBut (asideOnLog _)) (fun _ => ?_) (fun _ kept => kept)
    refine afterBind (modifyAsideBut _) (fun _ => ?_) (fun _ kept => kept)
    exact afterBind (asideBut (asideRelease _)) (fun _ => modifyAsideBut _) (fun _ kept => kept)

end Commit

section Steps
variable {s s' : Database} {t u : Int} {ws : List WriteRecord} {m : TransactionManager} {order : List LockDataId}
  {tabName : String} {stmt : Ddl} {act : Act} {fdOf : String → Int}

structure Stays (s : Database) (act : Act) (s' : Database) (tabName : String) : Prop where
  file : Option.Rel RmFileHandle.Extends (s.sm.fhs tabName) (s'.sm.fhs tabName)
  rows : tableOf (contents s'.sm) tabName = tableOf (contents s.sm) tabName
  fdOf : s'.fdOf tabName = s.fdOf tabName
  indexes : ∀ tab, s.sm.db.getTable tabName = .ok tab → ∃ tab', s'.sm.db.getTable tabName = .ok tab' ∧
    ∀ index ∈ tab'.indexes, index ∈ tab.indexes ∨
      ∃ stmt, act = .ddl stmt ∧ stmt.Makes tabName tab (tableOf (contents s.sm) tabName) index

inductive Carried (s : Database) (act : Act) (s' : Database) (t : Int) : List WriteRecord → Prop where
  | fresh : Carried s act s' t []
  | same {ws : List WriteRecord} (live : s.mgr.Live t) (written : s.mgr.writesOf t = some ws)
      (stays : ∀ w ∈ ws, s.sm.Located w → s.Stays act s' w.tabName)
      (holds : ∀ fd, HoldsX s.mgr t fd → HoldsX s'.mgr t fd) : Carried s act s' t ws
  | more {ws new : List WriteRecord} (live : s.mgr.Live t) (written : s.mgr.writesOf t = some ws)
      (led : Led s.mgr s'.mgr t new) (holds : ∀ fd, HoldsX s.mgr t fd → HoldsX s'.mgr t fd)
      (locked : ∀ w ∈ new, HoldsX s'.mgr t (s'.fdOf w.tabName)) (fds : s'.fdOf = s.fdOf) : Carried s act s' t (ws ++ new)

structure Turn (s : Database) (act : Act) (s' : Database) : Prop where
  safe : Safe s'.mgr
  sound : s'.dir.Sound
  carried : ∀ t ws, s'.mgr.Live t → s'.mgr.writesOf t = some ws → s.Carried act s' t ws

theorem tracedLocated {sm : SmManager} {c : Contents} (traced : sm.Traced ws c) : ∀ w ∈ ws, sm.Located w := by
  induction ws generalizing c with
  | nil => exact fun w mem => nomatch mem
  | cons w ws ih =>
    intro x mem
    rcases List.mem_cons.mp mem with rfl | later
    · exact traced.1
    · exact ih traced.2.2 x later

theorem Own.located (own : s.Own t ws) : ∀ w ∈ ws, s.sm.Located w := fun w mem =>
  tracedLocated own.traced w (List.mem_reverse.mpr mem)

theorem Stays.located {w : WriteRecord} (stays : s.Stays act s' w.tabName) (located : s.sm.Located w) : s'.sm.Located w := by
  obtain ⟨⟨tab,listed⟩,fh,found,has,low,high,sized⟩ := located
  obtain ⟨tab',listed',_⟩ := stays.indexes tab listed
  have file := stays.file
  rw [found] at file
  generalize there : s'.sm.fhs w.tabName = x at file
  cases file with
  | @some _ fh' extended =>
    refine ⟨⟨tab',listed'⟩,fh',there,⟨has.1,has.2.trans_le extended.numPages⟩,low,?_,fun kind => ?_⟩
    · rw [extended.perPage]
      exact high
    · rw [extended.recordSize]
      exact sized kind

theorem Carried.own (inv : s.Inv) (carried : s.Carried act s' t ws) : s'.Own t ws := by
  cases carried with
  | fresh => exact ⟨trivial,fun _ mem => nomatch mem⟩
  | same live written stays holds =>
    have own := inv.own t ws live written
    have stays (w : WriteRecord) (mem : w ∈ ws) := stays w mem (own.located w mem)
    refine ⟨tracedMoved (fun w mem => (stays w (List.mem_reverse.mp mem)).located)
      (fun w mem => (stays w (List.mem_reverse.mp mem)).rows) own.traced,fun w mem => ?_⟩
    rw [(stays w mem).fdOf]
    exact holds _ (own.locked w mem)
  | @more ws new live written led holds locked fds =>
    have own := inv.own t ws live written
    refine ⟨?_,fun w mem => ?_⟩
    · rw [List.reverse_append,tracedAppend]
      refine ⟨led.traced,?_⟩
      rw [show undoneAll new.reverse (contents s'.sm) = contents s.sm from led.undone]
      exact own.traced.keep led.same
    · rcases List.mem_append.mp mem with mem | mem
      · rw [fds]
        exact holds _ (own.locked w mem)
      · exact locked w mem

theorem Turn.inv (turn : s.Turn act s') (inv : s.Inv) : s'.Inv :=
  ⟨turn.safe,turn.sound,fun t ws live written => (turn.carried t ws live written).own inv⟩

theorem Started.inv (started : s.Started) : s.Inv := by
  refine ⟨started.fresh.safe,started.sound,fun t ws live => ?_⟩
  obtain ⟨txn,found,_⟩ := live
  rw [started.fresh.1] at found
  cases found

theorem staysSame (same : s.sm.SameTables m.smManager)
    (rows : tableOf (contents m.smManager) tabName = tableOf (contents s.sm) tabName) :
    s.Stays act {s with mgr := m} tabName := by
  refine ⟨same.files tabName,rows,rfl,fun tab listed => ⟨tab,?_,fun index mem => .inl mem⟩⟩
  rw [show (Database.sm {s with mgr := m}).db = s.sm.db from same.db]
  exact listed

theorem staysQuiet (same : m.smManager = s.sm) : s.Stays act {s with mgr := m} tabName :=
  staysSame (by rw [same]; exact .refl _) (by rw [same])

theorem soundSame (sound : s.dir.Sound) (same : s.sm.SameTables m.smManager) (agreed : m.smManager.Agreed) :
    (Database.dir {s with mgr := m}).Sound := by
  refine ⟨agreed,fun name there => ?_,fun name there => ?_,?_,?_,?_⟩ <;> dsimp only [Database.dir,Database.sm] at *
  · rw [same.db]
    refine sound.listed name ?_
    have files := same.files name
    dsimp only [Database.dir,Database.sm] at files ⊢
    generalize s.mgr.smManager.fhs name = x at files ⊢
    generalize m.smManager.fhs name = y at files there
    cases files with
    | none => exact there
    | some _ => rfl
  · rw [same.db]
    exact sound.owned name ((same.handles name).symm.trans there)
  · rw [same.db]
    exact sound.tabFile
  · rw [same.db]
    exact sound.indexFile
  · rw [same.db]
    exact sound.clash

theorem soundQuiet (sound : s.dir.Sound) (same : m.smManager = s.sm) : (Database.dir {s with mgr := m}).Sound :=
  soundSame sound (by rw [same]; exact .refl _) (by rw [same]; exact sound.agreed)

theorem beginTurn (inv : s.Inv) : s.Turn act {s with mgr := after (begin none s.mgr)} := by
  obtain ⟨m,run,same,sm,writes⟩ := beginFresh s.mgr
  rw [run]
  refine ⟨inv.safe.addTxn.same same,soundQuiet inv.sound sm,fun t ws live written => ?_⟩
  change m.writesOf t = some ws at written
  rw [writes] at written
  by_cases own : t = s.mgr.nextTxnId
  · rw [own,Function.update_self] at written
    cases written
    exact .fresh
  · rw [Function.update_of_ne own] at written
    have view := same.txns t
    simp only [TransactionManager.addTxn,Function.update_of_ne own] at view
    exact .same (live.same view.symm) written (fun w mem located => staysQuiet sm)
      fun fd holds => @HoldsX.same t s.mgr.addTxn m fd holds same

theorem worksTurn (inv : s.Inv) (live : s.mgr.Live t) (outcome : Dml.Outcome s.fdOf s.mgr t tabName m) :
    s.Turn act {s with mgr := m} := by
  obtain ⟨new,did,locked⟩ := outcome.did
  have kept := outcome.kept
  refine ⟨kept.safe,soundSame inv.sound did.same did.agreed,fun u ws alive written => ?_⟩
  change m.writesOf u = some ws at written
  rw [did.writes] at written
  by_cases own : u = t
  · subst own
    rw [Function.update_self] at written
    obtain ⟨old,before,rfl⟩ := Option.map_eq_some_iff.mp written
    refine .more live before did.toLed (kept.holds u) (fun w mem => ?_) rfl
    rw [did.there w mem]
    exact locked (List.ne_nil_of_mem mem)
  · rw [Function.update_of_ne own] at written
    have before := alive.same (kept.others u own).symm
    refine .same before written (fun w mem located => staysSame did.same ?_) (kept.holds u)
    have away : ∀ w' ∈ new.reverse, w'.tabName ≠ w.tabName := fun w' mem' same => by
      have mem' := List.mem_reverse.mp mem'
      have one := kept.holds u _ ((inv.own u ws before written).locked w mem)
      have two := locked (List.ne_nil_of_mem mem')
      rw [← did.there w' mem',same] at two
      exact own (holdsOne kept.safe one two)
    have back : undoneAll new.reverse (contents m.smManager) = contents s.sm := did.undone
    rw [← back]
    exact (undoneAllOther away).symm

theorem commitTurn (inv : s.Inv) (reads : s.mgr.Reads t order) :
    s.Turn act {s with mgr := after (commit t order s.mgr)} := by
  obtain ⟨m,txn,run,safe,found,gone,_⟩ := commitRun inv.safe reads
  have aside := @commitAside t order s.mgr
  have others := onlyCommit (t := t) order s.mgr
  have holds := fun u fd (apart : u ≠ t) => @commitX t u fd order apart s.mgr inv.safe
  rw [run] at aside others holds ⊢
  refine ⟨safe,soundQuiet inv.sound aside.1,fun u ws alive written => ?_⟩
  have apart : u ≠ t := by
    rintro rfl
    obtain ⟨txn',found',alive⟩ := alive
    obtain rfl := Option.some.inj (found.symm.trans found')
    rw [gone] at alive
    cases alive
  exact .same (alive.same (others u apart).symm) ((aside.2 u apart).symm.trans written)
    (fun w mem located => staysQuiet aside.1) fun fd => holds u fd apart

structure Finished (m : TransactionManager) (t : Int) : Prop where
  state : ∃ txn, m.txnMap t = some txn ∧ txn.state = .aborted ∧ txn.writeSet = [] ∧ txn.lockSet = []
  requests : m.NoRequest t

theorem abortTurn (inv : s.Inv) (live : s.mgr.Live t) (reads : s.mgr.Reads t order) (undoable : s.Undoable t) :
    ∃ m, abort t order s.mgr = .ok () m ∧ Finished m t ∧ s.Turn act {s with mgr := m} := by
  obtain ⟨txn,found,alive⟩ := live
  have written : s.mgr.writesOf t = some txn.writeSet := by
    rw [writesOf,found,Option.map_some]
  have own := inv.own t _ ⟨txn,found,alive⟩ written
  obtain ⟨m,txn',run,last,state,empty,free,none,safe,agreed,back,same,writes⟩ := abortRestores inv.safe reads found alive
    inv.sound.agreed own.traced (undoable _ written)
  refine ⟨m,run,⟨⟨txn',last,state,empty,free⟩,none⟩,safe,soundSame inv.sound same agreed,fun u ws active writtenU => ?_⟩
  have others := onlyAbort (t := t) order s.mgr
  have holds := fun u fd (apart : u ≠ t) => @abortX t u fd order apart s.mgr inv.safe
  rw [run] at others holds
  have apart : u ≠ t := by
    rintro rfl
    obtain ⟨y,here,active⟩ := active
    obtain rfl := Option.some.inj (last.symm.trans here)
    rw [state] at active
    cases active
  change m.writesOf u = some ws at writtenU
  rw [writes,Function.update_of_ne apart] at writtenU
  have before := active.same (others u apart).symm
  refine .same before writtenU (fun w mem located => staysSame same ?_) fun fd => holds u fd apart
  have away : ∀ w' ∈ txn.writeSet.reverse, w'.tabName ≠ w.tabName := fun w' mem' same => by
    have one := (inv.own u ws before writtenU).locked w mem
    have two := own.locked w' (List.mem_reverse.mp mem')
    rw [same] at two
    exact apart (holdsOne inv.safe one two)
  rw [back]
  exact undoneAllOther away

theorem ddlTurn (inv : s.Inv) (stay : ∀ name, (s.sm.fhs name).isSome → fdOf name = s.fdOf name)
    (spared : ∀ tabName pinned, stmt = .dropTable tabName pinned → s.MayDrop tabName pinned) :
    s.Turn (.ddl stmt) (s.define stmt fdOf) := by
  have finishes : stmt.Finishes s.dir := by
    cases stmt with
    | dropTable tabName pinned => exact (spared tabName pinned rfl).1
    | _ => trivial
  have effect := stmt.effect inv.sound finishes
  have same : SameLocks s.mgr (s.define stmt fdOf).mgr := ⟨rfl,rfl,fun _ => rfl⟩
  refine ⟨inv.safe.same same,effect.sound,fun t ws live written => ?_⟩
  refine .same live written (fun w mem located => ?_) fun fd holds => holds.same same
  obtain ⟨⟨tab,listed⟩,fh,found,_⟩ := located
  have leaves := effect.leaves _ tab listed fun same => (spared _ _ same).2 rfl t ws live written w mem rfl
  have file : (s.define stmt fdOf).sm.fhs w.tabName = s.sm.fhs w.tabName := leaves.file
  refine ⟨?_,?_,stay _ (by rw [found]; rfl),fun tab' listed' => ?_⟩
  · rw [file]
    exact (SmManager.SameTables.refl s.sm).files _
  · funext rid
    simp only [tableOf,contents,file]
  · obtain rfl := Except.ok.inj (listed.symm.trans listed')
    obtain ⟨tab',listed',each⟩ := leaves.indexes
    refine ⟨tab',listed',fun index mem => (each index mem).imp id fun made => ?_⟩
    obtain ⟨fh',found',makes⟩ := made
    refine ⟨stmt,rfl,?_⟩
    rw [SmManager.tableContents (show s.sm.fhs w.tabName = some fh' from found')]
    exact makes

theorem Inv.turn [FloatOps] (inv : s.Inv) (step : Step s act s') (keeps : s.Keeps act) : s.Turn act s' := by
  cases step with
  | begin => exact beginTurn inv
  | @lock t id mode live =>
    have outcome := @Dml.Outcome.nothing s.mgr _ t "" s.fdOf inv.sound.agreed (asideLock id mode _) (lockKept inv.safe live)
    exact worksTurn inv live outcome
  | @dml t stmt live => exact worksTurn inv live (stmt.outcome inv.safe live inv.sound.agreed)
  | ddl stay =>
    refine ddlTurn inv stay fun tabName pinned same => ?_
    subst same
    exact keeps
  | commit live reads => exact commitTurn inv reads
  | @abort t order live reads =>
    obtain ⟨m,run,_,turn⟩ := @abortTurn s t order (.abort t) inv live reads keeps
    rw [run]
    exact turn

end Steps

def UndoUnique (tabName : String) (index : IndexMeta) : List WriteRecord → Contents → Prop
  | [],_ => True
  | w :: rest,c => (w.tabName = tabName → UniqueKeys (tableOf (w.undone c) tabName) index) ∧
      UndoUnique tabName index rest (w.undone c)

/- No table goes that a live transaction has written to, and none gets an index that the way back
of one would not fit: what CREATE INDEX checks now holds of what it undoes as well. -/
def Spares (s : Database) : Act → Prop
  | .ddl (.dropTable tabName pinned) => s.MayDrop tabName pinned
  | .ddl (.createIndex tabName colNames) => ∀ tab cols, s.sm.db.getTable tabName = .ok tab → keyCols tab colNames = .ok cols →
      UniqueKeys (tableOf (contents s.sm) tabName) ⟨tabName,cols⟩ → ∀ t ws, s.mgr.Live t → s.mgr.writesOf t = some ws →
        UndoUnique tabName ⟨tabName,cols⟩ ws.reverse (contents s.sm)
  | _ => True

section Undo
variable {s s' : Database} {t : Int} {ws : List WriteRecord} {act : Act} {db db' : DbMeta} {c c' : Contents}

theorem keysMoved (rows : ∀ w ∈ ws, tableOf c' w.tabName = tableOf c w.tabName)
    (indexes : ∀ w ∈ ws, ∀ tab', db'.getTable w.tabName = .ok tab' → ∀ index ∈ tab'.indexes,
      (∃ tab, db.getTable w.tabName = .ok tab ∧ index ∈ tab.indexes) ∨ UndoUnique w.tabName index ws c)
    (apart : SmManager.KeysApart db ws c) : SmManager.KeysApart db' ws c' := by
  induction ws generalizing c c' with
  | nil => trivial
  | cons w ws ih =>
    obtain ⟨here,rest⟩ := apart
    have own := rows w List.mem_cons_self
    refine ⟨fun tab' listed' index mem => ?_,?_⟩
    · rw [undoneSame own]
      rcases indexes w List.mem_cons_self tab' listed' index mem with ⟨tab,listed,old⟩ | fits
      · exact here tab listed index old
      · exact fits.1 rfl
    · refine ih (fun x mem => undoneRows (rows x (List.mem_cons_of_mem _ mem)) own) (fun x mem tab' listed' index memi => ?_) rest
      exact (indexes x (List.mem_cons_of_mem _ mem) tab' listed' index memi).imp id fun fits => fits.2

theorem Carried.undoable (inv : s.Inv) (all : ∀ t, s.mgr.Live t → s.Undoable t) (spares : s.Spares act)
    (carried : s.Carried act s' t ws) : SmManager.KeysApart s'.sm.db ws.reverse (contents s'.sm) := by
  cases carried with
  | fresh => trivial
  | same live written stays holds =>
    have own := inv.own t ws live written
    have stays (w : WriteRecord) (mem : w ∈ ws.reverse) : s.Stays act s' w.tabName :=
      stays w (List.mem_reverse.mp mem) (own.located w (List.mem_reverse.mp mem))
    refine keysMoved (fun w mem => (stays w mem).rows) (fun w mem tab' listed' index memi => ?_) (all t live ws written)
    obtain ⟨tab,listed⟩ := (own.located w (List.mem_reverse.mp mem)).listed
    obtain ⟨tab'',listed'',each⟩ := (stays w mem).indexes tab listed
    obtain rfl := Except.ok.inj (listed'.symm.trans listed'')
    rcases each index memi with old | ⟨stmt,rfl,colNames,cols,rfl,found,rfl,unique⟩
    · exact .inl ⟨tab,listed,old⟩
    · exact .inr (spares tab cols listed found unique t ws live written)
  | @more ws new live written led holds locked fds =>
    rw [List.reverse_append,apartAppend]
    refine ⟨led.apart,?_⟩
    rw [show undoneAll new.reverse (contents s'.sm) = contents s.sm from led.undone,
      show s'.sm.db = s.sm.db from led.same.db]
    exact all t live ws written

theorem Spares.keeps (spares : s.Spares act) (undoable : ∀ t, act = .abort t → s.Undoable t) : s.Keeps act := by
  cases act with
  | abort t => exact undoable t rfl
  | ddl stmt =>
    cases stmt with
    | dropTable => exact spares
    | _ => trivial
  | _ => trivial

end Undo

def IndexesMatch (s : Database) : Prop := ∀ tabName tab, s.sm.db.getTable tabName = .ok tab → ∀ index ∈ tab.indexes,
  ∃ ih m, s.sm.HasIndex tabName index ih m ∧ Agrees (tableOf (contents s.sm) tabName) index m ∧
    UniqueKeys (tableOf (contents s.sm) tabName) index

def AbortsComplete (s : Database) : Prop := ∀ t order, s.mgr.Live t → s.mgr.Reads t order →
  ∃ m, abort t order s.mgr = .ok () m ∧ Finished m t

theorem Inv.indexed {s : Database} (inv : s.Inv) : s.IndexesMatch := by
  intro tabName tab listed index mem
  obtain ⟨fh,table,agree⟩ := inv.sound.agreed.tables tabName tab listed
  obtain ⟨ih,m,has,agrees⟩ := agree index mem
  have rows : tableOf (contents s.sm) tabName = fh.records := SmManager.tableContents table.handle
  exact ⟨ih,m,has,rows ▸ agrees,rows ▸ agrees.unique⟩

section Runs
variable [FloatOps]

def Moves (P : Database → Act → Prop) (s s' : Database) : Prop := ∃ act, Step s act s' ∧ P s act

theorem indexesMatch (s₀ s : Database) (start : Started s₀) (run : Relation.ReflTransGen (Moves Keeps) s₀ s) :
    s.IndexesMatch := by
  have inv : s.Inv := by
    induction run with
    | refl => exact start.inv
    | tail _ move inv =>
      obtain ⟨act,step,keeps⟩ := move
      exact (inv.turn step keeps).inv inv
  exact inv.indexed

theorem sparedRun {s₀ s : Database} (start : Started s₀) (run : Relation.ReflTransGen (Moves Spares) s₀ s) :
    s.Inv ∧ ∀ t, s.mgr.Live t → s.Undoable t := by
  induction run with
  | refl =>
    refine ⟨start.inv,fun t live => ?_⟩
    obtain ⟨txn,found,_⟩ := live
    rw [start.fresh.1] at found
    cases found
  | @tail s s' _ move ih =>
    obtain ⟨act,step,spares⟩ := move
    obtain ⟨inv,undoable⟩ := ih
    have keeps : s.Keeps act := by
      refine spares.keeps fun t same => ?_
      subst same
      cases step with | abort live => exact undoable t live
    have turn := inv.turn step keeps
    exact ⟨turn.inv inv,fun t live ws written => (turn.carried t ws live written).undoable inv undoable spares⟩

theorem abortsComplete (s₀ s : Database) (start : Started s₀) (run : Relation.ReflTransGen (Moves Spares) s₀ s) :
    s.AbortsComplete := by
  intro t order live reads
  obtain ⟨inv,undoable⟩ := sparedRun start run
  obtain ⟨m,run,finished,_⟩ := @abortTurn s t order (.abort t) inv live reads (undoable t live)
  exact ⟨m,run,finished⟩

end Runs

section Found

def atTable : Database := ⟨{started with smManager := DbDir.oneTable.sm},DbDir.oneTable.isFile,fun _ => 3⟩
def anIndex : Ddl := .createIndex "t" ["a"]
def oneRow : Dml := .insert "t" [⟨.int 1,none⟩]
def allRows : Dml := .delete "t" fun sm => @SeqScanExecutor.visited FloatOps.whole sm "t" []
def begins (s : Database) : Database := {s with mgr := after (begin none s.mgr)}
def does (s : Database) (stmt : Dml) : Database := {s with mgr := after (@Dml.run FloatOps.whole s.fdOf 0 stmt s.mgr)}
def rollsBack (s : Database) : Database := {s with mgr := after (abort 0 [.onTable 3] s.mgr)}
def inserted : Database := atTable.begins.does oneRow
def deleted : Database := (inserted.does oneRow).does allRows
def covered : Database := deleted.define anIndex fun _ => 3
def mismatched : Database := covered.rollsBack
def indexed : Database := (atTable.define anIndex fun _ => 3).begins.does oneRow
def orphaned : Database := inserted.define (.dropTable "t" false) fun _ => 3

theorem atTableStarted : atTable.Started := ⟨⟨fun _ => rfl,fun _ => rfl⟩,DbDir.oneTableSound⟩

theorem readsOne {s : Database} (locks : (s.mgr.txnMap 0).map Transaction.lockSet = some [.onTable 3]) :
    s.mgr.Reads 0 [.onTable 3] := by
  obtain ⟨txn,found,held⟩ := Option.map_eq_some_iff.mp locks
  exact ⟨txn,found,by rw [held]⟩

section Steps
variable {P : Database → Act → Prop} {s : Database}

theorem doesMore {stmt : Dml} (run : Relation.ReflTransGen (@Moves FloatOps.whole P) atTable s)
    (live : (s.mgr.txnMap 0).map (fun txn => ended txn.state) = some false) (clear : P s (.dml 0 stmt)) :
    Relation.ReflTransGen (@Moves FloatOps.whole P) atTable (s.does stmt) :=
  run.tail ⟨.dml 0 stmt,@Step.dml FloatOps.whole s 0 stmt (liveOf live),clear⟩

theorem insertedRun (all : ∀ s stmt, P s (.dml 0 stmt)) (begun : P atTable .begin) :
    Relation.ReflTransGen (@Moves FloatOps.whole P) atTable inserted :=
  doesMore (.single ⟨.begin,@Step.begin FloatOps.whole atTable,begun⟩) (by decide +kernel) (all _ _)

theorem deletedRun (all : ∀ s stmt, P s (.dml 0 stmt)) (begun : P atTable .begin) :
    Relation.ReflTransGen (@Moves FloatOps.whole P) atTable deleted :=
  doesMore (doesMore (insertedRun all begun) (by decide +kernel) (all _ _)) (by decide +kernel) (all _ _)

end Steps

def FixedTables (_ : Database) : Act → Prop
  | .ddl (.createTable _ _) => False
  | .ddl (.dropTable _ _) => False
  | _ => True

theorem mismatchedRun : Relation.ReflTransGen (@Moves FloatOps.whole FixedTables) atTable mismatched := by
  have define : @Step FloatOps.whole deleted (.ddl anIndex) covered :=
    @Step.ddl FloatOps.whole _ _ _ fun _ _ => rfl
  have undo : @Step FloatOps.whole covered (.abort 0) mismatched :=
    @Step.abort FloatOps.whole _ _ _ (liveOf (by decide +kernel)) (readsOne (by decide +kernel))
  exact ((deletedRun (fun _ _ => trivial) trivial).tail ⟨_,define,trivial⟩).tail ⟨_,undo,trivial⟩

theorem rollbackMismatch : ¬∀ s₀ s : Database, s₀.Started →
    Relation.ReflTransGen (@Moves FloatOps.whole FixedTables) s₀ s → s.IndexesMatch := by
  intro all
  have indexed : (match mismatched.sm.db.getTable "t" with
      | .ok tab => decide (tab.indexes.length = 1)
      | .error _ => false) = true := by decide +kernel
  have here : tableOf (contents mismatched.sm) "t" ⟨1,0⟩ = some [1,0,0,0] := by decide +kernel
  have there : tableOf (contents mismatched.sm) "t" ⟨1,1⟩ = some [1,0,0,0] := by decide +kernel
  split at indexed
  · rename_i tab listed
    obtain ⟨index,one⟩ := List.length_eq_one_iff.mp (of_decide_eq_true indexed)
    obtain ⟨_,_,_,_,unique⟩ := all _ _ atTableStarted mismatchedRun "t" tab listed index (by rw [one]; exact List.mem_cons_self)
    have same := unique _ _ _ _ here there rfl
    cases same
  · cases indexed

theorem indexedRun (P : Database → Act → Prop) (defined : P atTable (.ddl anIndex)) (begun : ∀ s, P s .begin)
    (did : ∀ s stmt, P s (.dml 0 stmt)) : Relation.ReflTransGen (@Moves FloatOps.whole P) atTable indexed := by
  have define : @Step FloatOps.whole atTable (.ddl anIndex) (atTable.define anIndex fun _ => 3) :=
    @Step.ddl FloatOps.whole _ _ _ fun _ _ => rfl
  refine doesMore ?_ (by decide +kernel) (did _ _)
  exact (Relation.ReflTransGen.single ⟨_,define,defined⟩).tail ⟨.begin,@Step.begin FloatOps.whole _,begun _⟩

theorem indexSpares : atTable.Spares (.ddl anIndex) := fun _ _ _ _ _ _ _ live => by
  obtain ⟨_,found,_⟩ := live
  cases found

theorem abortsOnce : indexed.AbortsComplete :=
  @abortsComplete FloatOps.whole atTable _ atTableStarted
    (indexedRun Spares indexSpares (fun _ => trivial) fun _ _ => trivial)

theorem indexesMatchOnce : indexed.rollsBack.IndexesMatch := by
  have live : indexed.mgr.Live 0 := liveOf (by decide +kernel)
  have keeps : indexed.Keeps (.abort 0) :=
    (@sparedRun FloatOps.whole _ _ atTableStarted (indexedRun Spares indexSpares (fun _ => trivial) fun _ _ => trivial)).2 0 live
  exact @indexesMatch FloatOps.whole atTable _ atTableStarted
    ((indexedRun Keeps trivial (fun _ => trivial) fun _ _ => trivial).tail
      ⟨_,@Step.abort FloatOps.whole _ _ _ live (readsOne (by decide +kernel)),keeps⟩)

theorem droppedAbort : ¬∀ s₀ s : Database, s₀.Started →
    Relation.ReflTransGen (@Moves FloatOps.whole fun _ _ => True) s₀ s → s.AbortsComplete := by
  intro all
  have run : Relation.ReflTransGen (@Moves FloatOps.whole fun _ _ => True) atTable orphaned :=
    (insertedRun (fun _ _ => trivial) trivial).tail ⟨.ddl (.dropTable "t" false),
      @Step.ddl FloatOps.whole inserted _ (fun _ => 3) fun _ _ => rfl,trivial⟩
  obtain ⟨m,done,_⟩ := all _ _ atTableStarted run 0 [.onTable 3] (liveOf (by decide +kernel)) (readsOne (by decide +kernel))
  have thrown : isOk (abort 0 [.onTable 3] orphaned.mgr) = false := by decide +kernel
  rw [done] at thrown
  cases thrown

end Found
end Database
end Rmdb
