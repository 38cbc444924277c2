import Rmdb.Execution.Atomicity

/-! How the loops of `DeleteExecutor` and `UpdateExecutor` end, and the call of `InsertExecutor`: the rows that the
scan has collected are all changed, or the statement could not have been carried out in any order of the rows. -/
namespace Rmdb
open Lib Record Index Recovery RecoveryManager TransactionManager

def made {α : Type} (x : Except Fault α) : Option α :=
  match x with
  | .ok a => some a
  | .error _ => none

section Keys
variable {tab : TabMeta} {index : IndexMeta} {setClauses : List SetClause} {recordSize : Nat} {a b old new old' new' : Bytes}

theorem sliceBytes {offset len : Nat} : (a.drop offset).take len = (b.drop offset).take len ↔
    ∀ i, offset ≤ i → i < offset+len → byteAt a i = byteAt b i := by
  constructor
  · intro same i low high
    have here := congrArg (fun l : Bytes => l[i-offset]?) same
    simp only [List.getElem?_take,List.getElem?_drop,show i-offset < len by omega,if_true,
      show offset+(i-offset) = i by omega] at here
    exact here
  · intro same
    refine List.ext_getElem? fun i => ?_
    simp only [List.getElem?_take,List.getElem?_drop]
    split
    · exact same (offset+i) (by omega) (by omega)
    · rfl

theorem keyBytes {cols : List KeyCol} (inside : ∀ col ∈ cols, col.offset+col.len ≤ a.length) (sized : a.length = b.length) :
    (cols.flatMap fun col => (a.drop col.offset).take col.len) = (cols.flatMap fun col => (b.drop col.offset).take col.len) ↔
      ∀ col ∈ cols, ∀ i, col.offset ≤ i → i < col.offset+col.len → byteAt a i = byteAt b i := by
  induction cols with
  | nil => simp
  | cons col cols ih =>
    have here := inside col List.mem_cons_self
    have same : ((a.drop col.offset).take col.len).length = ((b.drop col.offset).take col.len).length := by
      rw [List.length_take,List.length_drop,List.length_take,List.length_drop,sized]
    rw [List.flatMap_cons,List.flatMap_cons,List.append_eq_append_iff_of_size_eq_left same,
      ih fun x mem => inside x (List.mem_cons_of_mem col mem),sliceBytes,List.forall_mem_cons]

/- A record whose key the SET clauses would give to another one has this key already where they write:
they give it no other. -/
theorem keySettled [FloatOps] (valid : tab.Valid recordSize) (mem : index ∈ tab.indexes) (sized : old.length = recordSize)
    (sized' : old'.length = recordSize) (set : UpdateExecutor.newRecord tab setClauses old = .ok new)
    (set' : UpdateExecutor.newRecord tab setClauses old' = .ok new') (same : buildIndexKey index new = buildIndexKey index old') :
    buildIndexKey index new' = buildIndexKey index new := by
  obtain ⟨writes,all⟩ := newRecordWrites valid set
  obtain ⟨x,again,bytes⟩ := all old sized
  obtain rfl := Except.ok.inj (set.symm.trans again)
  obtain ⟨x,again,bytes'⟩ := all old' sized'
  obtain rfl := Except.ok.inj (set'.symm.trans again)
  have sizedNew := newRecordLength valid sized set
  have sizedNew' := newRecordLength valid sized' set'
  have inside : ∀ col ∈ index.cols, col.offset+col.len ≤ recordSize := fun col memCol =>
    valid.inside _ (getColMem (valid.indexed index mem col memCol)).1
  have equal := (keyBytes (by rwa [sizedNew]) (sizedNew.trans sized'.symm)).mp same
  refine (keyBytes (by rwa [sizedNew']) (sizedNew'.trans sizedNew.symm)).mpr fun col memCol i low high => ?_
  rw [bytes',bytes,overwriteAt,overwriteAt]
  cases written : lastWrite i writes with
  | some v => rfl
  | none =>
    have kept := equal col memCol i low high
    rw [bytes,overwriteAt,written] at kept
    exact kept.symm

end Keys

namespace TransactionManager

section Walk
variable {tab : TabMeta} {t : String} {change : Bytes → Except Fault (Option Bytes)} {sel : Bytes → Bool} {c c' : Contents}
  {rid : Rid} {rids front back : List Rid} {recordSize : Nat}

def changed (change : Bytes → Except Fault (Option Bytes)) (sel : Bytes → Bool) (record : Bytes) : Option Bytes :=
  if sel record then (made (change record)).join else some record

structure Collected (c : Contents) (t : String) (sel : Bytes → Bool) (rids : List Rid) : Prop where
  once : rids.Nodup
  selected : ∀ rid, rid ∈ rids ↔ ∃ record, c (t,rid) = some record ∧ sel record = true

def Passes (tab : TabMeta) (change : Bytes → Except Fault (Option Bytes)) (recordSize : Nat) : Prop :=
  ∀ index ∈ tab.indexes, ∀ old old' new value, old.length = recordSize → old'.length = recordSize →
    change old = .ok (some new) → change old' = .ok value → indexKey index new = indexKey index old' →
      ∃ new', value = some new' ∧ indexKey index new' = indexKey index new

theorem Walked.rows (walked : Walked tab t change c rids c') (once : rids.Nodup) :
    (∀ rid ∈ rids, ∃ old value, c (t,rid) = some old ∧ change old = .ok value ∧ c' (t,rid) = value) ∧
      ∀ rid, rid ∉ rids → c' (t,rid) = c (t,rid) := by
  induction walked with
  | nil => exact ⟨by simp,fun _ _ => rfl⟩
  | @cons c c' rid rids old value accepts rest ih =>
    obtain ⟨fresh,once⟩ := List.nodup_cons.mp once
    obtain ⟨inside,outside⟩ := ih once
    have other {r : Rid} (apart : r ≠ rid) : Function.update c (t,rid) value (t,r) = c (t,r) :=
      Function.update_of_ne (fun same => apart (Prod.ext_iff.mp same).2) ..
    refine ⟨fun r mem => ?_,fun r absent => ?_⟩
    · rcases List.mem_cons.mp mem with rfl | later
      · exact ⟨old,value,accepts.there,accepts.made,by rw [outside _ fresh,Function.update_self]⟩
      · obtain ⟨old',value',there,made,now⟩ := inside r later
        rw [other (ne_of_mem_of_not_mem later fresh)] at there
        exact ⟨old',value',there,made,now⟩
    · rw [List.mem_cons,not_or] at absent
      rw [outside r absent.2,other absent.1]

theorem Walked.ends (walked : Walked tab t change c rids c') (collected : Collected c t sel rids) :
    ∀ rid, tableOf c' t rid = (tableOf c t rid).bind (changed change sel) := by
  obtain ⟨inside,outside⟩ := walked.rows collected.once
  intro rid
  rw [tableOf,tableOf]
  by_cases mem : rid ∈ rids
  · obtain ⟨old,value,there,made_,now⟩ := inside rid mem
    obtain ⟨record,here,passed⟩ := (collected.selected rid).mp mem
    obtain rfl := Option.some.inj (there.symm.trans here)
    rw [now,there,Option.bind_some,changed,if_pos passed,made_]
    rfl
  · rw [outside rid mem]
    cases there : c (t,rid) with
    | none => rfl
    | some record =>
      have failed : ¬sel record = true := fun passed => mem ((collected.selected rid).mpr ⟨record,there,passed⟩)
      rw [Option.bind_some,changed,if_neg failed]

theorem Walked.goesOn (walked : Walked tab t change c front c') (collected : Collected c t sel (front ++ rid :: back))
    (sized : ∀ rid record, c (t,rid) = some record → record.length = recordSize)
    (all : ∀ rid record, c (t,rid) = some record → sel record = true → ∃ value, change record = .ok value)
    (before : ∀ index ∈ tab.indexes, UniqueKeys (tableOf c t) index)
    (finally_ : ∀ index ∈ tab.indexes, UniqueKeys (fun rid => (tableOf c t rid).bind (changed change sel)) index)
    (passes : Passes tab change recordSize) : ∃ old value, Accepts tab t change c' rid old value := by
  obtain ⟨onceF,_,apart⟩ := List.nodup_append.mp collected.once
  obtain ⟨inside,outside⟩ := walked.rows onceF
  have fresh : rid ∉ front := fun mem => apart rid mem rid List.mem_cons_self rfl
  have taken (r : Rid) (mem : r ∈ front ++ rid :: back) {record : Bytes} (there : c (t,r) = some record) : ∃ value,
      change record = .ok value ∧ (tableOf c t r).bind (changed change sel) = value := by
    obtain ⟨record',there',passed⟩ := (collected.selected r).mp mem
    obtain rfl := Option.some.inj (there.symm.trans there')
    obtain ⟨value,made_⟩ := all r record there passed
    refine ⟨value,made_,?_⟩
    rw [tableOf,there,Option.bind_some,changed,if_pos passed,made_]
    rfl
  obtain ⟨old,there,passed⟩ := (collected.selected rid).mp (List.mem_append_right _ List.mem_cons_self)
  obtain ⟨value,made_,final⟩ := taken rid (List.mem_append_right _ List.mem_cons_self) there
  refine ⟨old,value,(outside rid fresh).trans there,made_,fun index mem => ?_⟩
  rw [SmManager.tableUpdate]
  have rows (r : Rid) {record : Bytes} (here : Function.update (tableOf c' t) rid value r = some record) :
      (∃ was, c (t,r) = some was ∧ change was = .ok (some record) ∧ (tableOf c t r).bind (changed change sel) = some record) ∨
      c (t,r) = some record := by
    by_cases own : r = rid
    · rw [own,Function.update_self] at here
      exact .inl ⟨old,own ▸ there,by rw [made_,here],by rw [own,final,here]⟩
    · rw [Function.update_of_ne own] at here
      by_cases done : r ∈ front
      · obtain ⟨was,value',thereR,madeR,now⟩ := inside r done
        obtain ⟨value₂,made₂,final₂⟩ := taken r (List.mem_append_left _ done) thereR
        obtain rfl := Except.ok.inj (madeR.symm.trans made₂)
        have here : value' = some record := now.symm.trans here
        exact .inl ⟨was,thereR,by rw [madeR,here],by rw [final₂,here]⟩
      · exact .inr ((outside r done).symm.trans here)
  have mixed (a b : Rid) {ra rb was : Bytes} (thereA : c (t,a) = some was) (madeA : change was = .ok (some ra))
      (finalA : (tableOf c t a).bind (changed change sel) = some ra) (thereB : c (t,b) = some rb)
      (same : indexKey index ra = indexKey index rb) : a = b := by
    by_cases selected : sel rb = true
    · obtain ⟨value',madeB,finalB⟩ := taken b ((collected.selected b).mpr ⟨rb,thereB,selected⟩) thereB
      obtain ⟨new',rfl,key⟩ := passes index mem was rb ra value' (sized a was thereA) (sized b rb thereB) madeA madeB same
      exact finally_ index mem a b ra new' finalA finalB key.symm
    · have finalB : (tableOf c t b).bind (changed change sel) = some rb := by
        rw [tableOf,thereB,Option.bind_some,changed,if_neg selected]
      exact finally_ index mem a b ra rb finalA finalB same
  intro a b ra rb hereA hereB same
  rcases rows a hereA with ⟨wasA,thereA,madeA,finalA⟩ | thereA <;> rcases rows b hereB with ⟨wasB,thereB,madeB,finalB⟩ | thereB
  · exact finally_ index mem a b ra rb finalA finalB same
  · exact mixed a b thereA madeA finalA thereB same
  · exact (mixed b a thereB madeB finalB thereA same.symm).symm
  · exact before index mem a b ra rb thereA thereB same

theorem Walked.other (walked : Walked tab t change c rids c') {u : String} (apart : u ≠ t) : tableOf c' u = tableOf c u := by
  induction walked with
  | nil => rfl
  | cons _ _ ih => exact ih.trans (Database.otherUpdate apart)

def Fine (tab : TabMeta) (t : String) (change : Bytes → Except Fault (Option Bytes)) (sel : Bytes → Bool) (c : Contents) : Prop :=
  (∀ rid record, c (t,rid) = some record → sel record = true → ∃ value, change record = .ok value) ∧
    ∀ index ∈ tab.indexes, UniqueKeys (fun rid => (tableOf c t rid).bind (changed change sel)) index

end Walk

open Sessions (HoldsX)

section Locks
variable {s s' : TransactionManager} {t : Int} {tabName : String} {fdOf : String → Int} {fh : RmFileHandle} {e : Fault}

theorem lockThrows {id : LockDataId} {mode : LockMode} {p p' : Transaction × LockManager}
    (run : LockManager.lock id mode p = .error e p') : ∃ txn reason, e = .txnAbort txn reason := by
  rw [LockManager.lock,getBind] at run
  dsimp only at run
  split at run
  · cases run
    exact ⟨_,_,rfl⟩
  · rw [setBind] at run
    split at run
    · cases run
    · split at run
      · cases run
        exact ⟨_,_,rfl⟩
      · cases run

inductive TableLock (s : TransactionManager) (t fd : Int) : EStateM.Result Fault TransactionManager Unit → Prop where
  | refused {txn : Int} {reason : AbortReason} {s' : TransactionManager} (same : s'.smManager = s.smManager) :
      TableLock s t fd (.error (.txnAbort txn reason) s')
  | done {s' : TransactionManager} (same : s'.smManager = s.smManager) (safe : Safe s') (live : s'.Live t)
      (holds : HoldsX s' t fd) : TableLock s t fd (.ok () s')

theorem lockTableEnd (safe : Safe s) (live : s.Live t) (handle : s.smManager.fhs tabName = some fh) :
    TableLock s t (fdOf tabName) (lockTable fdOf t tabName s) := by
  have locked := @lockTableRun s t tabName fdOf safe live
  cases run : lockTable fdOf t tabName s with
  | ok _ s' =>
    rw [run] at locked
    cases locked with
    | done aside kept holds => exact .done aside.sm kept.safe kept.live holds
  | error e s' =>
    rw [run] at locked
    rw [lockTable,bindEq (tableFileRun handle)] at run
    rcases bindFails run with thrown | ⟨_,_,_,last⟩
    · obtain ⟨txn,found,_⟩ := live
      rw [withLocks,found] at thrown
      dsimp only at thrown
      rw [zoom] at thrown
      split at thrown
      · cases thrown
      · cases thrown
        obtain ⟨_,_,rfl⟩ := lockThrows ‹_›
        cases locked with
        | refused aside kept => exact .refused aside.sm
    · cases last

end Locks

section Loop
variable {s s' : TransactionManager} {t : Int} {txn : Transaction} {tab : TabMeta} {tabName : String} {fh : RmFileHandle}
  {change : Bytes → Except Fault (Option Bytes)} {wtype : WType} {sel : Bytes → Bool} {rids : List Rid} {fdOf : String → Int}

theorem rowsRun {f : Rid → M TransactionManager Unit} (quiet : ∀ rid, Quiet (f rid))
    (each : ∀ rid (s : TransactionManager) txn, s.txnMap t = some txn → s.smManager.Agreed →
      s.smManager.db.getTable tabName = .ok tab → RowEnd s t tab tabName change wtype rid (f rid s))
    (found : s.txnMap t = some txn) (agreed : s.smManager.Agreed) (listed : s.smManager.db.getTable tabName = .ok tab)
    (run : rids.forM f s = .ok () s') :
    Walked tab tabName change (contents s.smManager) rids (contents s'.smManager) ∧ s'.smManager.Agreed ∧
      s'.smManager.db = s.smManager.db ∧ SameLocks s s' := by
  induction rids generalizing s txn with
  | nil =>
    cases run
    exact ⟨.nil,agreed,rfl,.refl _⟩
  | cons rid rids ih =>
    have kept := quiet rid s
    have turned := each rid s txn found agreed listed
    rw [List.forM] at run
    obtain ⟨_,u,first,run⟩ := bindOk.mp run
    rw [first] at turned kept
    have same : SameLocks s u := kept
    cases turned with
    | done accepts row =>
      obtain ⟨txn',found',_⟩ := same.forth found
      obtain ⟨walked,agreed',db,later⟩ := ih found' row.change.agreed (by rw [row.change.db]; exact listed) run
      rw [row.change.contents] at walked
      exact ⟨.cons accepts walked,agreed',db.trans row.change.db,same.trans later⟩

inductive LoopEnd (fdOf : String → Int) (s : TransactionManager) (t : Int) (tab : TabMeta) (tabName : String)
    (change : Bytes → Except Fault (Option Bytes)) (sel : Bytes → Bool) : EStateM.Result Fault TransactionManager Unit → Prop where
  | done {s' : TransactionManager} (fine : Fine tab tabName change sel (contents s.smManager))
      (rows : ∀ rid, tableOf (contents s'.smManager) tabName rid =
        (tableOf (contents s.smManager) tabName rid).bind (changed change sel))
      (others : ∀ u, u ≠ tabName → tableOf (contents s'.smManager) u = tableOf (contents s.smManager) u)
      (holds : HoldsX s' t (fdOf tabName)) : LoopEnd fdOf s t tab tabName change sel (.ok () s')
  | refused {txn : Int} {reason : AbortReason} {s' : TransactionManager} (same : s'.smManager = s.smManager) :
      LoopEnd fdOf s t tab tabName change sel (.error (.txnAbort txn reason) s')
  | failed {e : Fault} {s' : TransactionManager} (never : ¬Fine tab tabName change sel (contents s.smManager)) :
      LoopEnd fdOf s t tab tabName change sel (.error e s')

theorem loopEnd {scan : SmManager → Visited} {new : M TransactionManager TabMeta} {f : TabMeta → Rid → M TransactionManager Unit}
    (safe : Safe s) (live : s.Live t) (agreed : s.smManager.Agreed) (table : s.smManager.HasTable tabName tab fh)
    (quiet : ∀ tab rid, Quiet (f tab rid))
    (opens : new = do
      let tab ← tableMeta tabName
      lockTable fdOf t tabName
      pure tab)
    (each : ∀ rid (s : TransactionManager) txn, s.txnMap t = some txn → s.smManager.Agreed →
      s.smManager.db.getTable tabName = .ok tab → RowEnd s t tab tabName change wtype rid (f tab rid s))
    (passes : Passes tab change fh.fileHdr.recordSize) (scanned : scan s.smManager = (rids,none))
    (collected : Collected (contents s.smManager) tabName sel rids) :
    LoopEnd fdOf s t tab tabName change sel ((do
      lockTable fdOf t tabName
      let rids ← Dml.collect scan
      let tab ← new
      rids.forM (f tab) : M TransactionManager Unit) s) := by
  have locked := @lockTableEnd s t tabName fdOf fh safe live table.handle
  cases run : lockTable fdOf t tabName s with
  | error e s₁ =>
    rw [run] at locked
    rw [bindError run]
    cases locked with
    | refused same => exact .refused same
  | ok _ s₁ =>
    rw [run] at locked
    rw [bindEq run]
    cases locked with
    | done same₁ safe₁ live₁ _ =>
      have collects : Dml.collect scan s₁ = .ok rids s₁ := by
        rw [Dml.collect,getBind,same₁,scanned]
        rfl
      have read : tableMeta tabName s₁ = .ok tab s₁ := by
        rw [tableMeta,getBind,same₁,table.listed]
        rfl
      rw [bindEq collects,opens,bind_assoc,bindEq read,bind_assoc]
      have again := @lockTableEnd s₁ t tabName fdOf fh safe₁ live₁ (by rw [same₁]; exact table.handle)
      cases run₂ : lockTable fdOf t tabName s₁ with
      | error e s₂ =>
        rw [run₂] at again
        rw [bindError run₂]
        cases again with
        | refused same => exact .refused (same.trans same₁)
      | ok _ s₂ =>
        rw [run₂] at again
        rw [bindEq run₂,pure_bind]
        cases again with
        | done same₂ safe₂ live₂ holds =>
          have same := same₂.trans same₁
          obtain ⟨txn,found,_⟩ := live₂
          have agreed₂ : s₂.smManager.Agreed := by rwa [same]
          have listed₂ : s₂.smManager.db.getTable tabName = .ok tab := by rw [same]; exact table.listed
          have rows := SmManager.tableContents table.handle
          cases last : rids.forM (f tab) s₂ with
          | ok _ s₃ =>
            obtain ⟨walked,agreed₃,db,locks⟩ := rowsRun (quiet tab) each found agreed₂ listed₂ last
            rw [same] at walked
            have ends := walked.ends collected
            refine .done ⟨fun rid record there passed => ?_,fun index mem => ?_⟩ ends (fun u apart => walked.other apart)
              (holds.same locks)
            · obtain ⟨old,value,here,made_,_⟩ := (walked.rows collected.once).1 rid
                ((collected.selected rid).mpr ⟨record,there,passed⟩)
              obtain rfl := Option.some.inj (there.symm.trans here)
              exact ⟨value,made_⟩
            · obtain ⟨fh',table',agree⟩ := agreed₃.tables tabName tab (by rw [db]; exact listed₂)
              obtain ⟨_,_,_,agrees⟩ := agree index mem
              rw [← funext ends,SmManager.tableContents table'.handle]
              exact agrees.unique
          | error e s₃ =>
            obtain ⟨front,rid,back,split,walked,never,_⟩ := rowsWalked (quiet tab) each rids found agreed₂ listed₂ last
            rw [same] at walked
            refine .failed fun fine => ?_
            have collected : Collected (contents s.smManager) tabName sel (front ++ rid :: back) := split ▸ collected
            obtain ⟨old,value,accepts⟩ := walked.goesOn collected
              (fun rid record there => table.sized rid record ((congrFun rows rid).symm.trans there)) fine.1
              (fun index mem => by
                obtain ⟨fh',table',agree⟩ := agreed.tables tabName tab table.listed
                obtain ⟨_,_,_,agrees⟩ := agree index mem
                rw [SmManager.tableContents table'.handle]
                exact agrees.unique) fine.2 passes
            exact never old value accepts

end Loop

section Insert
variable [FloatOps] {s : TransactionManager} {t : Int} {txn : Transaction} {tab : TabMeta} {tabName : String} {fh : RmFileHandle}
  {values : List Value} {record : Bytes} {rid : Rid}

omit [FloatOps] in
theorem insertChecked (valid : tab.Valid record.length) (agree : s.smManager.IndexesAgree tabName tab.indexes fh.records)
    (free : fh.records rid = none)
    (unique : ∀ index ∈ tab.indexes, UniqueKeys (Function.update fh.records rid (some record)) index) :
    InsertExecutor.checkUnique s.smManager tab tabName record = .ok () := by
  refine forMOk fun index mem => ?_
  obtain ⟨ih,m,has,agrees⟩ := agree index mem
  rw [SmManager.indexHandle,has.handle]
  refine (ensureUniqueRun has.cols has.maps (buildIndexKeyLength valid mem rfl)).mpr fun r held => ?_
  obtain ⟨there,here,equal⟩ := (agrees _ _).mp held
  have apart : r ≠ rid := by
    rintro rfl
    cases free.symm.trans here
  exact absurd (unique index mem r rid there record (by rw [Function.update_of_ne apart,here]) (Function.update_self ..)
    equal) apart

theorem insertRowEnd (found : s.txnMap t = some txn) (agreed : s.smManager.Agreed)
    (table : s.smManager.HasTable tabName tab fh) :
    (∃ record rid s', InsertExecutor.next t tab tabName values s = .ok () s' ∧
      InsertExecutor.makeRecord tab values fh.fileHdr.recordSize = .ok record ∧ fh.records rid = none ∧
      s.smManager.RowChange tabName rid (some record) s'.smManager) ∨
    ∃ e s', InsertExecutor.next t tab tabName values s = .error e s' ∧ ∀ record rid,
      InsertExecutor.makeRecord tab values fh.fileHdr.recordSize = .ok record → fh.records rid = none →
        ¬∀ index ∈ tab.indexes, UniqueKeys (Function.update fh.records rid (some record)) index := by
  obtain ⟨fh₁,table₁,agree⟩ := agreed.tables _ _ table.listed
  obtain rfl := table.open table₁.handle
  rw [InsertExecutor.next,bindEq (tableFileRun table.handle)]
  cases made : InsertExecutor.makeRecord tab values fh₁.fileHdr.recordSize with
  | error e => exact .inr ⟨e,s,rfl,fun record rid other => by cases other⟩
  | ok record =>
    rw [bindEq (ofExceptOk record s),getBind]
    have sized := makeRecordLength table.valid made
    cases checked : InsertExecutor.checkUnique s.smManager tab tabName record with
    | error e =>
      refine .inr ⟨e,s,rfl,fun record' rid same free unique => ?_⟩
      obtain rfl := Except.ok.inj same
      have fine := insertChecked (sized ▸ table.valid) agree free unique
      cases checked.symm.trans fine
    | ok _ =>
      rw [bindEq (ofExceptOk () s)]
      obtain ⟨lost,well⟩ := table.usable
      obtain ⟨rid,fh',put,well',free,records,extended⟩ := @RmFileHandle.insertRecordWell _ _ record well
      have unique := insertUnique (sized ▸ table.valid) agree free checked
      obtain ⟨sm',run,change⟩ := SmManager.addRow (f := fun index => do
          let sm ← get
          let _ ← ofExcept (sm.indexHandle tabName index)
          SmManager.onIndex tabName index (IxHandle.insertEntry (buildIndexKey index record) rid))
        agreed table ⟨lost,well'⟩ free records extended sized fun index mem => by
          rw [records]
          intro sm ih m has agrees
          have turned := SmManager.insertTurns table.valid mem sized free (unique index mem) sm ih m has agrees
          rw [getBind,SmManager.indexHandle,has.handle,bindEq (ofExceptOk ih sm)]
          exact turned
      let placed : TransactionManager := {s with
        smManager := {s.smManager with fhs := Function.update s.smManager.fhs tabName (some fh')}}
      have inserted : onSm (SmManager.onFile tabName (RmFileHandle.insertRecord record)) s = .ok rid placed :=
        onSmOk (onFileOk table.handle put)
      obtain ⟨u,txn',logged,aside,_⟩ := @logRecordAside placed t txn (.insertLogRecord t record rid tabName) found rfl
      let w : WriteRecord := ⟨.insertTuple,tabName,rid,[]⟩
      have entries : onSm (InsertExecutor.insertEntries tab tabName record rid) (u.noted t w) =
          .ok () {u.noted t w with smManager := sm'} := by
        refine onSmOk ?_
        rw [show (u.noted t w).smManager = u.smManager from rfl,aside.sm]
        exact run
      refine .inl ⟨record,rid,{u.noted t w with smManager := sm'},?_,rfl,free,change⟩
      rw [bindEq inserted,bindEq logged,bindEq (appendWriteRun w),entries]

end Insert
end TransactionManager

end Rmdb
