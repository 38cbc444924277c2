import Rmdb.Transaction.TxnLog
import Rmdb.Recovery.Replay

/-! Server lifetimes on one database directory, and whose record an id in `db.log` stands for. -/
namespace Rmdb
open Recovery RecoveryManager TransactionManager

def TransactionManager.boot (sm : SmManager) (logFile : List LogRecord) : TransactionManager :=
  ⟨0,0,fun _ => none,⟨fun _ => none⟩,⟨0,[],invalidLsn,logFile⟩,sm⟩

/- The server with what nobody in it can see: every transaction ever begun has a number of its own,
and each record of the log has an author. -/
structure Lifetimes where
  mgr : TransactionManager
  begun : Nat
  -- the transaction behind an id of this lifetime
  who : Int → Option Nat
  authors : List Nat

def Wrote (log : List LogRecord) (authors : List Nat) (r : LogRecord) (author : Nat) : Prop :=
  ∃ i : Nat, log[i]? = some r ∧ authors[i]? = some author

section Wrote
variable {log file : List LogRecord} {authors : List Nat} {r x : LogRecord} {author a : Nat}

theorem prefixGet {α : Type} {l l' : List α} {i : Nat} {a : α} (part : l <+: l') (here : l[i]? = some a) : l'[i]? = some a := by
  obtain ⟨rest,rfl⟩ := part
  rwa [List.getElem?_append_left (List.getElem?_eq_some_iff.mp here).1]

theorem Wrote.grown (wrote : Wrote file authors r author) (part : file <+: log) : Wrote log authors r author := by
  obtain ⟨i,here,by_⟩ := wrote
  exact ⟨i,prefixGet part here,by_⟩

theorem Wrote.take {n : Nat} (wrote : Wrote log (authors.take n) r author) : Wrote log authors r author := by
  obtain ⟨i,here,by_⟩ := wrote
  exact ⟨i,here,prefixGet (List.take_prefix n authors) by_⟩

theorem Wrote.mem (wrote : Wrote log authors r author) : r ∈ log := List.mem_of_getElem? wrote.choose_spec.1

theorem wroteAppend (same : authors.length = log.length) :
    Wrote (log ++ [x]) (authors ++ [a]) r author ↔ Wrote log authors r author ∨ (r = x ∧ author = a) := by
  constructor
  · rintro ⟨i,here,by_⟩
    rcases Nat.lt_trichotomy i log.length with low | rfl | high
    · rw [List.getElem?_append_left low] at here
      rw [List.getElem?_append_left (same ▸ low)] at by_
      exact .inl ⟨i,here,by_⟩
    · rw [List.getElem?_concat_length] at here
      rw [← same,List.getElem?_concat_length] at by_
      exact .inr ⟨(Option.some.inj here).symm,(Option.some.inj by_).symm⟩
    · rw [List.getElem?_eq_none (by simp; omega)] at here
      cases here
  · rintro (⟨i,here,by_⟩ | ⟨rfl,rfl⟩)
    · exact ⟨i,prefixGet (List.prefix_append _ _) here,prefixGet (List.prefix_append _ _) by_⟩
    · exact ⟨log.length,List.getElem?_concat_length,by rw [← same,List.getElem?_concat_length]⟩

theorem wroteSome (mem : r ∈ log) (long : log.length ≤ authors.length) : ∃ author, Wrote log authors r author := by
  obtain ⟨i,here⟩ := List.mem_iff_getElem?.mp mem
  have low := (List.getElem?_eq_some_iff.mp here).1
  exact ⟨authors[i],i,here,List.getElem?_eq_getElem _⟩

end Wrote

namespace Lifetimes

def file (s : Lifetimes) : List LogRecord := s.mgr.logManager.logFile

inductive Act where
  | begin
  | append (t : Int) (data : LogData)
  | flush
  | work
  | restart

/- What the statements and the ends of the transactions do as far as ids and the log go. A process
ends with or without a last `flush`; the next one finds the log file and whatever recovery makes of
the tables. -/
inductive Step : Lifetimes → Act → Lifetimes → Prop where
  | begin {s : Lifetimes} : Step s .begin ⟨after (begin none s.mgr),s.begun+1,
      Function.update s.who s.mgr.nextTxnId (some s.begun),s.authors ++ [s.begun]⟩
  | append {s : Lifetimes} {t : Int} {author : Nat} {data : LogData} (live : s.mgr.Live t) (known : s.who t = some author) :
      Step s (.append t data) {s with
        mgr := after (appendLog t ⟨invalidLsn,t,invalidLsn,data⟩ s.mgr)
        authors := s.authors ++ [author]}
  | flush {s : Lifetimes} : Step s .flush {s with mgr := after (flushLog s.mgr)}
  | work {s : Lifetimes} {mgr : TransactionManager} (next : mgr.nextTxnId = s.mgr.nextTxnId)
      (log : mgr.logManager = s.mgr.logManager) (txns : ∀ t, (mgr.txnMap t).isSome = (s.mgr.txnMap t).isSome) :
      Step s .work {s with mgr := mgr}
  | restart {s : Lifetimes} {sm : SmManager} : Step s .restart ⟨boot sm s.file,s.begun,fun _ => none,
      s.authors.take s.file.length⟩

def NewId (s : Lifetimes) : Act → Prop
  | .begin => ∀ r ∈ s.file, r.logTid ≠ s.mgr.nextTxnId
  | _ => True

def Unambiguous (s : Lifetimes) : Prop :=
  ∀ r r' author author', Wrote s.file s.authors r author → Wrote s.file s.authors r' author' →
    r.logTid = r'.logTid → author = author'

def RedoExact (s : Lifetimes) : Prop :=
  ∀ r author, Wrote s.file s.authors r author →
    (Committed s.file r.logTid ↔ ∃ r', Wrote s.file s.authors r' author ∧ r'.data = .commit)

def UndoExact (s : Lifetimes) : Prop :=
  ∀ r author, Wrote s.file s.authors r author →
    (Unfinished s.file r.logTid ↔ ¬∃ r', Wrote s.file s.authors r' author ∧ (r'.data = .commit ∨ r'.data = .abort))

structure Inv (s : Lifetimes) : Prop where
  sized : s.authors.length = s.mgr.log.length
  counter : 0 ≤ s.mgr.nextTxnId
  positive : ∀ r ∈ s.mgr.log, 0 ≤ r.logTid
  buffered : ∀ r ∈ s.mgr.logManager.logBuffer, r.logTid < s.mgr.nextTxnId
  below : ∀ r author, Wrote s.mgr.log s.authors r author → author < s.begun
  known : ∀ t author, s.who t = some author → 0 ≤ t ∧ t < s.mgr.nextTxnId ∧ author < s.begun
  apart : ∀ t t' author, s.who t = some author → s.who t' = some author → t = t'
  own : ∀ r author author', Wrote s.mgr.log s.authors r author → s.who r.logTid = some author' → author = author'
  named : ∀ r author t, Wrote s.mgr.log s.authors r author → s.who t = some author → r.logTid = t
  once : ∀ r r' author author', Wrote s.mgr.log s.authors r author → Wrote s.mgr.log s.authors r' author' →
    (r.logTid = r'.logTid ↔ author = author')

section Invariant
variable {s s' : Lifetimes} {mgr : TransactionManager} {t : Int} {author : Nat} {data : LogData}

theorem Inv.logged (inv : Inv s) (known : s.who t = some author) (logged : Logged s.mgr mgr t data) :
    Inv {s with mgr := mgr, authors := s.authors ++ [author]} := by
  obtain ⟨x,more,name,_⟩ := logged.log
  obtain ⟨low,high,young⟩ := inv.known t author known
  have next := logged.same.next
  have cases_ {r : LogRecord} {a : Nat} (wrote : Wrote mgr.log (s.authors ++ [author]) r a) :
      Wrote s.mgr.log s.authors r a ∨ (r.logTid = t ∧ a = author) := by
    rw [more] at wrote
    exact ((wroteAppend inv.sized).mp wrote).imp_right fun ⟨here,by_⟩ => ⟨here ▸ name,by_⟩
  refine ⟨?_,next ▸ inv.counter,?_,?_,?_,?_,inv.apart,?_,?_,?_⟩
  · rw [more,List.length_append,List.length_append,inv.sized,List.length_singleton,List.length_singleton]
  · intro r mem
    change r ∈ mgr.log at mem
    rw [more] at mem
    rcases List.mem_append.mp mem with old | new
    · exact inv.positive r old
    · rw [List.mem_singleton.mp new,name]
      exact low
  · intro r mem
    rcases bufferMem logged.file more mem with old | rfl
    · exact next ▸ inv.buffered r old
    · rw [name,next]
      exact high
  · intro r a wrote
    rcases cases_ wrote with old | ⟨_,rfl⟩
    · exact inv.below r a old
    · exact young
  · intro u a here
    rw [next]
    exact inv.known u a here
  · intro r a a' wrote here
    rcases cases_ wrote with old | ⟨same,rfl⟩
    · exact inv.own r a a' old here
    · rw [same,known] at here
      exact Option.some.inj here
  · intro r a u wrote here
    rcases cases_ wrote with old | ⟨same,rfl⟩
    · exact inv.named r a u old here
    · exact same.trans (inv.apart t u a known here)
  · intro r r' a a' wrote wrote'
    rcases cases_ wrote with old | ⟨same,rfl⟩
    · rcases cases_ wrote' with old' | ⟨same',rfl⟩
      · exact inv.once r r' a a' old old'
      · rw [same']
        exact ⟨fun here => inv.own r a a' old (here ▸ known),fun here => inv.named r a t old (here ▸ known)⟩
    · rcases cases_ wrote' with old' | ⟨same',rfl⟩
      · rw [same]
        exact ⟨fun here => (inv.own r' a' a old' (here ▸ known)).symm,
          fun here => (inv.named r' a' t old' (here ▸ known)).symm⟩
      · exact ⟨fun _ => rfl,fun _ => same.trans same'.symm⟩

theorem Inv.newTxn (inv : Inv s) (newId : ∀ r ∈ s.file, r.logTid ≠ s.mgr.nextTxnId) :
    Inv ⟨s.mgr.addTxn,s.begun+1,Function.update s.who s.mgr.nextTxnId (some s.begun),s.authors⟩ := by
  have unused (r : LogRecord) (mem : r ∈ s.mgr.log) : r.logTid ≠ s.mgr.nextTxnId := by
    rcases List.mem_append.mp mem with old | recent
    · exact newId r old
    · exact ne_of_lt (inv.buffered r recent)
  have split {u : Int} {a : Nat} (here : Function.update s.who s.mgr.nextTxnId (some s.begun) u = some a) :
      (u = s.mgr.nextTxnId ∧ a = s.begun) ∨ s.who u = some a := by
    rw [Function.update_apply] at here
    split at here
    · exact .inl ⟨‹_›,(Option.some.inj here).symm⟩
    · exact .inr here
  have counter := inv.counter
  refine ⟨inv.sized,?_,inv.positive,?_,?_,?_,?_,?_,?_,inv.once⟩
  · change 0 ≤ s.mgr.nextTxnId+1
    omega
  · intro r mem
    exact lt_trans (inv.buffered r mem) (lt_add_one _)
  · exact fun r a wrote => lt_trans (inv.below r a wrote) (lt_add_one _)
  · intro u a here
    change 0 ≤ u ∧ u < s.mgr.nextTxnId+1 ∧ a < s.begun+1
    rcases split here with ⟨rfl,rfl⟩ | old
    · exact ⟨counter,by omega,by omega⟩
    · obtain ⟨low,high,young⟩ := inv.known u a old
      exact ⟨low,by omega,by omega⟩
  · intro u u' a here here'
    rcases split here with ⟨rfl,rfl⟩ | old
    · rcases split here' with ⟨rfl,_⟩ | old'
      · rfl
      · exact absurd (inv.known u' _ old').2.2 (lt_irrefl _)
    · rcases split here' with ⟨rfl,rfl⟩ | old'
      · exact absurd (inv.known u _ old).2.2 (lt_irrefl _)
      · exact inv.apart u u' a old old'
  · intro r a a' wrote here
    rcases split here with ⟨same,_⟩ | old
    · exact absurd same (unused r wrote.mem)
    · exact inv.own r a a' wrote old
  · intro r a u wrote here
    rcases split here with ⟨_,rfl⟩ | old
    · exact absurd (inv.below r _ wrote) (lt_irrefl _)
    · exact inv.named r a u wrote old

theorem Inv.step {act : Act} (inv : Inv s) (step : Step s act s') (newId : NewId s act) : Inv s' := by
  cases step with
  | begin =>
    obtain ⟨mgr,run,logged⟩ := beginLogged s.mgr
    rw [run]
    exact (inv.newTxn newId).logged (Function.update_self ..) logged
  | @append t author data live known =>
    obtain ⟨txn,found,_⟩ := live
    obtain ⟨mgr,run,logged⟩ := @appendLogged s.mgr t txn ⟨invalidLsn,t,invalidLsn,data⟩ found rfl
    rw [run]
    exact inv.logged known logged
  | flush =>
    obtain ⟨mgr,run,log,file,same⟩ := flushed s.mgr
    rw [run]
    have empty : mgr.logManager.logBuffer = [] := by
      have all : mgr.logManager.logFile ++ mgr.logManager.logBuffer = s.mgr.log := log
      rw [file] at all
      exact List.append_right_eq_self.mp all
    change Inv {s with mgr := mgr}
    refine ⟨log ▸ inv.sized,same.next ▸ inv.counter,log ▸ inv.positive,?_,log ▸ inv.below,same.next ▸ inv.known,
      inv.apart,log ▸ inv.own,log ▸ inv.named,log ▸ inv.once⟩
    intro r mem
    rw [show ({s with mgr := mgr} : Lifetimes).mgr.logManager.logBuffer = [] from empty] at mem
    cases mem
  | @work mgr next log txns =>
    have all : mgr.log = s.mgr.log := congrArg LogManager.all log
    exact ⟨all ▸ inv.sized,next ▸ inv.counter,all ▸ inv.positive,by rw [log,next]; exact inv.buffered,all ▸ inv.below,
      next ▸ inv.known,inv.apart,all ▸ inv.own,all ▸ inv.named,all ▸ inv.once⟩
  | @restart sm =>
    have part : s.file <+: s.mgr.log := filePrefix s.mgr
    have all : (boot sm s.file).log = s.file := List.append_nil _
    have back {r : LogRecord} {a : Nat} (wrote : Wrote (boot sm s.file).log (s.authors.take s.file.length) r a) :
        Wrote s.mgr.log s.authors r a := by
      rw [all] at wrote
      exact wrote.take.grown part
    refine ⟨?_,le_refl _,?_,nofun,fun r a wrote => inv.below r a (back wrote),nofun,nofun,nofun,nofun,?_⟩
    · rw [all,List.length_take,inv.sized]
      exact min_eq_left part.length_le
    · intro r mem
      rw [all] at mem
      exact inv.positive r (part.subset mem)
    · exact fun r r' a a' wrote wrote' => inv.once r r' a a' (back wrote) (back wrote')

end Invariant
theorem Inv.unambiguous {s : Lifetimes} (inv : Inv s) : s.Unambiguous := fun r r' a a' wrote wrote' same =>
  (inv.once r r' a a' (wrote.grown (filePrefix s.mgr)) (wrote'.grown (filePrefix s.mgr))).mp same

theorem Inv.authored {s : Lifetimes} {r : LogRecord} {author : Nat} (inv : Inv s) (P : LogData → Prop)
    (wrote : Wrote s.file s.authors r author) :
    (∃ r' ∈ s.file, P r'.data ∧ r'.logTid = r.logTid) ↔ ∃ r', Wrote s.file s.authors r' author ∧ P r'.data := by
  have part : s.file <+: s.mgr.log := filePrefix s.mgr
  constructor
  · rintro ⟨r',mem,kind,same⟩
    obtain ⟨author',wrote'⟩ := wroteSome mem (part.length_le.trans inv.sized.ge)
    obtain rfl := inv.unambiguous r' r author' author wrote' wrote same
    exact ⟨r',wrote',kind⟩
  · rintro ⟨r',wrote',kind⟩
    exact ⟨r',wrote'.mem,kind,(inv.once r' r author author (wrote'.grown part) (wrote.grown part)).mpr rfl⟩

theorem Inv.redoExact {s : Lifetimes} (inv : Inv s) : s.RedoExact := by
  intro r author wrote
  rw [← inv.authored (· = .commit) wrote,Committed,committedTxns]
  simp only [List.mem_map,List.mem_filter,decide_eq_true_eq,and_assoc]

theorem Inv.undoExact {s : Lifetimes} (inv : Inv s) : s.UndoExact := by
  intro r author wrote
  have part : s.file <+: s.mgr.log := filePrefix s.mgr
  have positive := inv.positive r (part.subset wrote.mem)
  have listed : r.logTid ∈ allTxns s.file := by
    rw [allTxns,List.mem_filter]
    refine ⟨List.mem_map_of_mem wrote.mem,decide_eq_true fun same => ?_⟩
    rw [same] at positive
    cases positive
  rw [← inv.authored (fun data => data = .commit ∨ data = .abort) wrote,Unfinished,finishedTxns,and_iff_right listed]
  simp only [List.mem_map,List.mem_filter,decide_eq_true_eq,and_assoc]

def first (sm : SmManager) : Lifetimes := ⟨boot sm [],0,fun _ => none,[]⟩

theorem firstInv (sm : SmManager) : Inv (first sm) := by
  have none (r : LogRecord) (a : Nat) : ¬Wrote (first sm).mgr.log (first sm).authors r a := fun wrote => nomatch wrote.mem
  exact ⟨rfl,le_refl _,nofun,nofun,fun r a wrote => absurd wrote (none r a),nofun,nofun,nofun,nofun,
    fun r _ a _ wrote => absurd wrote (none r a)⟩

theorem idsUnambiguous (sm : SmManager) (s : Lifetimes)
    (run : Relation.ReflTransGen (fun s s' => ∃ act, Step s act s' ∧ NewId s act) (first sm) s) :
    s.Unambiguous ∧ s.RedoExact ∧ s.UndoExact := by
  have inv : Inv s := by
    induction run with
    | refl => exact firstInv sm
    | tail _ move ih =>
      obtain ⟨act,step,newId⟩ := move
      exact ih.step step newId
  exact ⟨inv.unambiguous,inv.redoExact,inv.undoExact⟩

def nothing : SmManager := ⟨⟨"db",[]⟩,fun _ => none,fun _ => none⟩

def begins (s : Lifetimes) : Lifetimes := ⟨after (begin none s.mgr),s.begun+1,
  Function.update s.who s.mgr.nextTxnId (some s.begun),s.authors ++ [s.begun]⟩

def appends (s : Lifetimes) (author : Nat) (data : LogData) : Lifetimes := {s with
  mgr := after (appendLog 0 ⟨invalidLsn,0,invalidLsn,data⟩ s.mgr)
  authors := s.authors ++ [author]}

def flushes (s : Lifetimes) : Lifetimes := {s with mgr := after (flushLog s.mgr)}

def restarts (s : Lifetimes) : Lifetimes := ⟨boot nothing s.file,s.begun,fun _ => none,s.authors.take s.file.length⟩

def insertedRow : Lifetimes := flushes (appends (begins (first nothing)) 0 (.insert [7] ⟨1,0⟩ "t"))

def reused : Lifetimes := flushes (appends (begins (restarts insertedRow)) 1 .commit)

theorem idsRestart : Relation.ReflTransGen (fun s s' => ∃ act, Step s act s') (first nothing) reused ∧
    ¬reused.Unambiguous ∧ ¬reused.RedoExact ∧ ¬reused.UndoExact := by
  have live {s : Lifetimes} (here : (s.mgr.txnMap 0).map (fun txn => ended txn.state) = some false) : s.mgr.Live 0 :=
    Option.map_eq_some_iff.mp here
  refine ⟨?_,?_⟩
  · refine .head ⟨_,.begin⟩ (.head ⟨_,.append (t := 0) (live (by decide +kernel)) (by decide +kernel)⟩
      (.head ⟨_,.flush⟩ (.head ⟨_,.restart⟩ (.head ⟨_,.begin⟩
        (.head ⟨_,.append (t := 0) (live (by decide +kernel)) (by decide +kernel)⟩ (.single ⟨_,.flush⟩))))))
  · have file : reused.file = [⟨0,0,-1,.begin⟩,⟨1,0,0,.insert [7] ⟨1,0⟩ "t"⟩,⟨0,0,-1,.begin⟩,⟨1,0,0,.commit⟩] := by
      decide +kernel
    have authors : reused.authors = [0,0,1,1] := by decide +kernel
    have row : Wrote reused.file reused.authors ⟨1,0,0,.insert [7] ⟨1,0⟩ "t"⟩ 0 := by
      rw [file,authors]
      exact ⟨1,rfl,rfl⟩
    have commit : Wrote reused.file reused.authors ⟨1,0,0,.commit⟩ 1 := by
      rw [file,authors]
      exact ⟨3,rfl,rfl⟩
    have open_ {r : LogRecord} (wrote : Wrote reused.file reused.authors r 0) : r.data ≠ .commit ∧ r.data ≠ .abort := by
      obtain ⟨i,here,by_⟩ := wrote
      rw [file] at here
      rw [authors] at by_
      match i,here,by_ with
      | 0,here,_ =>
        cases here
        exact ⟨nofun,nofun⟩
      | 1,here,_ =>
        cases here
        exact ⟨nofun,nofun⟩
      | i+2,_,by_ =>
        have late : (0 : Nat) ∈ [1,1] := @List.mem_of_getElem? _ _ i _ by_
        exact absurd late (by decide)
    refine ⟨fun holds => ?_,fun holds => ?_,fun holds => ?_⟩
    · have same := holds _ _ _ _ row commit rfl
      cases same
    · obtain ⟨r,wrote,kind⟩ := (holds _ _ row).mp (by rw [file]; decide)
      exact (open_ wrote).1 kind
    · have loser := (holds _ _ row).mpr fun ⟨r,wrote,kind⟩ => kind.elim (open_ wrote).1 (open_ wrote).2
      rw [file] at loser
      exact absurd loser (by decide)

def lostBuffer : Lifetimes := flushes (appends (begins (restarts (begins (first nothing)))) 1 .commit)

theorem lostBufferUnambiguous : lostBuffer.Unambiguous ∧ lostBuffer.RedoExact ∧ lostBuffer.UndoExact := by
  refine idsUnambiguous nothing lostBuffer ?_
  have live : (begins (restarts (begins (first nothing)))).mgr.Live 0 := Option.map_eq_some_iff.mp (by decide +kernel)
  have empty : (restarts (begins (first nothing))).file = [] := by decide +kernel
  refine .head ⟨_,.begin,nofun⟩ (.head ⟨_,.restart,trivial⟩ (.head ⟨_,.begin,?_⟩
    (.head ⟨_,.append (t := 0) live (by decide +kernel),trivial⟩ (.single ⟨_,.flush,trivial⟩))))
  intro r mem
  exact nomatch (empty ▸ mem : r ∈ [])

end Lifetimes
end Rmdb
