import Rmdb.Execution.Executors

/-! The reply of `client_handler`: what `RecordPrinter`, `show_index`, `run_cmd_utility` and the
error paths store into `data_send`, which has `BUFFER_LENGTH` bytes. -/
namespace Rmdb

def bufferLength : Nat := 8192
def recordCountLength : Nat := 40

def text (s : String) : Bytes := s.toUTF8.data.toList

def decimal (n : Nat) : Bytes := if n = 0 then [48] else (Nat.digits 10 n).reverse.map fun d => UInt8.ofNat (48+d)

def decimalInt (n : Int) : Bytes := if n < 0 then 45 :: decimal n.natAbs else decimal n.natAbs

def nameList (tab : String) (cols : List String) : Bytes :=
  text tab ++ text ".(" ++ (text ", ").intercalate (cols.map text) ++ text ")"

def RMDBError.what (e : RMDBError) : Bytes := text "Error: " ++ match e with
  | .plain msg => text msg
  | .internal msg => text msg
  | .unix reason => text reason
  | .fileExists path => text "File already exists: " ++ text path
  | .fileNotFound path => text "File not found: " ++ text path
  | .fileNotClosed path => text "File is opened: " ++ text path
  | .pageNotExist table pageNo => text "Page " ++ decimalInt pageNo ++ text " in table " ++ text table ++ text "not exits"
  | .recordNotFound pageNo slotNo =>
    text "Record not found: (" ++ decimalInt pageNo ++ text "," ++ decimalInt slotNo ++ text ")"
  | .invalidRecordSize size => text "Invalid record size: " ++ decimalInt size
  | .invalidColLength len => text "Invalid column length: " ++ decimalInt len
  | .indexEntryNotFound => text "Index entry not found"
  | .tableNotFound name => text "Table not found: " ++ text name
  | .tableExists name => text "Table already exists: " ++ text name
  | .columnNotFound name => text "Column not found: " ++ text name
  | .indexNotFound tab cols => text "Index not found: " ++ nameList tab cols
  | .indexExists tab cols => text "Index already exists: " ++ nameList tab cols
  | .invalidValueCount => text "Invalid value count"
  | .stringOverflow => text "String is too long"
  | .incompatibleType lhs rhs => text "Incompatible type error: lhs " ++ text lhs ++ text ", rhs " ++ text rhs
  | .numericOverflow target => text "Numeric value out of range for " ++ text target
  | .invalidDateTime value => text "Invalid datetime literal: " ++ value
  | .ambiguousColumn name => text "Ambiguous column: " ++ text name

structure Reply where
  dataSend : Bytes
  offset : Nat
  ellipsis : Bool

namespace Reply

def fresh : Reply := ⟨List.replicate bufferLength 0,0,false⟩

def memcpy (pos : Nat) (src : Bytes) : M Reply Unit := do
  let s ← get
  if pos+src.length ≤ s.dataSend.length then set {s with dataSend := copyInto s.dataSend pos src} else throw .outOfRange

def append (str : Bytes) : M Reply Unit := do
  let s ← get
  memcpy s.offset str
  modify fun s => {s with offset := s.offset+str.length}

/- Appends what leaves `reserve` bytes free; `marks` tells whether it notes that something is missing. -/
def appendGuarded (reserve : Nat) (marks : Bool) (str : Bytes) : M Reply Unit := do
  let s ← get
  if s.ellipsis = false ∧ s.offset+reserve+str.length < bufferLength then append str
  else if marks then set {s with ellipsis := true} else pure ()

end Reply

namespace RecordPrinter
open Reply

def colWidth : Nat := 16

def printSeparator (numCols : Nat) : M Reply Unit := do
  (List.replicate numCols (text "+" ++ List.replicate (colWidth+2) 45)).forM (appendGuarded recordCountLength true)
  appendGuarded recordCountLength true (text "+\n")

def cell (col : Bytes) : Bytes :=
  let shown := if colWidth < col.length then col.take (colWidth-3) ++ text "..." else col
  text "| " ++ List.replicate (colWidth-shown.length) 32 ++ shown ++ text " "

def printRecord (numCols : Nat) (recStr : List Bytes) : M Reply Unit := do
  assert (recStr.length = numCols) "rec_str.size() == num_cols"
  (recStr.map cell).forM (appendGuarded recordCountLength true)
  appendGuarded recordCountLength false (text "|\n")

def recordCountLine (ellipsis : Bool) (numRec : Nat) : Bytes :=
  (if ellipsis then text "... ...\n" else []) ++ text "Total record(s): " ++ decimal numRec ++ text "\n"

def printRecordCount (numRec : Nat) : M Reply Unit := do
  let s ← get
  append (recordCountLine s.ellipsis numRec)

end RecordPrinter

structure ShownTable where
  name : String
  cols : List (ColMeta × Bool)
  indexes : List (List ColMeta)

structure Selection where
  captions : List Bytes
  rows : List (List Bytes)
  wide : captions ≠ []
  square : ∀ row ∈ rows, row.length = captions.length
  few : rows.length < 10^14

inductive Ending where
  | done
  | aborted (txn : Int) (reason : AbortReason)
  | failed (e : RMDBError)

def Ending.error : Ending → Option RMDBError
  | .failed e => some e
  | _ => none

inductive Statement where
  | help
  | showTables
  | descTable (tabName : String)
  | showIndex (tabName : String)
  | select (selection : Selection)
  | other

inductive Request where
  | syntaxError
  | rejected (e : RMDBError)
  | statement (stmt : Statement) (ending : Ending)

namespace Reply
open RecordPrinter

def raiseEnd : Ending → M Reply Unit
  | .done => pure ()
  | .aborted txn reason => throw (.txnAbort txn reason)
  | .failed e => raise e

def showTables (tabs : List (String × ShownTable)) : M Reply Unit := do
  printSeparator 1
  printRecord 1 [text "Tables"]
  printSeparator 1
  tabs.forM fun entry => printRecord 1 [text entry.2.name]
  printSeparator 1

def getTable (tabs : List (String × ShownTable)) (tabName : String) : M Reply ShownTable :=
  match tabs.lookup tabName with
  | some tab => pure tab
  | none => raise (.tableNotFound tabName)

def descTable (tabs : List (String × ShownTable)) (tabName : String) : M Reply Unit := do
  let tab ← getTable tabs tabName
  printSeparator 3
  printRecord 3 [text "Field",text "Type",text "Index"]
  printSeparator 3
  tab.cols.forM fun (col,index) =>
    printRecord 3 [text col.name,text (coltype2str col.type),text (if index then "YES" else "NO")]
  printSeparator 3

def indexLine (tabName : String) (cols : List ColMeta) : Bytes :=
  text "| " ++ text tabName ++ text " | unique | (" ++ (text ",").intercalate (cols.map fun col => text col.name) ++
    text ") |\n"

def showIndex (tabs : List (String × ShownTable)) (tabName : String) : M Reply Unit := do
  let tab ← getTable tabs tabName
  tab.indexes.forM fun cols => appendGuarded 0 true (indexLine tab.name cols)

/- `select_from`; an exception of an executor comes after some rows. -/
def selectFrom (selection : Selection) (ending : Ending) : M Reply Unit := do
  let numCols := selection.captions.length
  assert (0 < numCols) "num_cols_ > 0"
  printSeparator numCols
  printRecord numCols selection.captions
  printSeparator numCols
  selection.rows.forM (printRecord numCols)
  raiseEnd ending
  printSeparator numCols
  printRecordCount selection.rows.length

def helpLines : List String := [
  "Supported SQL syntax:",
  "  command ;",
  "command:",
  "  CREATE TABLE table_name (column_name type [, column_name type ...])",
  "  DROP TABLE table_name",
  "  CREATE INDEX table_name (column_name)",
  "  DROP INDEX table_name (column_name)",
  "  SHOW INDEX FROM table_name",
  "  INSERT INTO table_name VALUES (value [, value ...])",
  "  DELETE FROM table_name [WHERE where_clause]",
  "  UPDATE table_name SET column_name = value [, column_name = value ...] [WHERE where_clause]",
  "  SELECT selector FROM table_name [WHERE where_clause]",
  "type:",
  "  \x7bINT | BIGINT | FLOAT | CHAR(n) | DATETIME\x7d",
  "where_clause:",
  "  condition [AND condition ...]",
  "condition:",
  "  column op \x7bcolumn | value\x7d",
  "column:",
  "  [table_name.]column_name",
  "op:",
  "  \x7b= | <> | < | > | <= | >=\x7d",
  "selector:",
  "  \x7b* | column [, column ...]\x7d"]

def helpInfo : Bytes := helpLines.flatMap fun line => text line ++ text "\n"

def help : M Reply Unit := do
  let s ← get
  memcpy s.offset helpInfo
  modify fun s => {s with offset := helpInfo.length}

def run (tabs : List (String × ShownTable)) (ending : Ending) : Statement → M Reply Unit
  | .help => do help; raiseEnd ending
  | .showTables => do showTables tabs; raiseEnd ending
  | .descTable tabName => do descTable tabs tabName; raiseEnd ending
  | .showIndex tabName => do showIndex tabs tabName; raiseEnd ending
  | .select selection => selectFrom selection ending
  | .other => raiseEnd ending

def storeMessage (msg : Bytes) : M Reply Unit := do
  memcpy 0 msg
  memcpy msg.length [10]
  memcpy (msg.length+1) [0]
  modify fun s => {s with offset := msg.length+1}

def storeAbort : M Reply Unit := do
  memcpy 0 (text "abort\n")
  memcpy (text "abort\n").length [0]
  modify fun s => {s with offset := (text "abort\n").length}

def caught (x : M Reply Unit) : M Reply Unit := fun s =>
  match x s with
  | .ok _ t => .ok () t
  | .error (.error e) t => storeMessage e.what t
  | .error (.txnAbort _ _) t => storeAbort t
  | .error e t => .error e t

def clientHandler (tabs : List (String × ShownTable)) : Request → M Reply Unit
  | .syntaxError => storeMessage (text "syntax error")
  | .rejected e => caught (raise e)
  | .statement stmt ending => caught (run tabs ending stmt)

def send : M Reply Bytes := do
  let s ← get
  if s.offset+1 ≤ s.dataSend.length then pure (s.dataSend.take (s.offset+1)) else throw .outOfRange

def respond (tabs : List (String × ShownTable)) (request : Request) : M Reply Bytes := do
  clientHandler tabs request
  send

section Appends

structure Inside (room : Nat) (s : Reply) : Prop where
  length : s.dataSend.length = bufferLength
  short : s.offset+room < bufferLength

def Prints (room : Nat) (x : M Reply Unit) : Prop := ∀ s, Inside room s → ∃ t, x s = .ok () t ∧ Inside room t

variable {room : Nat} {x y : M Reply Unit} {s : Reply}

theorem Prints.bind (first : Prints room x) (second : Prints room y) : Prints room (x >>= fun _ => y) := by
  intro s inside
  obtain ⟨t,run,still⟩ := first s inside
  obtain ⟨u,rest,last⟩ := second t still
  exact ⟨u,by rw [bindEq run,rest],last⟩

theorem Prints.forM {α : Type} {f : α → M Reply Unit} {xs : List α} (each : ∀ a ∈ xs, Prints room (f a)) :
    Prints room (xs.forM f) := by
  induction xs with
  | nil => exact fun s inside => ⟨s,rfl,inside⟩
  | cons a xs ih =>
    change Prints room (f a >>= fun _ => xs.forM f)
    exact (each a List.mem_cons_self).bind (ih fun b mem => each b (List.mem_cons_of_mem _ mem))

theorem copyLength {buffer src : Bytes} {pos : Nat} (fits : pos+src.length ≤ buffer.length) :
    (copyInto buffer pos src).length = buffer.length := by
  rw [copyInto,List.length_append,List.length_append,List.length_take,List.length_drop]
  omega

theorem memcpyRun {pos : Nat} {src : Bytes} (fits : pos+src.length ≤ s.dataSend.length) :
    memcpy pos src s = .ok () {s with dataSend := copyInto s.dataSend pos src} := by
  rw [memcpy,getBind,if_pos fits]
  rfl

theorem memcpyOutside {pos : Nat} {src : Bytes} (outside : s.dataSend.length < pos+src.length) :
    memcpy pos src s = .error .outOfRange s := by
  rw [memcpy,getBind,if_neg (Nat.not_le.mpr outside)]
  rfl

theorem appendRun {str : Bytes} (inside : s.dataSend.length = bufferLength) (fits : s.offset+str.length ≤ bufferLength) :
    append str s = .ok () {s with dataSend := copyInto s.dataSend s.offset str, offset := s.offset+str.length} := by
  rw [append,getBind,bindEq (memcpyRun (inside ▸ fits))]
  rfl

theorem appendGuardedPrints (marks : Bool) (str : Bytes) : Prints room (appendGuarded room marks str) := by
  intro s inside
  rw [appendGuarded,getBind]
  split
  · rename_i free
    have fits : s.offset+str.length ≤ bufferLength := by omega
    refine ⟨_,appendRun inside.length fits,(copyLength (inside.length ▸ fits)).trans inside.length,?_⟩
    dsimp only
    omega
  · split
    · exact ⟨_,rfl,inside.length,inside.short⟩
    · exact ⟨s,rfl,inside⟩

theorem assertPrints {p : Prop} [Decidable p] (holds : p) (text : String) : Prints room (assert p text) :=
  fun s inside => ⟨s,assertRun holds s,inside⟩

theorem separatorPrints (numCols : Nat) : Prints recordCountLength (printSeparator numCols) :=
  Prints.bind (.forM fun _ _ => appendGuardedPrints _ _) (appendGuardedPrints _ _)

theorem recordPrints {numCols : Nat} {recStr : List Bytes} (square : recStr.length = numCols) :
    Prints recordCountLength (printRecord numCols recStr) :=
  (assertPrints square _).bind ((Prints.forM fun _ _ => appendGuardedPrints _ _).bind (appendGuardedPrints _ _))

theorem textLength (s : String) : (text s).length = s.utf8ByteSize := by simp [text]

theorem decimalLength {n k : Nat} (small : n < 10^k) (positive : 0 < k) : (decimal n).length ≤ k := by
  rw [decimal]
  split
  · exact positive
  · rw [List.length_map,List.length_reverse]
    exact (Nat.digits_length_le_iff (by norm_num) n).mpr small

theorem recordCountFits {ellipsis : Bool} {n : Nat} (few : n < 10^14) :
    (recordCountLine ellipsis n).length ≤ recordCountLength := by
  have digits := decimalLength few (by norm_num)
  have label : (text "Total record(s): ").length = 17 := by rw [textLength]; decide
  have newline : (text "\n").length = 1 := by rw [textLength]; decide
  have dots : (if ellipsis then text "... ...\n" else []).length ≤ 8 := by
    split
    · rw [textLength]
      decide
    · exact Nat.zero_le _
  simp only [recordCountLine,List.length_append,recordCountLength]
  omega

theorem recordCountRun {n : Nat} (few : n < 10^14) (inside : Inside recordCountLength s) :
    ∃ t, printRecordCount n s = .ok () t ∧ Inside 0 t := by
  have line : (recordCountLine s.ellipsis n).length ≤ recordCountLength := recordCountFits few
  have short := inside.short
  have fits : s.offset+(recordCountLine s.ellipsis n).length ≤ bufferLength := by omega
  refine ⟨_,appendRun inside.length fits,(copyLength (inside.length ▸ fits)).trans inside.length,?_⟩
  dsimp only
  omega

end Appends

section Runs
variable {tabs : List (String × ShownTable)} {s : Reply}

theorem freshInside {room : Nat} (small : room < bufferLength) : Inside room fresh :=
  ⟨List.length_replicate,by rwa [fresh,Nat.zero_add]⟩

theorem reserved : recordCountLength < bufferLength := by decide

theorem Inside.less {room : Nat} (inside : Inside room s) : Inside 0 s := ⟨inside.length,by have := inside.short; omega⟩

theorem showTablesPrints : Prints recordCountLength (showTables tabs) :=
  (separatorPrints 1).bind ((recordPrints rfl).bind ((separatorPrints 1).bind
    ((Prints.forM fun _ _ => recordPrints rfl).bind (separatorPrints 1))))

theorem helpRun : ∃ t, help fresh = .ok () t ∧ Inside 0 t := by
  have length : helpInfo.length < bufferLength := by decide +kernel
  have fits : 0+helpInfo.length ≤ fresh.dataSend.length := by
    rw [fresh,List.length_replicate]
    omega
  have run : help fresh = .ok () ⟨copyInto fresh.dataSend 0 helpInfo,helpInfo.length,fresh.ellipsis⟩ := by
    rw [help,getBind,show fresh.offset = 0 from rfl,bindEq (memcpyRun fits)]
    rfl
  exact ⟨_,run,(copyLength fits).trans List.length_replicate,length⟩

def raised (tabs : List (String × ShownTable)) : Request → Option RMDBError
  | .syntaxError => none
  | .rejected e => some e
  | .statement stmt ending =>
    match stmt with
    | .descTable tabName => if (tabs.lookup tabName).isNone then some (.tableNotFound tabName) else ending.error
    | .showIndex tabName => if (tabs.lookup tabName).isNone then some (.tableNotFound tabName) else ending.error
    | _ => ending.error

inductive Ends : Option RMDBError → EStateM.Result Fault Reply Unit → Prop
  | done {t : Reply} (inside : Inside 0 t) : Ends none (.ok () t)
  | aborted {t : Reply} {txn : Int} {reason : AbortReason} (inside : Inside 0 t) : Ends none (.error (.txnAbort txn reason) t)
  | failed {t : Reply} {e : RMDBError} (inside : Inside 0 t) : Ends (some e) (.error (.error e) t)

theorem raiseEnds {ending : Ending} (inside : Inside 0 s) : Ends ending.error (raiseEnd ending s) := by
  cases ending with
  | done => exact .done inside
  | aborted txn reason => exact .aborted inside
  | failed e => exact .failed inside

theorem Prints.ends {room : Nat} {x : M Reply Unit} (prints : Prints room x) (small : room < bufferLength) {ending : Ending} :
    Ends ending.error ((x >>= fun _ => raiseEnd ending) fresh) := by
  obtain ⟨t,run,inside⟩ := prints fresh (freshInside small)
  rw [bindEq run]
  exact raiseEnds inside.less

theorem getTableEnds {tabName : String} {room : Nat} {show_ : ShownTable → M Reply Unit} {ending : Ending}
    (prints : ∀ tab, Prints room (show_ tab)) (small : room < bufferLength) :
    Ends (if (tabs.lookup tabName).isNone then some (.tableNotFound tabName) else ending.error)
      ((do (do let tab ← getTable tabs tabName; show_ tab); raiseEnd ending : M Reply Unit) fresh) := by
  cases found : tabs.lookup tabName with
  | none =>
    have missing : (getTable tabs tabName) fresh = .error (.error (.tableNotFound tabName)) fresh := by
      rw [getTable,found]
      rfl
    rw [bindError (bindError missing)]
    exact .failed (freshInside (by decide))
  | some tab =>
    have there : (getTable tabs tabName) fresh = .ok tab fresh := by
      rw [getTable,found]
      rfl
    obtain ⟨t,run,inside⟩ := prints tab fresh (freshInside small)
    rw [bindEq ((bindEq there).trans run)]
    exact raiseEnds inside.less

theorem selectEnds {selection : Selection} {ending : Ending} : Ends ending.error (selectFrom selection ending fresh) := by
  set numCols := selection.captions.length with width
  have rows : Prints recordCountLength (selection.rows.forM (printRecord numCols)) :=
    .forM fun row mem => recordPrints (selection.square row mem)
  obtain ⟨s₁,asserted,inside₁⟩ := assertPrints (List.length_pos_iff.mpr selection.wide) "num_cols_ > 0" fresh
    (freshInside reserved)
  obtain ⟨s₂,top,inside₂⟩ := separatorPrints numCols s₁ inside₁
  obtain ⟨s₃,captions,inside₃⟩ := @recordPrints _ selection.captions rfl s₂ inside₂
  obtain ⟨s₄,under,inside₄⟩ := separatorPrints numCols s₃ inside₃
  obtain ⟨s₅,printed,inside₅⟩ := rows s₄ inside₄
  rw [selectFrom,bindEq asserted,bindEq top,bindEq captions,bindEq under,bindEq printed]
  cases ending with
  | done =>
    obtain ⟨s₆,bottom,inside₆⟩ := separatorPrints numCols s₅ inside₅
    obtain ⟨s₇,count,inside₇⟩ := recordCountRun selection.few inside₆
    rw [bindEq (show raiseEnd .done s₅ = .ok () s₅ from rfl),bindEq bottom,count]
    exact .done inside₇
  | aborted txn reason => exact .aborted inside₅.less
  | failed e => exact .failed inside₅.less

theorem runEnds (stmt : Statement) (ending : Ending) :
    Ends (raised tabs (.statement stmt ending)) (run tabs ending stmt fresh) := by
  cases stmt with
  | help =>
    obtain ⟨t,run,inside⟩ := helpRun
    rw [Reply.run,bindEq run]
    exact raiseEnds inside
  | showTables =>
    rw [Reply.run]
    exact showTablesPrints.ends reserved
  | descTable tabName =>
    rw [Reply.run,descTable]
    refine getTableEnds (fun tab => ?_) reserved
    exact (separatorPrints 3).bind ((recordPrints rfl).bind ((separatorPrints 3).bind
      ((Prints.forM fun _ _ => recordPrints rfl).bind (separatorPrints 3))))
  | showIndex tabName =>
    rw [Reply.run,showIndex]
    exact getTableEnds (fun tab => .forM fun _ _ => appendGuardedPrints _ _) (show 0 < bufferLength by decide)
  | select selection => exact selectEnds
  | other => exact raiseEnds (freshInside (by decide))

theorem storeMessageRun {msg : Bytes} (inside : s.dataSend.length = bufferLength) (short : msg.length+2 ≤ bufferLength) :
    ∃ t, storeMessage msg s = .ok () t ∧ Inside 0 t := by
  have body : 0+msg.length ≤ s.dataSend.length := by omega
  have copied := (copyLength body).trans inside
  have newline : msg.length+[(10 : UInt8)].length ≤ (copyInto s.dataSend 0 msg).length := by
    rw [copied,List.length_singleton]
    omega
  have ended := (copyLength newline).trans copied
  have terminator : msg.length+1+[(0 : UInt8)].length ≤ (copyInto (copyInto s.dataSend 0 msg) msg.length [10]).length := by
    rw [ended,List.length_singleton]
    omega
  have last := (copyLength terminator).trans ended
  rw [storeMessage,bindEq (memcpyRun body),bindEq (memcpyRun newline),bindEq (memcpyRun terminator)]
  exact ⟨_,rfl,last,by dsimp only; omega⟩

theorem storeMessageOutside {msg : Bytes} (inside : s.dataSend.length = bufferLength) (long : bufferLength < msg.length+2) :
    ∃ t, storeMessage msg s = .error .outOfRange t := by
  rw [storeMessage]
  by_cases body : 0+msg.length ≤ s.dataSend.length
  · have copied := (copyLength body).trans inside
    rw [bindEq (memcpyRun body)]
    by_cases newline : msg.length+[(10 : UInt8)].length ≤ (copyInto s.dataSend 0 msg).length
    · have ended := (copyLength newline).trans copied
      rw [bindEq (memcpyRun newline)]
      refine ⟨_,bindError (memcpyOutside ?_)⟩
      rw [ended,List.length_singleton]
      omega
    · exact ⟨_,bindError (memcpyOutside (Nat.not_le.mp newline))⟩
  · exact ⟨_,bindError (memcpyOutside (Nat.not_le.mp body))⟩

theorem storeAbortRun (inside : s.dataSend.length = bufferLength) : ∃ t, storeAbort s = .ok () t ∧ Inside 0 t := by
  have six : (text "abort\n").length = 6 := by rw [textLength]; decide
  have body : 0+(text "abort\n").length ≤ s.dataSend.length := by rw [six,inside]; decide
  have copied := (copyLength body).trans inside
  have terminator : (text "abort\n").length+[(0 : UInt8)].length ≤ (copyInto s.dataSend 0 (text "abort\n")).length := by
    rw [six,copied]
    decide
  have last := (copyLength terminator).trans copied
  rw [storeAbort,bindEq (memcpyRun body),bindEq (memcpyRun terminator)]
  exact ⟨_,rfl,last,by dsimp only; rw [six]; decide⟩

theorem sendRun (inside : Inside 0 s) : ∃ sent, send s = .ok sent s := by
  have short : s.offset+1 ≤ s.dataSend.length := by rw [inside.length]; exact inside.short
  rw [send,getBind,if_pos short]
  exact ⟨_,rfl⟩

end Runs

section Replies
variable {tabs : List (String × ShownTable)} {error : Option RMDBError} {x : M Reply Unit}

def RoomFor (error : Option RMDBError) : Prop := ∀ e, error = some e → e.what.length+2 ≤ bufferLength

theorem caughtRun (ends : Ends error (x fresh)) (room : RoomFor error) : ∃ t, caught x fresh = .ok () t ∧ Inside 0 t := by
  rw [caught]
  generalize x fresh = result at ends
  cases ends with
  | done inside => exact ⟨_,rfl,inside⟩
  | aborted inside => exact storeAbortRun inside.length
  | failed inside => exact storeMessageRun inside.length (room _ rfl)

theorem caughtOutside {e : RMDBError} (ends : Ends (some e) (x fresh)) (long : bufferLength < e.what.length+2) :
    ∃ t, caught x fresh = .error .outOfRange t := by
  rw [caught]
  generalize x fresh = result at ends
  cases ends with
  | failed inside => exact storeMessageOutside inside.length long

theorem syntaxErrorRun : ∃ t, storeMessage (text "syntax error") fresh = .ok () t ∧ Inside 0 t := by
  refine storeMessageRun (freshInside (show 0 < bufferLength by decide)).length ?_
  rw [textLength]
  decide

theorem rejectedEnds (e : RMDBError) : Ends (some e) ((raise e : M Reply Unit) fresh) :=
  .failed (freshInside (by decide))

theorem handlerRun {request : Request} (room : RoomFor (raised tabs request)) :
    ∃ t, clientHandler tabs request fresh = .ok () t ∧ Inside 0 t := by
  cases request with
  | syntaxError =>
    rw [clientHandler]
    exact syntaxErrorRun
  | rejected e =>
    rw [clientHandler]
    exact caughtRun (rejectedEnds e) room
  | statement stmt ending => exact caughtRun (runEnds stmt ending) room

theorem handlerOutside {request : Request} {e : RMDBError} (some_ : raised tabs request = some e)
    (long : bufferLength < e.what.length+2) : ∃ t, clientHandler tabs request fresh = .error .outOfRange t := by
  cases request with
  | syntaxError => exact nomatch (show none = some e from some_)
  | rejected _ =>
    cases some_
    rw [clientHandler]
    exact caughtOutside (rejectedEnds e) long
  | statement stmt ending => exact caughtOutside (some_ ▸ runEnds stmt ending) long

def Fits (tabs : List (String × ShownTable)) (request : Request) : Prop :=
  ∃ sent s, respond tabs request fresh = .ok sent s ∧ s.offset+1 ≤ bufferLength

theorem replyFits (tabs : List (String × ShownTable)) (request : Request) :
    Fits tabs request ↔ ∀ e, raised tabs request = some e → e.what.length+2 ≤ bufferLength := by
  constructor
  · rintro ⟨sent,s,responded,-⟩ e failed
    by_contra long
    obtain ⟨t,outside⟩ := handlerOutside failed (Nat.not_le.mp long)
    rw [respond,bindError outside] at responded
    cases responded
  · intro room
    obtain ⟨t,handled,inside⟩ := handlerRun room
    obtain ⟨sent,run⟩ := sendRun inside
    exact ⟨sent,t,by rw [respond,bindEq handled,run],inside.short⟩

def letters : Nat → String
  | 0 => ""
  | n+1 => (letters n).push 'a'

theorem lettersSize (n : Nat) : (letters n).utf8ByteSize = n := by
  induction n with
  | zero => rfl
  | succ n ih => rw [letters,String.utf8ByteSize_push,ih,show 'a'.utf8Size = 1 by decide]

theorem notFoundLength (name : String) : (RMDBError.tableNotFound name).what.length = 24+name.utf8ByteSize := by
  simp only [RMDBError.what,List.length_append,textLength]
  rw [show "Error: ".utf8ByteSize = 7 by decide,show "Table not found: ".utf8ByteSize = 17 by decide]
  omega

theorem describedTooLong : ¬ ∀ tabs request, Fits tabs request := by
  intro fits
  have failed (name : String) : raised [] (.statement (.descTable name) .done) = some (.tableNotFound name) := rfl
  have room := (replyFits _ _).mp (fits _ _) _ (failed (letters 8180))
  rw [notFoundLength,lettersSize] at room
  exact absurd room (by decide)

end Replies

end Reply
end Rmdb
