import Rmdb.System.SmManager

/-! `SeqScanExecutor`. -/
namespace Rmdb
open Record

abbrev Visited := List Rid × Option Fault

def endRid (fh : RmFileHandle) : Rid := ⟨fh.fileHdr.numPages,-1⟩

def satisfies [FloatOps] (fh : RmFileHandle) (cols : List ColMeta) (conds : List Condition) (rid : Rid) :
    Except Fault Bool := do
  let record ← fh.getRecord rid
  recordSatisfiesConditions record cols conds

namespace SeqScanExecutor
variable [FloatOps]

def steps (fh : RmFileHandle) : Nat := fh.fileHdr.numPages.toNat*fh.fileHdr.numRecordsPerPage+1

def beginTuple (fh : RmFileHandle) (cols : List ColMeta) (conds : List Condition) : Except Fault (Rid × Rid) := do
  let start ← RmScan.begin fh
  (RmScan.scan fh).advanceToMatch (satisfies fh cols conds) (endRid fh) (steps fh) start

def visited (sm : SmManager) (tabName : String) (conds : List Condition) : Visited :=
  match (do
    let tab ← sm.db.getTable tabName
    let fh ← sm.fileHandle tabName
    .ok (tab,fh) : Except Fault (TabMeta × RmFileHandle)) with
  | .error e => ([],some e)
  | .ok (tab,fh) => (RmScan.scan fh).visit (satisfies fh tab.cols conds) (endRid fh) (steps fh) (steps fh)
      (beginTuple fh tab.cols conds)

end SeqScanExecutor

section
variable [FloatOps] {sm : SmManager} {tabName : String} {tab : TabMeta} {fh : RmFileHandle} {conds : List Condition}

theorem seqVisited (table : sm.HasTable tabName tab fh) : SeqScanExecutor.visited sm tabName conds =
    RecScan.sift (satisfies fh tab.cols conds) (RmScan.rids fh) := by
  obtain ⟨lost,well⟩ := table.usable
  obtain ⟨start,begun,enumerates⟩ := RmScan.scanEnumerates well
  have few : (RmScan.rids fh).length < SeqScanExecutor.steps fh := by
    obtain ⟨chain,chained⟩ := well
    exact Nat.lt_succ_of_le (RmScan.ridsLength chained)
  rw [SeqScanExecutor.visited,table.listed,SmManager.fileHandle,table.handle]
  simp only [bind,Except.bind,SeqScanExecutor.beginTuple,begun]
  exact RecScan.visitSift enumerates few few few

end
end Rmdb
