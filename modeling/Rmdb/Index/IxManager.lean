import Rmdb.Index.IxCompare
import Rmdb.Index.Delete

/-! `IxManager`: creating, opening and closing an index file. The key columns of an index
never change, so they are part of the type of its keys and not of the header. -/
namespace Rmdb.Index
open Lib IxIndexHandle

structure IxFile (K : Type) where
  fileHdr : IxFileHdr
  pages : Int → Option (IxPage K)
  filePages : Nat

namespace IxManager

def ixMaxColLen : Nat := 512
def ixPageHdrSize : Nat := 24
def ridSize : Nat := 8

def btreeOrder (cols : List IxCol) : Nat := (pageSize-ixPageHdrSize)/(colTotLen cols+ridSize)-1

def totLen (cols : List IxCol) : Nat := 4*4+6*4+(4+4)*cols.length

section Files
variable {K : Type}

def newFile (K : Type) (btreeOrder : Nat) : IxFile K where
  fileHdr := ⟨ixInitNumPages,ixInitRootPage,btreeOrder,ixInitRootPage,ixInitRootPage⟩
  pages p :=
    if p = ixLeafHeaderPage then some ⟨ixNoPage,true,ixInitRootPage,ixInitRootPage,[]⟩
    else if p = ixInitRootPage then some ⟨ixNoPage,true,ixLeafHeaderPage,ixLeafHeaderPage,[]⟩
    else none
  filePages := ixInitNumPages

def getFileSize (file : IxFile K) : Int := narrow (pageSize*file.filePages)

-- `open_file` sets the page counter from the file's size and the handle's constructor adds one.
def openFile (file : IxFile K) : IxIndexHandle K :=
  ⟨file.fileHdr,file.pages,(getFileSize file+pageSize-1).tdiv pageSize+1,file.filePages⟩

def closeIndex (s : IxIndexHandle K) : IxFile K := ⟨s.fileHdr,s.pages,s.filePages⟩

end Files

variable {cols : List IxCol}

def getIndexName (filename : String) (indexCols : List IxCol) : String :=
  indexCols.foldl (fun name col => name ++ "_" ++ col.name) filename ++ ".idx"

def nameMax : Nat := 255

def createIndex (filename : String) (cols : List IxCol) : Except Fault (IxFile (IxBytes cols)) :=
  if nameMax < (getIndexName filename cols).utf8ByteSize then .error (.error (.unix "File name too long"))
  else if ixMaxColLen < colTotLen cols then .error (.error (.invalidColLength (colTotLen cols)))
  else if 2 < btreeOrder cols then .ok (newFile (IxBytes cols) (btreeOrder cols))
  else .error (.assertion "btree_order > 2")

-- `deserialize` takes the `tot_len_` bytes of the header out of a buffer of one page.
def openIndex (file : IxFile (IxBytes cols)) : Except Fault (IxIndexHandle (IxBytes cols)) :=
  if totLen cols ≤ pageSize then .ok (openFile file) else .error .outOfRange

theorem indexNameLength (filename : String) (cols : List IxCol) :
    2*cols.length ≤ (cols.foldl (fun name col => name ++ "_" ++ col.name) filename).utf8ByteSize := by
  induction cols using List.reverseRecOn with
  | nil => simp
  | append_singleton cols col ih =>
    have one : 0 < col.name.utf8ByteSize := by
      rw [Nat.pos_iff_ne_zero,ne_eq,String.utf8ByteSize_eq_zero_iff]
      exact col.named
    have bar : "_".utf8ByteSize = 1 := by decide
    simp only [List.foldl_append,List.foldl_cons,List.foldl_nil,String.utf8ByteSize_append,List.length_append,
      List.length_singleton]
    omega

theorem headerFits {filename : String} (short : (getIndexName filename cols).utf8ByteSize ≤ nameMax) : totLen cols ≤ pageSize := by
  have least := indexNameLength filename cols
  rw [getIndexName,String.utf8ByteSize_append,nameMax] at short
  rw [totLen,pageSize]
  omega

theorem createdFile {filename : String} {file : IxFile (IxBytes cols)} (created : createIndex filename cols = .ok file) :
    2 < btreeOrder cols ∧ totLen cols ≤ pageSize ∧ file = newFile (IxBytes cols) (btreeOrder cols) := by
  rw [createIndex] at created
  split at created
  · cases created
  · rename_i short
    split at created
    · cases created
    · split at created
      · rename_i big
        cases created
        exact ⟨big,headerFits (not_lt.mp short),rfl⟩
      · cases created

end IxManager

section Open
variable {K : Type} [IxKey K] {s t : IxIndexHandle K} {levels : List (Level K)}

theorem openFresh {btreeOrder : Nat} (big : 2 < btreeOrder) :
    WellFormed (IxManager.openFile (IxManager.newFile K btreeOrder)) [[⟨ixInitRootPage,true,[]⟩]] := by
  refine ⟨⟨⟨?_,?_,?_,?_,?_,?_⟩,⟨?_,rfl,rfl⟩,?_,by simp⟩,List.isChain_singleton _,⟨_,rfl,rfl,rfl⟩,big,
    ⟨_,rfl,by simp,by simp⟩,List.Pairwise.nil⟩
  · intro n mem; cases List.mem_singleton.mp mem; rfl
  · intro n mem; cases List.mem_singleton.mp mem; rfl
  · intro n mem; cases List.mem_singleton.mp mem; simp
  · intro n mem; cases List.mem_singleton.mp mem; simp
  · simp
  · intro n mem
    cases List.mem_singleton.mp mem
    simp [IxManager.openFile,IxManager.newFile,ixInitRootPage,ixInitNumPages]
  · exact .cons ⟨rfl,rfl⟩ (.cons ⟨rfl,rfl⟩ .nil)
  · intro n mem; cases List.mem_singleton.mp mem; rfl

omit [IxKey K] in
theorem openHdr (file : IxFile K) : (IxManager.openFile file).fileHdr = file.fileHdr := by rw [IxManager.openFile]

theorem WellFormed.recount (wf : WellFormed s levels) (next : Int) : WellFormed {s with fd2pageno := next} levels := by
  obtain ⟨⟨nodes,links,leaves,inner⟩,linked,root,order,sized,sorted⟩ := wf
  have same : Nodes {s with fd2pageno := next} levels.flatten :=
    ⟨nodes.pairs,nodes.leaf,nodes.parent,nodes.kids,nodes.once,nodes.range⟩
  exact ⟨⟨same,⟨links.chain,links.first,links.last⟩,leaves,inner⟩,linked,root,order,sized,sorted⟩

theorem reopen (wf : WellFormed s levels) : WellFormed (IxManager.openFile (IxManager.closeIndex s)) levels := wf.recount _

omit [IxKey K] in
/- The page counter is past the file's end just when the size of the file is an `int`. -/
theorem openUnused (file : IxFile K) : (IxManager.openFile file).NextUnused ↔ pageSize*file.filePages < 2^31 := by
  have size : pageSize = 4096 := rfl
  rw [NextUnused,IxManager.openFile,IxManager.getFileSize,narrow,Int.bmod_def,size]
  push_cast
  split
  · rw [Int.tdiv_eq_ediv_of_nonneg (by omega)]
    omega
  · have back : -((4096*file.filePages : Int)%2^32-2^32+4096-1).tdiv 4096 ≥ 0 := by
      rw [← Int.neg_tdiv]
      exact Int.tdiv_nonneg (by omega) (by omega)
    norm_num at back ⊢
    omega

end Open
end Rmdb.Index
