import Rmdb.Defs
import Rmdb.Lib.OrderedList

/-! `IxNodeHandle` and `IxIndexHandle`. A node handle is the number of its page: every
access goes to the page's current contents, as the source's pointers into the pool do.
The pool itself is the coherent map `pages`; its frames are the subject of `Storage`.
Keys are compared by `ix_compare` and copied whole, so the key type is a parameter. -/
namespace Rmdb.Index
open Lib (partitionPoint)

class IxKey (K : Type) extends LinearOrder K where
  ixCompare : K → K → Int
  compareLt : ∀ a b, ixCompare a b < 0 ↔ a < b
  compareEq : ∀ a b, ixCompare a b = 0 ↔ a = b

export IxKey (ixCompare)

def ixNoPage : Int := -1
def ixLeafHeaderPage : Int := 1
def ixInitRootPage : Int := 2
def ixInitNumPages : Nat := 3

structure IxFileHdr where
  numPages : Int
  rootPage : Int
  btreeOrder : Nat
  firstLeaf : Int
  lastLeaf : Int
  deriving DecidableEq, Repr

structure IxPage (K : Type) where
  parent : Int
  isLeaf : Bool
  prevLeaf : Int
  nextLeaf : Int
  pairs : List (K × Rid)

structure IxIndexHandle (K : Type) where
  fileHdr : IxFileHdr
  pages : Int → Option (IxPage K)
  fd2pageno : Int
  -- length of the file, in pages, once every page of the pool is written
  filePages : Nat

namespace IxPage
variable {K : Type} [IxKey K]

def size (node : IxPage K) : Nat := node.pairs.length

def lowerBound (node : IxPage K) (target : K) : Nat :=
  partitionPoint (fun mid => match node.pairs[mid]? with
    | some e => ixCompare e.1 target < 0
    | none => false) node.size 0 node.size

def upperBound (node : IxPage K) (target : K) : Nat :=
  partitionPoint (fun mid => match node.pairs[mid]? with
    | some e => ixCompare e.1 target ≤ 0
    | none => false) node.size 1 node.size

def leafLookup (node : IxPage K) (key : K) : Option Rid :=
  match node.pairs[node.lowerBound key]? with
  | none => none
  | some e => if ixCompare e.1 key ≠ 0 then none else some e.2

def childIdx (node : IxPage K) (child : Int) : Nat :=
  node.pairs.findIdx (fun e => e.2.pageNo = child)

end IxPage

namespace IxIndexHandle
variable {K : Type} [IxKey K]

def fetchNode (p : Int) : M (IxIndexHandle K) (IxPage K) := do
  let s ← get
  match s.pages p with
  | some node => pure node
  | none => raise (.internal "DiskManager::read_page Error")

def modifyNode (p : Int) (change : IxPage K → IxPage K) : M (IxIndexHandle K) Unit := do
  let node ← fetchNode p
  modify fun s => {s with pages := Function.update s.pages p (some (change node))}

def setHdr (change : IxFileHdr → IxFileHdr) : M (IxIndexHandle K) Unit :=
  modify fun s => {s with fileHdr := change s.fileHdr}

def getMaxSize (s : IxIndexHandle K) : Nat := s.fileHdr.btreeOrder+1

def getMinSize (s : IxIndexHandle K) : Nat := s.getMaxSize/2

def pairAt (p : Int) (i : Nat) : M (IxIndexHandle K) (K × Rid) := do
  let node ← fetchNode p
  match node.pairs[i]? with
  | some e => pure e
  | none => throw .outOfRange

def getKey (p : Int) (i : Nat) : M (IxIndexHandle K) K := do
  let e ← pairAt p i
  pure e.1

def valueAt (p : Int) (i : Nat) : M (IxIndexHandle K) Int := do
  let e ← pairAt p i
  pure e.2.pageNo

def setKey (p : Int) (i : Nat) (key : K) : M (IxIndexHandle K) Unit := do
  let e ← pairAt p i
  modifyNode p fun node => {node with pairs := node.pairs.set i (key,e.2)}

def setParentPageNo (p parent : Int) : M (IxIndexHandle K) Unit :=
  modifyNode p fun node => {node with parent := parent}

def setNextLeaf (p next : Int) : M (IxIndexHandle K) Unit :=
  modifyNode p fun node => {node with nextLeaf := next}

def setPrevLeaf (p prev : Int) : M (IxIndexHandle K) Unit :=
  modifyNode p fun node => {node with prevLeaf := prev}

def insertPairs (p : Int) (pos : Nat) (new : List (K × Rid)) : M (IxIndexHandle K) Unit := do
  let s ← get
  let node ← fetchNode p
  assert (pos ≤ node.size) "pos >= 0 && pos <= get_size()"
  assert (node.size+new.length ≤ s.getMaxSize) "get_size() + n <= get_max_size()"
  modifyNode p fun node => {node with pairs := node.pairs.take pos ++ new ++ node.pairs.drop pos}

def erasePair (p : Int) (pos : Nat) : M (IxIndexHandle K) Unit := do
  let node ← fetchNode p
  assert (pos < node.size) "pos >= 0 && pos < get_size()"
  modifyNode p fun node => {node with pairs := node.pairs.eraseIdx pos}

def insert (p : Int) (key : K) (value : Rid) : M (IxIndexHandle K) Unit := do
  let node ← fetchNode p
  let pos := node.lowerBound key
  match node.pairs[pos]? with
  | some e => if ixCompare e.1 key = 0 then pure () else insertPairs p pos [(key,value)]
  | none => insertPairs p pos [(key,value)]

def remove (p : Int) (key : K) : M (IxIndexHandle K) Unit := do
  let node ← fetchNode p
  let pos := node.lowerBound key
  match node.pairs[pos]? with
  | some e => if ixCompare e.1 key = 0 then erasePair p pos else pure ()
  | none => pure ()

def findChild (p child : Int) : M (IxIndexHandle K) Nat := do
  let node ← fetchNode p
  let idx := node.childIdx child
  assert (idx < node.size) "rid_idx < page_hdr->num_key"
  pure idx

def internalLookup (p : Int) (key : K) : M (IxIndexHandle K) Int := do
  let node ← fetchNode p
  valueAt p (node.upperBound key-1)

def descend (key : K) (findFirst : Bool) : Nat → Int → M (IxIndexHandle K) Int
  | 0,_ => throw .fuel
  | fuel+1,p => do
    let node ← fetchNode p
    if node.isLeaf then pure p else
      let child ← if findFirst then valueAt p 0 else internalLookup p key
      descend key findFirst fuel child

-- No path from the root is longer than the file.
def findLeafPage (key : K) (findFirst : Bool) : M (IxIndexHandle K) Int := do
  let s ← get
  descend key findFirst s.filePages s.fileHdr.rootPage

def getValue (key : K) (result : List Rid) : M (IxIndexHandle K) (Bool × List Rid) := do
  let leaf ← findLeafPage key false
  let node ← fetchNode leaf
  match node.leafLookup key with
  | some value => pure (true,result ++ [value])
  | none => pure (false,result)

/- `new_page` hands out a zeroed page. A page with a negative number cannot be written back, and one with a number
inside the file overwrites the page that is there: the model ends at both. -/
def createNode : M (IxIndexHandle K) Int := do
  let s ← get
  let p := s.fd2pageno
  if p < s.filePages then throw .outOfRange else
    set {s with
      fileHdr := {s.fileHdr with numPages := s.fileHdr.numPages+1}
      pages := Function.update s.pages p (some ⟨0,false,0,0,[]⟩)
      fd2pageno := p+1
      filePages := p.toNat+1}
    pure p

def maintainChild (p : Int) (childIdx : Nat) : M (IxIndexHandle K) Unit := do
  let node ← fetchNode p
  if node.isLeaf then pure () else
    let child ← valueAt p childIdx
    setParentPageNo child p

def maintainChildren (p : Int) : List Nat → M (IxIndexHandle K) Unit
  | [] => pure ()
  | i :: rest => do
    maintainChild p i
    maintainChildren p rest

def split (p : Int) : M (IxIndexHandle K) Int := do
  let new ← createNode
  let node ← fetchNode p
  modifyNode new fun _ => ⟨node.parent,node.isLeaf,ixNoPage,ixNoPage,[]⟩
  let splitPos := node.size/2
  insertPairs new 0 (node.pairs.drop splitPos)
  modifyNode p fun node => {node with pairs := node.pairs.take splitPos}
  if node.isLeaf then
    setPrevLeaf new p
    setNextLeaf new node.nextLeaf
    setPrevLeaf node.nextLeaf new
    setNextLeaf p new
    setHdr fun hdr => if hdr.lastLeaf = p then {hdr with lastLeaf := new} else hdr
  else
    maintainChildren new (List.range (node.size-splitPos))
  pure new

def insertIntoParent : Nat → Int → K → Int → M (IxIndexHandle K) Unit
  | 0,_,_,_ => throw .fuel
  | fuel+1,old,key,new => do
    let oldNode ← fetchNode old
    if oldNode.parent = ixNoPage then
      let root ← createNode
      modifyNode root fun _ => ⟨ixNoPage,false,ixNoPage,ixNoPage,[]⟩
      let oldKey ← getKey old 0
      insertPairs root 0 [(oldKey,⟨old,-1⟩)]
      insertPairs root 1 [(key,⟨new,-1⟩)]
      setParentPageNo old root
      setParentPageNo new root
      setHdr fun hdr => {hdr with rootPage := root}
    else
      let parent := oldNode.parent
      let oldIdx ← findChild parent old
      insertPairs parent (oldIdx+1) [(key,⟨new,-1⟩)]
      setParentPageNo new parent
      let parentNode ← fetchNode parent
      let s ← get
      if s.getMaxSize ≤ parentNode.size then
        let newParent ← split parent
        let newKey ← getKey newParent 0
        insertIntoParent fuel parent newKey newParent
      else pure ()

def insertEntry (key : K) (value : Rid) : M (IxIndexHandle K) Int := do
  let (found,_) ← getValue key []
  if found then raise (.plain "Unique index constraint violated") else
    let leaf ← findLeafPage key false
    insert leaf key value
    let node ← fetchNode leaf
    let s ← get
    if s.getMaxSize ≤ node.size then
      let newLeaf ← split leaf
      let newKey ← getKey newLeaf 0
      insertIntoParent s.filePages leaf newKey newLeaf
      pure (if 0 ≤ ixCompare key newKey then newLeaf else leaf)
    else pure leaf

def maintainParent : Nat → Int → M (IxIndexHandle K) Unit
  | 0,_ => throw .fuel
  | fuel+1,curr => do
    let node ← fetchNode curr
    if node.parent = ixNoPage then pure () else
      let rank ← findChild node.parent curr
      let parentKey ← getKey node.parent rank
      let childFirstKey ← getKey curr 0
      if parentKey = childFirstKey then pure () else
        setKey node.parent rank childFirstKey
        maintainParent fuel node.parent

def eraseLeaf (leaf : Int) : M (IxIndexHandle K) Unit := do
  let node ← fetchNode leaf
  assert (node.isLeaf = true) "leaf->is_leaf_page()"
  setNextLeaf node.prevLeaf node.nextLeaf
  setPrevLeaf node.nextLeaf node.prevLeaf

def adjustRoot (p : Int) : M (IxIndexHandle K) Bool := do
  let node ← fetchNode p
  if node.isLeaf = false ∧ node.size = 1 then
    let child ← valueAt p 0
    setParentPageNo child ixNoPage
    setHdr fun hdr => {hdr with rootPage := child}
    pure true
  else if node.isLeaf = true ∧ node.size = 0 then
    setHdr fun hdr => {hdr with rootPage := p, firstLeaf := p, lastLeaf := p}
    pure false
  else pure false

def redistribute (neighbor node parent : Int) (index : Nat) : M (IxIndexHandle K) Unit := do
  let s ← get
  let here ← fetchNode node
  let other ← fetchNode neighbor
  if index = 0 then
    let e ← pairAt neighbor 0
    insertPairs node here.size [e]
    erasePair neighbor 0
    if here.isLeaf = false then maintainChild node here.size
  else
    let e ← pairAt neighbor (other.size-1)
    insertPairs node 0 [e]
    erasePair neighbor (other.size-1)
    if here.isLeaf = false then maintainChild node 0
  let nodeIdx ← findChild parent node
  let nodeKey ← getKey node 0
  setKey parent nodeIdx nodeKey
  let neighborIdx ← findChild parent neighbor
  let neighborKey ← getKey neighbor 0
  setKey parent neighborIdx neighborKey
  maintainParent s.filePages parent

-- `again` is the closing call of `coalesce_or_redistribute` on the parent.
def coalesce (again : Int → M (IxIndexHandle K) Bool) (neighbor node parent : Int) (index : Nat) :
    M (IxIndexHandle K) Bool := do
  let s ← get
  -- node(left) and neighbor(right) are swapped, so that `right` is always the one that disappears
  let (left,right,index) := if index = 0 then (node,neighbor,1) else (neighbor,node,index)
  let leftNode ← fetchNode left
  let rightNode ← fetchNode right
  insertPairs left leftNode.size rightNode.pairs
  if leftNode.isLeaf then
    setHdr fun hdr => if hdr.lastLeaf = right then {hdr with lastLeaf := left} else hdr
    eraseLeaf right
  else
    maintainChildren left (List.range' leftNode.size rightNode.size)
  erasePair parent index
  let parentNode ← fetchNode parent
  if 0 < parentNode.size then
    let leftIdx ← findChild parent left
    let leftKey ← getKey left 0
    setKey parent leftIdx leftKey
    maintainParent s.filePages parent
  again parent

def coalesceOrRedistribute : Nat → Int → M (IxIndexHandle K) Bool
  | 0,_ => throw .fuel
  | fuel+1,p => do
    let s ← get
    let node ← fetchNode p
    if node.parent = ixNoPage then adjustRoot p
    else if s.getMinSize ≤ node.size then pure false
    else
      let parent := node.parent
      let index ← findChild parent p
      let neighbor ← valueAt parent (if index = 0 then 1 else index-1)
      let neighborNode ← fetchNode neighbor
      if 2*s.getMinSize ≤ neighborNode.size+node.size then
        redistribute neighbor p parent index
        pure false
      else coalesce (coalesceOrRedistribute fuel) neighbor p parent index

def deleteEntry (key : K) : M (IxIndexHandle K) Bool := do
  let leaf ← findLeafPage key false
  let old ← fetchNode leaf
  remove leaf key
  let node ← fetchNode leaf
  if node.size = old.size then pure false else
    let s ← get
    if node.parent ≠ ixNoPage ∧ 0 < node.size then maintainParent s.filePages leaf
    let _ ← coalesceOrRedistribute s.filePages leaf
    pure true

end IxIndexHandle

end Rmdb.Index
