import Rmdb.Index.IxManager

/-! `IxFileHdr` as the bytes of the header page, with the fields in the widths of the source. -/
namespace Rmdb.Index.Codec

structure IxFileHdr where
  firstFreePageNo : Int32
  numPages : Int32
  rootPage : Int32
  colNum : Int32
  colTypes : List ColType
  colLens : List Int32
  colTotLen : Int32
  btreeOrder : Int32
  keysSize : Int32
  firstLeaf : Int32
  lastLeaf : Int32
  totLen : Int32
  deriving DecidableEq, Repr

namespace IxFileHdr

def fresh (memory : IxFileHdr) : IxFileHdr := {memory with totLen := 0, colNum := 0, colTypes := [], colLens := []}

def updateTotLen (hdr : IxFileHdr) : IxFileHdr := {hdr with totLen := 0+(4*4+4*6)+(4*hdr.colNum+4*hdr.colNum)}

def store (v : Int32) : M Bytes Unit := modify fun dest => dest ++ leBytes 4 v.toInt

def storeAll (values : List Int32) : Nat → Nat → M Bytes Unit
  | 0,_ => pure ()
  | left+1,i => do
    match values[i]? with
    | some v => store v
    | none => throw .outOfRange
    storeAll values left (i+1)

def count (colNum : Int32) : Nat := colNum.toInt.toNat

def typeCodes (types : List ColType) : List Int32 := types.map fun type => Int32.ofInt type.toInt

def serialize (hdr : IxFileHdr) : M Bytes Unit := do
  store hdr.totLen
  store hdr.firstFreePageNo
  store hdr.numPages
  store hdr.rootPage
  store hdr.colNum
  storeAll (typeCodes hdr.colTypes) (count hdr.colNum) 0
  storeAll hdr.colLens (count hdr.colNum) 0
  store hdr.colTotLen
  store hdr.btreeOrder
  store hdr.keysSize
  store hdr.firstLeaf
  store hdr.lastLeaf
  let dest ← get
  if (dest.length : Int) ≠ hdr.totLen.toInt then throw (.assertion "offset == tot_len_")

def load (src : Bytes) : M Nat Int32 := do
  let offset ← get
  if src.length < offset+4 then throw .outOfRange
  set (offset+4)
  pure (Int32.ofInt (leInt ((src.drop offset).take 4)))

def loadAll (src : Bytes) : Nat → M Nat (List Int32)
  | 0 => pure []
  | left+1 => do
    let v ← load src
    let values ← loadAll src left
    pure (v :: values)

-- an enumeration has no other values
def typeOf (code : Int32) : Except Fault ColType :=
  match ColType.ofInt code.toInt with
  | some type => .ok type
  | none => .error .outOfRange

def deserialize (src : Bytes) (hdr : IxFileHdr) : M Nat IxFileHdr := do
  let totLen ← load src
  let firstFreePageNo ← load src
  let numPages ← load src
  let rootPage ← load src
  let colNum ← load src
  let codes ← loadAll src (count colNum)
  let colTypes ← ofExcept (codes.mapM typeOf)
  let colLens ← loadAll src (count colNum)
  let colTotLen ← load src
  let btreeOrder ← load src
  let keysSize ← load src
  let firstLeaf ← load src
  let lastLeaf ← load src
  let offset ← get
  if (offset : Int) ≠ totLen.toInt then throw (.assertion "offset == tot_len_")
  pure ⟨firstFreePageNo,numPages,rootPage,colNum,hdr.colTypes ++ colTypes,hdr.colLens ++ colLens,colTotLen,btreeOrder,
    keysSize,firstLeaf,lastLeaf,totLen⟩

section Words
variable {l : List Int32} {rest dest : Bytes} {k n : Nat} {v : Int32}

def words (l : List Int32) : Bytes := l.flatMap fun v => leBytes 4 v.toInt

theorem wordsLength (l : List Int32) : (words l).length = 4*l.length := by
  induction l with
  | nil => rfl
  | cons v l ih =>
    rw [words] at ih
    rw [words,List.flatMap_cons,List.length_append,ih,leBytesLength,List.length_cons]
    omega

theorem storeRun : store v dest = .ok () (dest ++ words [v]) := by
  simp only [store,modifyRun,words,List.flatMap_cons,List.flatMap_nil,List.append_nil]

theorem storeAllRun {values : List Int32} {left i : Nat} (rest : i+left = values.length) :
    storeAll values left i dest = .ok () (dest ++ words (values.drop i)) := by
  induction left generalizing i dest with
  | zero =>
    rw [List.drop_of_length_le (by omega)]
    exact congrArg (EStateM.Result.ok ()) (List.append_nil dest).symm
  | succ left ih =>
    have small : i < values.length := by omega
    rw [storeAll,List.getElem?_eq_getElem small,List.drop_eq_getElem_cons small]
    dsimp only
    rw [bindEq storeRun,ih (by omega),List.append_assoc]
    rfl

theorem loadRun (here : l[k]? = some v) : load (words l ++ rest) (4*k) = .ok v (4*(k+1)) := by
  obtain ⟨small,rfl⟩ := List.getElem?_eq_some_iff.mp here
  have split : l = l.take k ++ l[k] :: l.drop (k+1) := by
    rw [← List.drop_eq_getElem_cons small,List.take_append_drop]
  have front : (words (l.take k)).length = 4*k := by
    rw [wordsLength,List.length_take]
    omega
  have image : words l = words (l.take k) ++ (leBytes 4 l[k].toInt ++ words (l.drop (k+1))) := by
    conv_lhs => rw [split]
    rw [words,List.flatMap_append,List.flatMap_cons]
    rfl
  have word : ((words l ++ rest).drop (4*k)).take 4 = leBytes 4 l[k].toInt := by
    rw [image,List.append_assoc,List.append_assoc,List.drop_left' front,List.take_left' (leBytesLength ..)]
  have value : leInt (leBytes 4 l[k].toInt) = l[k].toInt := by
    have low := l[k].le_toInt
    have high := l[k].toInt_lt
    exact leIntBytes (by norm_num; omega) (by norm_num; omega)
  have length := wordsLength l
  rw [load,getBind,if_neg (by rw [List.length_append]; omega),word,value,Int32.ofInt_toInt]
  rfl

theorem loadAllRun (inside : k+n ≤ l.length) :
    loadAll (words l ++ rest) n (4*k) = .ok ((l.drop k).take n) (4*(k+n)) := by
  induction n generalizing k with
  | zero => rfl
  | succ n ih =>
    have small : k < l.length := by omega
    have later := @ih (k+1) (by omega)
    rw [loadAll,bindEq (loadRun (List.getElem?_eq_getElem small)),bindEq later,List.drop_eq_getElem_cons small,
      List.take_succ_cons,Nat.add_right_comm]
    rfl

end Words

section ReadBack
variable (hdr memory : IxFileHdr) {rest : Bytes}

def fields : List Int32 :=
  [hdr.totLen,hdr.firstFreePageNo,hdr.numPages,hdr.rootPage,hdr.colNum] ++ typeCodes hdr.colTypes ++ hdr.colLens ++
    [hdr.colTotLen,hdr.btreeOrder,hdr.keysSize,hdr.firstLeaf,hdr.lastLeaf]

structure Described : Prop where
  types : (hdr.colTypes.length : Int) = hdr.colNum.toInt
  lens : (hdr.colLens.length : Int) = hdr.colNum.toInt

theorem typesBack (types : List ColType) : (typeCodes types).mapM typeOf = .ok types := by
  induction types with
  | nil => rfl
  | cons type types ih =>
    have code : (Int32.ofInt type.toInt).toInt = type.toInt := by cases type <;> rfl
    have one : typeOf (Int32.ofInt type.toInt) = .ok type := by rw [typeOf,code,ColType.ofIntToInt]
    rw [typeCodes] at ih
    rw [typeCodes,List.map_cons,List.mapM_cons,one,ih]
    rfl

theorem totLenUpdated {n : Nat} (cols : hdr.colNum.toInt = n) (fits : 40+8*n ≤ pageSize) :
    hdr.updateTotLen.totLen.toInt = 40+8*n := by
  rw [pageSize] at fits
  have num : hdr.colNum = Int32.ofNat n := by
    rw [← Int32.ofInt_toInt hdr.colNum,cols]
    rfl
  have total : hdr.updateTotLen.totLen = Int32.ofNat (40+8*n) := by
    have eight : 4*Int32.ofNat n+4*Int32.ofNat n = Int32.ofNat (8*n) := by
      rw [show (4 : Int32) = Int32.ofNat 4 from rfl,← Int32.ofNat_mul,← Int32.ofNat_add]
      congr 1
      omega
    rw [updateTotLen,num,Int32.ofNat_add,← eight]
    rfl
  rw [total,Int32.toInt_ofNat_of_lt (by omega)]
  push_cast
  rfl

theorem fieldsLength : (fields hdr).length = 10+hdr.colTypes.length+hdr.colLens.length := by
  simp only [fields,typeCodes,List.length_append,List.length_map,List.length_cons,List.length_nil]
  omega

variable {hdr}

theorem serializeRun (described : Described hdr) (total : hdr.totLen.toInt = 4*(fields hdr).length) :
    serialize hdr [] = .ok () (words (fields hdr)) := by
  have types : count hdr.colNum = (typeCodes hdr.colTypes).length := by
    rw [count,← described.types,typeCodes,List.length_map,Int.toNat_natCast]
  have lens : count hdr.colNum = hdr.colLens.length := by rw [count,← described.lens,Int.toNat_natCast]
  have image : words (fields hdr) = [] ++ words [hdr.totLen] ++ words [hdr.firstFreePageNo] ++ words [hdr.numPages] ++
      words [hdr.rootPage] ++ words [hdr.colNum] ++ words ((typeCodes hdr.colTypes).drop 0) ++ words (hdr.colLens.drop 0) ++
      words [hdr.colTotLen] ++ words [hdr.btreeOrder] ++ words [hdr.keysSize] ++ words [hdr.firstLeaf] ++
      words [hdr.lastLeaf] := by
    simp only [fields,words,List.flatMap_append,List.flatMap_cons,List.flatMap_nil,List.drop_zero,List.append_assoc,
      List.append_nil,List.nil_append]
  rw [serialize,bindEq storeRun,bindEq storeRun,bindEq storeRun,bindEq storeRun,bindEq storeRun,
    bindEq (storeAllRun (by rw [Nat.zero_add,types])),bindEq (storeAllRun (by rw [Nat.zero_add,lens])),bindEq storeRun,
    bindEq storeRun,bindEq storeRun,bindEq storeRun,bindEq storeRun,getBind,← image,wordsLength,if_neg]
  · rfl
  · rw [total]
    push_cast
    simp

theorem deserializeRun (described : Described hdr) (total : hdr.totLen.toInt = 4*(fields hdr).length) :
    deserialize (words (fields hdr) ++ rest) memory.fresh 0 = .ok hdr (4*(fields hdr).length) := by
  have types : count hdr.colNum = (typeCodes hdr.colTypes).length := by
    rw [count,← described.types,typeCodes,List.length_map,Int.toNat_natCast]
  have lens : count hdr.colNum = hdr.colLens.length := by rw [count,← described.lens,Int.toNat_natCast]
  have length : (fields hdr).length = 10+2*count hdr.colNum := by
    rw [fieldsLength,types,typeCodes,List.length_map,← lens,types,typeCodes,List.length_map]
    omega
  have front : ∀ k, k < 5 → ∀ v, [hdr.totLen,hdr.firstFreePageNo,hdr.numPages,hdr.rootPage,hdr.colNum][k]? = some v →
      load (words (fields hdr) ++ rest) (4*k) = .ok v (4*(k+1)) := by
    intro k small v here
    refine loadRun ?_
    rw [fields,List.append_assoc,List.append_assoc,List.getElem?_append_left (by simpa using small),here]
  have back : ∀ k next v, next = k+1 → [hdr.colTotLen,hdr.btreeOrder,hdr.keysSize,hdr.firstLeaf,hdr.lastLeaf][k]? = some v →
      load (words (fields hdr) ++ rest) (4*(5+count hdr.colNum+count hdr.colNum+k)) =
        .ok v (4*(5+count hdr.colNum+count hdr.colNum+next)) := by
    rintro k _ v rfl here
    refine loadRun ?_
    have size : ([hdr.totLen,hdr.firstFreePageNo,hdr.numPages,hdr.rootPage,hdr.colNum] ++ typeCodes hdr.colTypes ++
        hdr.colLens).length = 5+count hdr.colNum+count hdr.colNum := by
      rw [List.length_append,List.length_append,← types,← lens]
      rfl
    rw [fields,List.getElem?_append_right (by rw [size]; omega),size,Nat.add_sub_cancel_left,here]
  have codes : loadAll (words (fields hdr) ++ rest) (count hdr.colNum) (4*5) =
      .ok (typeCodes hdr.colTypes) (4*(5+count hdr.colNum)) := by
    rw [loadAllRun (by omega),types,fields,List.append_assoc,List.append_assoc]
    exact congrArg (EStateM.Result.ok · _) (List.take_left' rfl)
  have colLens : loadAll (words (fields hdr) ++ rest) (count hdr.colNum) (4*(5+count hdr.colNum)) =
      .ok hdr.colLens (4*(5+count hdr.colNum+count hdr.colNum)) := by
    rw [loadAllRun (by omega),fields,List.append_assoc,List.drop_left' (by rw [List.length_append,← types]; rfl),
      List.take_left' lens.symm]
  rw [← Nat.add_zero (5+count hdr.colNum+count hdr.colNum)] at colLens
  rw [deserialize,show (0 : Nat) = 4*0 from rfl,bindEq (front 0 (by omega) _ rfl),bindEq (front 1 (by omega) _ rfl),
    bindEq (front 2 (by omega) _ rfl),bindEq (front 3 (by omega) _ rfl),bindEq (front 4 (by omega) _ rfl),bindEq codes,
    typesBack,bindEq (ofExceptOk ..),bindEq colLens,bindEq (back 0 1 _ rfl rfl),
    bindEq (back 1 2 _ rfl rfl),bindEq (back 2 3 _ rfl rfl),bindEq (back 3 4 _ rfl rfl),bindEq (back 4 5 _ rfl rfl),getBind,
    show 5+count hdr.colNum+count hdr.colNum+5 = (fields hdr).length by omega,if_neg (by rw [total]; push_cast; simp)]
  rfl

variable (hdr)

theorem totalUpdated (described : Described hdr) (fits : 40+8*hdr.colTypes.length ≤ pageSize) :
    hdr.updateTotLen.totLen.toInt = 4*(fields hdr.updateTotLen).length := by
  have same : hdr.colTypes.length = hdr.colLens.length := Int.ofNat.inj (described.types.trans described.lens.symm)
  have length : (fields hdr.updateTotLen).length = 10+hdr.colTypes.length+hdr.colLens.length := fieldsLength ..
  rw [totLenUpdated hdr described.types.symm fits,length]
  omega

theorem headerReadBack (rest : Bytes) (described : Described hdr) (fits : 40+8*hdr.colTypes.length ≤ pageSize) :
    ∃ bytes, serialize hdr.updateTotLen [] = .ok () bytes ∧ (bytes.length : Int) = hdr.updateTotLen.totLen.toInt ∧
      deserialize (bytes ++ rest) memory.fresh 0 = .ok hdr.updateTotLen bytes.length := by
  have updated : Described hdr.updateTotLen := ⟨described.types,described.lens⟩
  have total := totalUpdated hdr described fits
  refine ⟨words (fields hdr.updateTotLen),serializeRun updated total,?_,?_⟩
  · rw [wordsLength,total,Nat.cast_mul]
    rfl
  · rw [wordsLength]
    exact deserializeRun memory updated total

end ReadBack

def composite : IxFileHdr := ⟨-1,5,5,3,[.int,.string,.datetime],[4,20,8],32,100,3232,2,4,0⟩

theorem compositeReadBack : ∃ bytes, serialize composite.updateTotLen [] = .ok () bytes ∧
    (bytes.length : Int) = composite.updateTotLen.totLen.toInt ∧
    deserialize (bytes ++ [255]) ⟨-1,3,2,0,[],[],0,3,0,2,2,0⟩ 0 = .ok composite.updateTotLen bytes.length :=
  headerReadBack composite ⟨-1,3,2,0,[],[],0,3,0,2,2,0⟩ [255] ⟨rfl,rfl⟩ (by decide)

end IxFileHdr
end Rmdb.Index.Codec

namespace Rmdb.Index.IxManager
variable {cols : List IxCol} {file : IxFile (IxBytes cols)} {filename : String} {rest : Bytes}

def fileHdr (cols : List IxCol) : Codec.IxFileHdr where
  firstFreePageNo := Int32.ofInt ixNoPage
  numPages := Int32.ofNat ixInitNumPages
  rootPage := Int32.ofInt ixInitRootPage
  colNum := Int32.ofNat cols.length
  colTypes := cols.map fun col => col.type
  colLens := cols.map fun col => Int32.ofNat col.len
  colTotLen := Int32.ofNat (colTotLen cols)
  btreeOrder := Int32.ofNat (btreeOrder cols)
  keysSize := Int32.ofNat ((btreeOrder cols+1)*colTotLen cols)
  firstLeaf := Int32.ofInt ixInitRootPage
  lastLeaf := Int32.ofInt ixInitRootPage
  totLen := 0

theorem createdReadBack (memory : Codec.IxFileHdr) (created : createIndex filename cols = .ok file) :
    ∃ bytes, Codec.IxFileHdr.serialize (fileHdr cols).updateTotLen [] = .ok () bytes ∧ bytes.length = totLen cols ∧
      Codec.IxFileHdr.deserialize (bytes ++ rest) memory.fresh 0 = .ok (fileHdr cols).updateTotLen bytes.length := by
  obtain ⟨-,fits,-⟩ := createdFile created
  rw [totLen] at fits
  have small : 40+8*cols.length ≤ pageSize := by omega
  rw [pageSize] at small
  have num : (fileHdr cols).colNum.toInt = cols.length := Int32.toInt_ofNat_of_lt (by omega)
  have described : Codec.IxFileHdr.Described (fileHdr cols) :=
    ⟨(congrArg Nat.cast (List.length_map _)).trans num.symm,(congrArg Nat.cast (List.length_map _)).trans num.symm⟩
  have room : 40+8*(fileHdr cols).colTypes.length ≤ pageSize := by rw [fileHdr,List.length_map,pageSize]; exact small
  have updated : Codec.IxFileHdr.Described (fileHdr cols).updateTotLen := ⟨described.types,described.lens⟩
  have total := Codec.IxFileHdr.totalUpdated (fileHdr cols) described room
  refine ⟨_,Codec.IxFileHdr.serializeRun updated total,?_,?_⟩
  · have sum := Codec.IxFileHdr.totLenUpdated (fileHdr cols) num (by rw [pageSize]; exact small)
    rw [Codec.IxFileHdr.wordsLength,totLen]
    omega
  · rw [Codec.IxFileHdr.wordsLength]
    exact Codec.IxFileHdr.deserializeRun memory updated total

end Rmdb.Index.IxManager
