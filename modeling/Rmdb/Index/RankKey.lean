import Rmdb.Common.LongDouble
import Rmdb.Index.IxCompare

/-! Keys with `FLOAT` columns. Both zeros are one key for `ix_compare` and two for `memcmp`, so the
tree gets the rank of a `FLOAT` value in its place: an integer that `ix_compare` compares as it
compares the value. -/
namespace Rmdb
open Index

theorem IxCol.compareTake (col : IxCol) {a b : Bytes} : col.compare (a.take col.len) (b.take col.len) = col.compare a b := by
  obtain ⟨⟨tabName,name,type,len,offset⟩,named,fixed⟩ := col
  cases type with
  | float => exact fixed.elim
  | int => cases fixed; simp [IxCol.compare,List.take_take]
  | bigint => cases fixed; simp [IxCol.compare,List.take_take]
  | datetime => cases fixed; simp [IxCol.compare,List.take_take]
  | string => simp [IxCol.compare,List.take_take]

namespace KeyCol

theorem rankFixed (col : KeyCol) : match (if col.type = .float then .int else col.type : ColType) with
    | .int => col.len = 4
    | .bigint => col.len = 8
    | .datetime => col.len = 8
    | .string => True
    | .float => False := by
  obtain ⟨⟨tabName,name,type,len,offset⟩,named,fixed⟩ := col
  cases type <;> exact fixed

def rankCol (col : KeyCol) : IxCol :=
  ⟨{col.toColMeta with type := if col.type = .float then .int else col.type},col.named,col.rankFixed⟩

def rank (col : KeyCol) (bytes : Bytes) : Bytes :=
  if col.type = .float then leBytes 4 (LongDouble.floatRank (leNat bytes)) else bytes

def floatAt (bytes : Bytes) : LongDouble := .ofFloat (UInt32.ofNat (leNat (bytes.take 4)))

def compare (col : KeyCol) (a b : Bytes) : Int :=
  match col.type with
  | .float => if LongDouble.less (floatAt a) (floatAt b) then -1 else if LongDouble.less (floatAt b) (floatAt a) then 1 else 0
  | _ => col.rankCol.compare a b

def Numeric (col : KeyCol) (bytes : Bytes) : Prop := col.type = .float → ¬LongDouble.isNan (leNat (bytes.take 4))

variable (col : KeyCol) {a b bytes : Bytes}

theorem floatLen (float : col.type = .float) : col.len = 4 := by
  have fixed := col.fixed
  rw [float] at fixed
  exact fixed

theorem rankLength (fits : bytes.length = col.len) : (col.rank bytes).length = col.len := by
  rw [rank]
  split
  · rename_i float
    rw [leBytesLength,col.floatLen float]
  · exact fits

theorem rankColPlain (plain : col.type ≠ .float) : col.rankCol.toColMeta = col.toColMeta :=
  congrArg (fun type => {col.toColMeta with type := type}) (if_neg plain)

theorem comparePlain (plain : col.type ≠ .float) : col.compare a b = col.rankCol.compare a b := by
  rw [compare]
  split
  · contradiction
  · rfl

theorem floatBits (bytes : Bytes) : (UInt32.ofNat (leNat (bytes.take 4))).toNat = leNat (bytes.take 4) := by
  have bound : 256^(bytes.take 4).length ≤ 256^4 := Nat.pow_le_pow_right (by norm_num) (List.length_take_le 4 bytes)
  have small := leNatBound (bytes.take 4)
  exact UInt32.toNat_ofNat_of_lt' (by rw [UInt32.size]; omega)

theorem compareFloat (float : col.type = .float) (numbera : col.Numeric a) (numberb : col.Numeric b) :
    col.rankCol.compare (col.rank (a.take 4)) (col.rank (b.take 4)) = col.compare a b := by
  have typed : col.rankCol.type = .int := if_pos float
  have na : ¬LongDouble.isNan (UInt32.ofNat (leNat (a.take 4))).toNat := by
    rw [floatBits]
    exact numbera float
  have nb : ¬LongDouble.isNan (UInt32.ofNat (leNat (b.take 4))).toNat := by
    rw [floatBits]
    exact numberb float
  have bounda := (LongDouble.ofFloatRank na).1
  have boundb := (LongDouble.ofFloatRank nb).1
  have ab := LongDouble.lessRank na nb
  have ba := LongDouble.lessRank nb na
  rw [floatBits,floatBits] at ab ba
  rw [floatBits] at bounda boundb
  rw [compare,float,IxCol.compare,typed,rank,rank,if_pos float,if_pos float]
  dsimp only
  rw [floatAt,floatAt,ab,ba]
  generalize LongDouble.floatRank (leNat (a.take 4)) = p at *
  generalize LongDouble.floatRank (leNat (b.take 4)) = q at *
  rw [List.take_of_length_le (leBytesLength ..).le,List.take_of_length_le (leBytesLength ..).le,
    leIntBytes (by omega) (by omega),leIntBytes (by omega) (by omega),IxCol.compareInt]
  simp only [decide_eq_true_eq,gt_iff_lt]

theorem compareRank (numbera : col.Numeric a) (numberb : col.Numeric b) :
    col.rankCol.compare (col.rank (a.take col.len)) (col.rank (b.take col.len)) = col.compare a b := by
  by_cases float : col.type = .float
  · rw [col.floatLen float]
    exact col.compareFloat float numbera numberb
  · rw [rank,rank,if_neg float,if_neg float,col.comparePlain float]
    exact col.rankCol.compareTake

end KeyCol

namespace Index

def ranks (cols : List KeyCol) : List IxCol := cols.map KeyCol.rankCol

def rankKey : List KeyCol → Bytes → Bytes
  | [],_ => []
  | col :: cols,key => col.rank (key.take col.len) ++ rankKey cols (key.drop col.len)

def compareKeys : List KeyCol → Bytes → Bytes → Int
  | [],_,_ => 0
  | col :: cols,a,b =>
    let res := col.compare a b
    if res ≠ 0 then res else compareKeys cols (a.drop col.len) (b.drop col.len)

def NumericKey : List KeyCol → Bytes → Prop
  | [],_ => True
  | col :: cols,key => col.Numeric key ∧ NumericKey cols (key.drop col.len)

section Ranks
variable {cols : List KeyCol} {key a b : Bytes}

theorem ranksLen (col : KeyCol) (cols : List KeyCol) : colTotLen (ranks (col :: cols)) = col.len+colTotLen (ranks cols) :=
  List.sum_cons

theorem rankKeyLength (fits : key.length = colTotLen (ranks cols)) : (rankKey cols key).length = colTotLen (ranks cols) := by
  induction cols generalizing key with
  | nil => rfl
  | cons col cols ih =>
    rw [ranksLen] at fits ⊢
    have first : (key.take col.len).length = col.len := by
      rw [List.length_take]
      omega
    have rest : (key.drop col.len).length = colTotLen (ranks cols) := by
      rw [List.length_drop]
      omega
    rw [rankKey,List.length_append,col.rankLength first,ih rest]

theorem rankKeyPlain (plain : ∀ col ∈ cols, col.type ≠ .float) (fits : key.length = colTotLen (ranks cols)) :
    rankKey cols key = key := by
  induction cols generalizing key with
  | nil => exact (List.eq_nil_of_length_eq_zero fits).symm
  | cons col cols ih =>
    rw [List.forall_mem_cons] at plain
    rw [ranksLen] at fits
    have rest : (key.drop col.len).length = colTotLen (ranks cols) := by
      rw [List.length_drop]
      omega
    rw [rankKey,KeyCol.rank,if_neg plain.1,ih plain.2 rest,List.take_append_drop]

theorem ranksPlain {col : IxCol} (plain : ∀ key ∈ cols, key.type ≠ .float) (mem : col ∈ ranks cols) :
    ∃ key ∈ cols, key.toColMeta = col.toColMeta := by
  obtain ⟨key,own,rfl⟩ := List.mem_map.mp mem
  exact ⟨key,own,(key.rankColPlain (plain key own)).symm⟩

theorem compareRanked (fitsa : a.length = colTotLen (ranks cols)) (fitsb : b.length = colTotLen (ranks cols))
    (numbera : NumericKey cols a) (numberb : NumericKey cols b) :
    compareCols (ranks cols) (rankKey cols a) (rankKey cols b) = compareKeys cols a b := by
  induction cols generalizing a b with
  | nil => rfl
  | cons col cols ih =>
    rw [ranksLen] at fitsa fitsb
    obtain ⟨onea,resta⟩ := numbera
    obtain ⟨oneb,restb⟩ := numberb
    have cut (x : Bytes) (fits : x.length = col.len+colTotLen (ranks cols)) :
        (col.rank (x.take col.len)).length = col.len ∧ (x.drop col.len).length = colTotLen (ranks cols) := by
      have first : (x.take col.len).length = col.len := by
        rw [List.length_take]
        omega
      refine ⟨col.rankLength first,?_⟩
      rw [List.length_drop]
      omega
    obtain ⟨firsta,latera⟩ := cut a fitsa
    obtain ⟨firstb,laterb⟩ := cut b fitsb
    have head : col.rankCol.compare (rankKey (col :: cols) a) (rankKey (col :: cols) b) = col.compare a b := by
      have front (x : Bytes) (first : (col.rank (x.take col.len)).length = col.len) :
          (rankKey (col :: cols) x).take col.rankCol.len = col.rank (x.take col.len) := List.take_left' first
      rw [← col.compareRank onea oneb,← col.rankCol.compareTake,front a firsta,front b firstb]
    have tail (x : Bytes) (first : (col.rank (x.take col.len)).length = col.len) :
        (rankKey (col :: cols) x).drop col.rankCol.len = rankKey cols (x.drop col.len) := List.drop_left' first
    rw [ranks,List.map_cons,compareCols,compareKeys]
    rw [head,tail a firsta,tail b firstb]
    split
    · rfl
    · exact ih latera laterb resta restb

end Ranks
end Index
end Rmdb
