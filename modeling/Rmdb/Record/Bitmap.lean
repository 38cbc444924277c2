import Rmdb.Record.RmPageHandle

/-! `Bitmap` on an array of `char`. A `char` has a sign, and `&`, `|` and `~` work on the `int`s that
the operands are promoted to. -/
namespace Rmdb.Bitmap

def bitmapWidth : Int := 8
def bitmapHighestBit : UInt32 := 0x80

def getBucket (pos : Int) : Nat := (pos.tdiv bitmapWidth).toNat

def getBit (pos : Int) : Int8 := (bitmapHighestBit >>> UInt32.ofInt (pos.tmod bitmapWidth)).toUInt8.toInt8

def bucket (bm : List Int8) (pos : Int) : Except Fault Int8 :=
  if pos < 0 then .error .outOfRange else
    match bm[getBucket pos]? with
    | some byte => .ok byte
    | none => .error .outOfRange

def set (bm : List Int8) (pos : Int) : Except Fault (List Int8) := do
  let byte ← bucket bm pos
  .ok (bm.set (getBucket pos) (byte.toInt32 ||| (getBit pos).toInt32).toInt8)

def reset (bm : List Int8) (pos : Int) : Except Fault (List Int8) := do
  let byte ← bucket bm pos
  let mask : Int8 := (~~~(getBit pos).toInt32).toInt8
  .ok (bm.set (getBucket pos) (byte.toInt32 &&& mask.toInt32).toInt8)

def isSet (bm : List Int8) (pos : Int) : Except Fault Bool := do
  let byte ← bucket bm pos
  .ok (byte.toInt32 &&& (getBit pos).toInt32 != 0)

def findBit (bit : Bool) (bm : List Int8) (maxN : Int) : Nat → Int → Except Fault Int
  | 0,_ => .ok maxN
  | left+1,i => do
    if (← isSet bm i) = bit then .ok i else findBit bit bm maxN left (i+1)

def nextBit (bit : Bool) (bm : List Int8) (maxN curr : Int) : Except Fault Int :=
  if 2^31 ≤ curr+1 then .error .outOfRange else findBit bit bm maxN (maxN-(curr+1)).toNat (curr+1)

section Bits
variable {byte mask other : Int8} {p q : Int}

theorem testChars : (byte.toInt32 &&& mask.toInt32 != 0) = (byte &&& mask != 0) := by
  have same : byte.toInt32 &&& mask.toInt32 = 0 ↔ byte &&& mask = 0 := by
    rw [← Int8.toInt32_and]
    constructor
    · intro zero
      have back := congrArg Int32.toInt8 zero
      rwa [Int8.toInt8_toInt32] at back
    · intro zero
      rw [zero]
      rfl
  simp only [bne,beq_eq_decide,same]

theorem setChars : (byte.toInt32 ||| mask.toInt32).toInt8 = byte ||| mask := by
  rw [Int32.toInt8_or,Int8.toInt8_toInt32,Int8.toInt8_toInt32]

theorem resetChars : (byte.toInt32 &&& (~~~mask.toInt32).toInt8.toInt32).toInt8 = byte &&& ~~~mask := by
  rw [Int32.toInt8_and,Int8.toInt8_toInt32,Int8.toInt8_toInt32,Int32.toInt8_not,Int8.toInt8_toInt32]

theorem orMasked : (byte ||| mask) &&& other = byte &&& other ||| mask &&& other := by
  apply Int8.toBitVec_inj.mp
  ext k inside
  simp [Bool.and_or_distrib_right]

theorem andMasked : byte &&& mask &&& other = byte &&& (mask &&& other) := by
  apply Int8.toBitVec_inj.mp
  ext k inside
  simp [Bool.and_assoc]

theorem getBitMod (low : 0 ≤ p) : getBit p = getBit (p%8) := by
  rw [getBit,getBit,bitmapWidth,Int.tmod_eq_emod_of_nonneg low,Int.tmod_eq_emod_of_nonneg (by omega),Int.emod_emod]

theorem bitSelf (low : 0 ≤ p) : getBit p ≠ 0 ∧ ~~~getBit p &&& getBit p = 0 := by
  have all : ∀ a : Fin 8, getBit a.val ≠ 0 ∧ ~~~getBit a.val &&& getBit a.val = 0 := by decide
  have here := all ⟨(p%8).toNat,by omega⟩
  rw [getBitMod low]
  rwa [show (((⟨(p%8).toNat,by omega⟩ : Fin 8).val : Nat) : Int) = p%8 by simp; omega] at here

theorem bitsApart (lowp : 0 ≤ p) (lowq : 0 ≤ q) (apart : p%8 ≠ q%8) :
    getBit p &&& getBit q = 0 ∧ ~~~getBit p &&& getBit q = getBit q := by
  have all : ∀ a b : Fin 8, a ≠ b → getBit a.val &&& getBit b.val = 0 ∧ ~~~getBit a.val &&& getBit b.val = getBit b.val := by
    decide
  have here := all ⟨(p%8).toNat,by omega⟩ ⟨(q%8).toNat,by omega⟩ fun same => by
    have values := Fin.mk.inj same
    omega
  rw [getBitMod lowp,getBitMod lowq]
  rwa [show (((⟨(p%8).toNat,by omega⟩ : Fin 8).val : Nat) : Int) = p%8 by simp; omega,
    show (((⟨(q%8).toNat,by omega⟩ : Fin 8).val : Nat) : Int) = q%8 by simp; omega] at here

end Bits

def Inside (bm : List Int8) (p : Int) : Prop := 0 ≤ p ∧ p < 8*bm.length

section Laws
variable {bm bm' : List Int8} {p q : Int} {byte : Int8} {b : Bool}

theorem bucketSmall (inside : Inside bm p) : getBucket p < bm.length := by
  have low := inside.1
  have high := inside.2
  rw [getBucket,bitmapWidth,Int.tdiv_eq_ediv_of_nonneg low]
  omega

theorem bucketRun (inside : Inside bm p) : bucket bm p = .ok (bm.get ⟨getBucket p,bucketSmall inside⟩) := by
  rw [bucket,if_neg (not_lt.mpr inside.1),List.getElem?_eq_getElem (bucketSmall inside)]
  rfl

theorem isSetRun (inside : Inside bm p) :
    isSet bm p = .ok (bm.get ⟨getBucket p,bucketSmall inside⟩ &&& getBit p != 0) := by
  rw [isSet,bucketRun inside]
  exact congrArg Except.ok testChars

theorem isSetPut (there : Inside bm q) :
    isSet (bm.set (getBucket p) byte) q = if getBucket q = getBucket p then .ok (byte &&& getBit q != 0) else isSet bm q := by
  have there' : Inside (bm.set (getBucket p) byte) q := by
    rw [Inside,List.length_set]
    exact there
  rw [isSetRun there',isSetRun there]
  by_cases same : getBucket q = getBucket p
  · rw [if_pos same]
    simp only [List.get_eq_getElem,same,List.getElem_set_self]
  · rw [if_neg same]
    simp only [List.get_eq_getElem,List.getElem_set_ne (Ne.symm same)]

structure Changed (bm : List Int8) (p : Int) (v : Bool) (bm' : List Int8) : Prop where
  length : bm'.length = bm.length
  here : isSet bm' p = .ok v
  others : ∀ q, Inside bm q → q ≠ p → isSet bm' q = isSet bm q

theorem putChanged (inside : Inside bm p)
    (others : ∀ q, 0 ≤ q → q%8 ≠ p%8 → byte &&& getBit q = bm.get ⟨getBucket p,bucketSmall inside⟩ &&& getBit q) :
    Changed bm p (byte &&& getBit p != 0) (bm.set (getBucket p) byte) := by
  refine ⟨List.length_set,?_,fun q there apart => ?_⟩
  · rw [isSetPut inside,if_pos rfl]
  · rw [isSetPut there]
    split
    · rename_i same
      have bits : q%8 ≠ p%8 := by
        have buckets := same
        rw [getBucket,getBucket,bitmapWidth,Int.tdiv_eq_ediv_of_nonneg there.1,Int.tdiv_eq_ediv_of_nonneg inside.1] at buckets
        have lowq := there.1
        have lowp := inside.1
        omega
      rw [isSetRun there,others q there.1 bits]
      simp only [same]
    · rfl

theorem setChanges (inside : Inside bm p) : ∃ bm', set bm p = .ok bm' ∧ Changed bm p true bm' := by
  have changed := @putChanged bm p (bm.get ⟨getBucket p,bucketSmall inside⟩ ||| getBit p) inside fun q low apart => by
    rw [orMasked,(bitsApart inside.1 low (Ne.symm apart)).1,Int8.or_zero]
  have test : (bm.get ⟨getBucket p,bucketSmall inside⟩ ||| getBit p) &&& getBit p = getBit p := by
    rw [orMasked,Int8.and_self]
    apply Int8.toBitVec_inj.mp
    ext k small
    simp only [Int8.toBitVec_or,Int8.toBitVec_and,BitVec.getElem_or,BitVec.getElem_and]
    cases (getBit p).toBitVec[k] <;> simp
  rw [test,bne_iff_ne.mpr (bitSelf inside.1).1] at changed
  refine ⟨_,?_,changed⟩
  rw [set,bucketRun inside]
  exact congrArg Except.ok (by rw [setChars])

theorem resetChanges (inside : Inside bm p) : ∃ bm', reset bm p = .ok bm' ∧ Changed bm p false bm' := by
  have changed := @putChanged bm p (bm.get ⟨getBucket p,bucketSmall inside⟩ &&& ~~~getBit p) inside fun q low apart => by
    rw [andMasked,(bitsApart inside.1 low (Ne.symm apart)).2]
  rw [andMasked,(bitSelf inside.1).2,Int8.and_zero] at changed
  refine ⟨_,?_,changed⟩
  rw [reset,bucketRun inside]
  exact congrArg Except.ok (by rw [resetChars])

inductive Found (bm : List Int8) (b : Bool) (n : Int) : Int → Int → Prop where
  | none {i : Int} (empty : ∀ j, i ≤ j → j < n → isSet bm j = .ok !b) : Found bm b n i n
  | at {i k : Int} (low : i ≤ k) (high : k < n) (here : isSet bm k = .ok b) (before : ∀ j, i ≤ j → j < k → isSet bm j = .ok !b) :
      Found bm b n i k

theorem findBitRun {n : Int} (inside : ∀ j, 0 ≤ j → j < n → Inside bm j) {left : Nat} {i : Int} (low : 0 ≤ i)
    (rest : (n-i).toNat = left) : ∃ k, findBit b bm n left i = .ok k ∧ Found bm b n i k := by
  induction left generalizing i with
  | zero => exact ⟨n,rfl,.none fun j lowj high => by omega⟩
  | succ left ih =>
    obtain ⟨v,read⟩ : ∃ v, isSet bm i = .ok v := ⟨_,isSetRun (inside i low (by omega))⟩
    rw [findBit,read]
    change ∃ k, (if v = b then Except.ok i else _) = Except.ok k ∧ _
    by_cases same : v = b
    · rw [if_pos same]
      exact ⟨i,rfl,.at (le_refl i) (by omega) (same ▸ read) fun j lowj high => by omega⟩
    · have other : v = !b := by
        cases v <;> cases b <;> simp_all
      rw [other] at read
      obtain ⟨k,run,found⟩ := ih (show 0 ≤ i+1 by omega) (by omega)
      rw [if_neg same]
      refine ⟨k,run,?_⟩
      have wider {m : Int} (before : ∀ j, i+1 ≤ j → j < m → isSet bm j = .ok !b) (j : Int) (lowj : i ≤ j) (high : j < m) :
          isSet bm j = .ok !b := by
        rcases eq_or_lt_of_le lowj with rfl | above
        · exact read
        · exact before j above high
      cases found with
      | none empty => exact .none (wider empty)
      | «at» low' high here before => exact .at (by omega) high here (wider before)

end Laws

theorem bitmapLaws (bm : List Int8) :
    (∀ p, Inside bm p → ∃ bm', set bm p = .ok bm' ∧ Changed bm p true bm') ∧
      (∀ p, Inside bm p → ∃ bm', reset bm p = .ok bm' ∧ Changed bm p false bm') ∧
      ∀ b n c, -1 ≤ c → c+1 < 2^31 → n ≤ 8*bm.length → ∃ k, nextBit b bm n c = .ok k ∧ Found bm b n (c+1) k := by
  refine ⟨fun p => setChanges,fun p => resetChanges,fun b n c low small high => ?_⟩
  obtain ⟨k,run,found⟩ := @findBitRun bm b n (fun j low' high' => ⟨low',by omega⟩) _ (c+1) (by omega) rfl
  exact ⟨k,by rw [nextBit,if_neg (not_le.mpr small),run],found⟩

example : (do let bm ← set [0,0] 0; let next ← nextBit true bm 16 (-1); pure (bm,next)) = .ok ([-128,0],0) := by decide

section Pages
open Lib Storage Record
open Paged (load write)
open Paged.RmPageHandle (bitmap)

variable {page : PageData} {pos : Int}

def chars (page : PageData) : List Int8 := (page.val.drop bitmap).map UInt8.toInt8

theorem charsLength : (chars page).length = pageSize-bitmap := by
  rw [chars,List.length_map,List.length_drop,page.property]

theorem pageBit (pos : Nat) : (Paged.Bitmap.getBit pos).toInt8 = getBit pos := by
  have all : ∀ a : Fin 8, (0x80 >>> UInt8.ofNat a.val : UInt8).toInt8 = getBit a.val := by decide
  rw [getBitMod (Int.natCast_nonneg pos)]
  exact_mod_cast all ⟨pos%8,by omega⟩

theorem pageBucket : (Paged.Bitmap.bucket page pos).map UInt8.toInt8 = bucket (chars page) pos := by
  rw [Paged.Bitmap.bucket,bucket]
  split
  · rfl
  · rename_i low
    have place : Paged.Bitmap.getBucket pos.toNat = getBucket pos := by
      rw [Paged.Bitmap.getBucket,getBucket,bitmapWidth,Int.tdiv_eq_ediv_of_nonneg (not_lt.mp low)]
      change pos.toNat/8 = _
      omega
    rw [place,load]
    have length := @charsLength page
    by_cases small : bitmap+getBucket pos+1 ≤ pageSize
    · have inside : bitmap+getBucket pos < page.val.length := by
        rw [page.property]
        omega
      have byte : (chars page)[getBucket pos]? = some (page.val.get ⟨bitmap+getBucket pos,inside⟩).toInt8 := by
        rw [chars,List.getElem?_map,List.getElem?_drop,List.getElem?_eq_getElem inside]
        rfl
      have piece : Block.peek page (bitmap+getBucket pos) 1 = [page.val.get ⟨bitmap+getBucket pos,inside⟩] := by
        rw [Block.peek,List.drop_eq_getElem_cons inside]
        rfl
      rw [if_pos small,byte,piece]
      rfl
    · rw [if_neg small,List.getElem?_eq_none (by omega)]
      rfl

theorem pageIsSet : Paged.Bitmap.isSet page pos = isSet (chars page) pos := by
  have same := @pageBucket page pos
  rw [Paged.Bitmap.isSet,isSet,← same]
  cases read : Paged.Bitmap.bucket page pos with
  | error e => rfl
  | ok byte =>
    have low : 0 ≤ pos := by
      by_contra negative
      rw [Paged.Bitmap.bucket,if_pos (not_le.mp negative)] at read
      cases read
    have bit := pageBit pos.toNat
    rw [Int.toNat_of_nonneg low] at bit
    have test : (byte &&& Paged.Bitmap.getBit pos.toNat != 0) = (byte.toInt8.toInt32 &&& (getBit pos).toInt32 != 0) := by
      have zero : byte &&& Paged.Bitmap.getBit pos.toNat = 0 ↔ byte.toInt8 &&& getBit pos = 0 := by
        rw [← bit,← UInt8.toInt8_and]
        exact ⟨fun none => by rw [none]; rfl,congrArg Int8.toUInt8⟩
      rw [testChars]
      simp only [bne,beq_eq_decide,zero]
    exact congrArg Except.ok test

theorem writeChars {k : Nat} {byte : UInt8} (inside : bitmap+k+1 ≤ pageSize) :
    (write page (bitmap+k) [byte]).map chars = .ok ((chars page).set k byte.toInt8) := by
  obtain ⟨page',poked⟩ := @Block.pokeInside _ _ (bitmap+k) [byte] page inside
  have value := (Block.poked poked).2
  have front : (page.val.take (bitmap+k)).length = bitmap+k := by
    rw [List.length_take,page.property]
    omega
  have whole : page'.val = page.val.set (bitmap+k) byte := by
    rw [value,List.set_eq_take_append_cons_drop,if_pos (by rw [page.property]; omega),List.append_assoc]
    rfl
  rw [write,poked]
  refine congrArg Except.ok ?_
  rw [chars,chars,whole,List.drop_set,if_neg (by omega),Nat.add_sub_cancel_left,List.map_set]

theorem pageChange {f : UInt8 → UInt8} {g : Int8 → Int8} (same : ∀ byte, (f byte).toInt8 = g byte.toInt8) :
    (do
      let byte ← Paged.Bitmap.bucket page pos
      write page (bitmap+Paged.Bitmap.getBucket pos.toNat) [f byte] : Except Fault PageData).map chars = (do
      let byte ← bucket (chars page) pos
      .ok ((chars page).set (getBucket pos) (g byte))) := by
  have read := @pageBucket page pos
  rw [← read]
  cases here : Paged.Bitmap.bucket page pos with
  | error e => rfl
  | ok byte =>
    rw [here] at read
    have low : 0 ≤ pos := by
      by_contra negative
      rw [Paged.Bitmap.bucket,if_pos (not_le.mp negative)] at here
      cases here
    have inside : getBucket pos < (chars page).length := by
      rw [bucket,if_neg (not_lt.mpr low)] at read
      by_contra outside
      rw [List.getElem?_eq_none (not_lt.mp outside)] at read
      cases read
    have place : Paged.Bitmap.getBucket pos.toNat = getBucket pos := by
      rw [Paged.Bitmap.getBucket,getBucket,bitmapWidth,Int.tdiv_eq_ediv_of_nonneg low]
      change pos.toNat/8 = _
      omega
    rw [charsLength] at inside
    rw [place]
    exact (writeChars (by omega)).trans (congrArg (fun c => Except.ok ((chars page).set (getBucket pos) c)) (same byte))

theorem pageSet (low : 0 ≤ pos) : (Paged.Bitmap.set page pos).map chars = set (chars page) pos := by
  have bit := pageBit pos.toNat
  rw [Int.toNat_of_nonneg low] at bit
  refine pageChange fun byte => ?_
  rw [setChars,UInt8.toInt8_or,bit]

theorem pageReset (low : 0 ≤ pos) : (Paged.Bitmap.reset page pos).map chars = reset (chars page) pos := by
  have bit := pageBit pos.toNat
  rw [Int.toNat_of_nonneg low] at bit
  refine pageChange fun byte => ?_
  rw [resetChars,UInt8.toInt8_and,UInt8.toInt8_not,bit]

end Pages
end Rmdb.Bitmap
