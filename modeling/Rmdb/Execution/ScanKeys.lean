import Rmdb.Execution.ScanRange

/-! The two keys that `build_scan_range` makes of the bounds: the key of every record that the
bounds admit lies between them. -/
namespace Rmdb
open Lib Index IndexScanExecutor

def rowKey (cols : List IxCol) (record : Bytes) : Bytes := cols.flatMap fun col => field col record

section Order
variable {inclusive : Bool} {p q x y : List Int}

theorem aboveAppend (length : p.length = q.length) (first : Above inclusive p q) (second : inclusive = true → x ≤ y) :
    Above inclusive (p ++ x) (q ++ y) := by
  cases inclusive with
  | true => exact appendLe length first fun _ => second rfl
  | false => exact appendLt length first

theorem aboveSame (rest : Above inclusive x y) : Above inclusive (p ++ x) (p ++ y) := by
  cases inclusive with
  | true => exact appendLe rfl (le_refl p) fun _ => rest
  | false => exact List.append_left_lt rest

end Order

section Padding
variable {cols : List IxCol} {record : Bytes} (fill : IxCol → Bytes)

theorem fillLength (sized : ∀ col : IxCol, (fill col).length = col.len) : (cols.flatMap fill).length = colTotLen cols := by
  rw [List.length_flatMap,colTotLen]
  exact congrArg List.sum (List.map_congr_left fun col _ => sized col)

theorem rowKeyCons (col : IxCol) : rowKey (col :: cols) record = field col record ++ rowKey cols record := rfl

theorem minKeyLe (covered : Covered cols record) :
    keyDigits cols (cols.flatMap fillMinValue) ≤ keyDigits cols (rowKey cols record) := by
  induction cols with
  | nil => exact le_refl _
  | cons col cols ih =>
    have here := covered col List.mem_cons_self
    rw [List.flatMap_cons,rowKeyCons,keyDigitsCons col (fillMinLength col),keyDigitsCons col here]
    refine appendLe (col.digitsLength (fillMinLength col).ge here.ge) (fillMinLe col here) fun _ => ?_
    exact ih fun c mem => covered c (List.mem_cons_of_mem _ mem)

theorem maxKeyGe (covered : Covered cols record) :
    keyDigits cols (rowKey cols record) ≤ keyDigits cols (cols.flatMap fillMaxValue) := by
  induction cols with
  | nil => exact le_refl _
  | cons col cols ih =>
    have here := covered col List.mem_cons_self
    rw [List.flatMap_cons,rowKeyCons,keyDigitsCons col (fillMaxLength col),keyDigitsCons col here]
    refine appendLe (col.digitsLength here.ge (fillMaxLength col).ge) (fillMaxGe col here) fun _ => ?_
    exact ih fun c mem => covered c (List.mem_cons_of_mem _ mem)

def lowPad (keys : ScanKeys) (col : IxCol) : Bytes :=
  if keys.rangeConsumed ∧ !keys.lowerInclusive then fillMaxValue col else fillMinValue col

def highPad (keys : ScanKeys) (col : IxCol) : Bytes :=
  if keys.rangeConsumed ∧ !keys.upperInclusive then fillMinValue col else fillMaxValue col

theorem lowPadLength (keys : ScanKeys) (col : IxCol) : (lowPad keys col).length = col.len := by
  rw [lowPad]
  split
  · exact fillMaxLength col
  · exact fillMinLength col

theorem highPadLength (keys : ScanKeys) (col : IxCol) : (highPad keys col).length = col.len := by
  rw [highPad]
  split
  · exact fillMinLength col
  · exact fillMaxLength col

theorem padKeysRun (keys : ScanKeys) (cols : List IxCol) : padKeys keys cols = {keys with
    lowerKey := keys.lowerKey ++ cols.flatMap (lowPad keys)
    upperKey := keys.upperKey ++ cols.flatMap (highPad keys)} := by
  induction cols generalizing keys with
  | nil => simp [padKeys]
  | cons col cols ih =>
    rw [padKeys,ih]
    simp only [List.flatMap_cons,List.append_assoc]
    rfl

end Padding

section Prefix
variable {col : IxCol} {cols : List IxCol} {bound : ColumnBound} {bounds : List ColumnBound} {keys : ScanKeys}
  {record low high : Bytes}

def Between (cols : List IxCol) (low high : Bytes) (lowerInclusive upperInclusive : Bool) (record : Bytes) : Prop :=
  Above lowerInclusive (keyDigits cols low) (keyDigits cols (rowKey cols record)) ∧
    Above upperInclusive (keyDigits cols (rowKey cols record)) (keyDigits cols high)

/- Columns with a value for each of them come first, then one with a range, then the padding. -/
structure Bracketed (keys : ScanKeys) (cols : List IxCol) (bounds : List ColumnBound) (started : ScanKeys) (rest : List IxCol)
    (low high : Bytes) : Prop where
  padded : padKeys started rest = {started with lowerKey := keys.lowerKey ++ low, upperKey := keys.upperKey ++ high}
  lowLength : low.length = colTotLen cols
  highLength : high.length = colTotLen cols
  between : ∀ record, Covered cols record → AllAdmit cols record bounds →
    Between cols low high started.lowerInclusive started.upperInclusive record

def lowEnd (col : IxCol) (bound : ColumnBound) : Bytes × Bool :=
  match bound.lower with
  | some v => (v.raw.getD [],bound.lowerInclusive)
  | none => (fillMinValue col,true)

def highEnd (col : IxCol) (bound : ColumnBound) : Bytes × Bool :=
  match bound.upper with
  | some v => (v.raw.getD [],bound.upperInclusive)
  | none => (fillMaxValue col,true)

theorem lowEndLength (shaped : Shaped col bound) : (lowEnd col bound).1.length = col.len := by
  rw [lowEnd]
  split
  · rename_i v here
    obtain ⟨raw,known,length⟩ := shaped.lower v here
    rwa [known]
  · exact fillMinLength col

theorem highEndLength (shaped : Shaped col bound) : (highEnd col bound).1.length = col.len := by
  rw [highEnd]
  split
  · rename_i v here
    obtain ⟨raw,known,length⟩ := shaped.upper v here
    rwa [known]
  · exact fillMaxLength col

theorem lowEndAbove {x : Bytes} (shaped : Shaped col bound) (sized : x.length = col.len) (admits : Admits col x bound) :
    Above (lowEnd col bound).2 (col.digits (lowEnd col bound).1) (col.digits x) := by
  rw [lowEnd]
  split
  · rename_i v here
    obtain ⟨raw,known,length⟩ := shaped.lower v here
    rw [known]
    exact admits.lower v here raw known
  · exact fillMinLe col sized

theorem highEndAbove {x : Bytes} (shaped : Shaped col bound) (sized : x.length = col.len) (admits : Admits col x bound) :
    Above (highEnd col bound).2 (col.digits x) (col.digits (highEnd col bound).1) := by
  rw [highEnd]
  split
  · rename_i v here
    obtain ⟨raw,known,length⟩ := shaped.upper v here
    rw [known]
    exact admits.upper v here raw known
  · exact fillMaxGe col sized

theorem rangeRun (shaped : Shaped col bound) (free : bound.eq = none) (ranged : bound.lower ≠ none ∨ bound.upper ≠ none) :
    scanPrefix keys (col :: cols) (bound :: bounds) = .ok (⟨keys.lowerKey ++ (lowEnd col bound).1,
      keys.upperKey ++ (highEnd col bound).1,(lowEnd col bound).2,(highEnd col bound).2,true,true⟩,cols) := by
  have whole {raw : Bytes} (length : raw.length = col.len) : raw.take col.len = raw := List.take_of_length_le length.le
  rw [scanPrefix,free]
  dsimp only
  rw [if_pos ranged]
  cases low : bound.lower with
  | none => cases high : bound.upper with
    | none => simp [low,high] at ranged
    | some v =>
      obtain ⟨raw,known,length⟩ := shaped.upper v high
      simp [lowEnd,highEnd,low,high,rawData,known,whole length,bind,Except.bind]
  | some w =>
    obtain ⟨raw,known,length⟩ := shaped.lower w low
    cases high : bound.upper with
    | none => simp [lowEnd,highEnd,low,high,rawData,known,whole length,bind,Except.bind]
    | some v =>
      obtain ⟨raw',known',length'⟩ := shaped.upper v high
      simp [lowEnd,highEnd,low,high,rawData,known,known',whole length,whole length',bind,Except.bind]

theorem totLenCons : colTotLen (col :: cols) = col.len+colTotLen cols := rfl

theorem lowPadAbove (covered : Covered cols record)
    (inclusive : keys.lowerInclusive = true) :
    keyDigits cols (cols.flatMap (lowPad keys)) ≤ keyDigits cols (rowKey cols record) := by
  have pad : cols.flatMap (lowPad keys) = cols.flatMap fillMinValue :=
    List.flatMap_congr fun col _ => by simp [lowPad,inclusive]
  rw [pad]
  exact minKeyLe covered

theorem highPadAbove (covered : Covered cols record) (inclusive : keys.upperInclusive = true) :
    keyDigits cols (rowKey cols record) ≤ keyDigits cols (cols.flatMap (highPad keys)) := by
  have pad : cols.flatMap (highPad keys) = cols.flatMap fillMaxValue :=
    List.flatMap_congr fun col _ => by simp [highPad,inclusive]
  rw [pad]
  exact maxKeyGe covered

theorem scanPrefixRun (shaped : List.Forall₂ Shaped cols bounds) (lower : keys.lowerInclusive = true)
    (upper : keys.upperInclusive = true) : ∃ started rest low high,
    scanPrefix keys cols bounds = .ok (started,rest) ∧ Bracketed keys cols bounds started rest low high := by
  induction shaped generalizing keys with
  | nil =>
    refine ⟨keys,[],[],[],rfl,⟨?_,rfl,rfl,fun record _ _ => ?_⟩⟩
    · rw [padKeysRun]
      rfl
    · rw [Between,lower,upper]
      exact ⟨le_refl _,le_refl _⟩
  | @cons col bound cols bounds here later ih =>
    have rest {record : Bytes} (covered : Covered (col :: cols) record) : Covered cols record :=
      fun c mem => covered c (List.mem_cons_of_mem _ mem)
    cases eq : bound.eq with
    | some v =>
      obtain ⟨raw,known,length⟩ := here.eq v eq
      have whole : raw.take col.len = raw := List.take_of_length_le length.le
      obtain ⟨started,others,low,high,run,bracketed⟩ := @ih {keys with
        lowerKey := keys.lowerKey ++ raw
        upperKey := keys.upperKey ++ raw
        usedPrefix := true} lower upper
      refine ⟨started,others,raw ++ low,raw ++ high,?_,⟨?_,?_,?_,fun record covered allowed => ?_⟩⟩
      · rw [scanPrefix,eq]
        simp only [rawData,known,bind,Except.bind,whole]
        exact run
      · rw [bracketed.padded,List.append_assoc,List.append_assoc]
      · rw [List.length_append,length,bracketed.lowLength,totLenCons]
      · rw [List.length_append,length,bracketed.highLength,totLenCons]
      · cases allowed with
        | cons admits allowed =>
          have same : raw = field col record := Option.some.inj (known.symm.trans (admits.eq v eq))
          obtain ⟨above,below⟩ := bracketed.between record (rest covered) allowed
          rw [Between,rowKeyCons,← same,keyDigitsCons col length,keyDigitsCons col length,keyDigitsCons col length]
          exact ⟨aboveSame above,aboveSame below⟩
    | none =>
      by_cases ranged : bound.lower ≠ none ∨ bound.upper ≠ none
      · have lowLength := lowEndLength here
        have highLength := highEndLength here
        let started : ScanKeys := ⟨keys.lowerKey ++ (lowEnd col bound).1,keys.upperKey ++ (highEnd col bound).1,
          (lowEnd col bound).2,(highEnd col bound).2,true,true⟩
        refine ⟨started,cols,(lowEnd col bound).1 ++ cols.flatMap (lowPad started),
          (highEnd col bound).1 ++ cols.flatMap (highPad started),rangeRun here eq ranged,
          ⟨?_,?_,?_,fun record covered allowed => ?_⟩⟩
        · rw [padKeysRun,List.append_assoc,List.append_assoc]
        · rw [List.length_append,lowLength,fillLength _ (lowPadLength _),totLenCons]
        · rw [List.length_append,highLength,fillLength _ (highPadLength _),totLenCons]
        · cases allowed with
          | cons admits allowed =>
            have sized := covered col List.mem_cons_self
            rw [Between,rowKeyCons,keyDigitsCons col lowLength,keyDigitsCons col highLength,keyDigitsCons col sized]
            refine ⟨aboveAppend (col.digitsLength lowLength.ge sized.ge) (lowEndAbove here sized admits) ?_,
              aboveAppend (col.digitsLength sized.ge highLength.ge) (highEndAbove here sized admits) ?_⟩
            · exact fun inclusive => lowPadAbove (rest covered) inclusive
            · exact fun inclusive => highPadAbove (rest covered) inclusive
      · refine ⟨keys,col :: cols,(col :: cols).flatMap (lowPad keys),(col :: cols).flatMap (highPad keys),?_,
          ⟨padKeysRun keys (col :: cols),fillLength _ (lowPadLength _),fillLength _ (highPadLength _),
          fun record covered _ => ?_⟩⟩
        · rw [scanPrefix,eq]
          dsimp only
          rw [if_neg ranged]
        · rw [Between,lower,upper]
          exact ⟨lowPadAbove covered lower,highPadAbove covered upper⟩

end Prefix
end Rmdb
