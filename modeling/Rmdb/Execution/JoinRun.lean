import Rmdb.Execution.NestedLoopJoin

/-! The join goes through every pair of a left and a right record once, block by block, and
stops at those whose joined record satisfies the conditions. -/
namespace Rmdb.NestedLoopJoinExecutor
open AbstractExecutor

section Match
variable {α : Type} {test : α → Except Fault Bool} {pass : α → Bool} {xs ys : List α}

def firstMatch (test : α → Except Fault Bool) : List α → Except Fault (List α)
  | [] => .ok []
  | x :: xs => match test x with
    | .error e => .error e
    | .ok true => .ok (x :: xs)
    | .ok false => firstMatch test xs

theorem firstMatchAppend : firstMatch test (xs ++ ys) = match firstMatch test xs with
    | .error e => .error e
    | .ok [] => firstMatch test ys
    | .ok (x :: rest) => .ok (x :: rest ++ ys) := by
  induction xs with
  | nil => rfl
  | cons x xs ih =>
    rw [List.cons_append,firstMatch,firstMatch]
    cases test x with
    | error e => rfl
    | ok passed => cases passed with
      | true => rfl
      | false => exact ih

theorem firstMatchTotal (total : ∀ x ∈ xs, test x = .ok (pass x)) : firstMatch test xs = .ok (xs.dropWhile fun x => !pass x) := by
  induction xs with
  | nil => rfl
  | cons x xs ih =>
    rw [firstMatch,total x List.mem_cons_self,List.dropWhile_cons,ih fun y mem => total y (List.mem_cons_of_mem x mem)]
    cases pass x <;> rfl

theorem filterDropWhile : (xs.dropWhile fun x => !pass x).filter pass = xs.filter pass := by
  induction xs with
  | nil => rfl
  | cons x xs ih =>
    rw [List.dropWhile_cons]
    cases passed : pass x with
    | true => simp
    | false => simpa [passed] using ih

theorem firstMatchHead {x : α} (found : firstMatch test xs = .ok (x :: ys)) : test x = .ok true ∧ ∃ front, xs = front ++ x :: ys := by
  induction xs with
  | nil => cases found
  | cons a xs ih =>
    rw [firstMatch] at found
    cases tested : test a with
    | error e =>
      rw [tested] at found
      cases found
    | ok passed => cases passed with
      | true =>
        rw [tested] at found
        obtain ⟨rfl,rfl⟩ := List.cons.inj (Except.ok.inj found)
        exact ⟨tested,[],rfl⟩
      | false =>
        rw [tested] at found
        obtain ⟨head,front,rfl⟩ := ih found
        exact ⟨head,a :: front,rfl⟩

end Match

section Pairs

def pairs (block rights : List Bytes) : List (Bytes × Bytes) := rights.flatMap fun r => block.map fun l => (l,r)

def laterPairs (capacity : Nat) (rights : List Bytes) : Nat → List Bytes → List (Bytes × Bytes)
  | 0,_ => []
  | _+1,[] => []
  | n+1,l :: ls => pairs ((l :: ls).take capacity) rights ++ laterPairs capacity rights n ((l :: ls).drop capacity)

variable {capacity : Nat} {block rights ls ls' : List Bytes}

theorem pairsPerm : (pairs block rights).Perm (block ×ˢ rights) := by
  induction block with
  | nil => simp [pairs]
  | cons l block ih =>
    rw [List.product_cons]
    exact (List.map_append_flatMap_perm rights _ _).symm.trans (ih.append_left _)

theorem laterPairsPerm (positive : 1 ≤ capacity) {n : Nat} (enough : ls.length ≤ n) :
    (laterPairs capacity rights n ls).Perm (ls ×ˢ rights) := by
  induction n generalizing ls with
  | zero =>
    obtain rfl := List.length_eq_zero_iff.mp (Nat.le_zero.mp enough)
    exact List.Perm.nil
  | succ n ih => cases ls with
    | nil => exact List.Perm.nil
    | cons l ls =>
      rw [laterPairs]
      have rest := @ih ((l :: ls).drop capacity) (by rw [List.length_drop,List.length_cons]; rw [List.length_cons] at enough; omega)
      have whole : (l :: ls) ×ˢ rights = (l :: ls).take capacity ×ˢ rights ++ (l :: ls).drop capacity ×ˢ rights := by
        conv_lhs => rw [← List.take_append_drop capacity (l :: ls)]
        exact List.flatMap_append
      rw [whole]
      exact pairsPerm.append rest

end Pairs

section Loops
variable {σ τ : Type} {j : NestedLoopJoinExecutor σ τ} {readyL : σ → Prop} {standsL : σ → List Bytes → Prop}
  {readyR : τ → Prop} {standsR : τ → List Bytes → Prop} {L R : List Bytes} {s : JoinState σ τ}

theorem fillRun (positions : j.left.Positions standsL) {room : Nat} {ls : List Bytes} (here : standsL s.left ls) :
    ∃ u, j.fillBlock room s = .ok () {s with left := u, leftBlock := s.leftBlock ++ ls.take room} ∧
      standsL u (ls.drop room) := by
  induction room generalizing s ls with
  | zero => exact ⟨s.left,by simp [fillBlock],by simpa using here⟩
  | succ room ih => cases ls with
    | nil =>
      refine ⟨s.left,?_,by simpa using here⟩
      rw [fillBlock,getBind,if_pos (positions.ended _ here)]
      simp
    | cons l ls =>
      obtain ⟨t,shown,still⟩ := positions.record _ l ls here
      obtain ⟨u,stepped,later⟩ := positions.step t l ls still
      have read : onLeft j.left.next s = .ok (some l) {s with left := t} := zoomOk shown
      have moved : onLeft j.left.nextTuple {s with left := t, leftBlock := s.leftBlock ++ [l]} =
          .ok () {s with left := u, leftBlock := s.leftBlock ++ [l]} := zoomOk stepped
      obtain ⟨v,filled,last⟩ := @ih {s with left := u, leftBlock := s.leftBlock ++ [l]} ls later
      refine ⟨v,?_,last⟩
      rw [fillBlock,getBind,positions.going _ l ls here,if_neg Bool.false_ne_true,bindEq read]
      dsimp only
      rw [modifyBind,bindEq moved,filled]
      simp

theorem loadRun (positions : j.left.Positions standsL) {ls : List Bytes} (here : standsL s.left ls) :
    ∃ u, j.loadNextLeftBlock s = .ok (!(ls.take j.leftBlockCapacity).isEmpty)
      {s with left := u, leftBlock := ls.take j.leftBlockCapacity, leftBlockIdx := 0} ∧
      standsL u (ls.drop j.leftBlockCapacity) := by
  obtain ⟨u,filled,last⟩ := @fillRun _ _ _ _ {s with leftBlock := [], leftBlockIdx := 0} positions j.leftBlockCapacity ls here
  refine ⟨u,?_,last⟩
  rw [loadNextLeftBlock,modifyBind,bindEq filled]
  rfl

theorem scanRun [FloatOps] (r : Bytes) (block : List Bytes) (s : JoinState σ τ) :
    match firstMatch j.satisfies (block.map fun l => (l,r)) with
    | .error e => ∃ t, j.scanBlock r block s = .error e t
    | .ok [] => ∃ k, j.scanBlock r block s = .ok false {s with leftBlockIdx := k}
    | .ok (pair :: rest) => ∃ k l more, j.scanBlock r block s = .ok true {s with leftBlockIdx := s.leftBlockIdx+k} ∧
        block.drop k = l :: more ∧ pair = (l,r) ∧ rest = more.map fun l => (l,r) := by
  induction block generalizing s with
  | nil => exact ⟨s.leftBlockIdx,rfl⟩
  | cons l block ih =>
    rw [List.map_cons,firstMatch]
    cases tested : j.satisfies (l,r) with
    | error e =>
      refine ⟨s,?_⟩
      rw [scanBlock,tested,bindError (ofExceptError e s)]
    | ok passed => cases passed with
      | true =>
        refine ⟨0,l,block,?_,rfl,rfl,rfl⟩
        rw [scanBlock,tested,bindEq (ofExceptOk true s)]
        rfl
      | false =>
        have start : j.scanBlock r (l :: block) s = j.scanBlock r block {s with leftBlockIdx := s.leftBlockIdx+1} := by
          rw [scanBlock,tested,bindEq (ofExceptOk false s)]
          rfl
        have later := ih {s with leftBlockIdx := s.leftBlockIdx+1}
        rw [start]
        dsimp only
        split at later
        · exact later
        · exact later
        · obtain ⟨k,l',more,run,found,rest⟩ := later
          refine ⟨k+1,l',more,?_,found,rest⟩
          rw [run]
          simp only [Nat.add_assoc,Nat.add_comm k]

theorem advanceTuple [FloatOps] {fuel : Nat} {r : Bytes} (tuple : s.rightTuple = some r) :
    j.advanceToNextMatch (fuel+1) s = (do
      if ← j.scanBlock r (s.leftBlock.drop s.leftBlockIdx) then pure () else
        j.turnRight
        j.advanceToNextMatch fuel) s := by
  rw [advanceToNextMatch,getBind,tuple]

theorem advanceNone [FloatOps] {fuel : Nat} (tuple : s.rightTuple = none) :
    j.advanceToNextMatch (fuel+1) s = (do if ← j.turnBlock then j.advanceToNextMatch fuel else pure ()) s := by
  rw [advanceToNextMatch,getBind,tuple]

theorem turnRightRun (positions : j.right.Positions standsR) {r : Bytes} {rs : List Bytes} (here : standsR s.right (r :: rs)) :
    ∃ v, standsR v rs ∧ j.turnRight s = .ok () {s with leftBlockIdx := 0, right := v, rightTuple := rs.head?} := by
  obtain ⟨u,stepped,later⟩ := positions.step _ r rs here
  have moved : onRight j.right.nextTuple {s with leftBlockIdx := 0} = .ok () {s with leftBlockIdx := 0, right := u} :=
    zoomOk stepped
  cases rs with
  | nil =>
    refine ⟨u,later,?_⟩
    rw [turnRight,modifyBind,bindEq moved,getBind]
    dsimp only
    rw [positions.ended u later,if_pos rfl]
    rfl
  | cons r' rs =>
    obtain ⟨v,shown,still⟩ := positions.record u r' rs later
    have read : onRight j.right.next {s with leftBlockIdx := 0, right := u} = .ok (some r') {s with leftBlockIdx := 0, right := v} :=
      zoomOk shown
    refine ⟨v,still,?_⟩
    rw [turnRight,modifyBind,bindEq moved,getBind]
    dsimp only
    rw [positions.going u r' rs later,if_neg Bool.false_ne_true,bindEq read]
    rfl

end Loops

section Advance
variable {σ τ : Type} {j : NestedLoopJoinExecutor σ τ} {readyL : σ → Prop} {standsL : σ → List Bytes → Prop}
  {readyR : τ → Prop} {standsR : τ → List Bytes → Prop} {L R : List Bytes} {s : JoinState σ τ}

/- Inside the loops: `r` is the right record, `rs` and `ls` are what the children still have. -/
structure Inside (standsL : σ → List Bytes → Prop) (standsR : τ → List Bytes → Prop) (L R : List Bytes) (s : JoinState σ τ)
    (r : Bytes) (rs ls : List Bytes) : Prop where
  going : s.isEnd = false
  tuple : s.rightTuple = some r
  right : standsR s.right (r :: rs)
  left : standsL s.left ls
  rightFew : rs.length < R.length
  leftFew : ls.length ≤ L.length

def behind (j : NestedLoopJoinExecutor σ τ) (R : List Bytes) (block rs ls : List Bytes) : List (Bytes × Bytes) :=
  pairs block rs ++ laterPairs j.leftBlockCapacity R ls.length ls

def Faces [FloatOps] (j : NestedLoopJoinExecutor σ τ) (readyL : σ → Prop) (standsL : σ → List Bytes → Prop)
    (readyR : τ → Prop) (standsR : τ → List Bytes → Prop) (L R : List Bytes) (s : JoinState σ τ) :
    List (Bytes × Bytes) → Prop
  | [] => s.isEnd = true ∧ readyL s.left ∧ readyR s.right
  | pair :: rest => ∃ r rs ls l more, Inside standsL standsR L R s r rs ls ∧ s.leftBlock.drop s.leftBlockIdx = l :: more ∧
      pair = (l,r) ∧ rest = (more.map fun l => (l,r)) ++ behind j R s.leftBlock rs ls ∧ j.satisfies pair = .ok true

def Lands [FloatOps] (j : NestedLoopJoinExecutor σ τ) (readyL : σ → Prop) (standsL : σ → List Bytes → Prop)
    (readyR : τ → Prop) (standsR : τ → List Bytes → Prop) (L R : List Bytes)
    (result : EStateM.Result Fault (JoinState σ τ) Unit) (ahead : List (Bytes × Bytes)) : Prop :=
  match firstMatch j.satisfies ahead with
  | .error e => ∃ t, result = .error e t
  | .ok found => ∃ t, result = .ok () t ∧ Faces j readyL standsL readyR standsR L R t found

theorem laterPairsMore {capacity n m : Nat} {rights ls : List Bytes} (positive : 1 ≤ capacity) (enough : ls.length ≤ n)
    (most : ls.length ≤ m) : laterPairs capacity rights n ls = laterPairs capacity rights m ls := by
  induction n generalizing m ls with
  | zero =>
    obtain rfl := List.length_eq_zero_iff.mp (Nat.le_zero.mp enough)
    cases m <;> rfl
  | succ n ih => cases ls with
    | nil => cases m <;> rfl
    | cons l ls =>
      obtain ⟨m,rfl⟩ := Nat.exists_eq_succ_of_ne_zero (Nat.ne_zero_of_lt most)
      rw [List.length_cons] at enough most
      rw [laterPairs,laterPairs,@ih m _ (by rw [List.length_drop,List.length_cons]; omega)
        (by rw [List.length_drop,List.length_cons]; omega)]

theorem turnBlockLast (left : j.left.Restarts readyL standsL L)
    (here : standsL s.left []) (known : readyR s.right) :
    ∃ t, j.turnBlock s = .ok false t ∧ t.isEnd = true ∧ readyL t.left ∧ readyR t.right := by
  obtain ⟨u,loaded,last⟩ := loadRun left.positions here
  rw [List.drop_nil] at last
  rw [List.take_nil,List.isEmpty_nil] at loaded
  refine ⟨{s with left := u, leftBlock := [], leftBlockIdx := 0, isEnd := true, rightTuple := none},?_,rfl,
    left.kept u [] last,known⟩
  rw [turnBlock,bindEq loaded]
  rfl

theorem turnBlockMore (left : j.left.Restarts readyL standsL L) (right : j.right.Restarts readyR standsR R)
    {l r : Bytes} {ls rs : List Bytes} (here : standsL s.left (l :: ls)) (known : readyR s.right) (some : R = r :: rs)
    (going : s.isEnd = false) (few : ls.length < L.length) :
    ∃ t, j.turnBlock s = .ok true t ∧ t.leftBlock = (l :: ls).take j.leftBlockCapacity ∧ t.leftBlockIdx = 0 ∧
      Inside standsL standsR L R t r rs ((l :: ls).drop j.leftBlockCapacity) := by
  obtain ⟨u,loaded,last⟩ := loadRun left.positions here
  have nonempty : ((l :: ls).take j.leftBlockCapacity).isEmpty = false := by
    obtain ⟨k,size⟩ := Nat.exists_eq_succ_of_ne_zero (Nat.ne_of_gt j.positive)
    rw [size]
    rfl
  rw [nonempty] at loaded
  obtain ⟨v,begun,start⟩ := right.start _ known
  rw [some] at start
  obtain ⟨w,shown,still⟩ := right.positions.record v r rs start
  have restarted : onRight j.right.beginTuple
      {s with left := u, leftBlock := (l :: ls).take j.leftBlockCapacity, leftBlockIdx := 0} = .ok ()
      {s with left := u, leftBlock := (l :: ls).take j.leftBlockCapacity, leftBlockIdx := 0, right := v} := zoomOk begun
  have read : onRight j.right.next
      {s with left := u, leftBlock := (l :: ls).take j.leftBlockCapacity, leftBlockIdx := 0, right := v} = .ok (Option.some r)
      {s with left := u, leftBlock := (l :: ls).take j.leftBlockCapacity, leftBlockIdx := 0, right := w} := zoomOk shown
  refine ⟨⟨u,w,s.isEnd,(l :: ls).take j.leftBlockCapacity,0,Option.some r⟩,?_,rfl,rfl,?_⟩
  · rw [turnBlock,bindEq loaded]
    simp only [Bool.not_false,if_true]
    rw [bindEq restarted,getBind]
    dsimp only
    rw [right.positions.going v r rs start,if_neg Bool.false_ne_true,bindEq read]
    rfl
  · refine ⟨going,rfl,still,last,?_,?_⟩
    · rw [some,List.length_cons]
      omega
    · rw [List.length_drop,List.length_cons]
      have positive := j.positive
      omega

theorem advanceRun [FloatOps] (left : j.left.Restarts readyL standsL L) (right : j.right.Restarts readyR standsR R)
    {fuel : Nat} {r : Bytes} {rs ls : List Bytes} (inside : Inside standsL standsR L R s r rs ls)
    (enough : rs.length+2+ls.length*(R.length+2) < fuel) : Lands j readyL standsL readyR standsR L R
      (j.advanceToNextMatch fuel s)
      (((s.leftBlock.drop s.leftBlockIdx).map fun l => (l,r)) ++ behind j R s.leftBlock rs ls) := by
  induction fuel using Nat.strong_induction_on generalizing s r rs ls with
  | _ fuel ih =>
    obtain ⟨fuel,rfl⟩ := Nat.exists_eq_succ_of_ne_zero (Nat.ne_zero_of_lt enough)
    have scanned := scanRun (j := j) r (s.leftBlock.drop s.leftBlockIdx) s
    rw [Lands,firstMatchAppend]
    cases outcome : firstMatch j.satisfies ((s.leftBlock.drop s.leftBlockIdx).map fun l => (l,r)) with
    | error e =>
      rw [outcome] at scanned
      obtain ⟨t,thrown⟩ := scanned
      refine ⟨t,?_⟩
      rw [advanceTuple inside.tuple,bindError thrown]
    | ok found => cases found with
      | cons pair rest =>
        rw [outcome] at scanned
        obtain ⟨k,l,more,run,here,rfl,rfl⟩ := scanned
        refine ⟨{s with leftBlockIdx := s.leftBlockIdx+k},?_,r,rs,ls,l,more,
          ⟨inside.going,inside.tuple,inside.right,inside.left,inside.rightFew,inside.leftFew⟩,?_,rfl,rfl,
          (firstMatchHead outcome).1⟩
        · rw [advanceTuple inside.tuple,bindEq run]
          rfl
        · rw [List.drop_drop] at here
          exact here
      | nil =>
        rw [outcome] at scanned
        obtain ⟨k,run⟩ := scanned
        obtain ⟨v,still,turned⟩ := @turnRightRun _ _ _ _ {s with leftBlockIdx := k} right.positions r rs inside.right
        have start : j.advanceToNextMatch (fuel+1) s =
            j.advanceToNextMatch fuel {s with leftBlockIdx := 0, right := v, rightTuple := rs.head?} := by
          rw [advanceTuple inside.tuple,bindEq run]
          simp only [Bool.false_eq_true,if_false]
          rw [bindEq turned]
        rw [start]
        cases rs with
        | cons r' rs =>
          have next : Inside standsL standsR L R {s with leftBlockIdx := 0, right := v, rightTuple := some r'} r' rs ls := by
            have few := inside.rightFew
            rw [List.length_cons] at few
            exact ⟨inside.going,rfl,still,inside.left,by omega,inside.leftFew⟩
          rw [List.length_cons] at enough
          have later := ih fuel (Nat.lt_succ_self fuel) next (by omega)
          have same : behind j R s.leftBlock (r' :: rs) ls =
              ((s.leftBlock.drop 0).map fun l => (l,r')) ++ behind j R s.leftBlock rs ls := by
            rw [List.drop_zero,behind,behind,← List.append_assoc]
            rfl
          rw [same]
          exact later
        | nil =>
          simp only [List.head?_nil]
          obtain ⟨fuel,rfl⟩ := Nat.exists_eq_succ_of_ne_zero (by omega : fuel ≠ 0)
          have known := right.kept v [] still
          rw [advanceNone rfl]
          have none : behind j R s.leftBlock [] ls = laterPairs j.leftBlockCapacity R ls.length ls := rfl
          rw [none]
          cases ls with
          | nil =>
            obtain ⟨t,turned,ended,readyLeft,readyRight⟩ := @turnBlockLast _ _ _ _ _ readyR _
              {s with leftBlockIdx := 0, right := v, rightTuple := Option.none} left inside.left known
            refine ⟨t,?_,ended,readyLeft,readyRight⟩
            exact bindEq turned
          | cons l ls =>
            obtain ⟨r',rs,some⟩ := List.exists_cons_of_length_pos (Nat.zero_lt_of_lt inside.rightFew)
            have few := inside.leftFew
            rw [List.length_cons] at few enough
            obtain ⟨t,turned,block,index,next⟩ := @turnBlockMore _ _ _ _ _ _ _ _ _
              {s with leftBlockIdx := 0, right := v, rightTuple := Option.none} left right l r' ls rs inside.left known some
              inside.going (by omega)
            have positive := j.positive
            have short : ((l :: ls).drop j.leftBlockCapacity).length ≤ ls.length := by
              rw [List.length_drop,List.length_cons]
              omega
            have steps := Nat.mul_le_mul_right (R.length+2) short
            have size : R.length = rs.length+1 := by rw [some,List.length_cons]
            rw [List.length_nil,Nat.succ_mul] at enough
            have later := ih fuel (by omega) next (by omega)
            have same : laterPairs j.leftBlockCapacity R (ls.length+1) (l :: ls) =
                ((t.leftBlock.drop t.leftBlockIdx).map fun l => (l,r')) ++
                  behind j R t.leftBlock rs ((l :: ls).drop j.leftBlockCapacity) := by
              rw [laterPairs,behind,block,index,List.drop_zero,← List.append_assoc,laterPairsMore positive short (le_refl _)]
              have first : pairs ((l :: ls).take j.leftBlockCapacity) (r' :: rs) =
                  (((l :: ls).take j.leftBlockCapacity).map fun l => (l,r')) ++
                    pairs ((l :: ls).take j.leftBlockCapacity) rs := rfl
              rw [← first,← some]
            rw [List.length_cons,same]
            have run : (do if ← j.turnBlock then j.advanceToNextMatch fuel else pure ())
                {s with leftBlockIdx := 0, right := v, rightTuple := Option.none} = j.advanceToNextMatch fuel t :=
              bindEq turned
            rw [run]
            exact later

theorem laterPairsNone {capacity n : Nat} {ls : List Bytes} : laterPairs capacity [] n ls = [] := by
  induction n generalizing ls with
  | zero => rfl
  | succ n ih => cases ls with
    | nil => rfl
    | cons l ls => exact ih

def order (j : NestedLoopJoinExecutor σ τ) (L R : List Bytes) : List (Bytes × Bytes) :=
  laterPairs j.leftBlockCapacity R L.length L

theorem beginRun [FloatOps] (left : j.left.Restarts readyL standsL L) (right : j.right.Restarts readyR standsR R)
    {fuel : Nat} (enough : (L.length+1)*(R.length+2) < fuel) (knownL : readyL s.left) (knownR : readyR s.right) :
    Lands j readyL standsL readyR standsR L R (j.beginTuple fuel s) (j.order L R) := by
  obtain ⟨u,begun,here⟩ := left.start _ knownL
  have started : onLeft j.left.beginTuple {s with isEnd := false} = .ok () {s with isEnd := false, left := u} := zoomOk begun
  obtain ⟨v,loaded,last⟩ := @loadRun _ _ _ _ {s with isEnd := false, left := u} left.positions L here
  cases L with
  | nil =>
    rw [List.drop_nil] at last
    rw [List.take_nil,List.isEmpty_nil] at loaded
    refine ⟨⟨v,s.right,true,[],0,s.rightTuple⟩,?_,rfl,left.kept v [] last,knownR⟩
    rw [beginTuple,modifyBind,bindEq started,bindEq loaded]
    rfl
  | cons l ls =>
    have nonempty : ((l :: ls).take j.leftBlockCapacity).isEmpty = false := by
      obtain ⟨k,size⟩ := Nat.exists_eq_succ_of_ne_zero (Nat.ne_of_gt j.positive)
      rw [size]
      rfl
    rw [nonempty] at loaded
    obtain ⟨w,restarted,first⟩ := right.start _ knownR
    have moved : onRight j.right.beginTuple ⟨v,s.right,false,(l :: ls).take j.leftBlockCapacity,0,s.rightTuple⟩ =
        .ok () ⟨v,w,false,(l :: ls).take j.leftBlockCapacity,0,s.rightTuple⟩ := zoomOk restarted
    have start : j.beginTuple fuel s = (do
        let now ← get
        if j.right.isEnd now.right then modify fun s => {s with isEnd := true, leftBlock := []}
        else
          let first ← onRight j.right.next
          modify fun s => {s with rightTuple := first, leftBlockIdx := 0}
          j.advanceToNextMatch fuel : M (JoinState σ τ) Unit) ⟨v,w,false,(l :: ls).take j.leftBlockCapacity,0,s.rightTuple⟩ := by
      rw [beginTuple,modifyBind,bindEq started,bindEq loaded]
      exact bindEq moved
    rw [start,getBind]
    dsimp only
    cases R with
    | nil =>
      rw [right.positions.ended w first,if_pos rfl,order,laterPairsNone]
      exact ⟨_,rfl,rfl,left.kept v _ last,right.kept w [] first⟩
    | cons r rs =>
      obtain ⟨x,shown,still⟩ := right.positions.record w r rs first
      have read : onRight j.right.next ⟨v,w,false,(l :: ls).take j.leftBlockCapacity,0,s.rightTuple⟩ =
          .ok (some r) ⟨v,x,false,(l :: ls).take j.leftBlockCapacity,0,s.rightTuple⟩ := zoomOk shown
      have positive := j.positive
      have short : ((l :: ls).drop j.leftBlockCapacity).length ≤ ls.length := by
        rw [List.length_drop,List.length_cons]
        omega
      have inside : Inside standsL standsR (l :: ls) (r :: rs)
          ⟨v,x,false,(l :: ls).take j.leftBlockCapacity,0,some r⟩ r rs ((l :: ls).drop j.leftBlockCapacity) :=
        ⟨rfl,rfl,still,last,Nat.lt_succ_self _,short.trans (Nat.le_succ _)⟩
      have steps := Nat.mul_le_mul_right ((r :: rs).length+2) short
      rw [show (l :: ls).length = ls.length+1 from rfl,Nat.add_mul,Nat.add_mul,Nat.one_mul] at enough
      have later := advanceRun left right inside (show _ < fuel by rw [List.length_cons] at *; omega)
      have same : j.order (l :: ls) (r :: rs) = ((((l :: ls).take j.leftBlockCapacity).drop 0).map fun l => (l,r)) ++
          behind j (r :: rs) ((l :: ls).take j.leftBlockCapacity) rs ((l :: ls).drop j.leftBlockCapacity) := by
        have split : pairs ((l :: ls).take j.leftBlockCapacity) (r :: rs) =
            (((l :: ls).take j.leftBlockCapacity).map fun l => (l,r)) ++ pairs ((l :: ls).take j.leftBlockCapacity) rs := rfl
        rw [order,List.length_cons,laterPairs,behind,List.drop_zero,← List.append_assoc,← split,
          laterPairsMore positive short (le_refl _)]
      rw [right.positions.going w r rs first,if_neg Bool.false_ne_true,bindEq read,modifyBind,same]
      exact later

theorem nextRun [FloatOps] (left : j.left.Restarts readyL standsL L) (right : j.right.Restarts readyR standsR R)
    {fuel : Nat} (enough : (L.length+1)*(R.length+2) < fuel) {pair : Bytes × Bytes} {rest : List (Bytes × Bytes)}
    (faces : Faces j readyL standsL readyR standsR L R s (pair :: rest)) :
    Lands j readyL standsL readyR standsR L R (j.nextTuple fuel s) rest := by
  obtain ⟨r,rs,ls,l,more,inside,here,rfl,rfl,_⟩ := faces
  have rightFew := inside.rightFew
  have steps := Nat.mul_le_mul_right (R.length+2) inside.leftFew
  rw [Nat.add_mul,Nat.one_mul] at enough
  have moved : Inside standsL standsR L R {s with leftBlockIdx := s.leftBlockIdx+1} r rs ls :=
    ⟨inside.going,inside.tuple,inside.right,inside.left,inside.rightFew,inside.leftFew⟩
  have later := advanceRun left right moved (show _ < fuel by omega)
  have rest : s.leftBlock.drop (s.leftBlockIdx+1) = more := by
    rw [← List.drop_drop,here]
    rfl
  rw [nextTuple,getBind,inside.going,if_neg Bool.false_ne_true,modifyBind]
  dsimp only at later
  rw [rest] at later
  exact later

theorem recordRun [FloatOps] {pair : Bytes × Bytes} {rest : List (Bytes × Bytes)}
    (faces : Faces j readyL standsL readyR standsR L R s (pair :: rest)) :
    j.next s = .ok (some (j.makeJoinedRecord pair.1 pair.2)) s ∧ s.isEnd = false := by
  obtain ⟨r,rs,ls,l,more,inside,here,rfl,_,_⟩ := faces
  have found : s.leftBlock[s.leftBlockIdx]? = some l := by
    have head := congrArg (fun xs => xs[0]?) here
    simpa [List.getElem?_drop] using head
  refine ⟨?_,inside.going⟩
  rw [next,getBind,inside.going,if_neg Bool.false_ne_true,inside.tuple,found]
  rfl

end Advance

end Rmdb.NestedLoopJoinExecutor
