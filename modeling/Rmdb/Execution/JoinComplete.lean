import Rmdb.Execution.JoinRun

/-! The block nested-loop join yields every joined record that satisfies the conditions once, and
can itself be the child of another join. -/
namespace Rmdb.NestedLoopJoinExecutor
open AbstractExecutor

section Gather
variable {α β : Type} {test : α → Except Fault Bool} {pass : α → Bool} {f : α → β} {xs : List α}

def gather (test : α → Except Fault Bool) (f : α → β) : List α → Except Fault (List β)
  | [] => .ok []
  | x :: xs => match test x with
    | .error e => .error e
    | .ok true => (gather test f xs).map (f x :: ·)
    | .ok false => gather test f xs

theorem gatherFirst : gather test f xs = match firstMatch test xs with
    | .error e => .error e
    | .ok found => gather test f found := by
  induction xs with
  | nil => rfl
  | cons x xs ih =>
    cases tested : test x with
    | error e => simp [gather,firstMatch,tested]
    | ok passed => cases passed with
      | true => simp [gather,firstMatch,tested]
      | false =>
        simp only [gather,firstMatch,tested]
        exact ih

theorem gatherTotal (total : ∀ x ∈ xs, test x = .ok (pass x)) : gather test f xs = .ok ((xs.filter pass).map f) := by
  induction xs with
  | nil => rfl
  | cons x xs ih =>
    rw [gather,total x List.mem_cons_self,ih fun y mem => total y (List.mem_cons_of_mem x mem),List.filter_cons]
    cases pass x <;> rfl

theorem gatherCongr {other : α → Except Fault Bool} {g : α → β} (same : ∀ x ∈ xs, test x = other x ∧ f x = g x) :
    gather test f xs = gather other g xs := by
  induction xs with
  | nil => rfl
  | cons x xs ih =>
    obtain ⟨tests,values⟩ := same x List.mem_cons_self
    rw [gather,gather,tests,values,ih fun y mem => same y (List.mem_cons_of_mem x mem)]

theorem filterCons {y : α} {ys : List α} (passed : pass y = true) : (y :: ys).filter pass = y :: ys.filter pass := by
  rw [List.filter_cons,if_pos passed]

end Gather

section Complete
variable {σ τ : Type} {j : NestedLoopJoinExecutor σ τ} {readyL : σ → Prop} {standsL : σ → List Bytes → Prop}
  {readyR : τ → Prop} {standsR : τ → List Bytes → Prop} {L R : List Bytes} {s : JoinState σ τ}

def joined (j : NestedLoopJoinExecutor σ τ) (pair : Bytes × Bytes) : Bytes := j.makeJoinedRecord pair.1 pair.2

def Ready (readyL : σ → Prop) (readyR : τ → Prop) (s : JoinState σ τ) : Prop := readyL s.left ∧ readyR s.right

theorem facesReady [FloatOps] (left : j.left.Restarts readyL standsL L) (right : j.right.Restarts readyR standsR R)
    {ahead : List (Bytes × Bytes)} (faces : Faces j readyL standsL readyR standsR L R s ahead) : Ready readyL readyR s := by
  cases ahead with
  | nil => exact faces.2
  | cons pair rest =>
    obtain ⟨r,rs,ls,l,more,inside,_⟩ := faces
    exact ⟨left.kept _ _ inside.left,right.kept _ _ inside.right⟩

theorem orderPerm (j : NestedLoopJoinExecutor σ τ) (L R : List Bytes) : (j.order L R).Perm (L ×ˢ R) :=
  laterPairsPerm j.positive (le_refl _)

def Yields (readyL : σ → Prop) (readyR : τ → Prop) (result : EStateM.Result Fault (JoinState σ τ) (List Bytes)) :
    Except Fault (List Bytes) → Prop
  | .ok rows => ∃ t, result = .ok rows t ∧ Ready readyL readyR t
  | .error e => ∃ t, result = .error e t

theorem collectFaces [FloatOps] (left : j.left.Restarts readyL standsL L) (right : j.right.Restarts readyR standsR R)
    {fuel steps : Nat} (enough : (L.length+1)*(R.length+2) < fuel) {ahead : List (Bytes × Bytes)}
    (faces : Faces j readyL standsL readyR standsR L R s ahead) (many : ahead.length < steps) :
    Yields readyL readyR ((j.executor fuel).collect steps s) (gather j.satisfies j.joined ahead) := by
  induction steps generalizing s ahead with
  | zero => omega
  | succ steps ih => cases ahead with
    | nil =>
      refine ⟨s,?_,faces.2⟩
      rw [AbstractExecutor.collect,getBind]
      exact congrFun (if_pos faces.1) s
    | cons pair rest =>
      obtain ⟨shown,going⟩ := recordRun faces
      have passed : j.satisfies pair = .ok true := by
        obtain ⟨_,_,_,_,_,_,_,_,_,passed⟩ := faces
        exact passed
      have start : (j.executor fuel).collect (steps+1) s = (do
          j.nextTuple fuel
          let rest ← (j.executor fuel).collect steps
          pure (j.joined pair :: rest)) s := by
        rw [AbstractExecutor.collect,getBind]
        refine (congrFun (if_neg ?_) s).trans ?_
        · exact (ne_true_of_eq_false going)
        · exact bindEq shown
      have lands := nextRun left right enough faces
      rw [start,gather,passed]
      dsimp only
      rw [gatherFirst]
      rw [Lands] at lands
      cases first : firstMatch j.satisfies rest with
      | error e =>
        rw [first] at lands
        obtain ⟨t,thrown⟩ := lands
        exact ⟨t,bindError thrown⟩
      | ok found =>
        rw [first] at lands
        obtain ⟨t,moved,here⟩ := lands
        have few : found.length ≤ rest.length := by
          cases found with
          | nil => exact Nat.zero_le _
          | cons x found =>
            obtain ⟨_,front,same⟩ := firstMatchHead first
            rw [same,List.length_append]
            omega
        rw [List.length_cons] at many
        have later := ih here (by omega)
        rw [bindEq moved]
        dsimp only
        cases result : gather j.satisfies j.joined found with
        | error e =>
          rw [result] at later
          obtain ⟨u,thrown⟩ := later
          exact ⟨u,bindError thrown⟩
        | ok rows =>
          rw [result] at later
          obtain ⟨u,collected,ready⟩ := later
          exact ⟨u,bindEq collected,ready⟩

theorem drainYields [FloatOps] (left : j.left.Restarts readyL standsL L) (right : j.right.Restarts readyR standsR R)
    {fuel steps : Nat} (enough : (L.length+1)*(R.length+2) < fuel) (ready : Ready readyL readyR s)
    (many : L.length*R.length < steps) :
    Yields readyL readyR ((j.executor fuel).drain steps s) (gather j.satisfies j.joined (j.order L R)) := by
  have lands := beginRun left right enough ready.1 ready.2
  rw [gatherFirst]
  rw [Lands] at lands
  cases first : firstMatch j.satisfies (j.order L R) with
  | error e =>
    rw [first] at lands
    obtain ⟨t,thrown⟩ := lands
    exact ⟨t,bindError thrown⟩
  | ok found =>
    rw [first] at lands
    obtain ⟨t,begun,here⟩ := lands
    have all := (j.orderPerm L R).length_eq
    rw [List.length_product] at all
    have few : found.length ≤ (j.order L R).length := by
      cases found with
      | nil => exact Nat.zero_le _
      | cons x found =>
        obtain ⟨_,front,same⟩ := firstMatchHead first
        rw [same,List.length_append]
        omega
    have run : (j.executor fuel).drain steps s = (j.executor fuel).collect steps t := bindEq begun
    rw [run]
    exact collectFaces left right enough here (by omega)

def StandsAt [FloatOps] (j : NestedLoopJoinExecutor σ τ) (readyL : σ → Prop) (standsL : σ → List Bytes → Prop)
    (readyR : τ → Prop) (standsR : τ → List Bytes → Prop) (L R : List Bytes) (pass : Bytes × Bytes → Bool)
    (s : JoinState σ τ) (rows : List Bytes) : Prop :=
  ∃ ahead, Faces j readyL standsL readyR standsR L R s ahead ∧ (∀ pair ∈ ahead, j.satisfies pair = .ok (pass pair)) ∧
    rows = (ahead.filter pass).map j.joined

variable {pass : Bytes × Bytes → Bool}

theorem landsTotal [FloatOps] {result : EStateM.Result Fault (JoinState σ τ) Unit} {ahead : List (Bytes × Bytes)}
    (lands : Lands j readyL standsL readyR standsR L R result ahead)
    (total : ∀ pair ∈ ahead, j.satisfies pair = .ok (pass pair)) :
    ∃ t, result = .ok () t ∧ StandsAt j readyL standsL readyR standsR L R pass t ((ahead.filter pass).map j.joined) := by
  rw [Lands,firstMatchTotal total] at lands
  obtain ⟨t,run,faces⟩ := lands
  refine ⟨t,run,_,faces,?_,by rw [filterDropWhile]⟩
  exact fun pair mem => total pair ((List.dropWhile_sublist _).mem mem)

theorem facesCases [FloatOps] {ahead : List (Bytes × Bytes)} (faces : Faces j readyL standsL readyR standsR L R s ahead)
    (total : ∀ pair ∈ ahead, j.satisfies pair = .ok (pass pair)) :
    ahead = [] ∨ ∃ pair rest, ahead = pair :: rest ∧ pass pair = true := by
  cases ahead with
  | nil => exact .inl rfl
  | cons pair rest =>
    refine .inr ⟨pair,rest,rfl,?_⟩
    obtain ⟨_,_,_,_,_,_,_,_,_,passed⟩ := faces
    exact Except.ok.inj ((total pair List.mem_cons_self).symm.trans passed)

theorem joinRestarts [FloatOps] (left : j.left.Restarts readyL standsL L) (right : j.right.Restarts readyR standsR R)
    {fuel : Nat} (enough : (L.length+1)*(R.length+2) < fuel)
    (total : ∀ pair ∈ L ×ˢ R, j.satisfies pair = .ok (pass pair)) :
    (j.executor fuel).Restarts (Ready readyL readyR) (StandsAt j readyL standsL readyR standsR L R pass)
      (((j.order L R).filter pass).map j.joined) := by
  refine ⟨⟨?_,?_,?_,?_⟩,?_,?_,?_⟩
  · intro s here
    obtain ⟨ahead,faces,known,rows⟩ := here
    rcases facesCases faces known with rfl | ⟨pair,rest,rfl,passed⟩
    · exact faces.1
    · rw [filterCons passed] at rows
      cases rows
  · intro s r rows here
    obtain ⟨ahead,faces,known,same⟩ := here
    rcases facesCases faces known with rfl | ⟨pair,rest,rfl,passed⟩
    · cases same
    · exact (recordRun faces).2
  · intro s r rows here
    obtain ⟨ahead,faces,known,same⟩ := here
    rcases facesCases faces known with rfl | ⟨pair,rest,rfl,passed⟩
    · cases same
    · have split := same
      rw [filterCons passed] at split
      obtain ⟨rfl,_⟩ := List.cons.inj split
      exact ⟨s,(recordRun faces).1,_,faces,known,same⟩
  · intro s r rows here
    obtain ⟨ahead,faces,known,same⟩ := here
    rcases facesCases faces known with rfl | ⟨pair,rest,rfl,passed⟩
    · cases same
    · rw [filterCons passed] at same
      obtain ⟨_,rfl⟩ := List.cons.inj same
      exact landsTotal (nextRun left right enough faces) fun pair mem => known pair (List.mem_cons_of_mem _ mem)
  · intro s rows here
    obtain ⟨ahead,faces,_⟩ := here
    exact facesReady left right faces
  · intro s ready
    exact landsTotal (beginRun left right enough ready.1 ready.2) fun pair mem => total pair ((j.orderPerm L R).mem_iff.mp mem)
  · intro row mem
    obtain ⟨pair,found,rfl⟩ := List.mem_map.mp mem
    have both := List.mem_product.mp ((j.orderPerm L R).mem_iff.mp (List.mem_of_mem_filter found))
    rw [joined,makeJoinedRecord,List.length_append,List.length_take,List.length_take,left.size _ both.1,right.size _ both.2,
      Nat.min_self,Nat.min_self]
    rfl

theorem joinedWhole [FloatOps] (left : j.left.Restarts readyL standsL L) (right : j.right.Restarts readyR standsR R)
    {pair : Bytes × Bytes} (mem : pair ∈ L ×ˢ R) : j.joined pair = pair.1 ++ pair.2 := by
  obtain ⟨memL,memR⟩ := List.mem_product.mp mem
  rw [joined,makeJoinedRecord,List.take_of_length_le (left.size _ memL).le,List.take_of_length_le (right.size _ memR).le]

def satisfiedBy [FloatOps] (j : NestedLoopJoinExecutor σ τ) (pair : Bytes × Bytes) : Except Fault Bool :=
  recordSatisfiesConditions (pair.1 ++ pair.2) j.cols j.fedConds

theorem satisfiesWhole [FloatOps] (left : j.left.Restarts readyL standsL L) (right : j.right.Restarts readyR standsR R)
    {pair : Bytes × Bytes} (mem : pair ∈ L ×ˢ R) : j.satisfies pair = j.satisfiedBy pair := by
  have whole := joinedWhole left right mem
  rw [joined] at whole
  rw [satisfies,satisfiedBy,whole]

theorem joinComplete [FloatOps] (j : NestedLoopJoinExecutor σ τ) (left : j.left.Restarts readyL standsL L)
    (right : j.right.Restarts readyR standsR R) : ∃ order : List (Bytes × Bytes), order.Perm (L ×ˢ R) ∧
      ∀ fuel, (L.length+1)*(R.length+2) < fuel →
        (∀ s steps, Ready readyL readyR s → L.length*R.length < steps →
          Yields readyL readyR ((j.executor fuel).drain steps s) (gather j.satisfiedBy (fun pair => pair.1 ++ pair.2) order)) ∧
        ∀ pass : Bytes × Bytes → Bool, (∀ pair ∈ L ×ˢ R, j.satisfiedBy pair = .ok (pass pair)) →
          ∃ rows stands, rows.Perm (((L ×ˢ R).filter pass).map fun pair => pair.1 ++ pair.2) ∧
            gather j.satisfiedBy (fun pair => pair.1 ++ pair.2) order = .ok rows ∧
            (j.executor fuel).Restarts (Ready readyL readyR) stands rows := by
  have perm := j.orderPerm L R
  refine ⟨j.order L R,perm,fun fuel enough => ⟨fun s steps ready many => ?_,fun pass total => ?_⟩⟩
  · have yields := drainYields left right enough ready many
    rwa [gatherCongr fun pair mem => ⟨satisfiesWhole left right (perm.mem_iff.mp mem),
      joinedWhole left right (perm.mem_iff.mp mem)⟩] at yields
  · have known : ∀ pair ∈ L ×ˢ R, j.satisfies pair = .ok (pass pair) := fun pair mem =>
      (satisfiesWhole left right mem).trans (total pair mem)
    have plain : ((j.order L R).filter pass).map j.joined =
        ((j.order L R).filter pass).map fun pair => pair.1 ++ pair.2 :=
      List.map_congr_left fun pair mem => joinedWhole left right (perm.mem_iff.mp (List.mem_of_mem_filter mem))
    refine ⟨_,StandsAt j readyL standsL readyR standsR L R pass,(perm.filter pass).map _,
      gatherTotal fun pair mem => total pair (perm.mem_iff.mp mem),?_⟩
    have restarts := joinRestarts left right enough known
    rwa [plain] at restarts

end Complete

def equalBytes : NestedLoopJoinExecutor (List Bytes) (List Bytes) :=
  ⟨ofRows [[1],[2],[1]] 1 [⟨"l","a",.string,1,0⟩],ofRows [[1],[3]] 1 [⟨"r","a",.string,1,0⟩],
    [⟨⟨"l","a"⟩,.eq,.col ⟨"r","a"⟩⟩],1,le_refl 1⟩

theorem equalBytesJoined : ∃ rows, rows.Perm [[1,1],[1,1]] ∧ ∀ steps, 6 < steps →
    ∃ t, (@executor _ _ FloatOps.whole equalBytes 100).drain steps ⟨[],[],true,[],0,none⟩ = .ok rows t := by
  let _ := FloatOps.whole
  obtain ⟨order,_,result⟩ := joinComplete equalBytes (ofRowsRestarts (by decide)) (ofRowsRestarts (by decide))
  obtain ⟨yields,complete⟩ := result 100 (by decide)
  obtain ⟨rows,_,perm,gathered,_⟩ := complete (fun pair => pair.1 == pair.2) (by decide +kernel)
  refine ⟨rows,perm,fun steps many => ?_⟩
  have run := yields ⟨[],[],true,[],0,none⟩ steps ⟨trivial,trivial⟩ many
  rw [gathered] at run
  obtain ⟨t,drained,_⟩ := run
  exact ⟨t,drained⟩

end Rmdb.NestedLoopJoinExecutor
