import Rmdb.Optimizer.Planner

/-! The tree that `make_one_rel` builds. Each condition between two tables brings in the tables
that are not in the tree yet, and every condition stands at the join that has its two tables on
different sides. -/
namespace Rmdb

namespace Plan

def tables : Plan → List String
  | .scan x => [x.tabName]
  | .join _ left right _ => left.tables ++ right.tables

def scans : Plan → List ScanPlan
  | .scan x => [x]
  | .join _ left right _ => left.scans ++ right.scans

def joinConds : Plan → List Condition
  | .scan _ => []
  | .join _ left right conds => left.joinConds ++ right.joinConds ++ conds

def Across (left right : List String) (cond : Condition) : Prop :=
  ∃ c, cond.rhs = .col c ∧ (cond.lhsCol.tabName ∈ left ∧ c.tabName ∈ right ∨ cond.lhsCol.tabName ∈ right ∧ c.tabName ∈ left)

def Straddles : Plan → Prop
  | .scan _ => True
  | .join _ left right conds => left.Straddles ∧ right.Straddles ∧ ∀ cond ∈ conds, Across left.tables right.tables cond

inductive Layer : Plan → List String → Prop
  | scan (x : ScanPlan) : Layer (.scan x) [x.tabName]
  | pair (tag : PlanTag) (x y : ScanPlan) (conds : List Condition) :
      Layer (.join tag (.scan x) (.scan y) conds) [x.tabName,y.tabName]

inductive Layered : Plan → List (List String) → Prop
  | bottom {p : Plan} {group : List String} (layer : Layer p group) : Layered p [group]
  | above {top p : Plan} {group : List String} {groups : List (List String)} (tag : PlanTag) (conds : List Condition)
      (layer : Layer top group) (below : Layered p groups) : Layered (.join tag top p conds) (group :: groups)

theorem layerTables {p : Plan} {group : List String} (layer : Layer p group) : p.tables = group := by
  cases layer <;> rfl

theorem layeredTables {p : Plan} {groups : List (List String)} (layered : Layered p groups) : p.tables = groups.flatten := by
  induction layered with
  | bottom layer => rw [layerTables layer,List.flatten_singleton]
  | above tag conds layer _ ih => rw [tables,layerTables layer,ih,List.flatten_cons]

theorem scansTables (p : Plan) : p.scans.map ScanPlan.tabName = p.tables := by
  induction p with
  | scan x => rfl
  | join tag left right conds ihl ihr => rw [scans,List.map_append,ihl,ihr,tables]

theorem straddlesInside {p : Plan} (straddles : p.Straddles) {cond : Condition} (mem : cond ∈ p.joinConds) :
    ∃ c, cond.rhs = .col c ∧ cond.lhsCol.tabName ∈ p.tables ∧ c.tabName ∈ p.tables := by
  induction p with
  | scan x => cases mem
  | join tag left right conds ihl ihr =>
    obtain ⟨first,second,here⟩ := straddles
    rw [joinConds,List.mem_append,List.mem_append] at mem
    simp only [tables,List.mem_append]
    rcases mem with (inside | inside) | inside
    · obtain ⟨c,column,a,b⟩ := ihl first inside
      exact ⟨c,column,.inl a,.inl b⟩
    · obtain ⟨c,column,a,b⟩ := ihr second inside
      exact ⟨c,column,.inr a,.inr b⟩
    · obtain ⟨c,column,⟨a,b⟩ | ⟨a,b⟩⟩ := here cond inside
      · exact ⟨c,column,.inl a,.inr b⟩
      · exact ⟨c,column,.inr a,.inl b⟩

end Plan

namespace Planner
open Plan IndexScanExecutor

def SameTest (cond other : Condition) : Prop := other = cond ∨ other = swapSides cond

theorem swapTables {cond : Condition} {left right : List String} (between : Across left right cond) :
    Across left right (swapSides cond) := by
  obtain ⟨c,column,sides⟩ := between
  refine ⟨cond.lhsCol,by rw [swapSides,column],?_⟩
  rw [swapSides,column]
  exact sides.symm.imp And.symm And.symm

def Carries (p : Plan) (conds : List Condition) : Prop :=
  (∀ cond ∈ conds, ∃ other ∈ p.joinConds, SameTest cond other) ∧ ∀ other ∈ p.joinConds, ∃ cond ∈ conds, SameTest cond other

section Push
variable {cond : Condition} {c : TabCol} {p : Plan}

theorem pushTables (cond : Condition) (p : Plan) :
    (pushConds cond p).2.tables = p.tables ∧ (pushConds cond p).2.scans = p.scans := by
  induction p with
  | scan x =>
    rw [pushConds]
    split
    · exact ⟨rfl,rfl⟩
    · split <;> exact ⟨rfl,rfl⟩
  | join tag left right conds ihl ihr =>
    rw [pushConds]
    split
    · exact ⟨by simp only [tables,ihl.1],by simp only [scans,ihl.2]⟩
    · dsimp only
      split
      · exact ⟨by simp only [tables,ihr.1],by simp only [scans,ihr.2]⟩
      · split <;> exact ⟨rfl,rfl⟩

def answerOf (left right : Bool) : Nat := if left then if right then 3 else 1 else if right then 2 else 0

theorem answerThree : ∀ {a b : Bool}, answerOf a b = 3 → a = true ∧ b = true := by decide

theorem answerSum : ∀ {al bl ar br : Bool}, answerOf al bl ≠ 3 → answerOf ar br ≠ 3 →
    answerOf al bl = 0 ∨ answerOf ar br = 0 → (al && ar) = false → (bl && br) = false →
    answerOf al bl+answerOf ar br = answerOf (al || ar) (bl || br) ∧ answerOf al bl+answerOf ar br ≠ 3 := by decide

theorem answerSides : ∀ {al bl ar br : Bool}, answerOf al bl ≠ 3 → answerOf ar br ≠ 3 →
    ¬(answerOf al bl = 0 ∨ answerOf ar br = 0) → (al && ar) = false → (bl && br) = false →
    (al = true ∧ br = true ∨ ar = true ∧ bl = true) ∧ answerOf (al || ar) (bl || br) = 3 := by decide

/- What the answer says about the tables below, and what becomes of the tree. -/
structure Pushed (cond : Condition) (c : TabCol) (p : Plan) (answer : Nat × Plan) : Prop where
  answered : answer.1 = answerOf (decide (cond.lhsCol.tabName ∈ p.tables)) (decide (c.tabName ∈ p.tables))
  entered : answer.1 = 3 → ∃ other, SameTest cond other ∧ answer.2.Straddles ∧
    ∀ x, x ∈ answer.2.joinConds ↔ x ∈ p.joinConds ∨ x = other

theorem pushRun (column : cond.rhs = .col c) (apart : cond.lhsCol.tabName ≠ c.tabName) (once : p.tables.Nodup)
    (straddles : p.Straddles) : Pushed cond c p (pushConds cond p) := by
  have right : cond.rhs.tabName = c.tabName := by rw [column]; rfl
  induction p with
  | scan x =>
    rw [pushConds,right]
    by_cases first : x.tabName = cond.lhsCol.tabName
    · have other : c.tabName ≠ x.tabName := fun same => apart (first.symm.trans same.symm)
      rw [if_pos first]
      exact ⟨by simp [tables,answerOf,first.symm,other],fun three => by cases three⟩
    · rw [if_neg first]
      by_cases second : x.tabName = c.tabName
      · rw [if_pos second]
        exact ⟨by simp [tables,answerOf,Ne.symm first,second.symm],fun three => by cases three⟩
      · rw [if_neg second]
        exact ⟨by simp [tables,answerOf,Ne.symm first,Ne.symm second],fun three => by cases three⟩
  | join tag l r conds ihl ihr =>
    rw [tables] at once
    obtain ⟨onceL,onceR,disjoint⟩ := List.nodup_append.mp once
    obtain ⟨straddlesL,straddlesR,here⟩ := straddles
    have pushedL := ihl onceL straddlesL
    have pushedR := ihr onceR straddlesR
    have separate (t : String) : (decide (t ∈ l.tables) && decide (t ∈ r.tables)) = false := by
      rw [Bool.and_eq_false_iff,decide_eq_false_iff_not,decide_eq_false_iff_not,← not_and_or]
      exact fun both => disjoint t both.1 t both.2 rfl
    have member (t : String) : decide (t ∈ (Plan.join tag l r conds).tables) = (decide (t ∈ l.tables) || decide (t ∈ r.tables)) := by
      simp [tables]
    have answerL := pushedL.answered
    have answerR := pushedR.answered
    rw [pushConds]
    by_cases threeL : (pushConds cond l).1 = 3
    · rw [if_pos threeL]
      obtain ⟨other,same,fine,members⟩ := pushedL.entered threeL
      obtain ⟨a,b⟩ := answerThree (answerL.symm.trans threeL)
      refine ⟨by rw [member,member,a,b]; rfl,fun _ => ⟨other,same,⟨fine,straddlesR,?_⟩,fun x => ?_⟩⟩
      · rw [(pushTables cond l).1]
        exact here
      · simp only [joinConds,List.mem_append,members]
        tauto
    · rw [if_neg threeL]
      dsimp only
      by_cases threeR : (pushConds cond r).1 = 3
      · rw [if_pos threeR]
        obtain ⟨other,same,fine,members⟩ := pushedR.entered threeR
        obtain ⟨a,b⟩ := answerThree (answerR.symm.trans threeR)
        refine ⟨by rw [member,member,a,b,Bool.or_true,Bool.or_true]; rfl,
          fun _ => ⟨other,same,⟨straddlesL,fine,?_⟩,fun x => ?_⟩⟩
        · rw [(pushTables cond r).1]
          exact here
        · simp only [joinConds,List.mem_append,members]
          tauto
      · rw [if_neg threeR]
        rw [answerL] at threeL
        rw [answerR] at threeR
        by_cases missing : (pushConds cond l).1 = 0 ∨ (pushConds cond r).1 = 0
        · rw [if_pos missing]
          rw [answerL,answerR] at missing
          obtain ⟨sum,never⟩ := answerSum threeL threeR missing (separate _) (separate _)
          exact ⟨by rw [member,member,← sum,answerL,answerR],fun three => absurd (answerL ▸ answerR ▸ three) never⟩
        · rw [if_neg missing]
          rw [answerL,answerR] at missing
          obtain ⟨sides,whole⟩ := answerSides threeL threeR missing (separate _) (separate _)
          rw [decide_eq_true_eq,decide_eq_true_eq,decide_eq_true_eq,decide_eq_true_eq] at sides
          refine ⟨by rw [member,member,whole],
            fun _ => ⟨if (pushConds cond l).1 = 2 then swapSides cond else cond,?_,?_,fun x => ?_⟩⟩
          · split
            · exact .inr rfl
            · exact .inl rfl
          · refine ⟨straddlesL,straddlesR,fun x mem => ?_⟩
            rcases List.mem_append.mp mem with old | new
            · exact here x old
            · rw [List.mem_singleton.mp new]
              split
              · exact swapTables ⟨c,column,sides⟩
              · exact ⟨c,column,sides⟩
          · simp only [joinConds,List.mem_append,List.mem_singleton]
            tauto

theorem pushLayer {group : List String} (layer : Layer p group) : Layer (pushConds cond p).2 group := by
  cases layer with
  | scan x =>
    rw [pushConds]
    split
    · exact .scan x
    · split <;> exact .scan x
  | pair tag x y conds =>
    have scanned (z : ScanPlan) : (pushConds cond (.scan z)).2 = .scan z := by
      rw [pushConds]
      split
      · rfl
      · split <;> rfl
    rw [pushConds]
    split
    · rw [scanned]
      exact .pair ..
    · dsimp only
      split
      · rw [scanned]
        exact .pair ..
      · split <;> exact .pair ..

theorem pushLayered {groups : List (List String)} (layered : Layered p groups) : Layered (pushConds cond p).2 groups := by
  induction layered with
  | bottom layer => exact .bottom (pushLayer layer)
  | above tag conds layer below ih =>
    rw [pushConds]
    split
    · exact .above tag conds (pushLayer layer) below
    · dsimp only
      split
      · exact .above tag conds layer ih
      · split <;> exact .above _ _ layer below

end Push

def fresh (seen : List String) (cond : Condition) : List String := [cond.lhsCol.tabName,cond.rhs.tabName].filter (· ∉ seen)

def enter (groups : List (List String)) (cond : Condition) : List (List String) :=
  if fresh groups.flatten cond = [] then groups else fresh groups.flatten cond :: groups

/- The tables in the order in which their scans start, those together that are joined with each other
first. -/
def startOrder (tables : List String) (conds : List Condition) : List (List String) :=
  let groups := conds.foldl enter []
  ((tables.filter (· ∉ groups.flatten)).map fun table => [table]).reverse ++ groups

def JoinCond (tables : List String) (cond : Condition) : Prop :=
  ∃ c, cond.rhs = .col c ∧ cond.lhsCol.tabName ∈ tables ∧ c.tabName ∈ tables ∧ cond.lhsCol.tabName ≠ c.tabName ∧
    cond.lhsCol.tabName ≠ "" ∧ c.tabName ≠ ""

section Loop
variable {plans : List ScanPlan} {tables seen seen' : List String} {conds : List Condition} {cond : Condition} {t : String}
  {j : Joining} {plan : Plan} {groups : List (List String)}

structure Marked (tables seen : List String) (j : Joining) : Prop where
  scantbl : j.scantbl = tables.map fun t => if t ∈ seen then 1 else -1
  joined : ∀ t ∈ tables, t ≠ "" → (t ∈ j.joinedTables ↔ t ∈ seen)

theorem Marked.congr (marked : Marked tables seen j) (same : ∀ t, t ∈ seen ↔ t ∈ seen') : Marked tables seen' j := by
  refine ⟨?_,fun t mem named => (marked.joined t mem named).trans (same t)⟩
  rw [marked.scantbl]
  exact List.map_congr_left fun t _ => by simp only [same]

theorem setMap {f : String → Int} {i : Nat} {v : Int} (once : tables.Nodup) (here : tables[i]? = some t) :
    (tables.map f).set i v = tables.map fun x => if x = t then v else f x := by
  refine List.ext_getElem? fun k => ?_
  rw [List.getElem?_set,List.getElem?_map,List.getElem?_map,List.length_map]
  obtain ⟨inside,there⟩ := List.getElem?_eq_some_iff.mp here
  by_cases same : i = k
  · subst same
    simp [inside,there]
  · rw [if_neg same]
    cases found : tables[k]? with
    | none => rfl
    | some x =>
      obtain ⟨insideK,thereK⟩ := List.getElem?_eq_some_iff.mp found
      have other : x ≠ t := fun equal => same (once.getElem_inj_iff.mp (there.trans (equal.symm.trans thereK.symm)))
      simp [other]

theorem popScanRun (named : plans.map ScanPlan.tabName = tables) (once : tables.Nodup) (mem : t ∈ tables)
    (marked : Marked tables seen j) :
    ∃ x j', popScan t plans j = (some x,j') ∧ x ∈ plans ∧ x.tabName = t ∧ Marked tables (t :: seen) j' := by
  rw [popScan]
  cases found : plans.findIdx? fun x => decide (x.tabName = t) with
  | none =>
    rw [List.findIdx?_eq_none_iff] at found
    rw [← named] at mem
    obtain ⟨x,inside,same⟩ := List.mem_map.mp mem
    exact absurd (found x inside) (by simp [same])
  | some i =>
    obtain ⟨inside,same,_⟩ := List.findIdx?_eq_some_iff_getElem.mp found
    rw [decide_eq_true_eq] at same
    have here : tables[i]? = some t := by rw [← named,List.getElem?_map,List.getElem?_eq_getElem inside,Option.map_some,same]
    refine ⟨plans[i],_,Prod.ext (List.getElem?_eq_getElem inside) rfl,List.getElem_mem inside,same,?_,fun x memX named => ?_⟩
    · rw [marked.scantbl,setMap once here]
      refine List.map_congr_left fun x _ => ?_
      by_cases equal : x = t <;> simp [equal]
    · rw [List.mem_append,List.mem_singleton,marked.joined x memX named,List.mem_cons,or_comm]

structure Tree (plans : List ScanPlan) (tables : List String) (conds : List Condition) (j : Joining) (plan : Plan)
    (groups : List (List String)) : Prop where
  marked : Marked tables groups.flatten j
  layered : Layered plan groups
  once : groups.flatten.Nodup
  known : ∀ x ∈ plan.scans, x ∈ plans
  straddles : plan.Straddles
  carries : Carries plan conds

theorem carriesMore {p q : Plan} {other : Condition} (carries : Carries p conds) (same : SameTest cond other)
    (members : ∀ x, x ∈ q.joinConds ↔ x ∈ p.joinConds ∨ x = other) : Carries q (conds ++ [cond]) := by
  refine ⟨fun x mem => ?_,fun x mem => ?_⟩
  · rcases List.mem_append.mp mem with old | new
    · obtain ⟨y,inside,matched⟩ := carries.1 x old
      exact ⟨y,(members y).mpr (.inl inside),matched⟩
    · rw [List.mem_singleton.mp new]
      exact ⟨other,(members other).mpr (.inr rfl),same⟩
  · rcases (members x).mp mem with old | rfl
    · obtain ⟨y,inside,matched⟩ := carries.2 x old
      exact ⟨y,List.mem_append_left _ inside,matched⟩
    · exact ⟨cond,List.mem_append_right _ (List.mem_singleton.mpr rfl),same⟩

theorem firstJoinRun {methods : JoinMethods} (named : plans.map ScanPlan.tabName = tables) (once : tables.Nodup)
    (enabled : methods.enableNestedloopJoin = true ∨ methods.enableSortmergeJoin = true) (joins : JoinCond tables cond)
    (marked : Marked tables [] j) :
    ∃ j' plan, firstJoin methods plans cond j = .ok (j',plan) ∧ Tree plans tables [cond] j' plan (enter [] cond) := by
  obtain ⟨c,column,left,right,apart,_⟩ := joins
  have other : cond.rhs.tabName = c.tabName := by rw [column]; rfl
  obtain ⟨x,j₁,popX,memX,nameX,marked₁⟩ := popScanRun named once left marked
  obtain ⟨y,j₂,popY,memY,nameY,marked₂⟩ := popScanRun named once right marked₁
  obtain ⟨tag,chosen⟩ : ∃ tag, joinTag methods = .ok tag := by
    rw [joinTag]
    split
    · exact ⟨_,rfl⟩
    · split
      · exact ⟨_,rfl⟩
      · simp_all
  have groups : enter [] cond = [[cond.lhsCol.tabName,c.tabName]] := by simp [enter,fresh,other]
  refine ⟨j₂,_,by rw [firstJoin,popX]; dsimp only; rw [other,popY,chosen]; rfl,?_⟩
  rw [groups]
  refine ⟨marked₂.congr fun t => by simp [or_comm],?_,by simpa using apart,?_,⟨trivial,trivial,?_⟩,?_⟩
  · rw [← nameX,← nameY]
    exact .bottom (.pair ..)
  · simp [scans,memX,memY]
  · intro x' mem
    rw [List.mem_singleton.mp mem]
    exact ⟨c,column,.inl ⟨by simp [Plan.tables,nameX],by simp [Plan.tables,nameY]⟩⟩
  · refine @carriesMore [] cond (.scan x) _ cond ⟨by simp,by simp [joinConds]⟩ (.inl rfl) fun x => ?_
    simp [joinConds]

theorem nextJoinRun (named : plans.map ScanPlan.tabName = tables) (once : tables.Nodup) (joins : JoinCond tables cond)
    (tree : Tree plans tables conds j plan groups) : ∃ j' plan', nextJoin plans cond j plan = .ok (j',plan') ∧
      Tree plans tables (conds ++ [cond]) j' plan' (enter groups cond) := by
  obtain ⟨c,column,left,right,apart,leftNamed,rightNamed⟩ := joins
  have other : cond.rhs.tabName = c.tabName := by rw [column]; rfl
  have within := layeredTables tree.layered
  have flat (group : List String) : (group :: groups).flatten = group ++ groups.flatten := List.flatten_cons
  have joinedL := tree.marked.joined _ left leftNamed
  have joinedR := tree.marked.joined _ right rightNamed
  rw [nextJoin,other]
  by_cases inL : cond.lhsCol.tabName ∈ groups.flatten
  · rw [if_neg (not_not_intro (joinedL.mpr inL))]
    by_cases inR : c.tabName ∈ groups.flatten
    · have known : ¬c.tabName ∉ j.joinedTables := not_not_intro (joinedR.mpr inR)
      have groups' : enter groups cond = groups := by
          simp [-List.mem_flatten,enter,fresh,other,inL,inR]
      have pushed := pushRun column apart (within ▸ tree.once) tree.straddles
      have three : (pushConds cond plan).1 = 3 := by
        rw [pushed.answered,within,decide_eq_true inL,decide_eq_true inR]
        rfl
      obtain ⟨turned,same,straddles,members⟩ := pushed.entered three
      refine ⟨j,(pushConds cond plan).2,by simp [known],?_⟩
      rw [groups']
      refine ⟨tree.marked,pushLayered tree.layered,tree.once,?_,straddles,carriesMore tree.carries same members⟩
      rw [(pushTables cond plan).2]
      exact tree.known
    · have absent : c.tabName ∉ j.joinedTables := fun mem => inR (joinedR.mp mem)
      have groups' : enter groups cond = [c.tabName] :: groups := by
          simp [-List.mem_flatten,enter,fresh,other,inL,inR]
      obtain ⟨y,j',popY,memY,nameY,marked⟩ := popScanRun named once right tree.marked
      refine ⟨j',.join .nestLoop (.scan y) plan [swapSides cond],by simp [absent,popY],?_⟩
      rw [groups']
      refine ⟨marked.congr fun t => by simp,?_,?_,?_,⟨trivial,tree.straddles,?_⟩,?_⟩
      · rw [← nameY]
        exact .above _ _ (.scan y) tree.layered
      · rw [flat]
        exact List.nodup_cons.mpr ⟨inR,tree.once⟩
      · intro x mem
        rcases List.mem_append.mp mem with here | below
        · exact List.mem_singleton.mp here ▸ memY
        · exact tree.known x below
      · intro x mem
        rw [List.mem_singleton.mp mem]
        exact swapTables ⟨c,column,.inr ⟨within ▸ inL,by simp [Plan.tables,nameY]⟩⟩
      · refine carriesMore tree.carries (.inr rfl) fun x => ?_
        simp [joinConds]
  · have absentL : cond.lhsCol.tabName ∉ j.joinedTables := fun mem => inL (joinedL.mp mem)
    obtain ⟨x,j₁,popX,memX,nameX,marked₁⟩ := popScanRun named once left tree.marked
    rw [if_pos absentL,popX]
    have joinedR' := marked₁.joined _ right rightNamed
    by_cases inR : c.tabName ∈ groups.flatten
    · have known : ¬c.tabName ∉ j₁.joinedTables := not_not_intro (joinedR'.mpr (List.mem_cons_of_mem _ inR))
      have groups' : enter groups cond = [cond.lhsCol.tabName] :: groups := by
          simp [-List.mem_flatten,enter,fresh,other,inL,inR]
      refine ⟨j₁,.join .nestLoop (.scan x) plan [cond],by simp [known],?_⟩
      rw [groups']
      refine ⟨marked₁.congr fun t => by simp,?_,?_,?_,⟨trivial,tree.straddles,?_⟩,?_⟩
      · rw [← nameX]
        exact .above _ _ (.scan x) tree.layered
      · rw [flat]
        exact List.nodup_cons.mpr ⟨inL,tree.once⟩
      · intro x' mem
        rcases List.mem_append.mp mem with here | below
        · exact List.mem_singleton.mp here ▸ memX
        · exact tree.known x' below
      · intro x' mem
        rw [List.mem_singleton.mp mem]
        exact ⟨c,column,.inl ⟨by simp [Plan.tables,nameX],within ▸ inR⟩⟩
      · refine carriesMore tree.carries (.inl rfl) fun x => ?_
        simp [joinConds]
    · have absentR : c.tabName ∉ j₁.joinedTables := by
        rw [joinedR',List.mem_cons]
        exact not_or.mpr ⟨apart.symm,inR⟩
      have groups' : enter groups cond = [cond.lhsCol.tabName,c.tabName] :: groups := by
          simp [-List.mem_flatten,enter,fresh,other,inL,inR]
      obtain ⟨y,j₂,popY,memY,nameY,marked₂⟩ := popScanRun named once right marked₁
      refine ⟨j₂,.join .nestLoop (.join .nestLoop (.scan x) (.scan y) [cond]) plan [],by simp [absentR,popY],?_⟩
      rw [groups']
      refine ⟨marked₂.congr fun t => by simp [or_left_comm],?_,?_,?_,⟨⟨trivial,trivial,?_⟩,tree.straddles,by simp⟩,?_⟩
      · rw [← nameX,← nameY]
        exact .above _ _ (.pair ..) tree.layered
      · rw [flat]
        refine List.nodup_cons.mpr ⟨?_,List.nodup_cons.mpr ⟨inR,tree.once⟩⟩
        rw [List.append_eq,List.cons_append,List.nil_append,List.mem_cons]
        exact not_or.mpr ⟨apart,inL⟩
      · intro x' mem
        rcases List.mem_append.mp mem with here | below
        · rcases List.mem_cons.mp here with rfl | here
          · exact memX
          · exact List.mem_singleton.mp here ▸ memY
        · exact tree.known x' below
      · intro x' mem
        rw [List.mem_singleton.mp mem]
        exact ⟨c,column,.inl ⟨by simp [Plan.tables,nameX],by simp [Plan.tables,nameY]⟩⟩
      · refine carriesMore tree.carries (.inl rfl) fun x => ?_
        simp [joinConds,or_comm]

theorem nextJoinsRun {more : List Condition} (named : plans.map ScanPlan.tabName = tables) (once : tables.Nodup)
    (joins : ∀ cond ∈ more, JoinCond tables cond) (tree : Tree plans tables conds j plan groups) :
    ∃ j' plan', nextJoins plans more j plan = .ok (j',plan') ∧
      Tree plans tables (conds ++ more) j' plan' (more.foldl enter groups) := by
  induction more generalizing conds j plan groups with
  | nil => exact ⟨j,plan,rfl,by rwa [List.append_nil]⟩
  | cons cond more ih =>
    obtain ⟨j₁,plan₁,run,next⟩ := nextJoinRun named once (joins cond List.mem_cons_self) tree
    obtain ⟨j₂,plan₂,rest,last⟩ := ih (fun x mem => joins x (List.mem_cons_of_mem cond mem)) next
    refine ⟨j₂,plan₂,by rw [nextJoins,run]; exact rest,?_⟩
    rwa [List.append_cons]

structure Joins (plans : List ScanPlan) (tables : List String) (conds : List Condition) (plan : Plan) : Prop where
  layered : Layered plan (startOrder tables conds)
  perm : plan.tables.Perm tables
  known : ∀ x ∈ plan.scans, x ∈ plans
  straddles : plan.Straddles
  carries : Carries plan conds

theorem joinRestRun (xs : List ScanPlan) (seen : List String) (layered : Layered plan groups) :
    let rest := joinRest xs (xs.map fun x => if x.tabName ∈ seen then 1 else -1) plan
    Layered rest ((((xs.map ScanPlan.tabName).filter (· ∉ seen)).map fun table => [table]).reverse ++ groups) ∧
    (∀ x ∈ rest.scans, x ∈ xs ∨ x ∈ plan.scans) ∧ (plan.Straddles → rest.Straddles) ∧ rest.joinConds = plan.joinConds := by
  induction xs generalizing plan groups with
  | nil => exact ⟨layered,fun x mem => .inr mem,id,rfl⟩
  | cons x xs ih =>
    rw [List.map_cons,joinRest]
    by_cases done : x.tabName ∈ seen
    · obtain ⟨later,known,straddles,conds⟩ := ih layered
      rw [if_pos done,if_neg (by decide),List.map_cons,List.filter_cons_of_neg (by simpa using done)]
      refine ⟨later,fun y mem => ?_,straddles,conds⟩
      exact (known y mem).imp_left (List.mem_cons_of_mem x)
    · obtain ⟨later,known,straddles,conds⟩ := ih (.above .nestLoop [] (.scan x) layered)
      rw [if_neg done,if_pos rfl,List.map_cons,List.filter_cons_of_pos (by simpa using done)]
      refine ⟨?_,fun y mem => ?_,fun fine => straddles ⟨trivial,fine,by simp⟩,by rw [conds]; simp [joinConds]⟩
      · rw [List.map_cons,List.reverse_cons,List.append_assoc]
        exact later
      · rcases known y mem with inside | below
        · exact .inl (List.mem_cons_of_mem x inside)
        · rcases List.mem_append.mp below with here | old
          · exact .inl (List.mem_cons.mpr (.inl (List.mem_singleton.mp here)))
          · exact .inr old

theorem startTables {groups : List (List String)} (once : tables.Nodup) (fine : groups.flatten.Nodup)
    (within : ∀ t ∈ groups.flatten, t ∈ tables) :
    (((tables.filter (· ∉ groups.flatten)).map fun table => [table]).reverse ++ groups).flatten.Perm tables := by
  have single (xs : List String) : (xs.map fun table => [table]).reverse.flatten = xs.reverse := by
    rw [← List.map_reverse,← List.flatMap_def]
    exact List.flatMap_singleton' _
  rw [List.flatten_append,single]
  generalize groups.flatten = seen at *
  refine (List.perm_ext_iff_of_nodup ?_ once).mpr fun t => ?_
  · refine List.nodup_append.mpr ⟨List.nodup_reverse.mpr (once.filter _),fine,?_⟩
    rintro a mem b there rfl
    exact absurd there (of_decide_eq_true (List.mem_filter.mp (List.mem_reverse.mp mem)).2)
  · simp only [List.mem_append,List.mem_reverse,List.mem_filter,decide_eq_true_eq]
    by_cases joined : t ∈ seen
    · simp [joined,within t joined]
    · simp [joined]

theorem wholeTree (named : plans.map ScanPlan.tabName = tables) (once : tables.Nodup) {groups : List (List String)}
    (scantbl : j.scantbl = tables.map fun t => if t ∈ groups.flatten then 1 else -1) (layered : Layered plan groups)
    (fine : groups.flatten.Nodup) (known : ∀ x ∈ plan.scans, x ∈ plans) (straddles : plan.Straddles)
    (carries : Carries plan conds) (order : startOrder tables conds =
      ((tables.filter (· ∉ groups.flatten)).map fun table => [table]).reverse ++ groups) :
    Joins plans tables conds (joinRest plans j.scantbl plan) := by
  have marks : j.scantbl = plans.map fun x => if x.tabName ∈ groups.flatten then 1 else -1 := by
    rw [scantbl,← named,List.map_map]
    rfl
  obtain ⟨whole,inside,kept,same⟩ := joinRestRun plans groups.flatten layered
  rw [named] at whole
  have within : ∀ t ∈ groups.flatten, t ∈ tables := by
    intro t mem
    rw [← layeredTables layered,← scansTables] at mem
    obtain ⟨x,here,rfl⟩ := List.mem_map.mp mem
    exact named ▸ List.mem_map_of_mem (known x here)
  rw [marks]
  refine ⟨order ▸ whole,?_,fun x mem => (inside x mem).elim id (known x),kept straddles,?_⟩
  · rw [layeredTables whole]
    exact startTables once fine within
  · rwa [Carries,same]

end Loop

section Scans
variable {db : DbMeta} {tables : List String} {conds left : List Condition} {t : String}

def IsScan (db : DbMeta) (t : String) (conds : List Condition) (x : ScanPlan) : Prop :=
  ∃ indexExist names, getIndexCols db t conds = .ok (indexExist,names) ∧
    x = if indexExist then ⟨.indexScan,t,conds,names⟩ else ⟨.seqScan,t,conds,[]⟩

theorem isScanFields {x : ScanPlan} (is : IsScan db t conds x) : x.tabName = t ∧ x.conds = conds := by
  obtain ⟨indexExist,names,_,rfl⟩ := is
  cases indexExist <;> exact ⟨rfl,rfl⟩

theorem getIndexColsListed {tab : TabMeta} (listed : db.getTable t = .ok tab) (conds : List Condition) :
    getIndexCols db t conds = .ok (decide ((tab.indexes.foldl (betterIndex t conds) (0,[])).1 > 0),
      (tab.indexes.foldl (betterIndex t conds) (0,[])).2) := by
  rw [getIndexCols,listed]
  rfl

theorem tableScansCons {tab : TabMeta} (listed : db.getTable t = .ok tab) : ∃ x, IsScan db t (conds.filter (popped t)) x ∧
    tableScans db (t :: tables) conds =
      (tableScans db tables (conds.filter fun cond => !popped t cond)).map fun rest => (x :: rest.1,rest.2) := by
  have found := getIndexColsListed listed (conds.filter (popped t))
  refine ⟨_,⟨_,_,found,rfl⟩,?_⟩
  rw [tableScans,popConds,List.partition_eq_filter_filter]
  simp only [found,bind,Except.bind,Function.comp_def]
  cases tableScans db tables (conds.filter fun cond => !popped t cond) <;> rfl

def ownValue (t : String) (cond : Condition) : Bool := t = cond.lhsCol.tabName && cond.rhs.isVal

theorem laterScans (listed : ∀ t ∈ tables, ∃ tab, db.getTable t = .ok tab) (once : tables.Nodup)
    (apart : ∀ cond ∈ conds, cond.lhsCol.tabName ≠ cond.rhs.tabName) : ∃ plans,
    tableScans db tables conds = .ok (plans,conds.filter fun cond => !tables.any fun t => ownValue t cond) ∧
    plans.map ScanPlan.tabName = tables ∧ ∀ x ∈ plans, IsScan db x.tabName (conds.filter (ownValue x.tabName)) x := by
  induction tables generalizing conds with
  | nil => exact ⟨[],by simp [tableScans],rfl,by simp⟩
  | cons t tables ih =>
    obtain ⟨tab,here⟩ := listed t List.mem_cons_self
    obtain ⟨absent,once⟩ := List.nodup_cons.mp once
    obtain ⟨x,is,run⟩ := @tableScansCons db tables conds t tab here
    have test : ∀ cond ∈ conds, popped t cond = ownValue t cond := fun cond mem => by simp [popped,ownValue,apart cond mem]
    rw [List.filter_congr test] at is
    have rest : (conds.filter fun cond => !popped t cond) = conds.filter fun cond => !ownValue t cond :=
      List.filter_congr fun cond mem => by rw [test cond mem]
    obtain ⟨plans,later,named,each⟩ := @ih (conds.filter fun cond => !ownValue t cond)
      (fun u mem => listed u (List.mem_cons_of_mem t mem)) once fun cond mem => apart cond (List.mem_of_mem_filter mem)
    refine ⟨x :: plans,?_,by rw [List.map_cons,named,(isScanFields is).1],fun y mem => ?_⟩
    · rw [run,rest,later]
      simp only [Except.map,List.filter_filter]
      refine congrArg (fun l => Except.ok (x :: plans,l)) (List.filter_congr fun cond _ => ?_)
      simp [Bool.and_comm]
    · rcases List.mem_cons.mp mem with rfl | old
      · rw [(isScanFields is).1]
        exact is
      · have other : y.tabName ≠ t := fun same => absent (same ▸ named ▸ List.mem_map_of_mem old)
        have scan := each y old
        rw [List.filter_filter,List.filter_congr (q := ownValue y.tabName) fun cond _ => ?_] at scan
        · exact scan
        · by_cases own : y.tabName = cond.lhsCol.tabName
          · simp [ownValue,own ▸ other.symm]
          · simp [ownValue,own]

def betweenTables (conds : List Condition) : List Condition :=
  conds.filter fun cond => !cond.rhs.isVal && cond.lhsCol.tabName ≠ cond.rhs.tabName

theorem tableScansRun (listed : ∀ u ∈ t :: tables, ∃ tab, db.getTable u = .ok tab) (once : (t :: tables).Nodup)
    (within : ∀ cond ∈ conds, cond.lhsCol.tabName ∈ t :: tables) (named : ∀ cond ∈ conds, cond.lhsCol.tabName ≠ "") :
    ∃ x plans, tableScans db (t :: tables) conds = .ok (x :: plans,betweenTables conds) ∧
      IsScan db t (conds.filter (popped t)) x ∧ plans.map ScanPlan.tabName = tables ∧
      ∀ y ∈ plans, IsScan db y.tabName (conds.filter (ownValue y.tabName)) y := by
  obtain ⟨tab,here⟩ := listed t List.mem_cons_self
  obtain ⟨absent,onceRest⟩ := List.nodup_cons.mp once
  obtain ⟨x,is,run⟩ := @tableScansCons db tables conds t tab here
  obtain ⟨plans,later,names,each⟩ := @laterScans db tables (conds.filter fun cond => !popped t cond)
    (fun u mem => listed u (List.mem_cons_of_mem t mem)) onceRest fun cond mem same => by
      have kept := (List.mem_filter.mp mem).2
      simp [popped,same] at kept
  refine ⟨x,plans,?_,is,names,fun y mem => ?_⟩
  · rw [run,later]
    simp only [Except.map,List.filter_filter]
    refine congrArg (fun l => Except.ok (x :: plans,l)) (List.filter_congr fun cond mem => ?_)
    have inside := within cond mem
    cases value : cond.rhs with
    | val v =>
      have apart : cond.lhsCol.tabName ≠ "" := named cond mem
      rcases List.mem_cons.mp inside with first | other
      · simp [popped,ownValue,Rhs.isVal,Rhs.tabName,value,first]
      · have found : tables.any (fun u => ownValue u cond) = true :=
          List.any_eq_true.mpr ⟨_,other,by simp [ownValue,value,Rhs.isVal]⟩
        simp [found,Rhs.isVal]
    | col c =>
      have none : tables.any (fun u => ownValue u cond) = false := by
        rw [List.any_eq_false]
        intro u _
        simp [ownValue,value,Rhs.isVal]
      by_cases own : cond.lhsCol.tabName = c.tabName <;> simp [none,popped,value,Rhs.isVal,Rhs.tabName,own]
  · have other : y.tabName ≠ t := fun same => absent (same ▸ names ▸ List.mem_map_of_mem mem)
    have scan := each y mem
    rw [List.filter_filter,List.filter_congr (q := ownValue y.tabName) fun cond memC => ?_] at scan
    · exact scan
    · cases value : cond.rhs with
      | val v =>
        have apart : cond.lhsCol.tabName ≠ "" := named cond memC
        by_cases own : y.tabName = cond.lhsCol.tabName
        · have foreign : t ≠ cond.lhsCol.tabName := fun same => other (own.trans same.symm)
          simp [ownValue,popped,value,Rhs.isVal,Rhs.tabName,own,foreign,apart]
        · simp [ownValue,own]
      | col c => simp [ownValue,value,Rhs.isVal]

end Scans

theorem makeOneRelRun {db : DbMeta} {methods : JoinMethods} {t : String} {tables : List String} {conds : List Condition}
    (enabled : methods.enableNestedloopJoin = true ∨ methods.enableSortmergeJoin = true)
    (listed : ∀ u ∈ t :: tables, ∃ tab, db.getTable u = .ok tab) (once : (t :: tables).Nodup)
    (within : ∀ cond ∈ conds, cond.lhsCol.tabName ∈ t :: tables) (named : ∀ cond ∈ conds, cond.lhsCol.tabName ≠ "")
    (joins : ∀ cond ∈ betweenTables conds, JoinCond (t :: tables) cond) :
    ∃ x plans plan, makeOneRel db methods (t :: tables) conds = .ok plan ∧ IsScan db t (conds.filter (popped t)) x ∧
      plans.map ScanPlan.tabName = tables ∧ (∀ y ∈ plans, IsScan db y.tabName (conds.filter (ownValue y.tabName)) y) ∧
      Joins (x :: plans) (t :: tables) (betweenTables conds) plan := by
  obtain ⟨x,plans,scanned,is,names,each⟩ := tableScansRun listed once within named
  have whole : (x :: plans).map ScanPlan.tabName = t :: tables := by rw [List.map_cons,names,(isScanFields is).1]
  refine ⟨x,plans,?_⟩
  suffices built : ∃ plan, makeOneRel db methods (t :: tables) conds = .ok plan ∧
      Joins (x :: plans) (t :: tables) (betweenTables conds) plan by
    obtain ⟨plan,made,fine⟩ := built
    exact ⟨plan,made,is,names,each,fine⟩
  rw [makeOneRel,scanned]
  generalize betweenTables conds = left at *
  have alone : Layered (.scan x) [[t]] := (isScanFields is).1 ▸ .bottom (.scan x)
  cases left with
  | nil =>
    have tree := @wholeTree (x :: plans) (t :: tables) [] ⟨(List.replicate (t :: tables).length (-1)).set 0 1,[]⟩ (.scan x)
      whole once [[t]] ?_ alone (by simp) (by simp [scans]) trivial ⟨by simp,by simp [joinConds]⟩ ?_
    · cases plans with
      | nil =>
        obtain rfl : tables = [] := names.symm
        exact ⟨_,rfl,by simpa [joinRest] using tree⟩
      | cons y plans => exact ⟨_,rfl,tree⟩
    · rw [List.length_cons,List.replicate_succ,List.set_cons_zero,List.map_cons,if_pos (by simp)]
      refine congrArg (List.cons 1) (List.ext_getElem (by simp) fun k _ inside => ?_)
      rw [List.length_map] at inside
      have other : tables[k] ≠ t := fun same => (List.nodup_cons.mp once).1 (same ▸ List.getElem_mem inside)
      simp [other]
    · have all : (t :: tables).filter (· ∉ ([] : List (List String)).flatten) = t :: tables := by simp
      have others : (t :: tables).filter (· ∉ [[t]].flatten) = tables := by
        rw [List.filter_cons_of_neg (by simp)]
        refine List.filter_eq_self.mpr fun u mem => decide_eq_true fun here => (List.nodup_cons.mp once).1 ?_
        rw [List.flatten_singleton] at here
        exact List.mem_singleton.mp here ▸ mem
      have start : startOrder (t :: tables) [] = (((t :: tables).filter (· ∉ ([] : List (List String)).flatten)).map
          fun table => [table]).reverse ++ [] := rfl
      rw [start,all,others,List.map_cons,List.reverse_cons,List.append_nil]
  | cons cond left =>
    have marked : Marked (t :: tables) [] ⟨List.replicate (t :: tables).length (-1),List.replicate (t :: tables).length ""⟩ :=
      ⟨by simp [List.map_const',List.replicate_succ],fun u _ some => by simp [some]⟩
    obtain ⟨j,plan,first,tree⟩ := firstJoinRun whole once enabled (joins cond List.mem_cons_self) marked
    obtain ⟨j',plan',later,tree'⟩ := nextJoinsRun whole once (fun c mem => joins c (List.mem_cons_of_mem cond mem)) tree
    have fine := wholeTree whole once tree'.marked.scantbl tree'.layered tree'.once tree'.known tree'.straddles tree'.carries rfl
    cases plans with
    | nil =>
      obtain rfl : tables = [] := names.symm
      obtain ⟨c,_,a,b,apart,_⟩ := joins cond List.mem_cons_self
      exact absurd ((List.mem_singleton.mp a).trans (List.mem_singleton.mp b).symm) apart
    | cons y plans => exact ⟨_,by simp only [bind,Except.bind,first,later],fine⟩

end Planner
end Rmdb
