import Rmdb.Optimizer.PlanExact

/-! What becomes of a query with a misplaced condition. Over an index its plan cannot be turned into
executors. Otherwise the scan of the first table throws once it is started and a record gets to the
condition. -/
namespace Rmdb.Planner
open Lib Analyze Portal Plan Record

section Parts
variable [FloatOps] {sm : SmManager} {tab : String → TabMeta} {fh : String → RmFileHandle} {t : String} {ts : List String}
  {accepted : List Condition} {x y : ScanPlan} {plans : List ScanPlan} {plan p left right : Plan} {conds : List Condition}
  {cond : Condition} {f : String → Bytes} {tag : PlanTag} {rows : String → List Bytes} {groups : List (List String)}

structure Part (tables : List String) (accepted : List Condition) (scans : List ScanPlan) (p : Plan) : Prop where
  once : p.tables.Nodup
  inside : ∀ u ∈ p.tables, u ∈ tables
  known : ∀ y ∈ p.scans, y ∈ scans
  straddles : p.Straddles
  carried : ∀ cond ∈ betweenTables accepted, About p.tables cond → ∃ other ∈ p.joinConds, SameTest cond other
  given : ∀ other ∈ p.joinConds, ∃ cond ∈ betweenTables accepted, SameTest cond other

omit [FloatOps] in
theorem Planned.whole (planned : Planned sm tab fh t ts accepted x plans plan) : Part (t :: ts) accepted (x :: plans) plan :=
  ⟨planned.joins.perm.nodup_iff.mpr planned.once,fun _ mem => planned.joins.perm.mem_iff.mp mem,planned.joins.known,
    planned.joins.straddles,fun cond mem _ => planned.joins.carries.1 cond mem,planned.joins.carries.2⟩

omit [FloatOps] in
theorem aboutTurned {ts : List String} {other : Condition} (same : SameTest cond other) : About ts cond ↔ About ts other := by
  rcases same with rfl | rfl
  · rfl
  · cases column : cond.rhs with
    | val v => rw [swapSides,column]
    | col c => simp [About,swapSides,column,and_comm]

omit [FloatOps] in
theorem Part.children {tables : List String} {scans : List ScanPlan}
    (part : Part tables accepted scans (.join tag left right conds)) :
    Part tables accepted scans left ∧ Part tables accepted scans right := by
  obtain ⟨once,inside,known,⟨straddlesL,straddlesR,here⟩,carried,given⟩ := part
  obtain ⟨onceL,onceR,apart⟩ := List.nodup_append.mp once
  refine ⟨⟨onceL,fun u mem => inside u (List.mem_append_left _ mem),fun y mem => known y (List.mem_append_left _ mem),straddlesL,
    fun cond mem about => ?_,fun other mem => given other (List.mem_append_left _ (List.mem_append_left _ mem))⟩,
    ⟨onceR,fun u mem => inside u (List.mem_append_right _ mem),fun y mem => known y (List.mem_append_right _ mem),straddlesR,
    fun cond mem about => ?_,fun other mem => given other (List.mem_append_left _ (List.mem_append_right _ mem))⟩⟩
  · have wider : About (left.tables ++ right.tables) cond :=
      ⟨List.mem_append_left _ about.1,fun c column => List.mem_append_left _ (about.2 c column)⟩
    obtain ⟨other,memO,same⟩ := carried cond mem wider
    have turned := (aboutTurned same).mp about
    refine ⟨other,?_,same⟩
    rcases List.mem_append.mp memO with below | own
    · rcases List.mem_append.mp below with inL | inR
      · exact inL
      · obtain ⟨_,_,there,_⟩ := straddlesInside straddlesR inR
        exact absurd rfl (apart _ turned.1 _ there)
    · obtain ⟨c,column,⟨_,there⟩ | ⟨there,_⟩⟩ := here other own
      · exact absurd rfl (apart _ (turned.2 c column) _ there)
      · exact absurd rfl (apart _ turned.1 _ there)
  · have wider : About (left.tables ++ right.tables) cond :=
      ⟨List.mem_append_right _ about.1,fun c column => List.mem_append_right _ (about.2 c column)⟩
    obtain ⟨other,memO,same⟩ := carried cond mem wider
    have turned := (aboutTurned same).mp about
    refine ⟨other,?_,same⟩
    rcases List.mem_append.mp memO with below | own
    · rcases List.mem_append.mp below with inL | inR
      · obtain ⟨_,_,there,_⟩ := straddlesInside straddlesL inL
        exact absurd rfl (apart _ there _ turned.1)
      · exact inR
    · obtain ⟨c,column,⟨there,_⟩ | ⟨_,there⟩⟩ := here other own
      · exact absurd rfl (apart _ there _ turned.1)
      · exact absurd rfl (apart _ there _ (turned.2 c column))

omit [FloatOps] in
theorem Part.fit (planned : Planned sm tab fh t ts accepted x plans plan) (part : Part (t :: ts) accepted (x :: plans) p) :
    Fit tab (rowsOf fh) p := by
  refine ⟨part.once,fun u mem => (planned.usable u (part.inside u mem)).shaped,
    fun u mem record => rowsSized (planned.usable u (part.inside u mem)),part.straddles,fun y mem cond memC => ?_,
    fun other mem => ?_⟩
  · exact (planned.leafAbout (part.known y mem) cond memC).1
  · obtain ⟨cond,known,same⟩ := part.given other mem
    obtain ⟨_,sane,_⟩ := planned.sane cond (betweenMem.mp known).1
    exact sane.turned same

theorem Part.tests (planned : Planned sm tab fh t ts accepted x plans plan) (part : Part (t :: ts) accepted (x :: plans) p)
    (absent : t ∉ p.tables) (inside : ∀ u ∈ p.tables, f u ∈ rowsOf fh u) :
    (∀ cond ∈ planConds p, passes tab f cond = true) ↔ ∀ cond ∈ within p.tables accepted, passes tab f cond = true := by
  have fit := part.fit planned
  have turned {cond other : Condition} (known : cond ∈ accepted) (about : About p.tables cond) (same : SameTest cond other) :
      passes tab f other = passes tab f cond :=
    passesTurned fit.shaped (fun u mem => fit.sized u mem _ (inside u mem)) about (planned.sane cond known).2.1 same
  have other {y : ScanPlan} (mem : y ∈ p.scans) : y ∈ plans := by
    rcases List.mem_cons.mp (part.known y mem) with rfl | later
    · refine absurd ?_ absent
      rw [← (isScanFields planned.first).1,← scansTables]
      exact List.mem_map_of_mem mem
    · exact later
  have tabled {y : ScanPlan} (mem : y ∈ p.scans) : y.tabName ∈ p.tables := scansTables p ▸ List.mem_map_of_mem mem
  have withinMem (cond : Condition) : cond ∈ within p.tables accepted ↔ cond ∈ accepted ∧ cond.lhsCol.tabName ∈ p.tables ∧
      (cond.rhs.isVal = true ∨ cond.rhs.tabName ∈ p.tables ∧ cond.lhsCol.tabName ≠ cond.rhs.tabName) := by
    simp [within,List.mem_filter]
  constructor
  · intro all cond mem
    obtain ⟨known,left,kind⟩ := (withinMem cond).mp mem
    cases made : cond.rhs with
    | val v =>
      rw [← scansTables] at left
      obtain ⟨y,memY,same⟩ := List.mem_map.mp left
      refine all cond (List.mem_append_left _ (scanCondsMem.mpr ⟨y,memY,?_⟩))
      exact (planned.otherConds (other memY)).mpr ⟨known,same.symm,by rw [made]; rfl⟩
    | col c =>
      rw [made] at kind
      obtain ⟨right,apart⟩ := kind.resolve_left (by simp [Rhs.isVal])
      have about : About p.tables cond := ⟨left,fun d column => by cases made.symm.trans column; exact right⟩
      obtain ⟨o,memO,same⟩ := part.carried cond (betweenMem.mpr ⟨known,c,made,apart⟩) about
      rw [← turned known about same]
      exact all o (List.mem_append_right _ memO)
  · intro all cond mem
    rcases List.mem_append.mp mem with scanned | joined
    · obtain ⟨y,memY,own⟩ := scanCondsMem.mp scanned
      obtain ⟨known,left,value⟩ := (planned.otherConds (other memY)).mp own
      exact all cond ((withinMem cond).mpr ⟨known,left ▸ tabled memY,.inl value⟩)
    · obtain ⟨given,known,same⟩ := part.given cond joined
      obtain ⟨member,c,column,apart⟩ := betweenMem.mp known
      obtain ⟨d,columnD,left,right⟩ := straddlesInside part.straddles joined
      have about : About p.tables given :=
        (aboutTurned same).mpr ⟨left,fun e columnE => by cases columnD.symm.trans columnE; exact right⟩
      rw [turned member about same]
      refine all given ((withinMem given).mpr ⟨member,about.1,.inr ?_⟩)
      rw [column]
      exact ⟨about.2 c column,apart⟩

theorem rowsChoice (fit : Fit tab rows p) :
    planRows rows tab p ≠ [] ↔ ∃ f, (∀ u ∈ p.tables, f u ∈ rows u) ∧ ∀ cond ∈ planConds p, passes tab f cond = true := by
  rw [planRows,ne_eq,List.map_eq_nil_iff]
  constructor
  · intro some
    obtain ⟨f,mem⟩ := List.exists_mem_of_ne_nil _ some
    obtain ⟨⟨inside,_⟩,all⟩ := (choicesMem fit.once).mp mem
    exact ⟨f,inside,all⟩
  · rintro ⟨f,inside,all⟩
    have same : ∀ u ∈ p.tables, restrict p.tables f u = f u := fun u mem => if_pos mem
    refine List.ne_nil_of_mem (a := restrict p.tables f) ((choicesMem fit.once).mpr
      ⟨(assignmentsMem fit.once).mp (restrictMem fit.once inside),?_⟩)
    intro cond mem
    rw [passesCongr (fit.about cond mem) same]
    exact all cond mem

theorem Part.fillable (planned : Planned sm tab fh t ts accepted x plans plan) (part : Part (t :: ts) accepted (x :: plans) p)
    (absent : t ∉ p.tables) : planRows (rowsOf fh) tab p ≠ [] ↔ Fillable (rowsOf fh) tab accepted p.tables := by
  have fit := part.fit planned
  rw [rowsChoice fit,Fillable]
  refine exists_congr fun f => and_congr_right fun inside => ?_
  have about : ∀ cond ∈ within p.tables accepted, About p.tables cond := by
    intro cond mem
    have kept := (List.mem_filter.mp mem).2
    simp only [Bool.and_eq_true,Bool.or_eq_true,decide_eq_true_eq] at kept
    refine ⟨kept.1,fun c column => ?_⟩
    rw [column] at kept
    exact (kept.2.resolve_left (by simp [Rhs.isVal])).1
  rw [part.tests planned absent inside,conditionsLaid fit.once fit.shaped (fun u mem => fit.sized u mem _ (inside u mem)) about
    fun cond mem => (planned.sane cond (List.mem_of_mem_filter mem)).2.1,Except.ok.injEq,List.all_eq_true]

theorem fillableNone (rows : String → List Bytes) : Fillable rows tab accepted [] := by
  have none : within [] accepted = [] := by simp [within]
  exact ⟨fun _ => default,by simp,by rw [none]; rfl⟩

theorem Part.layer (planned : Planned sm tab fh t ts accepted x plans plan) (part : Part (t :: ts) accepted (x :: plans) p)
    {group : List String} (layer : Layer p group) (mem : t ∈ group) :
    Started (rowsOf fh) tab t p ↔ Fillable (rowsOf fh) tab accepted (group.takeWhile (· ≠ t)) := by
  cases layer with
  | scan y =>
    rw [List.mem_singleton.mp mem,List.takeWhile_cons_of_neg (by simp)]
    exact iff_of_true trivial (fillableNone _)
  | pair tag y z conds =>
    rw [Started]
    by_cases first : t = y.tabName
    · rw [List.takeWhile_cons_of_neg (by simp [first]),if_pos (by simp [tables,first])]
      exact iff_of_true trivial (fillableNone _)
    · have second : z.tabName = t := by
        rcases List.mem_cons.mp mem with same | same
        · exact absurd same first
        · exact (List.mem_singleton.mp same).symm
      rw [List.takeWhile_cons_of_pos (by simpa using Ne.symm first),List.takeWhile_cons_of_neg (by simp [second]),
        if_neg (by simpa [tables] using first)]
      have absent : t ∉ (Plan.scan y).tables := fun inside => first (List.mem_singleton.mp inside)
      rw [part.children.1.fillable planned absent]
      exact and_iff_left trivial

theorem Part.starts (planned : Planned sm tab fh t ts accepted x plans plan) (part : Part (t :: ts) accepted (x :: plans) p)
    (layered : Layered p groups) (mem : t ∈ p.tables) :
    Started (rowsOf fh) tab t p ↔ StartsIn (Fillable (rowsOf fh) tab accepted) t groups := by
  induction layered with
  | bottom layer =>
    rw [layerTables layer] at mem
    rw [StartsIn,if_pos mem]
    exact part.layer planned layer mem
  | @above top p group groups tag conds layer below ih =>
    rw [Started,StartsIn]
    by_cases here : t ∈ group
    · rw [if_pos here,if_pos (layerTables layer ▸ here)]
      exact part.children.1.layer planned layer here
    · have absent : t ∉ top.tables := layerTables layer ▸ here
      rw [if_neg here,if_neg absent,part.children.1.fillable planned absent,layerTables layer,
        ih part.children.2 ((List.mem_append.mp mem).resolve_left absent)]

theorem startedWhole (fit : Fit tab rows p) (mem : t ∈ p.tables) (inside : ∀ u ∈ p.tables, f u ∈ rows u)
    (all : ∀ cond ∈ planConds p, passes tab f cond = true) : Started rows tab t p := by
  induction p with
  | scan y => trivial
  | join tag left right conds ihl ihr =>
    obtain ⟨fitL,fitR⟩ := fit.children
    have insideL : ∀ u ∈ left.tables, f u ∈ rows u := fun u mem => inside u (List.mem_append_left _ mem)
    have insideR : ∀ u ∈ right.tables, f u ∈ rows u := fun u mem => inside u (List.mem_append_right _ mem)
    have allL : ∀ cond ∈ planConds left, passes tab f cond = true := by
      intro cond mem
      refine all cond ?_
      simp only [planConds,scanConds,joinConds,List.mem_append] at mem ⊢
      tauto
    have allR : ∀ cond ∈ planConds right, passes tab f cond = true := by
      intro cond mem
      refine all cond ?_
      simp only [planConds,scanConds,joinConds,List.mem_append] at mem ⊢
      tauto
    rw [Started]
    split
    · rename_i here
      exact ihl fitL here insideL allL
    · rename_i absent
      exact ⟨(rowsChoice fitL).mpr ⟨f,insideL,allL⟩,ihr fitR ((List.mem_append.mp mem).resolve_left absent) insideR allR⟩

end Parts
end Rmdb.Planner
