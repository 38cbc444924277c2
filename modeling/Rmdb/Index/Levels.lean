import Rmdb.Index.IxIndexHandle

/-! A B+ tree as the list of its levels, leaves first. A level is the list of its nodes
from left to right; reading the entries of one level from left to right visits the nodes
of the level below. Splitting, borrowing and merging rearrange one level without changing
what is read off it, and touch one node of the next. -/
namespace Rmdb.Index
open Lib

structure Node (K : Type) where
  page : Int
  leaf : Bool
  pairs : List (K × Rid)

abbrev Level (K : Type) := List (Node K)

namespace Node
variable {K : Type}

def ptr (n : Node K) : Rid := ⟨n.page,-1⟩

def first (n : Node K) : Option K := n.pairs.head?.map Prod.fst

end Node

section Alignment
variable {K : Type}

def flat (lv : Level K) : List (K × Rid) := lv.flatMap Node.pairs

@[simp] theorem flatNil : flat ([] : Level K) = [] := rfl

@[simp] theorem flatCons (n : Node K) (lv : Level K) : flat (n :: lv) = n.pairs ++ flat lv := by
  simp [flat]

@[simp] theorem flatAppend (a b : Level K) : flat (a ++ b) = flat a ++ flat b := by
  simp [flat]

def Exact (e : K × Rid) (n : Node K) : Prop := e.2 = n.ptr ∧ n.first = some e.1

/- The leftmost entry only has to name its node: the descent never reads its key. -/
def Front : List (K × Rid) → Level K → Prop
  | [],[] => True
  | e :: es,n :: ns => e.2 = n.ptr ∧ List.Forall₂ Exact es ns
  | _,_ => False

def Linked (lo hi : Level K) : Prop := Front (flat hi) lo

theorem frontLength {es : List (K × Rid)} {ns : Level K} (front : Front es ns) : es.length = ns.length := by
  cases es with
  | nil => cases ns with
    | nil => rfl
    | cons n ns => cases front
  | cons e es => cases ns with
    | nil => cases front
    | cons n ns => simp [front.2.length_eq]

theorem exactSplit {es : List (K × Rid)} {a b : Level K} {n : Node K}
    (all : List.Forall₂ Exact es (a ++ n :: b)) :
    ∃ es1 x es2, es = es1 ++ x :: es2 ∧ List.Forall₂ Exact es1 a ∧ Exact x n ∧ List.Forall₂ Exact es2 b := by
  induction a generalizing es with
  | nil =>
    cases all with
    | cons head tail => exact ⟨[],_,_,rfl,.nil,head,tail⟩
  | cons m a ih =>
    cases all with
    | cons head tail =>
      obtain ⟨es1,x,es2,rfl,left,mid,right⟩ := ih tail
      exact ⟨_ :: es1,x,es2,rfl,.cons head left,mid,right⟩

theorem exactJoin {es1 es2 : List (K × Rid)} {x : K × Rid} {a b : Level K} {n : Node K}
    (left : List.Forall₂ Exact es1 a) (mid : Exact x n) (right : List.Forall₂ Exact es2 b) :
    List.Forall₂ Exact (es1 ++ x :: es2) (a ++ n :: b) := by
  induction left with
  | nil => exact .cons mid right
  | cons head _ ih => exact .cons head ih

theorem frontSplit {es : List (K × Rid)} {a b : Level K} {n : Node K} (front : Front es (a ++ n :: b)) :
    ∃ es1 x es2, es = es1 ++ x :: es2 ∧ Front es1 a ∧ x.2 = n.ptr ∧ (a ≠ [] → n.first = some x.1) ∧
      List.Forall₂ Exact es2 b := by
  cases a with
  | nil => cases es with
    | nil => cases front
    | cons e es => exact ⟨[],e,es,rfl,trivial,front.1,by simp,front.2⟩
  | cons m a => cases es with
    | nil => cases front
    | cons e es =>
      obtain ⟨es1,x,es2,rfl,left,mid,right⟩ := exactSplit front.2
      exact ⟨e :: es1,x,es2,rfl,⟨front.1,left⟩,mid.1,fun _ => mid.2,right⟩

theorem frontJoin {es1 es2 : List (K × Rid)} {x : K × Rid} {a b : Level K} {n : Node K}
    (left : Front es1 a) (ptr : x.2 = n.ptr) (key : a ≠ [] → n.first = some x.1)
    (right : List.Forall₂ Exact es2 b) : Front (es1 ++ x :: es2) (a ++ n :: b) := by
  cases a with
  | nil => cases es1 with
    | nil => exact ⟨ptr,right⟩
    | cons e es1 => cases left
  | cons m a => cases es1 with
    | nil => cases left
    | cons e es1 => exact ⟨left.1,exactJoin left.2 ⟨ptr,key (by simp)⟩ right⟩

theorem frontNonempty {es : List (K × Rid)} {ns : Level K} (front : Front es ns) : es = [] ↔ ns = [] := by
  rw [← List.length_eq_zero_iff,← List.length_eq_zero_iff,frontLength front]

structure Focus (A : Level K) (n : Node K) (B hi : Level K) where
  U : Level K
  u : Node K
  W : Level K
  a : List (K × Rid)
  x : K × Rid
  b : List (K × Rid)
  level : hi = U ++ u :: W
  pairs : u.pairs = a ++ x :: b
  left : Front (flat U ++ a) A
  ptr : x.2 = n.ptr
  right : List.Forall₂ Exact (b ++ flat W) B

theorem focus {A B hi : Level K} {n : Node K} (linked : Linked (A ++ n :: B) hi) :
    ∃ f : Focus A n B hi, A ≠ [] → n.first = some f.x.1 := by
  obtain ⟨es1,x,es2,flatEq,left,ptr,key,right⟩ := frontSplit linked
  obtain ⟨U,u,W,a,b,rfl,pairs,rfl,rfl⟩ := flatMapSplit flatEq
  exact ⟨⟨U,u,W,a,x,b,rfl,pairs,left,ptr,right⟩,key⟩

theorem frontReplace {es : List (K × Rid)} {A B : Level K} {n m : Node K} (front : Front es (A ++ n :: B))
    (page : m.page = n.page) (first : A ≠ [] → m.first = n.first) : Front es (A ++ m :: B) := by
  obtain ⟨es1,x,es2,rfl,left,ptr,key,right⟩ := frontSplit front
  refine frontJoin left (by rw [ptr,Node.ptr,Node.ptr,page]) ?_ right
  intro some
  rw [first some]
  exact key some

end Alignment

section Shape
variable {K : Type}

def Fits (order : Nat) (n : Node K) : Prop := (order+1)/2 ≤ n.pairs.length ∧ n.pairs.length ≤ order

def FitsTop (order : Nat) (n : Node K) : Prop := n.pairs.length ≤ order ∧ (n.leaf = false → 2 ≤ n.pairs.length)

def Sized (order : Nat) : List (Level K) → Prop
  | [] => False
  | [top] => ∃ r, top = [r] ∧ FitsTop order r
  | lv :: next :: rest => (∀ n ∈ lv, Fits order n) ∧ Sized order (next :: rest)

def SizedUp (order : Nat) : List (Level K) → Prop
  | [] => True
  | lv :: rest => Sized order (lv :: rest)

theorem sizedCons {order : Nat} {lv : Level K} {rest : List (Level K)} (some : rest ≠ []) :
    Sized order (lv :: rest) ↔ (∀ n ∈ lv, Fits order n) ∧ Sized order rest := by
  cases rest with
  | nil => exact absurd rfl some
  | cons next rest => rfl

theorem sizedAppend {order : Nat} {below rest : List (Level K)} (some : rest ≠ []) :
    Sized order (below ++ rest) ↔ (∀ lv ∈ below, ∀ n ∈ lv, Fits order n) ∧ Sized order rest := by
  induction below with
  | nil => simp
  | cons lv below ih =>
    rw [List.cons_append,sizedCons (by simp [some]),ih]
    simp only [List.mem_cons,forall_eq_or_imp]
    exact and_assoc.symm

end Shape
end Rmdb.Index
