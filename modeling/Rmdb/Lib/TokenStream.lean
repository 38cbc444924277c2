import Rmdb.Lib.Decimal

/-! Formatted input: tokens behind white space, each leaving the text that follows it. -/
namespace Rmdb.Lib.TokenStream
open Decimal

-- no result is a stream that failed
abbrev Stream (α : Type) := StateT (List UInt8) Option α

def isSpace (ch : UInt8) : Bool := ch = 32 || (9 ≤ ch && ch ≤ 13)

def word : Stream (List UInt8) := fun s =>
  let s := s.dropWhile isSpace
  if s.takeWhile (!isSpace ·) = [] then none else some (s.takeWhile (!isSpace ·),s.dropWhile (!isSpace ·))

def natural : Stream Nat := fun s =>
  if s.takeWhile (decide <| IsDigit ·) = [] then none
  else some (value (s.takeWhile (decide <| IsDigit ·)),s.dropWhile (decide <| IsDigit ·))

def integer : Stream Int := fun s =>
  match s.dropWhile isSpace with
  | [] => none
  | ch :: s =>
    if ch = 45 then (natural s).map fun (n,s) => (-(n : Int),s)
    else if ch = 43 then (natural s).map fun (n,s) => ((n : Int),s)
    else (natural (ch :: s)).map fun (n,s) => ((n : Int),s)

def times {α : Type} (read : Stream α) : Nat → Stream (List α)
  | 0 => pure []
  | n+1 => do
    let a ← read
    let l ← times read n
    pure (a :: l)

def shown (v : Int) : List UInt8 := if v < 0 then 45 :: decimal (-v).toNat else decimal v.toNat

def Ends (s : List UInt8) : Prop := ∀ ch ∈ s.head?, isSpace ch = true

def Gap (s : List UInt8) : Prop := ∀ ch ∈ s, isSpace ch = true
instance (s : List UInt8) : Decidable (Gap s) := List.decidableBAll (isSpace · = true) s

def Reads {α : Type} (read : Stream α) (text : List UInt8) (a : α) : Prop :=
  ∀ gap rest, Gap gap → Ends rest → read (gap ++ (text ++ rest)) = some (a,rest)

section Rules
variable {α β : Type} {read : Stream α} {f : α → Stream β} {s s' gap text rest : List UInt8} {a : α} {b : β}

theorem streamBind (first : read s = some (a,s')) : (read >>= f) s = f a s' := by
  simp only [bind,StateT.bind,first]
  rfl

theorem gapEnds (some : gap ≠ []) (is : Gap gap) : Ends (gap ++ s) := by
  cases gap with
  | nil => exact absurd rfl some
  | cons ch gap =>
    intro c head
    cases head
    exact is ch List.mem_cons_self

theorem dropGap {p : UInt8 → Bool} (all : ∀ ch ∈ s, p ch = true) (stop : ∀ ch ∈ rest.head?, p ch = false) :
    (s ++ rest).takeWhile p = s ∧ (s ++ rest).dropWhile p = rest := by
  induction s with
  | nil => cases rest with
    | nil => exact ⟨rfl,rfl⟩
    | cons ch rest =>
      have no := stop ch rfl
      simp [no]
  | cons ch s ih =>
    have here := all ch List.mem_cons_self
    have later := ih fun c mem => all c (List.mem_cons_of_mem _ mem)
    simp [here,later]

theorem readsStep (first : Reads read text a)
    (next : ∀ rest, Ends rest → Ends (s ++ rest) ∧ f a (s ++ rest) = some (b,rest)) : Reads (read >>= f) (text ++ s) b := by
  intro gap rest gapIs ends
  obtain ⟨stop,last⟩ := next rest ends
  rw [List.append_assoc,streamBind (first gap (s ++ rest) gapIs stop),last]

theorem readsBind (first : Reads read text a) (next : Reads (f a) s b) (gapIs : Gap gap) (apart : gap ≠ []) :
    Reads (read >>= f) (text ++ (gap ++ s)) b := by
  refine readsStep first fun rest ends => ?_
  rw [List.append_assoc]
  exact ⟨gapEnds apart gapIs,next gap rest gapIs ends⟩

theorem readsPure (first : Reads read text a) (last : f a = pure b) : Reads (read >>= f) text b := by
  intro gap rest gapIs ends
  rw [streamBind (first gap rest gapIs ends),last]
  rfl

end Rules

section Tokens
variable {n : Nat} {v : Int} {s : List UInt8}

theorem skipGap {gap rest : List UInt8} {ch : UInt8} (gapIs : Gap gap) (no : isSpace ch = false) :
    (gap ++ ch :: rest).dropWhile isSpace = ch :: rest := by
  refine (dropGap gapIs ?_).2
  intro c head
  cases head
  exact no

theorem digitSpace {ch : UInt8} (digit : IsDigit ch) : isSpace ch = false := by
  obtain ⟨low,high⟩ := digit
  have nine : ¬ch ≤ 13 := by rw [UInt8.le_iff_toNat_le]; simp; omega
  have blank : ch ≠ 32 := by rintro rfl; simp at low
  simp [isSpace,nine,blank]

theorem spaceDigit {ch : UInt8} (space : isSpace ch = true) : ¬IsDigit ch := fun digit => by
  rw [digitSpace digit] at space
  cases space

theorem readsWord (named : s ≠ []) (solid : ∀ ch ∈ s, isSpace ch = false) : Reads word s s := by
  intro gap rest gapIs ends
  obtain ⟨ch,s,rfl⟩ := List.exists_cons_of_ne_nil named
  have taken := @dropGap (ch :: s) rest (!isSpace ·) (fun c mem => by simp [solid c mem]) fun c head => by simp [ends c head]
  rw [word,List.cons_append,skipGap gapIs (solid ch List.mem_cons_self),← List.cons_append,taken.1,taken.2,if_neg named]

theorem readNatural {rest : List UInt8} (ends : Ends rest) : natural (decimal n ++ rest) = some (n,rest) := by
  have taken := @dropGap (decimal n) rest (decide <| IsDigit ·) (fun c mem => decide_eq_true (decimalDigits n c mem))
    fun c head => decide_eq_false (spaceDigit (ends c head))
  rw [natural,taken.1,taken.2,if_neg (decimalNonempty n),valueDecimal]

theorem readsInteger (v : Int) : Reads integer (shown v) v := by
  intro gap rest gapIs ends
  rw [shown]
  by_cases negative : v < 0
  · rw [if_pos negative,integer,List.cons_append,skipGap gapIs (by decide)]
    dsimp only
    rw [if_pos rfl,readNatural ends,Option.map_some,Int.toNat_of_nonneg (by omega),neg_neg]
  · obtain ⟨ch,s,cons⟩ := List.exists_cons_of_ne_nil (decimalNonempty v.toNat)
    have digit : IsDigit ch := decimalDigits v.toNat ch (by rw [cons]; exact List.mem_cons_self)
    have plus : ch ≠ 43 := by rintro rfl; exact absurd digit (by decide)
    have minus : ch ≠ 45 := by rintro rfl; exact absurd digit (by decide)
    rw [if_neg negative,integer,cons,List.cons_append,skipGap gapIs (digitSpace digit)]
    dsimp only
    rw [if_neg minus,if_neg plus,← List.cons_append,← cons,readNatural ends,Option.map_some,Int.toNat_of_nonneg (by omega)]

end Tokens

section Loops
variable {α : Type} {read : Stream α} {write : α → List UInt8} {sep : List UInt8} {l : List α}

theorem timesLeading (each : ∀ a ∈ l, Reads read (write a) a) (sepIs : Gap sep) (apart : sep ≠ []) {rest : List UInt8}
    (ends : Ends rest) : times read l.length (l.flatMap (fun a => sep ++ write a) ++ rest) = some (l,rest) := by
  induction l with
  | nil => rfl
  | cons a l ih =>
    have later := ih fun b mem => each b (List.mem_cons_of_mem _ mem)
    have stop : Ends (l.flatMap (fun a => sep ++ write a) ++ rest) := by
      cases l with
      | nil => exact ends
      | cons b l =>
        rw [List.flatMap_cons,List.append_assoc,List.append_assoc]
        exact gapEnds apart sepIs
    rw [List.length_cons,times,List.flatMap_cons,List.append_assoc,List.append_assoc,
      streamBind (each a List.mem_cons_self sep _ sepIs stop),streamBind later]
    rfl

theorem timesTrailing {item : α → List UInt8} {lead : List UInt8} (sepIs : Gap sep) (leadIs : Gap lead)
    (each : ∀ a ∈ l, ∀ gap rest, Gap gap → read (gap ++ (item a ++ rest)) = some (a,sep ++ rest)) (rest : List UInt8) :
    times read l.length (lead ++ (l.flatMap item ++ rest)) = some (l,(if l = [] then lead else sep) ++ rest) := by
  induction l generalizing lead with
  | nil => rfl
  | cons a l ih =>
    have one := each a List.mem_cons_self lead (l.flatMap item ++ rest) leadIs
    have later := ih sepIs fun b mem => each b (List.mem_cons_of_mem _ mem)
    rw [ite_self] at later
    rw [List.length_cons,times,List.flatMap_cons,List.append_assoc,streamBind one,streamBind later]
    rfl

end Loops
end Rmdb.Lib.TokenStream
