import Rmdb.Parser.Lexer

/-! Requests parsed one after the other. The parser that is generated from `yacc.y` is given by
its verdict on the tokens it has pulled so far; the scanner stays where the parser leaves it. -/
namespace Rmdb.Parser

inductive Verdict (Tree : Type) where
  | more
  | accept (tree : Tree)
  | reject
  deriving DecidableEq, Repr

structure Grammar (Tree : Type) where
  verdict : List Token → Verdict Tree
  -- no rule has anything behind the end of the text
  stops : ∀ seen, verdict (seen ++ [.eof]) ≠ .more

section Requests
variable {Tree : Type} (g : Grammar Tree)

def yyparse : Nat → List Token → M Scanner (Option Tree)
  | 0,_ => throw .fuel
  | fuel+1,seen => match g.verdict seen with
    | .accept tree => pure (some tree)
    | .reject => pure none
    | .more => do
      let s ← get
      let t ← yylex (s.rest.length+1)
      yyparse fuel (seen ++ [t])

def request (cond : StartCond) (text : List Char) : Except Fault (Option Tree) × StartCond :=
  match yyparse g (text.length+2) [] ⟨cond,text⟩ with
  | .ok tree s => (.ok tree,s.cond)
  | .error e s => (.error e,s.cond)

def after (history : List (List Char)) : StartCond := history.foldl (fun cond text => (request g cond text).2) .initial

def Parsed (cond : StartCond) (text : List Char) : (List Token × Option Fault) × Except Fault (Option Tree) :=
  (tokensOf cond text,(request g cond text).1)

def Closes (text : List Char) : Prop := (request g .initial text).2 = .initial

theorem parsedSame (cond : StartCond) : (∀ text, Parsed g cond text = Parsed g .initial text) ↔ cond = .initial := by
  constructor
  · intro same
    cases cond with
    | initial => rfl
    | stateComment =>
      have show_ := congrArg (fun p => p.1) (same "show".toList)
      exact absurd show_ (by simp only [Parsed]; decide +kernel)
  · rintro rfl text
    rfl

variable {g} {history : List (List Char)}

theorem afterSnoc (text : List Char) : after g (history ++ [text]) = (request g (after g history) text).2 := by
  rw [after,List.foldl_append]
  rfl

theorem closedHistory (closed : ∀ text ∈ history, Closes g text) : after g history = .initial := by
  induction history using List.reverseRecOn with
  | nil => rfl
  | append_singleton history text ih =>
    rw [afterSnoc,ih fun x mem => closed x (List.mem_append_left _ mem)]
    exact closed text (List.mem_append_right _ List.mem_cons_self)

theorem prefixesClosed : (∀ past, past <+: history → after g past = .initial) ↔ ∀ text ∈ history, Closes g text := by
  constructor
  · intro left text mem
    obtain ⟨past,rest,rfl⟩ := List.append_of_mem mem
    have before := left past (List.prefix_append ..)
    have behind := left (past ++ [text]) ⟨rest,by rw [List.append_assoc]; rfl⟩
    rwa [afterSnoc,before] at behind
  · intro closed past sub
    exact closedHistory fun text mem => closed text (sub.subset mem)

end Requests

section Scanning
variable {cond : StartCond} {text : List Char} {s s' : Scanner} {t : Token}

theorem scanOncePositive (cond : StartCond) (text : List Char) : 0 < (scanOnce cond text).1 := by
  rw [scanOnce]
  split
  · exact Nat.one_pos
  · exact Nat.pos_of_ne_zero ‹_›

theorem longestRule {rs : List Rule} {n : Nat} {a : Action} : (longest cond text rs n a).2 = a ∨
    ∃ rule ∈ rs, rule.cond = cond ∧ 0 < rule.pattern text ∧
      (longest cond text rs n a).2 = rule.action (text.take (rule.pattern text)) := by
  induction rs generalizing n a with
  | nil => exact .inl rfl
  | cons rule rs ih =>
    rw [longest]
    split
    · rename_i better
      rcases @ih (rule.pattern text) (rule.action (text.take (rule.pattern text))) with same | ⟨r,mem,active,matched,same⟩
      · exact .inr ⟨rule,List.mem_cons_self,better.1,by omega,same⟩
      · exact .inr ⟨r,List.mem_cons_of_mem rule mem,active,matched,same⟩
    · rcases @ih n a with same | ⟨r,mem,active,matched,same⟩
      · exact .inl same
      · exact .inr ⟨r,List.mem_cons_of_mem rule mem,active,matched,same⟩

theorem scanOnceRule (cond : StartCond) (text : List Char) : (scanOnce cond text).2 = .skip ∨
    ∃ rule ∈ rules, rule.cond = cond ∧ 0 < rule.pattern text ∧
      (scanOnce cond text).2 = rule.action (text.take (rule.pattern text)) := by
  rw [scanOnce]
  split
  · exact .inl rfl
  · exact longestRule

theorem valueIntActionShape (yytext : List Char) : valueIntAction yytext ≠ .fail .fuel ∧
    ∀ c, valueIntAction yytext ≠ .begin c := by
  simp only [valueIntAction,valueInt]
  split
  · exact ⟨Action.noConfusion,fun _ => Action.noConfusion⟩
  · rename_i thrown
    split at thrown
    · cases thrown
      exact ⟨nofun,nofun⟩
    · cases thrown

theorem rulesActions : ∀ rule ∈ rules, ∀ yytext, rule.action yytext ≠ .fail .fuel ∧
    ∀ c, rule.cond = .initial → rule.action yytext = .begin c → rule.pattern = literal "/*" := by
  intro rule mem yytext
  simp only [rules,List.mem_append,List.mem_cons,List.mem_map,List.not_mem_nil,or_false] at mem
  rcases mem with ((rfl | rfl | rfl | rfl | rfl | rfl | rfl) | ⟨k,_,rfl⟩) |
    rfl | rfl | rfl | rfl | rfl | rfl | rfl | rfl | rfl | rfl | rfl
  · exact ⟨nofun,fun _ _ _ => rfl⟩
  · exact ⟨nofun,nofun⟩
  case inr.inr.inr.inr.inr.inr.inr.inr.inl =>
    obtain ⟨ended,begins⟩ := valueIntActionShape yytext
    exact ⟨ended,fun c _ begun => absurd begun (begins c)⟩
  all_goals exact ⟨nofun,fun _ _ begun => nomatch begun⟩

def Plain (s : Scanner) : Prop := s.cond = .initial ∧ ∀ n, literal "/*" (s.rest.drop n) = 0

theorem plainAction (plain : Plain s) (c : StartCond) : (scanOnce s.cond s.rest).2 ≠ .begin c := by
  intro begins
  rcases scanOnceRule s.cond s.rest with skip | ⟨rule,mem,active,matched,same⟩
  · cases skip.symm.trans begins
  · have first := (rulesActions rule mem _).2 c (active.trans plain.1) (same.symm.trans begins)
    rw [first] at matched
    exact absurd (plain.2 0) matched.ne'

theorem plainDrop (plain : Plain s) (n : Nat) : Plain {s with rest := s.rest.drop n} := by
  refine ⟨plain.1,fun m => ?_⟩
  rw [List.drop_drop]
  exact plain.2 (n+m)

theorem scanOnceFails (cond : StartCond) (text : List Char) : (scanOnce cond text).2 ≠ .fail .fuel := by
  rcases scanOnceRule cond text with skip | ⟨rule,mem,_,_,same⟩
  · rw [skip]
    nofun
  · rw [same]
    exact (rulesActions rule mem _).1

structure Lexed (s : Scanner) (result : EStateM.Result Fault Scanner Token) : Prop where
  ended : ∀ s', result ≠ .error .fuel s'
  shorter : ∀ t s', result = .ok t s' → t = .eof ∨ s'.rest.length < s.rest.length
  kept : Plain s → Plain (Rmdb.after result)

theorem yylexRun {fuel : Nat} (enough : s.rest.length < fuel) : Lexed s (yylex fuel s) := by
  induction fuel generalizing s with
  | zero => omega
  | succ fuel ih =>
    rw [yylex,getBind]
    by_cases empty : s.rest = []
    · rw [if_pos empty]
      exact ⟨nofun,fun t s' done => .inl (by cases done; rfl),fun plain => plain⟩
    · rw [if_neg empty,modifyBind]
      have some_ := List.length_pos_iff.mpr empty
      have positive := scanOncePositive s.cond s.rest
      have fewer : (s.rest.drop (scanOnce s.cond s.rest).1).length < s.rest.length := by
        rw [List.length_drop]
        omega
      cases action : (scanOnce s.cond s.rest).2 with
      | skip =>
        dsimp only
        obtain ⟨ended,shorter,kept⟩ := @ih {s with rest := s.rest.drop (scanOnce s.cond s.rest).1} (by dsimp only; omega)
        exact ⟨ended,fun t s' done => (shorter t s' done).imp_right fun less => less.trans fewer,
          fun plain => kept (plainDrop plain _)⟩
      | begin cond =>
        dsimp only
        rw [modifyBind]
        obtain ⟨ended,shorter,_⟩ := @ih ⟨cond,s.rest.drop (scanOnce s.cond s.rest).1⟩ (by dsimp only; omega)
        exact ⟨ended,fun t s' done => (shorter t s' done).imp_right fun less => less.trans fewer,
          fun plain => absurd action (plainAction plain cond)⟩
      | token t =>
        exact ⟨nofun,fun t' s' done => .inr (by cases done; exact fewer),fun plain => plainDrop plain _⟩
      | fail e =>
        refine ⟨fun s' done => ?_,nofun,fun plain => plainDrop plain _⟩
        cases done
        exact scanOnceFails _ _ action

variable {Tree : Type} {g : Grammar Tree}

theorem yyparseStops {fuel : Nat} {seen : List Token} (last : g.verdict seen ≠ .more) :
    ∃ tree, yyparse g (fuel+1) seen s = .ok tree s := by
  rw [yyparse]
  cases known : g.verdict seen with
  | accept tree => exact ⟨some tree,rfl⟩
  | reject => exact ⟨none,rfl⟩
  | more => exact absurd known last

theorem yyparseRun {fuel : Nat} {seen : List Token} (enough : s.rest.length+1 < fuel) :
    (∀ s', yyparse g fuel seen s ≠ .error .fuel s') ∧ (Plain s → Plain (Rmdb.after (yyparse g fuel seen s))) := by
  induction fuel generalizing s seen with
  | zero => omega
  | succ fuel ih =>
    rw [yyparse]
    cases known : g.verdict seen with
    | accept tree => exact ⟨nofun,fun plain => plain⟩
    | reject => exact ⟨nofun,fun plain => plain⟩
    | more =>
      dsimp only
      rw [getBind]
      obtain ⟨ended,shorter,kept⟩ := yylexRun (Nat.lt_succ_self s.rest.length)
      cases lexed : yylex (s.rest.length+1) s with
      | error e s' =>
        rw [bindError lexed]
        rw [lexed] at ended kept
        exact ⟨fun u same => ended s' (by cases same; rfl),kept⟩
      | ok t s' =>
        rw [bindEq lexed]
        rw [lexed] at kept
        rcases shorter t s' lexed with rfl | less
        · obtain ⟨fuel,rfl⟩ := Nat.exists_eq_succ_of_ne_zero (show fuel ≠ 0 by omega)
          obtain ⟨tree,stopped⟩ := @yyparseStops s' _ _ fuel _ (g.stops seen)
          rw [stopped]
          exact ⟨nofun,kept⟩
        · obtain ⟨ended',kept'⟩ := @ih s' (seen ++ [t]) (by omega)
          exact ⟨ended',fun plain => kept' (kept plain)⟩

theorem requestEnds (g : Grammar Tree) (cond : StartCond) (text : List Char) :
    (request g cond text).1 ≠ .error .fuel ∧
      (cond = .initial → (∀ n, literal "/*" (text.drop n) = 0) → (request g cond text).2 = .initial) := by
  obtain ⟨ended,kept⟩ := @yyparseRun ⟨cond,text⟩ _ g (text.length+2) [] (Nat.lt_succ_self _)
  rw [request]
  cases parsed : yyparse g (text.length+2) [] ⟨cond,text⟩ with
  | ok tree s' =>
    rw [parsed] at kept
    exact ⟨nofun,fun start plain => (kept ⟨start,plain⟩).1⟩
  | error e s' =>
    rw [parsed] at ended kept
    exact ⟨fun same => ended s' (by cases same; rfl),fun start plain => (kept ⟨start,plain⟩).1⟩

/- All requests of a run are read as by a fresh server just when each of them closes its comments. -/
theorem requestsIndependent (g : Grammar Tree) (history : List (List Char)) :
    ((∀ text, Parsed g (after g history) text = Parsed g .initial text) ↔ after g history = .initial) ∧
    ((∀ past, past <+: history → ∀ text, Parsed g (after g past) text = Parsed g .initial text) ↔
      ∀ text ∈ history, Closes g text) ∧
    ∀ text : List Char, (∀ n, literal "/*" (text.drop n) = 0) → Closes g text := by
  refine ⟨parsedSame g _,?_,fun text plain => (requestEnds g .initial text).2 rfl plain⟩
  rw [← prefixesClosed]
  exact forall₂_congr fun past _ => parsedSame g _

end Scanning

def upToSemicolon : Grammar (List Token) where
  verdict seen := match seen.getLast? with
    | some (.op ';') => .accept seen
    | some .eof => if seen.length = 1 then .accept [] else .reject
    | _ => .more
  stops seen := by
    rw [List.getLast?_append]
    dsimp only [List.getLast?_singleton,Option.some_or]
    split <;> nofun

theorem openCommentSwallows : tokensOf (after upToSemicolon ["/* note".toList]) "show tables;".toList = ([.eof],none) ∧
    tokensOf .initial "show tables;".toList = ([.keyword .show_,.keyword .tables,.op ';',.eof],none) ∧
    ¬ ∀ text, Parsed upToSemicolon (after upToSemicolon ["/* note".toList]) text = Parsed upToSemicolon .initial text := by
  refine ⟨by decide +kernel,by decide +kernel,fun all => ?_⟩
  exact absurd (congrArg (fun p => p.1) (all "show tables;".toList)) (by simp only [Parsed]; decide +kernel)

end Rmdb.Parser
