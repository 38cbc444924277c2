import Rmdb.Defs

/-! `lex.l`: the rules of the scanner, its start conditions, and `yylex`, which takes the longest
match and of several the first. The start condition is a global that survives the buffer. -/
namespace Rmdb.Parser

inductive StartCond where
  | initial
  | stateComment
  deriving DecidableEq, Repr

inductive Keyword where
  | show_
  | txnBegin
  | txnCommit
  | txnAbort
  | txnRollback
  | tables
  | create
  | table
  | drop
  | desc
  | insert
  | into
  | values
  | delete
  | from_
  | where_
  | update
  | set_
  | as_
  | select
  | count
  | max
  | min
  | sum
  | limit
  | int
  | bigint
  | datetime
  | char
  | float
  | index
  | and
  | join
  | exit
  | help
  | order
  | by_
  | asc
  | enableNestloop
  | enableSortmerge
  deriving DecidableEq, Repr

/- The tokens with their semantic values; a `float` literal is left as its text. -/
inductive Token where
  | keyword (k : Keyword)
  | valueBool (b : Bool)
  | geq
  | leq
  | neq
  | op (c : Char)
  | identifier (text : String)
  | valueInt (v : Int)
  | valueFloat (text : String)
  | valueString (text : String)
  | eof
  deriving DecidableEq, Repr

inductive Action where
  | skip
  | begin (cond : StartCond)
  | token (t : Token)
  | fail (e : Fault)
  deriving DecidableEq, Repr

structure Rule where
  cond : StartCond
  pattern : List Char → Nat
  action : List Char → Action

section Patterns

def run (p : Char → Bool) (text : List Char) : Nat := (text.takeWhile p).length

def literal (word : String) (text : List Char) : Nat :=
  if (text.take word.length).map Char.toLower = word.toList.map Char.toLower then word.length else 0

def isSign (c : Char) : Bool := c = '+' || c = '-'

def signLength : List Char → Nat
  | c :: _ => if isSign c then 1 else 0
  | [] => 0

def newLine : List Char → Nat
  | '\r' :: '\n' :: _ => 2
  | '\r' :: _ => 1
  | '\n' :: _ => 1
  | _ => 0

def lineComment : List Char → Nat
  | '-' :: '-' :: rest => 2+run (· ≠ '\n') rest
  | _ => 0

def identifier : List Char → Nat
  | c :: rest => if c.isAlpha then 1+run (fun c => c = '_' || c.isAlpha || c.isDigit) rest else 0
  | [] => 0

def valueIntLength (text : List Char) : Nat :=
  let sign := signLength text
  let digits := run Char.isDigit (text.drop sign)
  if digits = 0 then 0 else sign+digits

def valueFloatLength (text : List Char) : Nat :=
  let whole := valueIntLength text
  match text.drop whole with
  | '.' :: rest => if whole = 0 then 0 else whole+1+run Char.isDigit rest
  | _ => 0

def valueString : List Char → Nat
  | '\'' :: rest =>
    let body := run (· ≠ '\'') rest
    match rest.drop body with
    | _ :: _ => body+2
    | [] => 0
  | _ => 0

def oneOf (p : Char → Bool) : List Char → Nat
  | c :: _ => if p c then 1 else 0
  | [] => 0

end Patterns

def decimal (digits : List Char) : Nat := digits.foldl (fun n c => n*10+(c.toNat - '0'.toNat)) 0

def strtoll (text : String) : Int :=
  match text.toList with
  | '-' :: digits => -decimal digits
  | '+' :: digits => decimal digits
  | digits => decimal digits

def valueInt (yytext : String) : Except Fault Int :=
  let value := strtoll yytext
  if value < -2^63 ∨ value > 2^63-1 then .error (.error (.plain ("Integer literal out of range: " ++ yytext)))
  else .ok value

def valueIntAction (yytext : List Char) : Action :=
  match valueInt (String.ofList yytext) with
  | .ok v => .token (.valueInt v)
  | .error e => .fail e

def keywords : List (String × Keyword) := [
  ("SHOW",.show_),("BEGIN",.txnBegin),("COMMIT",.txnCommit),("ABORT",.txnAbort),("ROLLBACK",.txnRollback),
  ("TABLES",.tables),("CREATE",.create),("TABLE",.table),("DROP",.drop),("DESC",.desc),
  ("INSERT",.insert),("INTO",.into),("VALUES",.values),("DELETE",.delete),("FROM",.from_),
  ("WHERE",.where_),("UPDATE",.update),("SET",.set_),("AS",.as_),("SELECT",.select),
  ("COUNT",.count),("MAX",.max),("MIN",.min),("SUM",.sum),("LIMIT",.limit),
  ("INT",.int),("BIGINT",.bigint),("DATETIME",.datetime),("CHAR",.char),("FLOAT",.float),
  ("INDEX",.index),("AND",.and),("JOIN",.join),("EXIT",.exit),("HELP",.help),
  ("ORDER",.order),("BY",.by_),("ASC",.asc),("ENABLE_NESTLOOP",.enableNestloop),("ENABLE_SORTMERGE",.enableSortmerge)]

def always (a : Action) : List Char → Action := fun _ => a

def rules : List Rule :=
  [⟨.initial,literal "/*",always (.begin .stateComment)⟩,
    ⟨.stateComment,literal "*/",always (.begin .initial)⟩,
    ⟨.stateComment,oneOf (· ≠ '*'),always .skip⟩,
    ⟨.stateComment,oneOf (· = '*'),always .skip⟩,
    ⟨.initial,lineComment,always .skip⟩,
    ⟨.initial,run (fun c => c = ' ' || c = '\t'),always .skip⟩,
    ⟨.initial,newLine,always .skip⟩] ++
  keywords.map (fun (word,k) => ⟨.initial,literal word,always (.token (.keyword k))⟩) ++
  [⟨.initial,literal "TRUE",always (.token (.valueBool true))⟩,
    ⟨.initial,literal "FALSE",always (.token (.valueBool false))⟩,
    ⟨.initial,literal ">=",always (.token .geq)⟩,
    ⟨.initial,literal "<=",always (.token .leq)⟩,
    ⟨.initial,literal "<>",always (.token .neq)⟩,
    ⟨.initial,oneOf (";(),*=><.".toList.contains ·),fun yytext => .token (.op (yytext.headD ' '))⟩,
    ⟨.initial,identifier,fun yytext => .token (.identifier (String.ofList yytext))⟩,
    ⟨.initial,valueIntLength,valueIntAction⟩,
    ⟨.initial,valueFloatLength,fun yytext => .token (.valueFloat (String.ofList yytext))⟩,
    ⟨.initial,valueString,fun yytext => .token (.valueString (String.ofList (yytext.tail.dropLast)))⟩,
    ⟨.initial,oneOf (· ≠ '\n'),always .skip⟩]

def longest (cond : StartCond) (text : List Char) : List Rule → Nat → Action → Nat × Action
  | [],n,a => (n,a)
  | rule :: rest,n,a =>
    if rule.cond = cond ∧ n < rule.pattern text then
      longest cond text rest (rule.pattern text) (rule.action (text.take (rule.pattern text)))
    else longest cond text rest n a

/- What flex does where no rule matches: one character is copied to the output. -/
def scanOnce (cond : StartCond) (text : List Char) : Nat × Action :=
  let found := longest cond text rules 0 .skip
  if found.1 = 0 then (1,.skip) else found

structure Scanner where
  cond : StartCond
  rest : List Char
  deriving DecidableEq, Repr

/- Calls of the action loop until a token is returned; the end of the text is a token too. -/
def yylex : Nat → M Scanner Token
  | 0 => throw .fuel
  | fuel+1 => do
    let s ← get
    if s.rest = [] then pure .eof
    else
      let found := scanOnce s.cond s.rest
      modify fun s => {s with rest := s.rest.drop found.1}
      match found.2 with
      | .skip => yylex fuel
      | .begin cond =>
        modify fun s => {s with cond := cond}
        yylex fuel
      | .token t => pure t
      | .fail e => throw e

def tokens : Nat → Scanner → List Token × Option Fault
  | 0,_ => ([],some .fuel)
  | fuel+1,s => match yylex (s.rest.length+1) s with
    | .ok .eof _ => ([.eof],none)
    | .ok t s' => (t :: (tokens fuel s').1,(tokens fuel s').2)
    | .error e _ => ([],some e)

def tokensOf (cond : StartCond) (text : List Char) : List Token × Option Fault := tokens (text.length+1) ⟨cond,text⟩

end Rmdb.Parser
