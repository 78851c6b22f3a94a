import Stabl.Lib.MaximalMunch
import Stabl.Lib.Regex
import Stabl.SimSee.Printer
import Stabl.SimSee.ProgramParser

/-!
# `Stabl.SimSee.ProgramLexer`: reading a program of `sim-see`

The rules of `lexer.mll`, in their order. `ocamllex` takes the longest match and the first rule
for it. `readProg` is `read_prog` of `evaluate.ml`, for the text of a file: the parser asks the
lexer for one token after the other. So what the lexer fails on matters only if the parser gets
there.
-/

set_option autoImplicit false

namespace Stabl.SimSee

open Regex MaximalMunch

/-! ### Rules -/

/-- The code of a rule. -/
inductive LexAction where
  | skip
  | token (t : ProgramToken)
  | integer
  | id

/-- A rule for one text and one token. -/
def literalRule (s : String) (t : ProgramToken) : Regex Char × LexAction :=
  (literal s.toList, .token t)

/-- `[' ' '\t' '\n']` -/
def isBlank (c : Char) : Bool := c = ' ' || c = '\t' || c = '\n'

def integerRegex : Regex Char := seq (cls Char.isDigit) (star (cls Char.isDigit))

def idRegex : Regex Char := seq (cls isLetter) (star (cls fun c => isLetter c || c.isDigit))

/-- The rule `scan`. -/
def scanRules : List (Regex Char × LexAction) :=
  [(plus (cls isBlank), .skip),
    literalRule "(" ⟨.lparen, ()⟩,
    literalRule ")" ⟨.rparen, ()⟩,
    literalRule "\x7b" ⟨.lbrace, ()⟩,
    literalRule "\x7d" ⟨.rbrace, ()⟩,
    literalRule ":=" ⟨.assign, ()⟩,
    literalRule ":" ⟨.colon, ()⟩,
    literalRule ";" ⟨.semicolon, ()⟩,
    literalRule "-" ⟨.subtract, ()⟩,
    literalRule "+" ⟨.add, ()⟩,
    literalRule "=" ⟨.eq, ()⟩,
    (integerRegex, .integer),
    literalRule "if" ⟨.if, ()⟩,
    literalRule "then" ⟨.then, ()⟩,
    literalRule "else" ⟨.else, ()⟩,
    literalRule "true" ⟨.boolean, true⟩,
    literalRule "false" ⟨.boolean, false⟩,
    literalRule "and" ⟨.and, ()⟩,
    literalRule "or" ⟨.or, ()⟩,
    literalRule "not" ⟨.not, ()⟩,
    literalRule "boolean" ⟨.type, Typ.boolean⟩,
    literalRule "int" ⟨.type, Typ.integer⟩,
    literalRule "input_boolean" ⟨.input, Typ.boolean⟩,
    literalRule "input_int" ⟨.input, Typ.integer⟩,
    (idRegex, .id),
    literalRule "," ⟨.comma, ()⟩]

/-- The first rule that matches. -/
def firstScanRule (x : List Char) : Option LexAction :=
  scanRules.findSome? fun r => if r.1.accepts x then some r.2 else none

/-! ### The scanner -/

/-- `int_of_string` for digits: the numbers from `2 ^ 62` on are refused. -/
def intOfString (digits : List Char) : Option (BitVec 63) :=
  let n := Nat.ofDigitChars 10 digits 0
  if n < 2 ^ 62 then some (BitVec.ofNat 63 n) else none

/-- The code of the rules. The errors are the texts of `Failure`. -/
def scanAct (action : LexAction) (x : List Char) : Except String (Option ProgramToken) :=
  match action with
  | .skip => .ok none
  | .token t => .ok (some t)
  | .integer =>
    match intOfString x with
    | some n => .ok (some ⟨.integer, n⟩)
    | none => .error "int_of_string"
  | .id => .ok (some ⟨.id, String.ofList x⟩)

/-- The scanner. It has only one state. -/
def programScanner : Scanner Char LexAction Unit ProgramToken String where
  rule _ := firstScanRule
  act s action x := (scanAct action x).map fun t => (t, s)
  noMatch := "lexing: empty token"

/-- The tokens of a text up to its end, or up to a failure. -/
def lexProgram (text : List Char) : List ProgramToken × Option String :=
  programScanner.lex () text

/-! ### Reading -/

/-- What `read_prog` raises. -/
inductive ReadError where
  | failure (message : String)
  | parseError
deriving DecidableEq, Repr

/-- The tokens that the parser can ask for. At the end of the text the lexer returns `EOF`. -/
def parserInput (text : List Char) : List ProgramToken :=
  match lexProgram text with
  | (tokens, none) => tokens ++ [⟨.eof, ()⟩]
  | (tokens, some _) => tokens

/-- `read_prog`. -/
def readProg (text : List Char) : Except ReadError Program :=
  let c := parseTokens (parserInput text)
  match table.result c, c.input, (lexProgram text).2 with
  | some p, _, _ => .ok p
  | none, [], some message => .error (.failure message)
  | none, _, _ => .error .parseError

end Stabl.SimSee
