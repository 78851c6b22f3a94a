import Mathlib.Algebra.Group.Int.Defs
import Stabl.Frontend.Parser
import Stabl.Lib.MaximalMunch
import Stabl.Lib.Regex

/-!
# `Stabl.Frontend.Lexer`: the lexer

The specification `frontend/lexer.flex`, from which the scanner is generated. The macros are
regular expressions, and the rules stand in the order of the specification. The scanner takes
the longest match and the first rule for it (`Stabl.Lib.MaximalMunch`).

A text is a list of characters. A `Symbol` has its constant of the class `sym` and its value; its
line and column are left out. The text of a string literal is collected in the static field
`Parser.strliteral`, which is part of the state `strliteral` here. Nothing reads it in the
state `yyinitial`.
-/

set_option autoImplicit false

namespace Stabl.Lexer

open Regex MaximalMunch

/-! ### Macros -/

/-- A character of the text. -/
def char (c : Char) : Regex Char := cls fun b => b = c

/-- A text in quotes. -/
def text (s : String) : Regex Char := literal s.toList

/-- `[\r|\n|\r\n]`: the brackets make it a class, and the bar is one of its characters. -/
def lineTerminator : Regex Char := cls fun c => c = '\r' || c = '|' || c = '\n'

/-- `[^\r\n]` -/
def inputCharacter : Regex Char := cls fun c => !(c = '\r' || c = '\n')

/-- `{LineTerminator} | [ \t\f]` -/
def whiteSpace : Regex Char :=
  alt lineTerminator (cls fun c => c = ' ' || c = '\t' || c = '\x0c')

/-- `[+\-]?0|[1-9][0-9]*` -/
def intconst : Regex Char :=
  alt (seq (opt (cls fun c => c = '+' || c = '-')) (char '0'))
    (seq (cls fun c => c.isDigit && c != '0') (star (cls Char.isDigit)))

/-- `[A-Za-z]([_]?[A-Za-z0-9])*` -/
def identifier : Regex Char :=
  seq (cls Char.isAlpha) (star (seq (opt (char '_')) (cls Char.isAlphanum)))

/-- `"/*" [^*] ~"*/" | "/*" "*"+ "/"` -/
def traditionalComment : Regex Char :=
  alt (seq (text "/*") (seq (cls fun c => c != '*') (upTo (text "*/"))))
    (seq (text "/*") (seq (plus (char '*')) (char '/')))

/-- `"//" {InputCharacter}* {LineTerminator}?` -/
def endOfLineComment : Regex Char :=
  seq (text "//") (seq (star inputCharacter) (opt lineTerminator))

/-- `{TraditionalComment} | {EndOfLineComment}` -/
def comment : Regex Char := alt traditionalComment endOfLineComment

/-! ### Rules -/

/-- The constants of the class `sym`, with the value of a `Symbol` that has one. -/
inductive Sym where
  | entry | exit | «while» | «if» | «else» | statechart | state | transition | src | dest | trigger
  | guard | action | true | false | struct | types | type | events | functions | history | shell
  | region | fin
  | dot | hash | assign | lbrace | rbrace | lparen | rparen | semicolon | comma | colon
  | and | ne | add | sub | mul | div | ltri | rtri | gt | ge | lt | le | eq | or
  | identifier (value : String)
  | intconst (value : Int32)
  | strliteral (value : String)
deriving DecidableEq, Repr

/-- The code of a rule. -/
inductive Action where
  | symbol (s : Sym)
  | identifier | intconst
  | ignore
  | beginString | endString | appendString | unterminatedString
  | illegalCharacter
deriving DecidableEq, Repr

/-- The rules that match one text and return a symbol without a value. -/
def literalRules : List (String × Sym) :=
  [("entry", .entry), ("exit", .exit), ("while", .while), ("if", .if), ("else", .else),
    ("statechart", .statechart), ("state", .state), ("transition", .transition), ("source", .src),
    ("destination", .dest), ("trigger", .trigger), ("guard", .guard), ("action", .action),
    ("true", .true), ("false", .false), ("struct", .struct), ("types", .types), ("type", .type),
    ("events", .events), ("functions", .functions), ("HISTORY", .history), ("SHELL", .shell),
    ("REGION", .region), ("FIN", .fin),
    (".", .dot), ("#", .hash), (":=", .assign), ("\x7b", .lbrace), ("\x7d", .rbrace),
    ("(", .lparen), (")", .rparen), (";", .semicolon), (",", .comma), (":", .colon), ("&", .and),
    ("!=", .ne), ("+", .add), ("-", .sub), ("*", .mul), ("/", .div), ("<|", .ltri), ("|>", .rtri),
    (">", .gt), (">=", .ge), ("<", .lt), ("<=", .le), ("=", .eq), ("&&", .and), ("||", .or)]

/-- The rules of the state `YYINITIAL`. -/
def initialRules : List (Regex Char × Action) :=
  literalRules.map (fun r => (text r.1, .symbol r.2)) ++
    [(identifier, .identifier), (intconst, .intconst), (whiteSpace, .ignore), (comment, .ignore),
      (text "\"", .beginString), (any, .illegalCharacter)]

/-- The rules of the state `STRLITERAL`. -/
def strliteralRules : List (Regex Char × Action) :=
  [(text "\"", .endString), (cls fun c => c != '\n', .appendString),
    (char '\n', .unterminatedString), (any, .illegalCharacter)]

/-- The first rule that matches. -/
def firstRule (rules : List (Regex Char × Action)) (yytext : List Char) : Option Action :=
  rules.findSome? fun r => if r.1.accepts yytext then some r.2 else none

/-! ### The scanner -/

/-- The lexical states; `strliteral` comes with the text of the literal so far. -/
inductive LexicalState where
  | yyinitial
  | strliteral (strliteral : String)
deriving DecidableEq, Repr

/-- What stops the scanner before the end of the text. -/
inductive LexError where
  | error (message : String)
  | numberFormatException
  | scanError
deriving DecidableEq, Repr

/-- The value of some digits with a sign, if it is an `int`. -/
def parseDigits (sign : Int) (digits : List Char) : Option Int32 :=
  let value := sign * (Nat.ofDigitChars 10 digits 0 : Int)
  if digits = [] ∨ !digits.all Char.isDigit ∨ value < -2 ^ 31 ∨ 2 ^ 31 ≤ value then
    none
  else
    some (Int32.ofInt value)

/-- `Integer.parseInt`; `none` is a `NumberFormatException`. -/
def parseInt : List Char → Option Int32
  | '-' :: digits => parseDigits (-1) digits
  | '+' :: digits => parseDigits 1 digits
  | digits => parseDigits 1 digits

/-- The code of the rules. -/
def act (state : LexicalState) (action : Action) (yytext : List Char) :
    Except LexError (Option Sym × LexicalState) :=
  match action with
  | .symbol s => .ok (some s, state)
  | .identifier => .ok (some (.identifier (String.ofList yytext)), state)
  | .intconst =>
    match parseInt yytext with
    | some n => .ok (some (.intconst n), state)
    | none => .error .numberFormatException
  | .ignore => .ok (none, state)
  | .beginString => .ok (none, .strliteral "")
  | .endString =>
    match state with
    | .strliteral s => .ok (some (.strliteral s), .yyinitial)
    | .yyinitial => .ok (none, .yyinitial)
  | .appendString =>
    match state with
    | .strliteral s => .ok (none, .strliteral (s ++ String.ofList yytext))
    | .yyinitial => .ok (none, .yyinitial)
  | .unterminatedString => .error (.error "Unterminated string literal")
  | .illegalCharacter => .error (.error ("Illegal character <" ++ String.ofList yytext ++ ">"))

/-- The scanner. -/
def scanner : Scanner Char Action LexicalState Sym LexError where
  rule
    | .yyinitial => firstRule initialRules
    | .strliteral _ => firstRule strliteralRules
  act := act
  noMatch := .scanError

/-- The symbols of a text, and what stops the scanner before the end of the text. -/
def lex (text : List Char) : List Sym × Option LexError := scanner.lex .yyinitial text

end Stabl.Lexer
