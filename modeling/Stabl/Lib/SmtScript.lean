import Mathlib.Data.List.Nodup
import Stabl.Lib.SmtLib

/-!
# `Stabl.Lib.SmtScript`: reading and running SMT-LIB scripts

The commands of SMT-LIB 2 that ask one question about constants: `declare-fun` without
parameters, `assert`, `check-sat` and `exit`. A text is read as a list of commands
(`readScript`), and the tokens of commands are read back as the commands
(`readCommands_tokens`).

A script that is run keeps the declared constants and the assertions in a `Context`. It is
refused where a symbol is declared twice or has a fixed meaning, and where an assertion is not
a term of sort `Bool` over what is declared. Every `check-sat` is a query about the context that
it is reached with, and a query has the models of its assertions as its answer.
-/

set_option autoImplicit false

namespace SmtLib

/-! ### Commands -/

def SmtSort.name : SmtSort → String
  | .bool => "Bool"
  | .int => "Int"
  | .string => "String"

def SmtSort.ofName (name : String) : Option SmtSort :=
  [bool, int, string].find? fun s => decide (s.name = name)

@[simp] theorem SmtSort.ofName_name (s : SmtSort) : ofName s.name = some s := by
  cases s <;> decide

inductive Command where
  | declareFun (x : String) (s : SmtSort)
  | assert (t : Term)
  | checkSat
  | exit

def Command.tokens : Command → List Token
  | .declareFun x s =>
    [.leftParen, .symbol "declare-fun", .symbol x, .leftParen, .rightParen, .symbol s.name,
      .rightParen]
  | .assert t => .leftParen :: .symbol "assert" :: (t.tokens ++ [.rightParen])
  | .checkSat => [.leftParen, .symbol "check-sat", .rightParen]
  | .exit => [.leftParen, .symbol "exit", .rightParen]

/-- What has been read of a script: the commands so far, and where in the next one the reader is.
In the mode `closing` only the last parenthesis is missing. -/
inductive ScriptReading where
  | between (cs : List Command)
  | opened (cs : List Command)
  | name (cs : List Command)
  | parameters (cs : List Command) (x : String)
  | noParameters (cs : List Command) (x : String)
  | sort (cs : List Command) (x : String)
  | assertion (cs : List Command) (r : Reading)
  | closing (cs : List Command)

namespace ScriptReading

/-- The name of a command has been read. -/
def begin (cs : List Command) (command : String) : Option ScriptReading :=
  if command = "declare-fun" then some (.name cs)
  else if command = "assert" then some (.assertion cs (.term []))
  else if command = "check-sat" then some (.closing (cs ++ [.checkSat]))
  else if command = "exit" then some (.closing (cs ++ [.exit]))
  else none

def step : ScriptReading → Token → Option ScriptReading
  | .between cs, .leftParen => some (.opened cs)
  | .opened cs, .symbol command => begin cs command
  | .name cs, .symbol x => some (.parameters cs x)
  | .parameters cs x, .leftParen => some (.noParameters cs x)
  | .noParameters cs x, .rightParen => some (.sort cs x)
  | .sort cs x, .symbol s =>
    (SmtSort.ofName s).map fun s => .closing (cs ++ [.declareFun x s])
  | .assertion cs (.complete t), .rightParen => some (.between (cs ++ [.assert t]))
  | .assertion cs r, token => (r.step token).map (.assertion cs)
  | .closing cs, .rightParen => some (.between cs)
  | _, _ => none

end ScriptReading

/-- The tokens are those of a list of commands. -/
def readCommands (ts : List Token) : Option (List Command) :=
  match ts.foldlM ScriptReading.step (.between []) with
  | some (.between cs) => some cs
  | _ => none

/-- The text is a script. -/
def readScript (text : String) : Option (List Command) := (tokens text).bind readCommands

/-! ### Reading back -/

namespace ScriptReading

/-- While a term is read, the reader of the script goes with the reader of the term. -/
theorem step_assertion (cs : List Command) {r r' : Reading} {token : Token}
    (h : r.step token = some r') : step (.assertion cs r) token = some (.assertion cs r') := by
  cases r with
  | complete t => cases h
  | term stack | opened stack =>
      rw [step, h, Option.map_some]
      -- The term is not complete.
      intro t _ hcomplete
      cases hcomplete

theorem foldlM_assertion (cs : List Command) : ∀ (ts : List Token) {r r' : Reading},
    ts.foldlM Reading.step r = some r' →
      ts.foldlM step (.assertion cs r) = some (.assertion cs r') := by
  intro ts
  induction ts with
  | nil =>
      intro r r' h
      obtain rfl := Option.some.inj h
      rfl
  | cons token ts ih =>
      intro r r' h
      rw [List.foldlM_cons] at h ⊢
      obtain ⟨r₁, hstep, hrest⟩ := Option.bind_eq_some_iff.mp h
      rw [step_assertion cs hstep]
      exact ih hrest

/-- The tokens of a command add the command. -/
theorem foldlM_tokens (cs : List Command) (c : Command) :
    c.tokens.foldlM step (.between cs) = some (.between (cs ++ [c])) := by
  cases c with
  | declareFun x s =>
      show (step (.sort cs x) (.symbol s.name)).bind _ = _
      rw [step, SmtSort.ofName_name]
      rfl
  | assert t =>
      have hterm := foldlM_assertion cs t.tokens (Reading.foldlM_tokens t [])
      show (t.tokens ++ [Token.rightParen]).foldlM step (.assertion cs (.term [])) = _
      rw [List.foldlM_append, hterm]
      rfl
  | checkSat | exit => rfl

theorem foldlM_flatMap : ∀ (cs' cs : List Command),
    (cs'.flatMap Command.tokens).foldlM step (.between cs) = some (.between (cs ++ cs')) := by
  intro cs'
  induction cs' with
  | nil =>
      intro cs
      rw [List.append_nil]
      rfl
  | cons c cs' ih =>
      intro cs
      rw [List.flatMap_cons, List.foldlM_append, foldlM_tokens]
      show (cs'.flatMap Command.tokens).foldlM step (.between (cs ++ [c])) = _
      rw [ih, List.append_assoc, List.singleton_append]

end ScriptReading

/-- The tokens of commands are read back as the commands. -/
theorem readCommands_tokens (cs : List Command) :
    readCommands (cs.flatMap Command.tokens) = some cs := by
  rw [readCommands, ScriptReading.foldlM_flatMap]
  rfl

/-! ### Texts of commands -/

/-- The tokens of the text are those of `r`, whatever comes after it. -/
def LexesAnywhere (text : String) (r : Option (List Token)) : Prop :=
  ∀ rest, tokensFrom .between (text.toList ++ rest) = both r (tokensFrom .between rest)

namespace LexesAnywhere

variable {text text' : String} {r r' : Option (List Token)}

theorem tokens_eq (h : LexesAnywhere text r) : tokens text = r := by
  have hrest := h []
  rw [List.append_nil] at hrest
  rw [tokens, hrest, tokensFrom, finish]
  cases r with
  | none => rfl
  | some ts => exact congrArg some (List.append_nil ts)

theorem empty : LexesAnywhere "" (some []) := by
  intro rest
  rw [both_some]
  exact (congrFun Option.map_id _).symm

theorem append (h : LexesAnywhere text r) (h' : LexesAnywhere text' r') :
    LexesAnywhere (text ++ text') (both r r') := by
  intro rest
  rw [String.toList_append, List.append_assoc, h, h', both_assoc]

/-- A new line is white space. -/
theorem newline (h : LexesAnywhere text r) : LexesAnywhere (text ++ "\n") r := by
  intro rest
  have hstart : start '\n' = some ([], .between) := by decide
  rw [String.toList_append, List.append_assoc, h]
  show both r (tokensFrom .between ('\n' :: rest)) = _
  rw [tokensFrom_start hstart]
  exact congrArg (both r) (congrFun Option.map_id _)

/-- Parentheses delimit a text. -/
theorem paren (h : Lexes text.toList r) :
    LexesAnywhere ("(" ++ text ++ ")")
      (both (some [.leftParen]) (both r (some [.rightParen]))) := by
  intro rest
  have htext : ("(" ++ text ++ ")").toList ++ rest = '(' :: (text.toList ++ ')' :: rest) := by
    simp [String.toList_append]
  rw [htext, tokensFrom_leftParen, h _ (delimited_rightParen _), tokensFrom_rightParen, both_assoc,
    both_assoc, both_some, both_some]
  rfl

end LexesAnywhere

/-- Two texts, where the second one begins with a parenthesis. -/
theorem Lexes.append_leftParen {cs ds : List Char} {r r' : Option (List Token)} (h : Lexes cs r)
    (h' : Lexes ('(' :: ds) r') : Lexes (cs ++ '(' :: ds) (both r r') := by
  intro rest hrest
  have hdelimited : Delimited ('(' :: (ds ++ rest)) := by
    intro c hc
    cases hc
    exact Or.inr (Or.inl rfl)
  rw [List.append_assoc, List.cons_append, h _ hdelimited, ← List.cons_append, h' rest hrest,
    both_assoc]

theorem isSymbol_name (s : SmtSort) : IsSymbol s.name.toList := by
  cases s with
  | bool | int | string => exact isSymbol_cons (by decide) (by decide)

/-- The text of a declaration. -/
theorem lexesAnywhere_declareFun {x : String} (hx : IsSymbol x.toList) (s : SmtSort) :
    LexesAnywhere ("(" ++ ("declare-fun " ++ x ++ "()" ++ s.name) ++ ")")
      (some (Command.declareFun x s).tokens) := by
  have hsort : Lexes ('(' :: ')' :: s.name.toList)
      (some [.leftParen, .rightParen, .symbol s.name]) := by
    intro rest hrest
    rw [List.cons_append, List.cons_append, tokensFrom_leftParen, tokensFrom_rightParen,
      lexes_symbol (isSymbol_name s) rest hrest, both_some, both_some, Option.map_map,
      Option.map_map]
    rfl
  have hcommand : IsSymbol "declare-fun".toList := isSymbol_cons (by decide) (by decide)
  have hbody := (lexes_symbol hcommand).append_space ((lexes_symbol hx).append_leftParen hsort)
  have htext : ("declare-fun " ++ x ++ "()" ++ s.name).toList =
      "declare-fun".toList ++ ' ' :: (x.toList ++ '(' :: ')' :: s.name.toList) := by
    simp [String.toList_append]
  rw [← htext] at hbody
  exact LexesAnywhere.paren hbody

/-- The text of an assertion. -/
theorem lexesAnywhere_assert {text : String} {r : Option (List Token)} (h : Lexes text.toList r) :
    LexesAnywhere ("(" ++ ("assert " ++ text) ++ ")") (Lexes.applied "assert" r) := by
  have hcommand : IsSymbol "assert".toList := isSymbol_cons (by decide) (by decide)
  have htext : ("assert " ++ text).toList = "assert".toList ++ ' ' :: text.toList := by
    simp [String.toList_append]
  refine LexesAnywhere.paren ?_
  rw [htext]
  exact (lexes_symbol hcommand).append_space h

/-- The text of a command without arguments. -/
theorem lexesAnywhere_symbol {name : String} (hname : IsSymbol name.toList) :
    LexesAnywhere ("(" ++ name ++ ")") (some [.leftParen, .symbol name, .rightParen]) :=
  LexesAnywhere.paren (lexes_symbol hname)

/-! ### Running a script -/

/-- The symbols `true` and `false` and those of the operators have a fixed meaning. -/
def isReserved (x : String) : Bool :=
  decide (x = "true") || decide (x = "false") || (Operator.ofSymbol x).isSome

/-- What a script has said: the constants with their sorts, and the assertions. -/
structure Context where
  declared : List (String × SmtSort)
  assertions : List Term

namespace Context

def empty : Context := ⟨[], []⟩

def names (Γ : Context) : List String := Γ.declared.map Prod.fst

/-- The sort of a declared constant. -/
def sort (Γ : Context) (x : String) : SmtSort :=
  ((Γ.declared.find? fun d => d.1 = x).map Prod.snd).getD .bool

theorem sort_eq {Γ : Context} (hnames : Γ.names.Nodup) {d : String × SmtSort}
    (hd : d ∈ Γ.declared) : Γ.sort d.1 = d.2 := by
  obtain ⟨d', hd'⟩ : ∃ d', Γ.declared.find? (fun d' => d'.1 = d.1) = some d' :=
    Option.isSome_iff_exists.mp (List.find?_isSome.mpr ⟨d, hd, decide_eq_true rfl⟩)
  have hfound := List.find?_some hd'
  have hname : d'.1 = d.1 := of_decide_eq_true hfound
  have hsame : d' = d := List.inj_on_of_nodup_map hnames (List.mem_of_find?_eq_some hd') hd hname
  rw [sort, hd', hsame]
  rfl

/-- The term is a formula over what is declared. -/
def IsFormula (Γ : Context) (t : Term) : Prop :=
  t.sortOf Γ.sort = some .bool ∧ ∀ x ∈ t.freeSymbols, x ∈ Γ.names

instance decidableIsFormula (Γ : Context) (t : Term) : Decidable (Γ.IsFormula t) :=
  inferInstanceAs (Decidable (_ ∧ _))

/-- The values have the declared sorts, and the assertions are true. -/
structure Model (Γ : Context) (ρ : String → Value) : Prop where
  sorts : ∀ d ∈ Γ.declared, (ρ d.1).sort = d.2
  assertions : ∀ t ∈ Γ.assertions, t.eval ρ = some (.bool true)

def Satisfiable (Γ : Context) : Prop := ∃ ρ, Γ.Model ρ

/-- The contexts of the queries, from a context on. A command may be refused. -/
def queries : Context → List Command → Option (List Context)
  | _, [] => some []
  | Γ, .declareFun x s :: cs =>
    if isReserved x = true ∨ x ∈ Γ.names then none
    else queries { Γ with declared := Γ.declared ++ [(x, s)] } cs
  | Γ, .assert t :: cs =>
    if Γ.IsFormula t then queries { Γ with assertions := Γ.assertions ++ [t] } cs else none
  | Γ, .checkSat :: cs => (queries Γ cs).map (Γ :: ·)
  | _, .exit :: _ => some []

/-- Declarations of new names are taken up in their order. -/
theorem queries_declareFun : ∀ (ds : List (String × SmtSort)) {Γ : Context} (cs : List Command),
    (Γ.names ++ ds.map Prod.fst).Nodup → (∀ d ∈ ds, isReserved d.1 = false) →
      queries Γ (ds.map (fun d => Command.declareFun d.1 d.2) ++ cs) =
        queries { Γ with declared := Γ.declared ++ ds } cs := by
  intro ds
  induction ds with
  | nil =>
      intro Γ cs _ _
      rw [List.append_nil]
      rfl
  | cons d ds ih =>
      intro Γ cs hnodup hreserved
      have hfresh : d.1 ∉ Γ.names := by
        intro hmem
        exact (List.nodup_append.mp hnodup).2.2 d.1 hmem d.1 List.mem_cons_self rfl
      have hd := hreserved d List.mem_cons_self
      rw [List.map_cons, List.cons_append, queries, if_neg (by simp [hd, hfresh]), ih]
      · rw [List.append_assoc, List.singleton_append]
      · simpa [names] using hnodup
      · exact fun d' hd' => hreserved d' (List.mem_cons_of_mem d hd')

end Context

/-- The queries of a script. -/
def scriptQueries (text : String) : Option (List Context) :=
  (readScript text).bind Context.empty.queries

end SmtLib
