import Stabl.Lib.SmtScript
import Stabl.Proofs.SymbolicExecution.Symbols

/-!
# `Stabl.Proofs.SymbolicExecution.Scripts`: what the solver is asked

`conversion` writes a script, and a solver reads it. The tokens of the script are those of the
declarations of the symbolic variables in the map `symvarslist` and of one assertion
(`lexesAnywhere_conversion`). The script asks one query, if it is not refused
(`scriptQueries_conversion`).

`conversion_models` says what the query means. Values of the symbolic variables are a model of it
exactly when the expression is `true` for them, as long as no operator leaves the range of the
integers. So where the query has no model, no such input makes the expression true.

`call_accepted_iff` is about the calls of the solver in a run. It says which scripts are not
refused.
-/

set_option autoImplicit false

namespace Stabl

open SmtLib (SmtSort Term Value LexesAnywhere both)

/-! ### The text of a script -/

/-- The sort of the constants that `conversion` declares for a type. -/
def kindOfType (typeName : String) : Option SmtSort :=
  if typeName = "int" then some .int
  else if typeName = "string" then some .string
  else if typeName = "bool" then some .bool
  else none

theorem sortOfType_eq (typeName : String) :
    sortOfType typeName = (kindOfType typeName).map SmtSort.name := by
  unfold sortOfType kindOfType
  split_ifs <;> rfl

/-- The constants that a script declares. -/
def constants (entries : List (String × String)) : List (String × SmtSort) :=
  entries.filterMap fun v => (kindOfType v.2).map fun s => (v.1, s)

theorem declarations_eq_map (entries : List (String × String)) :
    declarations entries = (constants entries).map fun d => (d.1, d.2.name) := by
  unfold declarations constants
  rw [List.map_filterMap]
  congr 1
  funext v
  rw [sortOfType_eq, Option.map_map, Option.map_map]
  rfl

theorem mem_constants {entries : List (String × String)} {d : String × SmtSort} :
    d ∈ constants entries ↔ ∃ type, (d.1, type) ∈ entries ∧ kindOfType type = some d.2 := by
  simp only [constants, List.mem_filterMap, Option.map_eq_some_iff]
  constructor
  · rintro ⟨v, hv, s, hs, rfl⟩
    exact ⟨v.2, hv, hs⟩
  · rintro ⟨type, hv, hs⟩
    exact ⟨_, hv, d.2, hs, rfl⟩

/-- The commands of a script. -/
def scriptCommands (entries : List (String × String)) (t : Term) : List SmtLib.Command :=
  (constants entries).map (fun d => .declareFun d.1 d.2) ++ [.assert t, .checkSat, .exit]

/-- The name is that of a symbolic variable. -/
def IsSymVarsName (x : String) : Prop := ∃ vname, IsIdentifier vname ∧ x = vname ++ "_1"

theorem IsSymVarsName.isSymbol {x : String} (h : IsSymVarsName x) :
    SmtLib.IsSymbol x.toList := by
  obtain ⟨vname, hvname, rfl⟩ := h
  obtain ⟨c, cs, htext, hc, hcs⟩ := symVars_text hvname
  exact ⟨c, cs, htext, SmtLib.start_of_isAlpha hc, hcs⟩

/-- The text of a declaration, as that of a command. -/
theorem declarationText_eq (x : String) (s : SmtSort) : declarationText (x, s.name) =
    "(" ++ ("declare-fun " ++ x ++ "()" ++ s.name) ++ ")" ++ "\n" := by
  apply String.toList_inj.mp
  simp [declarationText, String.toList_append]

/-- Declarations add the tokens of their commands. -/
theorem lexesAnywhere_declarations : ∀ (ds : List (String × SmtSort)) {text : String}
    {ts : List SmtLib.Token}, (∀ d ∈ ds, IsSymVarsName d.1) → LexesAnywhere text (some ts) →
      LexesAnywhere
        ((ds.map fun d => (d.1, d.2.name)).foldl (fun s d => s ++ declarationText d) text)
        (some (ts ++ ds.flatMap fun d => (SmtLib.Command.declareFun d.1 d.2).tokens)) := by
  intro ds
  induction ds with
  | nil =>
      intro text ts _ htext
      rw [List.flatMap_nil, List.append_nil]
      exact htext
  | cons d ds ih =>
      intro text ts hnames htext
      have hname := (hnames d List.mem_cons_self).isSymbol
      have hd := (SmtLib.lexesAnywhere_declareFun hname d.2).newline
      rw [← declarationText_eq] at hd
      have hrest := ih (fun d' hd' => hnames d' (List.mem_cons_of_mem d hd')) (htext.append hd)
      rw [List.map_cons, List.foldl_cons, List.flatMap_cons, ← List.append_assoc]
      exact hrest

/-- The tokens of a script are those of its commands. -/
theorem lexesAnywhere_conversion {entries : List (String × String)}
    (hnames : ∀ v ∈ entries, IsSymVarsName v.1) {e : SymExpr} (he : e.Lexical) :
    LexesAnywhere (conversion entries e)
      (if e.Printable then some ((scriptCommands entries e.term).flatMap SmtLib.Command.tokens)
      else none) := by
  have hdeclared : ∀ d ∈ constants entries, IsSymVarsName d.1 := by
    intro d hd
    obtain ⟨type, hv, _⟩ := mem_constants.mp hd
    exact hnames _ hv
  have hdeclarations := lexesAnywhere_declarations _ hdeclared LexesAnywhere.empty
  have hassert := (SmtLib.lexesAnywhere_assert (lexes_formula he)).newline
  have hcheck : SmtLib.IsSymbol "check-sat".toList :=
    SmtLib.isSymbol_cons (by decide) (by decide)
  have hexit : SmtLib.IsSymbol "exit".toList := SmtLib.isSymbol_cons (by decide) (by decide)
  have hscript := ((hdeclarations.append hassert).append
    (SmtLib.lexesAnywhere_symbol hcheck).newline).append (SmtLib.lexesAnywhere_symbol hexit)
  have htext : conversion entries e =
      (declarations entries).foldl (fun s d => s ++ declarationText d) "" ++
        ("(" ++ ("assert " ++ formula e) ++ ")" ++ "\n") ++ ("(" ++ "check-sat" ++ ")" ++ "\n") ++
          ("(" ++ "exit" ++ ")") := by
    rw [conversion_eq]
    apply String.toList_inj.mp
    simp [String.toList_append]
  rw [← declarations_eq_map, ← htext, SmtLib.Lexes.applied_ite] at hscript
  split
  · rename_i hprintable
    rw [if_pos hprintable] at hscript
    simpa [scriptCommands, both, SmtLib.Command.tokens, List.flatMap_map] using hscript
  · rename_i hno
    rw [if_neg hno] at hscript
    exact hscript

/-! ### The query of a script -/

/-- A name of a symbolic variable has no fixed meaning. -/
theorem IsSymVarsName.not_isReserved {x : String} (h : IsSymVarsName x) :
    SmtLib.isReserved x = false := by
  obtain ⟨vname, _, rfl⟩ := h
  have hconstants := symVars_ne vname
  rw [not_or] at hconstants
  -- The name ends with a one, and no operator does.
  have hoperator : SmtLib.Operator.ofSymbol (vname ++ "_1") = none := by
    cases ho : SmtLib.Operator.ofSymbol (vname ++ "_1") with
    | none => rfl
    | some o =>
        rw [SmtLib.Operator.ofSymbol] at ho
        have hfound := List.find?_some ho
        have hsymbol : o.symbol = vname ++ "_1" := of_decide_eq_true hfound
        have hlast : (vname ++ "_1").toList.getLast? = some '1' := by
          rw [String.toList_append, List.getLast?_append]
          rfl
        rw [← hsymbol] at hlast
        cases o <;> cases hlast
  simp [SmtLib.isReserved, hconstants.1, hconstants.2, hoperator]

/-- The query of a script: its constants and its assertion. -/
def query (entries : List (String × String)) (e : SymExpr) : SmtLib.Context :=
  ⟨constants entries, [e.term]⟩

/-- The keys of the constants are keys of the entries, in their order. -/
theorem constants_sublist (entries : List (String × String)) :
    ((constants entries).map Prod.fst).Sublist (entries.map Prod.fst) := by
  induction entries with
  | nil => exact List.Sublist.slnil
  | cons v entries ih =>
      rw [constants, List.filterMap_cons]
      cases kindOfType v.2 with
      | none => exact ih.cons _
      | some s => exact ih.cons_cons _

/-- A script asks its query, or it is refused. -/
theorem scriptQueries_conversion {entries : List (String × String)}
    (hkeys : (entries.map Prod.fst).Nodup) (hnames : ∀ v ∈ entries, IsSymVarsName v.1)
    {e : SymExpr} (he : e.Lexical) : SmtLib.scriptQueries (conversion entries e) =
      if e.Printable ∧ (query entries e).IsFormula e.term then some [query entries e]
      else none := by
  rw [SmtLib.scriptQueries, SmtLib.readScript, (lexesAnywhere_conversion hnames he).tokens_eq]
  by_cases hprintable : e.Printable
  · have hfresh : (SmtLib.Context.empty.names ++ (constants entries).map Prod.fst).Nodup :=
      (constants_sublist entries).nodup hkeys
    have hreserved : ∀ d ∈ constants entries, SmtLib.isReserved d.1 = false := by
      intro d hd
      obtain ⟨type, hv, _⟩ := mem_constants.mp hd
      exact (hnames _ hv).not_isReserved
    rw [if_pos hprintable, Option.bind_some, SmtLib.readCommands_tokens, Option.bind_some,
      scriptCommands, SmtLib.Context.queries_declareFun _ _ hfresh hreserved]
    show (if (query entries e).IsFormula e.term then some [query entries e] else none) = _
    by_cases hformula : (query entries e).IsFormula e.term
    · rw [if_pos hformula, if_pos ⟨hprintable, hformula⟩]
    · rw [if_neg hformula, if_neg fun h => hformula h.2]
  · rw [if_neg hprintable, if_neg fun h => hprintable h.1]
    rfl

/-- The assertion is a formula over the constants exactly when it is a sound condition over
them. -/
theorem isFormula_term_iff {entries : List (String × String)}
    (hnames : ∀ v ∈ entries, IsSymVarsName v.1) {e : SymExpr} (he : e.Lexical) :
    (query entries e).IsFormula e.term ↔ e.Sound (query entries e).sort ∧
      e.kind (query entries e).sort = some .bool ∧
        ∀ x ∈ e.symVarsOf, x ∈ (query entries e).names := by
  constructor
  · rintro ⟨hsort, hfree⟩
    have hletter : ∀ x ∈ e.term.freeSymbols, BeginsWithLetter x := by
      intro x hx
      obtain ⟨d, hd, rfl⟩ := List.mem_map.mp (hfree x hx)
      obtain ⟨type, hv, _⟩ := mem_constants.mp hd
      obtain ⟨vname, hvname, hname⟩ := hnames _ hv
      obtain ⟨c, cs, htext, hc, _⟩ := symVars_text hvname
      exact ⟨c, cs, hname ▸ htext, hc⟩
    obtain ⟨hsound, hkind⟩ := SymExpr.sound_of_sorted he hsort hletter
    rw [SymExpr.freeSymbols_term he hkind hsound] at hfree
    exact ⟨hsound, hkind, hfree⟩
  · rintro ⟨hsound, hkind, hfree⟩
    refine ⟨SymExpr.sortOf_term he hkind hsound, ?_⟩
    rw [SymExpr.freeSymbols_term he hkind hsound]
    exact hfree

theorem scriptQueries_eq_iff {entries : List (String × String)}
    (hkeys : (entries.map Prod.fst).Nodup) (hnames : ∀ v ∈ entries, IsSymVarsName v.1)
    {e : SymExpr} (he : e.Lexical) :
    SmtLib.scriptQueries (conversion entries e) = some [query entries e] ↔
      e.Printable ∧ (query entries e).IsFormula e.term := by
  rw [scriptQueries_conversion hkeys hnames he, ite_eq_left_iff]
  simp

/-- Take a script that is not refused, and values of the symbolic variables that have the declared
sorts, for which no operator of the expression leaves the range of the integers. Where the
expression has a value, the values are a model of the query exactly when it is `true`. -/
theorem conversion_models {entries : List (String × String)}
    (hkeys : (entries.map Prod.fst).Nodup) (hnames : ∀ v ∈ entries, IsSymVarsName v.1)
    {e : SymExpr} (he : e.Lexical)
    (haccepted : SmtLib.scriptQueries (conversion entries e) = some [query entries e])
    {ρ : Valuation} (hρ : ρ.Respects (query entries e).sort) (hrange : e.InRange ρ) {v : Constant}
    (hv : e.value ρ = .ok (some v)) :
    (query entries e).Model (fun x => (ρ x).toSmt) ↔ v = .booleanConstant true := by
  have hformula := ((scriptQueries_eq_iff hkeys hnames he).mp haccepted).2
  obtain ⟨hsound, hkind, _⟩ := (isFormula_term_iff hnames he).mp hformula
  have heval : e.term.eval (fun x => (ρ x).toSmt) = some v.toSmt := by
    rw [SymExpr.eval_term ρ he hkind hsound]
    exact SymExpr.exact_of_inRange hρ hkind hsound hrange hv
  constructor
  · intro hmodel
    have htrue := hmodel.assertions _ (List.mem_singleton.mpr rfl)
    rw [heval, Option.some.injEq] at htrue
    cases v with
    | booleanConstant b =>
        cases b with
        | true => rfl
        | false => cases htrue
    | integerConstant n => cases htrue
    | stringLiteral s => cases htrue
  · rintro rfl
    refine ⟨?_, ?_⟩
    · intro d hd
      have hnodup : (query entries e).names.Nodup := (constants_sublist entries).nodup hkeys
      rw [Constant.sort_toSmt, hρ, SmtLib.Context.sort_eq hnodup hd]
    · intro t ht
      rw [List.mem_singleton.mp ht, heval]
      rfl

/-- `x_1 >= 1`. -/
def switched : SymExpr :=
  .operands (.expression (.symVars "x_1")) (.constant (.integerConstant 1)) .ge

theorem isSymVarsName_x : ∀ v ∈ [("x_1", "int")], IsSymVarsName v.1 := by
  intro v hv
  rw [List.mem_singleton.mp hv]
  exact ⟨"x", ⟨'x', [], rfl, by decide, List.forall_mem_nil _⟩, rfl⟩

theorem lexical_switched : switched.Lexical :=
  ⟨isSymVarsName_x _ (List.mem_singleton.mpr rfl), trivial⟩

theorem isFormula_switched : (query [("x_1", "int")] switched).IsFormula switched.term := by
  refine (isFormula_term_iff isSymVarsName_x lexical_switched).mpr ⟨?_, rfl, fun x hx => hx⟩
  have hone : (0 : Int) ≤ (1 : Int32).toInt := by decide
  exact ⟨fun s hs => (Option.some.inj hs).symm, trivial, hone⟩

/-- The value of `x_1` is 1. -/
def lit : Valuation := fun x => if x = "x_1" then .integerConstant 1 else .booleanConstant true

/-- The script for `x_1 >= 1` has 1 as a model. -/
theorem conversion_models_switched :
    (query [("x_1", "int")] switched).Model fun x => (lit x).toSmt := by
  have hkeys : ([("x_1", "int")].map Prod.fst).Nodup := List.nodup_singleton _
  have haccepted := (scriptQueries_eq_iff hkeys isSymVarsName_x lexical_switched).mpr
    ⟨⟨trivial, trivial⟩, isFormula_switched⟩
  have hlit : lit.Respects (query [("x_1", "int")] switched).sort := by
    intro x
    by_cases hx : x = "x_1"
    · subst hx
      rfl
    · have hother : ¬ "x_1" = x := fun h => hx h.symm
      simp [lit, hx, SmtLib.Context.sort, query, constants, kindOfType, hother, Constant.kind]
  have hrange : switched.InRange lit := by
    refine ⟨trivial, trivial, fun z hz => ?_⟩
    cases hz
  exact (conversion_models hkeys isSymVarsName_x lexical_switched haccepted hlit hrange rfl).mpr rfl

/-! ### The scripts of a run -/

/-- At a call of the solver in a process that runs one statechart, the map holds the variables
that were read. -/
theorem entries_of_call {c : CheckedStatechart} {before : List Effect}
    {entries : List (String × String)}
    (hentries : EntrySet (symvarslist c.typeNameOf (fun _ => none) before) entries)
    (hnames : ∀ var, Effect.symVars var ∈ before → IsIdentifier var.vname) :
    ∀ v ∈ entries, IsSymVarsName v.1 := by
  have hmade : ∀ v type, symvarslist c.typeNameOf (fun _ => none) before v = some type →
      ∃ var, Effect.symVars var ∈ before ∧ v = symVarsName var := by
    clear hentries hnames
    induction before using List.reverseRecOn with
    | nil =>
        intro v type hv
        cases hv
    | append_singleton before e ih =>
        intro v type hv
        rw [symvarslist, List.foldl_append] at hv
        have hold : symvarslist c.typeNameOf (fun _ => none) before v = some type →
            ∃ var, Effect.symVars var ∈ before ++ [e] ∧ v = symVarsName var := by
          intro h
          obtain ⟨var, hvar, hname⟩ := ih v type h
          exact ⟨var, List.mem_append_left _ hvar, hname⟩
        cases e with
        | call call => exact hold hv
        | symVars var =>
            by_cases hname : v = symVarsName var
            · exact ⟨var, List.mem_append_right _ (List.mem_singleton.mpr rfl), hname⟩
            · refine hold ?_
              rw [← hv]
              exact (Function.update_of_ne hname _ _).symm
  intro v hv
  obtain ⟨var, hvar, hname⟩ := hmade v.1 v.2 ((hentries.mem v.1 v.2).mp hv)
  exact ⟨var.vname, hnames var hvar, hname⟩

section
variable {c : CheckedStatechart} {maxDepth maxTreeDepth : Int} {solver : Solver}
  {effects before after : List Effect} {loop : LoopState} {leaf : SETNode} {q : Question}
  {entries : List (String × String)}

/-- The type name is one that `conversion` has a sort for. -/
def HasSort (typeName : String) : Prop := (kindOfType typeName).isSome = true

/-- At every call of the solver in a run of a new process whose variables are identifiers: the
script is not refused exactly when the question is a sound condition over the sorts that the
script declares, its string literals are printable, and the last variable of the simple name of
each variable in the question has a type with a sort. Then it asks one query. -/
theorem call_accepted_iff
    (hrun : RunEffects c.root maxDepth solver maxTreeDepth effects loop)
    (hcall : effects ++ roundEffects c.root maxDepth solver loop =
      before ++ .call (leaf, q) :: after)
    (hnames : ∀ var, Effect.symVars var ∈ before → IsIdentifier var.vname)
    (hentries : EntrySet (symvarslist c.typeNameOf (fun _ => none) before) entries)
    (he : (q.expression leaf).Lexical) :
    SmtLib.scriptQueries (conversion entries (q.expression leaf)) =
        some [query entries (q.expression leaf)] ↔
      (q.expression leaf).Printable ∧
        (q.expression leaf).Sound (query entries (q.expression leaf)).sort ∧
          (q.expression leaf).kind (query entries (q.expression leaf)).sort = some .bool ∧
            ∀ v ∈ q.occurrences leaf, ∀ var ∈ lastMade v.vname before,
              HasSort (c.typeNameOf var) := by
  have hsymvars := entries_of_call hentries hnames
  have hcalls := hrun.makes_round
  rw [hcall] at hcalls
  have hleaf : leaf.MadeIn before := hcalls.split
  -- A variable of the question was read, so its name has an entry, of the variable read last.
  have hdeclared : (∀ x ∈ (q.expression leaf).symVarsOf,
      x ∈ (query entries (q.expression leaf)).names) ↔
        ∀ v ∈ q.occurrences leaf, ∀ var ∈ lastMade v.vname before, HasSort (c.typeNameOf var) := by
    rw [symVarsOf_question (fun i hi => (hleaf i hi).1) q, List.forall_mem_map]
    refine forall₂_congr fun v hv => ?_
    obtain ⟨var, hvar, _⟩ := exists_lastMade (hleaf.occurrences q v hv)
    have hentry : symvarslist c.typeNameOf (fun _ => none) before (symVarsName v) =
        some (c.typeNameOf var) := by
      rw [symvarslist_eq, hvar]
    simp only [hvar, Option.mem_def, Option.some.injEq, forall_eq', SmtLib.Context.names, query,
      List.mem_map, HasSort, Option.isSome_iff_exists]
    constructor
    · rintro ⟨d, hd, hname⟩
      obtain ⟨type, hmem, hs⟩ := mem_constants.mp hd
      rw [hname, hentries.mem, hentry, Option.some.injEq] at hmem
      exact ⟨d.2, hmem ▸ hs⟩
    · rintro ⟨s, hs⟩
      exact ⟨(symVarsName v, s), mem_constants.mpr ⟨_, (hentries.mem _ _).mpr hentry, hs⟩, rfl⟩
  rw [scriptQueries_eq_iff hentries.keys hsymvars he, isFormula_term_iff hsymvars he, hdeclared]

end

/-! ### A beacon -/

/-- The state `Wait` reads `x` and asks whether it is at least 1. -/
def beacon : Statechart where
  root := { plainState "Beacon" with
    states := [{ plainState "Wait" with
      declarations := ⟨[⟨"x", .localScope, .mk "int" [], false⟩,
        ⟨"b", .localScope, .mk "boolean" [], false⟩], by decide⟩
      entry := .statementList [.assignmentStatement ["x"] (.functionCall ⟨"input", []⟩ []),
        .assignmentStatement ["b"] (.binaryExpression (.name ["x"])
          (.constant (.integerConstant 1)) .ge),
        .ifStatement (.name ["b"]) (.statementList []) (.statementList [])] }] }
  moreTypes := []
  events := []
  functionDeclarations := [⟨"input", [], .mk "int" [], .empty⟩]
  initialised := by decide

set_option maxRecDepth 4000 in
/-- The script of the beacon's first question is not refused. -/
theorem call_accepted_iff_beacon :
    SmtLib.scriptQueries (conversion [("x_1", "int")] switched) =
      some [query [("x_1", "int")] switched] := by
  let root := (accepted beacon).root
  let loop := getLoop (firstRound root 20 satisfied)
  have hrun : RunEffects root 20 satisfied 20 (firstEffects root 20 satisfied) loop :=
    .first (eq_some_getLoop (by decide))
  obtain ⟨leaf, q, after, hcall, hexpression, hoccurrences⟩ :
      ∃ (leaf : SETNode) (q : Question) (after : List Effect),
        firstEffects root 20 satisfied ++ roundEffects root 20 satisfied loop =
          [.symVars ⟨[0], "x"⟩] ++ .call (leaf, q) :: after ∧ q.expression leaf = switched ∧
            q.occurrences leaf = [⟨[0], "x"⟩] := ⟨_, _, _, rfl, rfl, rfl⟩
  have htype : (accepted beacon).typeNameOf ⟨[0], "x"⟩ = "int" := by decide
  have hmap : symvarslist (accepted beacon).typeNameOf (fun _ => none) [.symVars ⟨[0], "x"⟩] =
      Function.update (fun _ => none) "x_1" (some "int") := by
    show Function.update _ "x_1" _ = _
    rw [htype]
  have hentries := entrySet_singleton "x_1" "int"
  rw [← hmap] at hentries
  have hnames : ∀ var, Effect.symVars var ∈ [Effect.symVars ⟨[0], "x"⟩] →
      IsIdentifier var.vname := by
    intro var hvar
    obtain rfl : var = ⟨[0], "x"⟩ := by simpa using hvar
    exact ⟨'x', [], rfl, by decide, List.forall_mem_nil _⟩
  have hiff := call_accepted_iff hrun hcall hnames hentries (hexpression ▸ lexical_switched)
  rw [hexpression, hoccurrences] at hiff
  obtain ⟨hsound, hkind, _⟩ :=
    (isFormula_term_iff isSymVarsName_x lexical_switched).mp isFormula_switched
  refine hiff.mpr ⟨⟨trivial, trivial⟩, hsound, hkind, fun v hv var hvar => ?_⟩
  rw [List.mem_singleton.mp hv] at hvar
  have hlast : lastMade "x" [.symVars ⟨[0], "x"⟩] = some ⟨[0], "x"⟩ := rfl
  rw [Option.mem_def, hlast, Option.some.injEq] at hvar
  rw [← hvar, htype]
  rfl

end Stabl
