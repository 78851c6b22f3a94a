import Mathlib.Algebra.Ring.Nat
import Mathlib.Computability.Language
import Mathlib.Computability.StateTransition
import Mathlib.Data.Prod.TProd

/-!
# `Stabl.Lib.ShiftReduce`: parsers that are driven by a table

A generator of LR parsers turns a grammar into a table, and the parser is the same for all tables.
It keeps a stack of grammar symbols with their values and with states of the table. It shifts
a token, or it reduces by a production whose right-hand side is on the top of the stack. A state
can have a default reduction, and then the parser does not look at the input.

Nothing is assumed about where the table comes from, or how the generator resolved conflicts.

* `Grammar.Derives`: the sentences of a grammar, with the values that the actions build.
* `Table.Checked`: the items of the states bear out the reductions. This is a finite check, and a
  reduction then finds its right-hand side on every stack (`exists_reduceBy`). So the parser
  stops only where an entry is missing (`step_eq_none_iff`), and what it accepts is a sentence with
  its value (`derives_of_result`).
* `Table.Completion`: every symbol has sentences, and every stack can be completed. What the parser
  has read is then the beginning of a sentence (`exists_sentence`).
* `Table.Measure`: weights that each step lowers. The parser stops (`step_run_eq_none`).
-/

set_option autoImplicit false

namespace ShiftReduce

open StateTransition

/-! ### Grammars -/

/-- A grammar with terminals `T`, nonterminals `N` and productions `P`. Each symbol has its type of
values, and each production an action. -/
structure Grammar (T N P : Type) where
  Value : Symbol T N → Type
  lhs : P → N
  rhs : P → List (Symbol T N)
  action : (p : P) → (rhs p).TProd Value → Value (.nonterminal (lhs p))

/-- A token is a terminal with its value. -/
abbrev Grammar.Token {T N P : Type} (G : Grammar T N P) : Type := Σ t : T, G.Value (.terminal t)

variable {T N P σ : Type} {G : Grammar T N P}

/-- The tokens are a sentence of the symbols, and the actions build the values. -/
inductive Grammar.Derives (G : Grammar T N P) :
    (Xs : List (Symbol T N)) → List G.Token → Xs.TProd G.Value → Prop where
  | nil : Derives G [] [] ⟨⟩
  | token (t : G.Token) {Xs : List (Symbol T N)} {u : List G.Token} {vs : Xs.TProd G.Value}
    (h : Derives G Xs u vs) : Derives G (.terminal t.1 :: Xs) (t :: u) (t.2, vs)
  | node (p : P) {Xs : List (Symbol T N)} {u u' : List G.Token}
    {args : (G.rhs p).TProd G.Value} {vs : Xs.TProd G.Value}
    (hp : Derives G (G.rhs p) u args) (h : Derives G Xs u' vs) :
    Derives G (.nonterminal (G.lhs p) :: Xs) (u ++ u') (G.action p args, vs)

namespace Grammar.Derives

/-- A sentence of one symbol, and a sentence of the symbols after it. -/
theorem cons {X : Symbol T N} {Xs : List (Symbol T N)} {u u' : List G.Token} {v : G.Value X}
    {vs : Xs.TProd G.Value} (h : G.Derives [X] u (v, ⟨⟩)) (h' : G.Derives Xs u' vs) :
    G.Derives (X :: Xs) (u ++ u') (v, vs) := by
  cases h with
  | token t h =>
      cases h
      exact .token t h'
  | node p hp h =>
      cases h
      rw [List.append_nil]
      exact .node p hp h'

/-- Sentences of some symbols and of others, one after the other. -/
theorem append {Xs Ys : List (Symbol T N)} {u u' : List G.Token} {vs : Xs.TProd G.Value}
    {vs' : Ys.TProd G.Value} (h : G.Derives Xs u vs) (h' : G.Derives Ys u' vs') :
    ∃ args, G.Derives (Xs ++ Ys) (u ++ u') args := by
  induction h with
  | nil => exact ⟨vs', h'⟩
  | token t _ ih =>
      obtain ⟨args, hargs⟩ := ih
      exact ⟨_, .token t hargs⟩
  | node p hp _ _ ih =>
      obtain ⟨args, hargs⟩ := ih
      rw [List.append_assoc]
      exact ⟨_, .node p hp hargs⟩

/-- What holds of every token and is passed on by every production holds of the pieces of a
sentence. -/
theorem pieces {R : Symbol T N → List G.Token → Prop}
    (htoken : ∀ t : G.Token, R (.terminal t.1) [t])
    (hnode : ∀ p us, List.Forall₂ R (G.rhs p) us → R (.nonterminal (G.lhs p)) us.flatten)
    {Xs : List (Symbol T N)} {u : List G.Token} {vs : Xs.TProd G.Value} (h : G.Derives Xs u vs) :
    ∃ us, List.Forall₂ R Xs us ∧ us.flatten = u := by
  induction h with
  | nil => exact ⟨[], .nil, rfl⟩
  | token t _ ih =>
      obtain ⟨us, hus, hflatten⟩ := ih
      exact ⟨[t] :: us, .cons (htoken t) hus, by simp [hflatten]⟩
  | node p _ _ ihp ih =>
      obtain ⟨ws, hws, hflatten⟩ := ihp
      obtain ⟨us, hus, hflatten'⟩ := ih
      exact ⟨ws.flatten :: us, .cons (hnode p ws hws) hus, by simp [hflatten, hflatten']⟩

/-- The property holds of all values of a product. -/
def AllArgs (Q : (X : Symbol T N) → G.Value X → Prop) :
    (Xs : List (Symbol T N)) → Xs.TProd G.Value → Prop
  | [], _ => True
  | X :: Xs, vs => Q X vs.1 ∧ AllArgs Q Xs vs.2

/-- What holds of the values of all tokens and is kept by every action holds of what is built. -/
theorem allArgs {Q : (X : Symbol T N) → G.Value X → Prop}
    (hnode : ∀ p args, AllArgs Q (G.rhs p) args → Q (.nonterminal (G.lhs p)) (G.action p args))
    {Xs : List (Symbol T N)} {u : List G.Token} {vs : Xs.TProd G.Value} (h : G.Derives Xs u vs)
    (htoken : ∀ t ∈ u, Q (.terminal t.1) t.2) : AllArgs Q Xs vs := by
  induction h with
  | nil => exact trivial
  | token t _ ih =>
      rw [List.forall_mem_cons] at htoken
      exact ⟨htoken.1, ih htoken.2⟩
  | node p _ _ ihp ih =>
      rw [List.forall_mem_append] at htoken
      exact ⟨hnode p _ (ihp htoken.1), ih htoken.2⟩

end Grammar.Derives

/-! ### Tables and parsers -/

/-- What a table says about a state and the token ahead. -/
inductive Action (P σ : Type) where
  | shift (s : σ)
  | reduce (p : P)
deriving DecidableEq

/-- The table of a parser for the symbol `target`. A token ahead without an action is an error. -/
structure Table (G : Grammar T N P) (σ : Type) where
  start : σ
  target : N
  /-- The reduction of a state that does not look ahead. -/
  default : σ → Option P
  action : σ → T → Option (Action P σ)
  goto : σ → N → Option σ
  accepts : σ → Bool

/-- A symbol on the stack, with its value and the state that it led to. -/
structure Frame (G : Grammar T N P) (σ : Type) where
  state : σ
  symbol : Symbol T N
  value : G.Value symbol

/-- The stack, with its top first, and the rest of the input. -/
structure Parser (G : Grammar T N P) (σ : Type) where
  stack : List (Frame G σ)
  input : List G.Token

section
variable [DecidableEq T] [DecidableEq N]

/-- Takes symbols off the stack, with the last one on the top, and gives their values. -/
def pop : (Xs : List (Symbol T N)) → List (Frame G σ) →
    Option (Xs.TProd G.Value × List (Frame G σ))
  | [], stack => some (⟨⟩, stack)
  | X :: Xs, stack =>
    match pop Xs stack with
    | some (args, f :: stack) =>
      if h : f.symbol = X then some ((h ▸ f.value, args), stack) else none
    | _ => none

theorem pop_cons {X : Symbol T N} {Xs : List (Symbol T N)} {stack stack' : List (Frame G σ)}
    {args : (X :: Xs).TProd G.Value} : pop (X :: Xs) stack = some (args, stack') ↔
      ∃ s, pop Xs stack = some (args.2, ⟨s, X, args.1⟩ :: stack') := by
  rw [pop]
  constructor
  · intro h
    split at h
    · rename_i args' f stack₁ hpop
      obtain ⟨s, Y, v⟩ := f
      split at h
      · rename_i hY
        cases hY
        cases h
        exact ⟨s, hpop⟩
      · cases h
    · cases h
  · intro ⟨s, h⟩
    simp only [h, ↓reduceDIte]
    rfl

/-- A frame below the others is taken off last. -/
theorem pop_concat (f : Frame G σ) :
    ∀ {Xs : List (Symbol T N)} {stack stack' : List (Frame G σ)} {args : Xs.TProd G.Value},
      pop Xs stack = some (args, stack') →
        ∃ args', pop (Xs ++ [f.symbol]) (f :: stack) = some (args', stack') := by
  intro Xs
  induction Xs with
  | nil =>
      intro stack stack' args h
      obtain ⟨⟩ := args
      cases h
      exact ⟨(f.value, ⟨⟩), pop_cons.mpr ⟨f.state, rfl⟩⟩
  | cons X Xs ih =>
      intro stack stack' args h
      obtain ⟨s, h⟩ := pop_cons.mp h
      obtain ⟨args', h'⟩ := ih h
      exact ⟨(args.1, args'), pop_cons.mpr ⟨s, h'⟩⟩

theorem length_of_pop {Xs : List (Symbol T N)} {stack stack' : List (Frame G σ)}
    {args : Xs.TProd G.Value} (h : pop Xs stack = some (args, stack')) :
    stack.length = Xs.length + stack'.length := by
  induction Xs generalizing stack' with
  | nil =>
      obtain ⟨⟩ := args
      cases h
      simp
  | cons X Xs ih =>
      obtain ⟨s, h⟩ := pop_cons.mp h
      rw [ih h, List.length_cons, List.length_cons]
      omega

end

namespace Table

variable (A : Table G σ)

/-- The state on the top of the stack. -/
def top : List (Frame G σ) → σ
  | [] => A.start
  | f :: _ => f.state

@[simp] theorem top_nil : A.top [] = A.start := rfl

@[simp] theorem top_cons (f : Frame G σ) (stack : List (Frame G σ)) :
    A.top (f :: stack) = f.state := rfl

/-- The state that a symbol leads to. -/
def edge (s : σ) : Symbol T N → Option σ
  | .terminal t =>
    match A.action s t with
    | some (.shift s') => some s'
    | _ => none
  | .nonterminal n => A.goto s n

theorem edge_terminal {s s' : σ} {t : T} :
    A.edge s (.terminal t) = some s' ↔ A.action s t = some (.shift s') := by
  rw [edge]
  cases h : A.action s t with
  | none => simp
  | some a => cases a <;> simp

/-- The reduction for a token ahead. -/
def reduction (s : σ) (t : T) : Option P :=
  match A.action s t with
  | some (.reduce p) => some p
  | _ => none

theorem reduction_eq_some {s : σ} {t : T} {p : P} :
    A.reduction s t = some p ↔ A.action s t = some (.reduce p) := by
  rw [reduction]
  cases h : A.action s t with
  | none => simp
  | some a => cases a <;> simp

/-- The state has the reduction, for some token ahead or for all. -/
def Reduces (s : σ) (p : P) : Prop := p ∈ A.default s ∨ ∃ t, p ∈ A.reduction s t

variable [DecidableEq T] [DecidableEq N]

def reduceBy (p : P) (c : Parser G σ) : Option (Parser G σ) :=
  match pop (G.rhs p) c.stack with
  | some (args, stack) =>
    (A.goto (A.top stack) (G.lhs p)).map fun s =>
      ⟨⟨s, .nonterminal (G.lhs p), G.action p args⟩ :: stack, c.input⟩
  | none => none

/-- One step. `none` is the end: the input is accepted, or it is an error, or the parser needs
another token. -/
def step (c : Parser G σ) : Option (Parser G σ) :=
  if A.accepts (A.top c.stack) then none
  else
    match A.default (A.top c.stack) with
    | some p => A.reduceBy p c
    | none =>
      match c.input with
      | [] => none
      | t :: input =>
        match A.action (A.top c.stack) t.1 with
        | some (.shift s) => some ⟨⟨s, .terminal t.1, t.2⟩ :: c.stack, input⟩
        | some (.reduce p) => A.reduceBy p c
        | none => none

/-- Steps until the end, but no more than the number. -/
def run : ℕ → Parser G σ → Parser G σ
  | 0, c => c
  | n + 1, c =>
    match A.step c with
    | some c' => run n c'
    | none => c

/-- The value of what is accepted. -/
def result (c : Parser G σ) : Option (G.Value (.nonterminal A.target)) :=
  if A.accepts (A.top c.stack) then (pop [.nonterminal A.target] c.stack).map fun r => r.1.1
  else none

/-! ### What a step does -/

section
variable {A} {c c' : Parser G σ} {p : P}

theorem reduceBy_eq_some : A.reduceBy p c = some c' ↔ ∃ args stack s,
    pop (G.rhs p) c.stack = some (args, stack) ∧ A.goto (A.top stack) (G.lhs p) = some s ∧
      c' = ⟨⟨s, .nonterminal (G.lhs p), G.action p args⟩ :: stack, c.input⟩ := by
  rw [reduceBy]
  cases h : pop (G.rhs p) c.stack with
  | none => simp
  | some r =>
      obtain ⟨args, stack⟩ := r
      simp only [Option.map_eq_some_iff, Option.some.injEq, Prod.mk.injEq]
      constructor
      · intro ⟨s, hs, hc⟩
        exact ⟨args, stack, s, ⟨rfl, rfl⟩, hs, hc.symm⟩
      · intro ⟨args', stack', s, ⟨hargs, hstack⟩, hs, hc⟩
        subst hargs hstack
        exact ⟨s, hs, hc.symm⟩

/-- A step shifts a token, or it replaces a right-hand side. -/
theorem step_cases (h : A.step c = some c') :
    (∃ t input s, c.input = t :: input ∧ A.action (A.top c.stack) t.1 = some (.shift s) ∧
      c' = ⟨⟨s, .terminal t.1, t.2⟩ :: c.stack, input⟩) ∨
    ∃ p, A.Reduces (A.top c.stack) p ∧ A.reduceBy p c = some c' := by
  rw [step] at h
  split at h
  · cases h
  · split at h
    · rename_i p hdefault
      exact Or.inr ⟨p, Or.inl hdefault, h⟩
    · split at h
      · cases h
      · rename_i t input hinput
        split at h
        · rename_i s hshift
          exact Or.inl ⟨t, input, s, hinput, hshift, (Option.some.inj h).symm⟩
        · rename_i p hreduce
          exact Or.inr ⟨p, Or.inr ⟨t.1, (A.reduction_eq_some).mpr hreduce⟩, h⟩
        · cases h

theorem step_shift {stack : List (Frame G σ)} {t : T} {s : σ}
    (haccepts : A.accepts (A.top stack) = false) (hdefault : A.default (A.top stack) = none)
    (h : A.action (A.top stack) t = some (.shift s)) (v : G.Value (.terminal t))
    (rest : List G.Token) :
    A.step ⟨stack, ⟨t, v⟩ :: rest⟩ = some ⟨⟨s, .terminal t, v⟩ :: stack, rest⟩ := by
  simp [step, haccepts, hdefault, h]

theorem step_default (haccepts : A.accepts (A.top c.stack) = false)
    (h : A.default (A.top c.stack) = some p) : A.step c = A.reduceBy p c := by
  simp [step, haccepts, h]

theorem step_ahead {stack : List (Frame G σ)} {t : G.Token} {rest : List G.Token}
    (haccepts : A.accepts (A.top stack) = false) (hdefault : A.default (A.top stack) = none)
    (h : A.action (A.top stack) t.1 = some (.reduce p)) :
    A.step ⟨stack, t :: rest⟩ = A.reduceBy p ⟨stack, t :: rest⟩ := by
  simp [step, haccepts, hdefault, h]

/-- A step looks at no more than the next token. It takes it, or it leaves it. -/
theorem step_cons {stack : List (Frame G σ)} {t : G.Token} {input : List G.Token}
    (h : A.step ⟨stack, t :: input⟩ = some c') :
    (c'.input = input ∧ ∀ rest, A.step ⟨stack, t :: rest⟩ = some ⟨c'.stack, rest⟩) ∨
      (c'.input = t :: input ∧ ∀ rest, A.step ⟨stack, t :: rest⟩ = some ⟨c'.stack, t :: rest⟩) := by
  have hreduce : ∀ p, A.reduceBy p ⟨stack, t :: input⟩ = some c' → c'.input = t :: input ∧
      ∀ rest, A.reduceBy p ⟨stack, t :: rest⟩ = some ⟨c'.stack, t :: rest⟩ := by
    intro p hp
    obtain ⟨args, stack', s, hpop, hgoto, rfl⟩ := reduceBy_eq_some.mp hp
    exact ⟨rfl, fun rest => reduceBy_eq_some.mpr ⟨args, stack', s, hpop, hgoto, rfl⟩⟩
  simp only [step] at h ⊢
  split at h
  · cases h
  · rename_i haccepts
    simp only [if_neg haccepts]
    cases hdefault : A.default (A.top stack) with
    | some p =>
        rw [hdefault] at h
        exact Or.inr (hreduce p h)
    | none =>
        rw [hdefault] at h
        cases haction : A.action (A.top stack) t.1 with
        | none =>
            rw [haction] at h
            cases h
        | some a =>
            rw [haction] at h
            cases a with
            | shift s =>
                cases h
                exact Or.inl ⟨rfl, fun _ => rfl⟩
            | reduce p => exact Or.inr (hreduce p h)

/-- On its way to a token the parser does not see what is behind it. -/
theorem reaches_ahead {stack stack' : List (Frame G σ)} {input rest : List G.Token} {t : G.Token}
    (h : Reaches A.step ⟨stack, input⟩ ⟨stack', t :: rest⟩) :
    ∃ u, input = u ++ t :: rest ∧
      ∀ rest', Reaches A.step ⟨stack, u ++ t :: rest'⟩ ⟨stack', t :: rest'⟩ := by
  generalize hc : (⟨stack, input⟩ : Parser G σ) = c at h
  induction h using Relation.ReflTransGen.head_induction_on generalizing stack input with
  | refl =>
      cases hc
      exact ⟨[], rfl, fun _ => .refl⟩
  | @head _ c₁ hstep _ ih =>
      subst hc
      obtain ⟨u, hinput, hreaches⟩ := ih rfl
      cases input with
      | nil =>
          rcases step_cases hstep with ⟨_, _, _, hnil, _⟩ | ⟨p, _, hreduce⟩
          · cases hnil
          · obtain ⟨_, _, _, _, _, rfl⟩ := reduceBy_eq_some.mp hreduce
            simp at hinput
      | cons t' input =>
          rcases step_cons hstep with ⟨htake, hrest⟩ | ⟨hleave, hrest⟩
          · refine ⟨t' :: u, ?_, fun rest' => .head (hrest _) (hreaches rest')⟩
            rw [List.cons_append, ← hinput, htake]
          · refine ⟨u, hleave.symm.trans hinput, fun rest' => ?_⟩
            cases u with
            | nil =>
                cases hleave.symm.trans hinput
                exact .head (hrest rest') (hreaches rest')
            | cons a u =>
                cases hleave.symm.trans hinput
                exact .head (hrest _) (hreaches rest')

end

/-! ### Soundness -/

/-- The tokens are a sentence of the symbols on the stack. -/
inductive Spells : List (Frame G σ) → List G.Token → Prop where
  | nil : Spells [] []
  | cons (f : Frame G σ) {stack : List (Frame G σ)} {u u' : List G.Token}
    (h : Spells stack u) (hf : G.Derives [f.symbol] u' (f.value, ⟨⟩)) :
    Spells (f :: stack) (u ++ u')

theorem Spells.pop {Xs : List (Symbol T N)} {stack stack' : List (Frame G σ)}
    {args : Xs.TProd G.Value} {u : List G.Token} (h : Spells stack u)
    (hpop : pop Xs stack = some (args, stack')) :
    ∃ u₁ u₂, u = u₁ ++ u₂ ∧ Spells stack' u₁ ∧ G.Derives Xs u₂ args := by
  induction Xs generalizing stack' with
  | nil =>
      obtain ⟨⟩ := args
      cases hpop
      exact ⟨u, [], (List.append_nil u).symm, h, .nil⟩
  | cons X Xs ih =>
      obtain ⟨s, hpop⟩ := pop_cons.mp hpop
      obtain ⟨u₁, u₂, rfl, hstack, hargs⟩ := ih hpop
      cases hstack with
      | cons f hstack hf =>
          exact ⟨_, _, List.append_assoc .., hstack, hf.cons hargs⟩

section
variable {A}

/-- What was read is spelled by the stack. -/
theorem spells_of_step {c c' : Parser G σ} {u : List G.Token} (h : Spells c.stack u)
    (hstep : A.step c = some c') :
    ∃ u', Spells c'.stack (u ++ u') ∧ c.input = u' ++ c'.input := by
  rcases step_cases hstep with ⟨t, input, s, hinput, _, rfl⟩ | ⟨p, _, hreduce⟩
  · exact ⟨[t], h.cons _ (.token t .nil), hinput⟩
  · obtain ⟨args, stack, s, hpop, _, rfl⟩ := reduceBy_eq_some.mp hreduce
    obtain ⟨u₁, u₂, rfl, hstack, hargs⟩ := h.pop hpop
    have hnode := hstack.cons ⟨s, .nonterminal (G.lhs p), G.action p args⟩ (.node p hargs .nil)
    exact ⟨[], by simpa using hnode, rfl⟩

theorem spells_of_reaches {c c' : Parser G σ} {u : List G.Token} (h : Spells c.stack u)
    (hreaches : Reaches A.step c c') :
    ∃ u', Spells c'.stack (u ++ u') ∧ c.input = u' ++ c'.input := by
  induction hreaches with
  | refl => exact ⟨[], by simpa using h, rfl⟩
  | tail _ hstep ih =>
      obtain ⟨u₁, hspells, hinput⟩ := ih
      obtain ⟨u₂, hspells', hinput'⟩ := spells_of_step hspells hstep
      exact ⟨u₁ ++ u₂, by simpa using hspells', by simp [hinput, hinput']⟩

end

/-! ### Tables that are borne out by their items -/

/-- The production can begin in the state, or it is an item of the state with a place `k` in it. -/
def HasItem (kernel : σ → List (P × ℕ)) (s : σ) (p : P) (k : ℕ) : Prop :=
  if k = 0 then (A.goto s (G.lhs p)).isSome = true else (p, k) ∈ kernel s

instance [DecidableEq P] (kernel : σ → List (P × ℕ)) (s : σ) (p : P) (k : ℕ) :
    Decidable (A.HasItem kernel s p k) :=
  inferInstanceAs (Decidable (ite _ _ _))

/-- The items of a state come from those of the states before it, and a state reduces only by an
item that is complete. Nothing leads to the start, and the accepting states come right after it. -/
structure Checked (kernel : σ → List (P × ℕ)) : Prop where
  items : ∀ s X, ∀ s' ∈ A.edge s X, ∀ i ∈ kernel s', i.2 ≠ 0 ∧ (G.rhs i.1)[i.2 - 1]? = some X ∧
    A.HasItem kernel s i.1 (i.2 - 1)
  reduces : ∀ s p, A.Reduces s p → A.HasItem kernel s p (G.rhs p).length
  start_kernel : kernel A.start = []
  start_edge : ∀ s X, ∀ s' ∈ A.edge s X, s' ≠ A.start
  accepts_start : A.accepts A.start = false
  accepts_edge : ∀ s X, ∀ s' ∈ A.edge s X, A.accepts s' = true →
    s = A.start ∧ X = .nonterminal A.target

/-- The states of the stack follow the table. -/
inductive Path : List (Frame G σ) → Prop where
  | nil : Path []
  | cons (f : Frame G σ) {stack : List (Frame G σ)} (h : Path stack)
    (hedge : A.edge (A.top stack) f.symbol = some f.state) : Path (f :: stack)

section
variable {A} {c c' : Parser G σ} {kernel : σ → List (P × ℕ)}

/-- What is taken off the stack leaves a stack of the same kind. -/
theorem Path.pop {Xs : List (Symbol T N)} {stack stack' : List (Frame G σ)}
    {args : Xs.TProd G.Value} (h : A.Path stack) (hpop : pop Xs stack = some (args, stack')) :
    A.Path stack' := by
  induction Xs generalizing stack' with
  | nil =>
      obtain ⟨⟩ := args
      cases hpop
      exact h
  | cons X Xs ih =>
      obtain ⟨s, hpop⟩ := pop_cons.mp hpop
      cases ih hpop with
      | cons f h _ => exact h

theorem path_of_step (h : A.Path c.stack) (hstep : A.step c = some c') : A.Path c'.stack := by
  rcases step_cases hstep with ⟨t, input, s, _, hshift, rfl⟩ | ⟨p, _, hreduce⟩
  · exact .cons _ h ((A.edge_terminal).mpr hshift)
  · obtain ⟨args, stack, s, hpop, hgoto, rfl⟩ := reduceBy_eq_some.mp hreduce
    exact .cons _ (h.pop hpop) hgoto

theorem path_of_reaches (h : A.Path c.stack) (hreaches : Reaches A.step c c') :
    A.Path c'.stack := by
  induction hreaches with
  | refl => exact h
  | tail _ hstep ih => exact path_of_step ih hstep

namespace Checked

variable (hA : A.Checked kernel)
include hA

/-- The symbols before the place of an item are on the top of the stack, and the production can
begin below them. -/
theorem exists_pop {p : P} (k : ℕ) :
    ∀ {stack : List (Frame G σ)}, A.Path stack → A.HasItem kernel (A.top stack) p k →
      ∃ args stack', pop ((G.rhs p).take k) stack = some (args, stack') ∧
        (A.goto (A.top stack') (G.lhs p)).isSome = true := by
  induction k with
  | zero => exact fun {stack} _ h => ⟨⟨⟩, stack, rfl, h⟩
  | succ k ih =>
      intro stack hpath h
      rw [HasItem, if_neg (Nat.succ_ne_zero k)] at h
      cases hpath with
      | nil =>
          rw [top_nil, hA.start_kernel] at h
          cases h
      | @cons f stack hpath hedge =>
          obtain ⟨_, hrhs, hitem⟩ := hA.items _ _ _ hedge _ h
          obtain ⟨args, stack', hpop, hgoto⟩ := ih hpath hitem
          obtain ⟨args', hpop'⟩ := pop_concat f hpop
          -- The symbol of the frame is the one before the place.
          have htake : (G.rhs p).take (k + 1) = (G.rhs p).take k ++ [f.symbol] := by
            rw [List.take_add_one]
            simp only [Nat.add_sub_cancel] at hrhs
            rw [hrhs]
            rfl
          rw [htake]
          exact ⟨args', stack', hpop', hgoto⟩

/-- A reduction finds its right-hand side on the stack. -/
theorem exists_reduceBy {p : P} (hpath : A.Path c.stack) (h : A.Reduces (A.top c.stack) p) :
    ∃ c', A.reduceBy p c = some c' := by
  have hpop := hA.exists_pop _ hpath (hA.reduces _ p h)
  rw [List.take_length] at hpop
  obtain ⟨args, stack, hpop, hgoto⟩ := hpop
  obtain ⟨s, hs⟩ := Option.isSome_iff_exists.mp hgoto
  exact ⟨_, reduceBy_eq_some.mpr ⟨args, stack, s, hpop, hs, rfl⟩⟩

/-- The parser stops where it accepts, where it needs another token, and where the token ahead has
no entry. -/
theorem step_eq_none_iff (hpath : A.Path c.stack) : A.step c = none ↔
    A.accepts (A.top c.stack) = true ∨ A.default (A.top c.stack) = none ∧
      ∀ t ∈ c.input.head?, A.action (A.top c.stack) t.1 = none := by
  have hreduce : ∀ p, A.Reduces (A.top c.stack) p → A.reduceBy p c ≠ none := by
    intro p hp hnone
    obtain ⟨c', hc'⟩ := hA.exists_reduceBy hpath hp
    cases hnone.symm.trans hc'
  rw [step]
  split
  · rename_i haccepts
    exact iff_of_true rfl (Or.inl haccepts)
  · rename_i haccepts
    split
    · rename_i p hdefault
      refine iff_of_false (hreduce p (Or.inl hdefault)) ?_
      simp [haccepts, hdefault]
    · rename_i hdefault
      split
      · rename_i hinput
        simp [hdefault, hinput]
      · rename_i t input hinput
        split
        · rename_i s hshift
          simp [haccepts, hinput, hshift]
        · rename_i p hp
          refine iff_of_false (hreduce p (Or.inr ⟨t.1, (A.reduction_eq_some).mpr hp⟩)) ?_
          simp [haccepts, hinput, hp]
        · rename_i hnone
          simp [hdefault, hinput, hnone]

omit [DecidableEq T] [DecidableEq N] in
/-- Where the parser accepts, the symbol that it is for is alone on the stack. -/
theorem stack_of_accepts (hpath : A.Path c.stack) (h : A.accepts (A.top c.stack) = true) :
    ∃ s v, A.accepts s = true ∧ c.stack = [⟨s, .nonterminal A.target, v⟩] := by
  generalize c.stack = stack at hpath h
  cases hpath with
  | nil =>
      rw [top_nil, hA.accepts_start] at h
      cases h
  | cons f hbelow hedge =>
      obtain ⟨s, X, v⟩ := f
      obtain ⟨hstart, rfl⟩ := hA.accepts_edge _ _ _ hedge h
      -- Only the empty stack has the start on its top.
      cases hbelow with
      | nil => exact ⟨s, v, h, rfl⟩
      | cons f' _ hedge' => exact absurd hstart (hA.start_edge _ _ _ hedge')

theorem result_eq_some_iff (hpath : A.Path c.stack)
    {v : G.Value (.nonterminal A.target)} : A.result c = some v ↔
      ∃ s, A.accepts s = true ∧ c.stack = [⟨s, .nonterminal A.target, v⟩] := by
  rw [result]
  constructor
  · intro h
    split at h
    · rename_i haccepts
      obtain ⟨s, w, hs, hstack⟩ := hA.stack_of_accepts hpath haccepts
      obtain rfl : w = v := by simpa [hstack, pop] using h
      exact ⟨s, hs, hstack⟩
    · cases h
  · intro ⟨s, haccepts, hstack⟩
    rw [hstack, top_cons, if_pos haccepts]
    simp [pop]

/-- What the parser accepts is a sentence, and its value is built from it. -/
theorem derives_of_result {input : List G.Token} {v : G.Value (.nonterminal A.target)}
    (hreaches : Reaches A.step ⟨[], input⟩ c) (h : A.result c = some v) :
    ∃ u, input = u ++ c.input ∧ G.Derives [.nonterminal A.target] u (v, ⟨⟩) := by
  obtain ⟨s, _, hstack⟩ := (hA.result_eq_some_iff (path_of_reaches .nil hreaches)).mp h
  obtain ⟨u, hspells, hinput⟩ := spells_of_reaches .nil hreaches
  rw [hstack, List.nil_append] at hspells
  cases hspells with
  | cons f hbelow hf =>
      cases hbelow
      exact ⟨_, hinput, hf⟩

end Checked

end

/-! ### Stacks that can be completed -/

/-- An item for each state by which it can be completed, and sentences for all symbols. Where only
one symbol is before the place of the item, the state after the completion has a lower rank. -/
structure Completion (kernel : σ → List (P × ℕ)) where
  item : σ → P × ℕ
  rank : σ → ℕ
  bound : ℕ
  rank_lt : ∀ s, rank s < bound
  mem_kernel : ∀ s, s ≠ A.start → A.accepts s = false → item s ∈ kernel s
  lower : ∀ s, (item s).2 = 1 → ∀ q, ∀ s' ∈ A.goto q (G.lhs (item s).1), rank s' < rank s
  sentence : ∀ Xs : List (Symbol T N), ∃ u vs, G.Derives Xs u vs

section
variable {A} {kernel : σ → List (P × ℕ)} (hA : A.Checked kernel) (C : A.Completion kernel)
include hA C

/-- Whatever the stack spells, a sentence begins with it. -/
theorem exists_sentence {stack : List (Frame G σ)} {u : List G.Token} (hpath : A.Path stack)
    (h : Spells stack u) : ∃ w v, G.Derives [.nonterminal A.target] (u ++ w) (v, ⟨⟩) := by
  -- A completion takes frames off the stack, or it takes one off and lowers the rank.
  induction hn : stack.length * C.bound + C.rank (A.top stack) using Nat.strong_induction_on
    generalizing stack u with
  | h n ih =>
      by_cases haccepts : A.accepts (A.top stack) = true
      · obtain ⟨s, v, _, rfl⟩ := hA.stack_of_accepts (c := ⟨stack, []⟩) hpath haccepts
        cases h with
        | cons f hbelow hf =>
            cases hbelow
            exact ⟨[], v, by simpa using hf⟩
      · cases hpath with
        | nil =>
            cases h
            obtain ⟨w, ⟨v, ⟨⟩⟩, hw⟩ := C.sentence [.nonterminal A.target]
            exact ⟨w, v, hw⟩
        | @cons f stack hpath hedge =>
            have hstart := hA.start_edge _ _ _ hedge
            have hmem := C.mem_kernel f.state hstart (by simpa using haccepts)
            obtain ⟨hpos, hrhs, _⟩ := hA.items _ _ _ hedge _ hmem
            have hitem : A.HasItem kernel f.state (C.item f.state).1 (C.item f.state).2 := by
              rw [HasItem, if_neg hpos]
              exact hmem
            obtain ⟨args, stack', hpop, hgoto⟩ :=
              hA.exists_pop _ (Path.cons f hpath hedge) hitem
            obtain ⟨s', hs'⟩ := Option.isSome_iff_exists.mp hgoto
            obtain ⟨u₁, u₂, rfl, hstack', hargs⟩ := h.pop hpop
            obtain ⟨w, vs, hw⟩ := C.sentence ((G.rhs (C.item f.state).1).drop (C.item f.state).2)
            have hwhole := hargs.append hw
            rw [List.take_append_drop] at hwhole
            obtain ⟨args', hargs'⟩ := hwhole
            have hspells := hstack'.cons ⟨s', .nonterminal _, G.action _ args'⟩
              (.node (C.item f.state).1 hargs' .nil)
            have hpath' : A.Path (⟨s', .nonterminal _, G.action _ args'⟩ :: stack') :=
              .cons _ ((Path.cons f hpath hedge).pop hpop) hs'
            have hlength := length_of_pop hpop
            have hplace := (List.getElem?_eq_some_iff.mp hrhs).1
            rw [List.length_take, Nat.min_eq_left (by omega), List.length_cons] at hlength
            have hlt : (stack'.length + 1) * C.bound + C.rank s' < n := by
              subst hn
              have hrank := C.rank_lt s'
              rw [List.length_cons, hlength, top_cons]
              by_cases hone : (C.item f.state).2 = 1
              · have hlower := C.lower f.state hone _ s' hs'
                rw [hone, Nat.add_comm 1]
                omega
              · have hmul : (stack'.length + 2) * C.bound ≤
                    ((C.item f.state).2 + stack'.length) * C.bound :=
                  Nat.mul_le_mul_right _ (by omega)
                rw [Nat.add_mul] at hmul ⊢
                omega
            obtain ⟨w', v, hw'⟩ := ih _ hlt hpath' hspells (by simp)
            refine ⟨w ++ w', v, ?_⟩
            simpa using hw'

end

/-! ### The end of a run -/

/-- Weights of the symbols, of the states on the top and of the tokens ahead, which every step
lowers. -/
structure Measure where
  weight : Symbol T N → ℕ
  bonus : σ → ℕ
  ahead : ℕ
  shift : ∀ s t s', A.action s t = some (.shift s') → weight (.terminal t) + bonus s' < ahead
  reduce : ∀ s p, A.Reduces s p → ∀ q, ∀ s' ∈ A.goto q (G.lhs p),
    weight (.nonterminal (G.lhs p)) + bonus s' < ((G.rhs p).map weight).sum + bonus s

section
variable {A} {c c' : Parser G σ} (M : A.Measure)

namespace Measure

def stackWeight (stack : List (Frame G σ)) : ℕ := (stack.map fun f => M.weight f.symbol).sum

def total (c : Parser G σ) : ℕ :=
  M.ahead * c.input.length + M.stackWeight c.stack + M.bonus (A.top c.stack)

omit [DecidableEq T] [DecidableEq N] in
theorem stackWeight_cons (f : Frame G σ) (stack : List (Frame G σ)) :
    M.stackWeight (f :: stack) = M.weight f.symbol + M.stackWeight stack := by
  simp [stackWeight]

theorem stackWeight_pop {Xs : List (Symbol T N)} {stack stack' : List (Frame G σ)}
    {args : Xs.TProd G.Value} (h : pop Xs stack = some (args, stack')) :
    M.stackWeight stack = (Xs.map M.weight).sum + M.stackWeight stack' := by
  induction Xs generalizing stack' with
  | nil =>
      obtain ⟨⟩ := args
      cases h
      simp
  | cons X Xs ih =>
      obtain ⟨s, h⟩ := pop_cons.mp h
      have hrest := ih h
      simp only [stackWeight_cons] at hrest
      rw [List.map_cons, List.sum_cons]
      omega

theorem total_lt (h : A.step c = some c') : M.total c' < M.total c := by
  rcases step_cases h with ⟨t, input, s, hinput, hshift, rfl⟩ | ⟨p, hp, hreduce⟩
  · have hlt := M.shift _ _ _ hshift
    simp only [total, stackWeight_cons, top_cons, hinput, List.length_cons, Nat.mul_add]
    omega
  · obtain ⟨args, stack, s, hpop, hgoto, rfl⟩ := reduceBy_eq_some.mp hreduce
    have hlt := M.reduce _ p hp _ _ hgoto
    have hweight := M.stackWeight_pop hpop
    simp only [total, stackWeight_cons, top_cons]
    omega

end Measure

theorem reaches_run (n : ℕ) (c : Parser G σ) : Reaches A.step c (A.run n c) := by
  induction n generalizing c with
  | zero => exact .refl
  | succ n ih =>
      rw [run]
      split
      · rename_i c' h
        exact .head h (ih c')
      · exact .refl

/-- The parser stops after as many steps as the measure says. -/
theorem step_run_eq_none {n : ℕ} (h : M.total c ≤ n) : A.step (A.run n c) = none := by
  induction n generalizing c with
  | zero =>
      cases hstep : A.step c with
      | none => exact hstep
      | some c' =>
          have hlt := M.total_lt hstep
          omega
  | succ n ih =>
      cases hstep : A.step c with
      | none => simp [run, hstep]
      | some c' =>
          have hlt := M.total_lt hstep
          simpa [run, hstep] using ih (by omega : M.total c' ≤ n)

/-- Where the parser stops, the run has stopped. -/
theorem run_eq_of_reaches {n : ℕ} (h : M.total c ≤ n) (hreaches : Reaches A.step c c')
    (hend : A.step c' = none) : A.run n c = c' :=
  Part.mem_unique (mem_eval.mpr ⟨reaches_run n c, step_run_eq_none M h⟩)
    (mem_eval.mpr ⟨hreaches, hend⟩)

end

end Table

end ShiftReduce
