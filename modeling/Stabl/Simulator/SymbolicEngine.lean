import Mathlib.Logic.Function.Basic
import Stabl.Ast.Hierarchy

/-!
# `Stabl.Simulator.SymbolicEngine`: the symbols of the input variables

The constructor of `SymbolicEngine` gives a `Symbol` to input variables: to those of the
statechart, and then to those of its states, with a tag that is counted on from call to call of
`populate`. The map is a partial function, keyed by the declaration object. A tag counts
declaration objects, so it is a natural number.
-/

set_option autoImplicit false

namespace Stabl

variable {ν : Type}

/-- `Symbol`. -/
structure Symbol where
  declaration : DeclarationRef
  tag : Nat
deriving DecidableEq, Repr

/-- `SymbolicEngine.symbolMap`. -/
abbrev SymbolMap := DeclarationRef → Option Symbol

namespace SymbolicEngine

/-- `symbolMap.put(d, new Symbol(d, i))` and `i ++`. -/
def putSymbol (acc : SymbolMap × Nat) (d : DeclarationRef) : SymbolMap × Nat :=
  (Function.update acc.1 d (some ⟨d, acc.2⟩), acc.2 + 1)

/-- `SymbolicEngine.populate`, for the state `s` at the position `p`. -/
def populate (p : StateRef) (s : State ν) (acc : SymbolMap × Nat) : SymbolMap × Nat :=
  s.declarations.toList.foldl
    (fun acc d => if d.input then putSymbol acc ⟨p, d.vname⟩ else acc) acc

/-- The constructor: the statechart first, and then the loop over `st.states`. -/
def symbolMap (st : State ν) : SymbolMap :=
  (st.states.zipIdx.foldl (fun acc (s, i) => populate [i] s acc)
    (populate [] st (fun _ => none, 0))).1

end SymbolicEngine

end Stabl
