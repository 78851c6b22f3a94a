import Stabl.Proofs.Ast.Environments
import Stabl.Proofs.Frontend.FullNames
import Stabl.Proofs.Frontend.LexicalScope
import Stabl.Proofs.Frontend.ForwardReferences
import Stabl.Proofs.Frontend.Concurrency
import Stabl.Proofs.Frontend.Precedence
import Stabl.Proofs.Frontend.FieldPaths
import Stabl.Proofs.Frontend.FunctionCalls
import Stabl.Proofs.Frontend.Blanks
import Stabl.Proofs.Frontend.Comments
import Stabl.Proofs.Simulator.Evaluation
import Stabl.Proofs.Simulator.FieldStore
import Stabl.Proofs.Simulator.BigStep
import Stabl.Proofs.Simulator.DataFlow
import Stabl.Proofs.Simulator.Configuration
import Stabl.Proofs.Simulator.Phases
import Stabl.Proofs.Simulator.History
import Stabl.Proofs.Simulator.Order
import Stabl.Proofs.Simulator.Selection
import Stabl.Proofs.Simulator.NullEvent
import Stabl.Proofs.Simulator.SymbolicEngine
import Stabl.Proofs.Metric.Scopes
import Stabl.Proofs.StablCfg.Representation
import Stabl.Proofs.SimSee.Paths
import Stabl.Proofs.SymbolicExecution.Records
import Stabl.Proofs.SymbolicExecution.Encoding
import Stabl.Proofs.SimSee.Soundness
import Stabl.Proofs.SimSee.Declarations
import Stabl.Proofs.SimSee.SymbolicNames
import Stabl.Proofs.SimSee.Equations
import Stabl.Proofs.SimSee.PrintedValues
import Stabl.Proofs.SymbolicExecution.Resolution
import Stabl.Proofs.SymbolicExecution.Names
import Stabl.Proofs.SymbolicExecution.Termination
import Stabl.Proofs.SymbolicExecution.FrontierRun
import Stabl.Proofs.SymbolicExecution.Independence
import Stabl.Proofs.Ast.FirstLast
import Stabl.Proofs.Simulator.Hoare
import Stabl.Proofs.Simulator.TypedRuns
import Stabl.Proofs.Simulator.Encapsulation
import Stabl.Proofs.Simulator.EventQueue
import Stabl.Proofs.Simulator.Refinement
import Stabl.Proofs.SymbolicExecution.Coverage
import Stabl.Proofs.SymbolicExecution.Scripts
import Stabl.Proofs.Simulator.Progress
import Stabl.Proofs.SimSee.ProgramTexts
