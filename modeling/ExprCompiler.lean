import ExprCompiler.Datum.Declare
import ExprCompiler.Datum.Instr
import ExprCompiler.Event.Console
import ExprCompiler.Proofs.Code.Calls
import ExprCompiler.Proofs.Compile.Tables
import ExprCompiler.Proofs.Compile.Undeclared
import ExprCompiler.Proofs.Conversion.Replies
import ExprCompiler.Proofs.Isolation.Sameness
import ExprCompiler.Proofs.Native.Throws
import ExprCompiler.Proofs.Places.Address
import ExprCompiler.Proofs.Places.Reads
import ExprCompiler.Proofs.Simulation.Bindings
import ExprCompiler.Proofs.Tree.Flattening
import ExprCompiler.Proofs.Typing.Fields
import ExprCompiler.Proofs.Typing.Plans
import ExprCompiler.Settings.Load
