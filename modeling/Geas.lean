import Geas.Lib.Word
import Geas.Lib.Reader
import Geas.Lib.Transition
import Geas.Abi.Value
import Geas.Wire.Encode
import Geas.Wire.Decode
import Geas.Wire.RoundTrip
import Geas.Runtime.Descriptor
import Geas.Runtime.Policy
import Geas.Runtime.Instance
import Geas.Runtime.Lifecycle
import Geas.Runtime.Transactions
import Geas.Lib.Formula
import Geas.Compiler.Requirements
import Geas.Compiler.Emit
import Geas.Compiler.PolicyCorrect
import Geas.Compiler.DefaultPolicy
import Geas.Runtime.Steady
import Geas.Compiler.Regress
import Geas.Lib.Logged
import Geas.Runtime.Vows
import Geas.Runtime.Partial
import Geas.Runtime.Park
import Geas.Runtime.Resume
import Geas.Runtime.ParkRoundTrip
import Geas.Lib.SortedTable
import Geas.Runtime.Registry
import Geas.Runtime.Episodes
import Geas.Runtime.Writes
import Geas.Runtime.Refs
import Geas.Runtime.Futures
import Geas.Runtime.Pool
import Geas.Runtime.Sync
import Geas.Lib.Kleene
import Geas.Store.Query
import Geas.Store.Predicates
import Geas.Store.Values
import Geas.Store.Cells
import Geas.Store.UIntOrder
import Geas.Store.Rows
import Geas.Store.Builders
import Geas.Store.Budgets
import Geas.Store.Reconcile
import Geas.Runtime.ParkKeys
import Geas.Runtime.Copies
import Geas.Lib.OrderedMap
import Geas.Runtime.Maps
import Geas.Runtime.PartialViews
import Geas.Runtime.Sign
import Geas.Interop.Sessions
import Geas.Interop.Endings
import Geas.Compiler.Loader
import Geas.Compiler.Imports
import Geas.Compiler.Program
import Geas.Lib.Delimited
import Geas.Compiler.Types
import Geas.Compiler.Shape
import Geas.Compiler.Names
import Geas.Compiler.Match
import Geas.Compiler.Syntax
import Geas.Compiler.Loops
import Geas.Lib.Descent
import Geas.Compiler.Parser
import Geas.Compiler.Grammar
import Geas.Compiler.ParseDepth
import Geas.Compiler.ParseFile
import Geas.Lib.Loop
import Geas.Compiler.Bytes
import Geas.Compiler.Escape
import Geas.Compiler.Lex
import Geas.Compiler.Boundaries
import Geas.Compiler.Spelling
import Geas.Lib.Interner
import Geas.Compiler.Bodies
import Geas.Compiler.Literals
import Geas.Std.Arith
import Geas.Std.Math
import Geas.Std.Collections
import Geas.Compiler.Utf8
import Geas.Compiler.TyCompat
import Geas.Compiler.TyArena
import Geas.Lib.Writes
import Geas.Runtime.Printf
import Geas.Runtime.Render
import Geas.Compiler.Partition
import Geas.Compiler.Printer
import Geas.Compiler.Reparse
import Geas.Compiler.RoundTrip
import Geas.Compiler.ReadBack
import Geas.Compiler.ReadReqs
import Geas.Compiler.Growth
import Geas.Compiler.BareRecords
import Geas.Compiler.Room
import Geas.Compiler.PrintFile
import Geas.Compiler.ReadDecls
import Geas.Compiler.ReadFile
import Geas.Lib.FirstWins
import Geas.Compiler.Resolve
import Geas.Compiler.Declared
import Geas.Compiler.Scopes
import Geas.Compiler.WellScoped
import Geas.Compiler.LexGrammar
import Geas.Compiler.SourceText
