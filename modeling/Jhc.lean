import Jhc.Lib.Assign
import Jhc.Lib.Ensures
import Jhc.Lib.Lookup
import Jhc.Lib.Memory
import Jhc.Lib.PostOrder
import Jhc.Lib.Reach
import Jhc.Lib.SList
import Jhc.Lib.SortUnder
import Jhc.Rts.Block
import Jhc.Rts.Monolith
import Jhc.Rts.SlabBlock
import Jhc.Rts.Arena
import Jhc.Rts.Slab
import Jhc.Rts.SlabSweep
import Jhc.Rts.SlabAlloc
import Jhc.Rts.Objects
import Jhc.Rts.Gc
import Jhc.Rts.GcMark
import Jhc.Rts.GcRun
import Jhc.Rts.GcSafety
import Jhc.Cmm.Op
import Jhc.Cmm.OpEval
import Jhc.C.PrimOps
import Jhc.C.Rep
import Jhc.C.NodeLayout
import Jhc.C.LocalCall
import Jhc.E.PrimOpt
import Jhc.E.PrimOptFolds
import Jhc.E.PrimOptSound
import Jhc.Grin.Syntax
import Jhc.Grin.TyEnv
import Jhc.Grin.Calls
import Jhc.Grin.Devolve
import Jhc.Grin.DevolveExtra
import Jhc.Grin.DevolveProc
import Jhc.Grin.DevolveFits
import Jhc.Grin.DevolveStep
import Jhc.Grin.DevolveNames
import Jhc.Grin.DevolveScope
import Jhc.Grin.DevolveGrin
import Jhc.Grin.Twiddle
import Jhc.Grin.Rooted
import Jhc.Grin.TwiddleRooted
import Jhc.Grin.Run
import Jhc.Grin.RunFacts
import Jhc.StringTable.Table
import Jhc.StringTable.Cuckoo
import Jhc.StringTable.Lookup
import Jhc.Support.Cff
import Jhc.Support.CffRoundTrip
import Jhc.Fixer.Fixable
import Jhc.Fixer.Fixer
import Jhc.Fixer.Rules
import Jhc.Fixer.Session
import Jhc.UnionSolve.Fixable
import Jhc.UnionSolve.Solve
import Jhc.UnionSolve.Constraints
import Jhc.UnionSolve.Variables
import Jhc.UnionSolve.DoVar
import Jhc.UnionSolve.Plan
import Jhc.UnionSolve.Bounds
import Jhc.UnionSolve.Exact
import Jhc.FrontEnd.Fixity
import Jhc.Lib.OpResolve
import Jhc.FrontEnd.ShuntResolve
import Jhc.C.Dispatch
import Jhc.Grin.Partial
import Jhc.Grin.EvalInline
import Jhc.Grin.NodeTags
import Jhc.Grin.Applied
import Jhc.Grin.ApplyRuns
import Jhc.Grin.EvalApply
import Jhc.Lib.FirstOrder
import Jhc.Lib.Settles
import Jhc.FrontEnd.Tc.Monad
import Jhc.FrontEnd.Tc.Resolve
import Jhc.FrontEnd.Tc.Bind
import Jhc.FrontEnd.Tc.Copy
import Jhc.FrontEnd.Tc.Match
import Jhc.FrontEnd.Tc.Mgu
import Jhc.Lib.OpReject
import Jhc.FrontEnd.ShuntRejects
import Jhc.FrontEnd.Sections
import Jhc.Text.Read
import Jhc.Deriving.Text
import Jhc.Deriving.TextRoundTrip
import Jhc.Deriving.TextUnread
import Jhc.Util.FindFixpoint
import Jhc.FrontEnd.Exports
import Jhc.FrontEnd.ExportsReport
import Jhc.FrontEnd.ExportsScope
import Jhc.FrontEnd.ExportsRun
import Jhc.FrontEnd.ExportsResult
import Jhc.Lib.Information
import Jhc.E.Syntax
import Jhc.E.ScopeCheck
import Jhc.E.ScopeExact
import Jhc.E.Sites
import Jhc.C.Casts
import Jhc.E.PrimConv
import Jhc.E.Demand
import Jhc.E.DemandLub
import Jhc.E.DemandGlb
import Jhc.E.DemandLattice
import Jhc.Lib.Nameless
import Jhc.Lib.PartialList
import Jhc.E.Alpha
import Jhc.E.NameSupply
import Jhc.E.RenameE
import Jhc.E.RenameNames
import Jhc.E.RenameAlpha
import Jhc.E.RenameSound
import Jhc.E.Annotate
import Jhc.E.AnnotateNames
import Jhc.E.AnnotateScope
import Jhc.E.AnnotateSound
import Jhc.E.AnnotateNamed
import Jhc.E.Eta
import Jhc.E.Denotation
import Jhc.E.Compositional
import Jhc.E.WorkerWrapper
import Jhc.E.WorkWrapSplit
import Jhc.E.WorkWrapEval
import Jhc.E.WorkWrapSound
import Jhc.FrontEnd.Lex.Layout
import Jhc.FrontEnd.Lex.FixupLets
import Jhc.FrontEnd.Lex.LayoutNested
import Jhc.C.Mangle
import Jhc.C.LitCase
import Jhc.Lib.GroupUnder
import Jhc.Lib.Jumps
import Jhc.Lib.JumpSteps
import Jhc.C.Statements
import Jhc.C.StatementsKept
import Jhc.C.LetBody
import Jhc.FrontEnd.Rename.Records
import Jhc.FrontEnd.Rename.RecordsPlaced
import Jhc.FrontEnd.Representation
import Jhc.FrontEnd.ListComp
import Jhc.FrontEnd.ListCompMeaning
import Jhc.FrontEnd.ListCompSound
import Jhc.FrontEnd.ListCompExact
import Jhc.FrontEnd.Tc.ByInst
import Jhc.FrontEnd.Tc.Simplify
import Jhc.FrontEnd.Tc.InstStable
import Jhc.FrontEnd.Tc.SimplifySound
import Jhc.Grin.HashConst
import Jhc.E.Cpr
import Jhc.E.CprGroups
import Jhc.E.CprSound
import Jhc.E.CprCalls
import Jhc.E.TypeSubst
import Jhc.E.TypeSubstScope
import Jhc.E.TypeSubstSpec
import Jhc.E.TypeSubstSound
import Jhc.StringTable.Append
import Jhc.Rts.MarkBit
import Jhc.Rts.Arrays
import Jhc.Rts.GreyStack
import Jhc.Util.LoopBreakers
import Jhc.Fixer.Laws
import Jhc.Fixer.Stops
import Jhc.Grin.Whiz
import Jhc.Grin.Meaning
import Jhc.Grin.WhizFlat
import Jhc.Inst.Word
import Jhc.Lib.Progression
import Jhc.Inst.Enum
import Jhc.Inst.Num
import Jhc.Inst.PrimEnum
import Jhc.Util.FixpointSolves
import Jhc.Deriving.Clauses
import Jhc.Deriving.Ord
import Jhc.Deriving.OrdLaws
import Jhc.FrontEnd.HoistMoves
import Jhc.FrontEnd.HoistMeaning
import Jhc.Util.UnionFindST
import Jhc.Util.GroupOverlapping
import Jhc.Util.BindGroups
import Jhc.Name.Parts
import Jhc.Name.PartsRoundTrip
import Jhc.Deriving.Traverse
import Jhc.Deriving.TraverseMeaning
import Jhc.Deriving.TraverseClauses
import Jhc.Deriving.TraverseFolds
import Jhc.Deriving.TraverseEffects
import Jhc.Deriving.TraverseLawful
import Jhc.Support.Unparse
import Jhc.Rts.Geometry
import Jhc.Numeric.Decimal
import Jhc.Numeric.FloatToDigits
import Jhc.Name.Ids
import Jhc.E.Binary
import Jhc.Util.TransitiveClosure
import Jhc.Grin.ModifyTail
