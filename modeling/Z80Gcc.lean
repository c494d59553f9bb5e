import Z80Gcc.Lib.Asm
import Z80Gcc.Lib.Halves
import Z80Gcc.Lib.Adder
import Z80Gcc.Lib.Rotate
import Z80Gcc.Spec.Machine
import Z80Gcc.Spec.Instr
import Z80Gcc.Sanity.Machine
import Z80Gcc.Spec.CompareBranch
import Z80Gcc.Proofs.CompareBranch
import Z80Gcc.Proofs.LongBranch
import Z80Gcc.Spec.Frame
import Z80Gcc.Proofs.Frame
import Z80Gcc.Proofs.FrameOffset
import Z80Gcc.Spec.SplitMove
import Z80Gcc.Proofs.SplitMove
import Z80Gcc.Spec.Shift
import Z80Gcc.Spec.DoubleInt
import Z80Gcc.Proofs.Shift
import Z80Gcc.Proofs.ShiftFold
import Z80Gcc.Lib.LongDivision
import Z80Gcc.Proofs.DoubleDiv
import Z80Gcc.Lib.InvariantDiv
import Z80Gcc.Spec.Divmod
import Z80Gcc.Proofs.ChooseMultiplier
import Z80Gcc.Lib.PowerOfTwo
import Z80Gcc.Proofs.DivSigned
import Z80Gcc.Proofs.Divmod
import Z80Gcc.Proofs.DebugInfo
import Z80Gcc.Lib.WrapInt
import Z80Gcc.Proofs.CaseTree
import Z80Gcc.Proofs.CaseLists
import Z80Gcc.Proofs.CaseNodes
import Z80Gcc.Proofs.Switch
import Z80Gcc.Lib.LinkedList
import Z80Gcc.Spec.Bitmap
import Z80Gcc.Proofs.BitmapHeap
import Z80Gcc.Proofs.Bitmap
import Z80Gcc.Proofs.BitmapOperation
import Z80Gcc.Proofs.BitmapRuns
import Z80Gcc.Lib.BitMemory
import Z80Gcc.Spec.BitField
import Z80Gcc.Proofs.BitExtract
import Z80Gcc.Proofs.BitStore
import Z80Gcc.Proofs.BitField
import Z80Gcc.Lib.Placement
import Z80Gcc.Spec.Initializer
import Z80Gcc.Spec.InitializerImage
import Z80Gcc.Proofs.InitializerOutput
import Z80Gcc.Proofs.Initializer
import Z80Gcc.Lib.Forest
import Z80Gcc.Proofs.ProfileGraph
import Z80Gcc.Proofs.SpanningTree
import Z80Gcc.Proofs.TreeFill
import Z80Gcc.Proofs.ProfileSolver
import Z80Gcc.Proofs.Profile
import Z80Gcc.Spec.PendingInit
import Z80Gcc.Proofs.PendingInsert
import Z80Gcc.Proofs.PendingOutput
import Z80Gcc.Proofs.PendingPlacement
import Z80Gcc.Proofs.PendingRounds
import Z80Gcc.Proofs.DesignatedInit
import Z80Gcc.Lib.ObjectAddress
import Z80Gcc.Spec.MemrefConflict
import Z80Gcc.Proofs.MemrefEqual
import Z80Gcc.Proofs.MemrefConflict
import Z80Gcc.Proofs.LongArith
import Z80Gcc.Proofs.Extend
import Z80Gcc.Proofs.Logic
import Z80Gcc.Proofs.ConstShift
import Z80Gcc.Spec.Rotates
import Z80Gcc.Proofs.Rotates
import Z80Gcc.Spec.LegitimateAddress
import Z80Gcc.Proofs.LegitimateAddress
import Z80Gcc.Spec.DivRound
import Z80Gcc.Proofs.QuotientDigits
import Z80Gcc.Proofs.ShortDivide
import Z80Gcc.Proofs.DoubleArith
import Z80Gcc.Proofs.RoundedQuotient
import Z80Gcc.Proofs.DivRound
import Z80Gcc.Proofs.RegEffects
import Z80Gcc.Proofs.DoubleOverflow
import Z80Gcc.Proofs.ConstDivide
import Z80Gcc.Proofs.DoubleRotate
import Z80Gcc.Lib.IntRange
import Z80Gcc.Spec.RangeTest
import Z80Gcc.Proofs.RangeTest
import Z80Gcc.Proofs.MultiplierBit
import Z80Gcc.Lib.InverseMod
import Z80Gcc.Proofs.ExactDivide
import Z80Gcc.Lib.AvlLinks
import Z80Gcc.Spec.CaseStmt
import Z80Gcc.Proofs.CaseStmt
import Z80Gcc.Proofs.CaseLinks
import Z80Gcc.Spec.SynthMult
import Z80Gcc.Proofs.SynthMult
import Z80Gcc.Proofs.MultLimits
import Z80Gcc.Lib.Leb128
import Z80Gcc.Proofs.Leb128
import Z80Gcc.Lib.CallFrame
import Z80Gcc.Spec.CallFrame
import Z80Gcc.Proofs.CallFrame
import Z80Gcc.Spec.LineInfo
import Z80Gcc.Proofs.LineInfo
import Z80Gcc.Spec.Abbrev
import Z80Gcc.Proofs.Abbrev
import Z80Gcc.Proofs.CppNumber
import Z80Gcc.Proofs.LongLong
import Z80Gcc.Spec.LongLongDivide
import Z80Gcc.Proofs.LongLongDivide
import Z80Gcc.Lib.BinaryFloat
import Z80Gcc.Spec.FpBit
import Z80Gcc.Lib.StickyBit
import Z80Gcc.Proofs.FpPack
import Z80Gcc.Proofs.FpConvert
import Z80Gcc.Spec.FpArith
import Z80Gcc.Proofs.FpAdd
import Z80Gcc.Proofs.FpHalfway
import Z80Gcc.Proofs.FpMultiply
import Z80Gcc.Proofs.OuterOps
import Z80Gcc.Lib.DoWhile
import Z80Gcc.Spec.LoopIterations
import Z80Gcc.Lib.WordReading
import Z80Gcc.Proofs.LexNumber
import Z80Gcc.Proofs.LoopIterations
import Z80Gcc.Lib.Regions
import Z80Gcc.Proofs.ShortenCompare
import Z80Gcc.Proofs.TempSlots
import Z80Gcc.Lib.WordList
import Z80Gcc.Spec.EType
import Z80Gcc.Proofs.ETypeWords
import Z80Gcc.Proofs.ETypeRounding
import Z80Gcc.Proofs.ETypeNormalize
import Z80Gcc.Spec.ETypeNumber
import Z80Gcc.Proofs.ETypeFormat
import Z80Gcc.Proofs.ETypeArith
import Z80Gcc.Proofs.ETypeSum
import Z80Gcc.Proofs.ETypeProduct
import Z80Gcc.Proofs.ConversionChain
import Z80Gcc.Proofs.OperandHalves
import Z80Gcc.Proofs.ETypeIeee
import Z80Gcc.Proofs.ETypeInteger
import Z80Gcc.Spec.ConstantPool
import Z80Gcc.Proofs.ConstantPool
import Z80Gcc.Proofs.SplayMap
import Z80Gcc.Proofs.AliasSets
import Z80Gcc.Proofs.Gcse
import Z80Gcc.Proofs.GcsePass
