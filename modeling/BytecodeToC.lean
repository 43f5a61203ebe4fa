import BytecodeToC.Main
import BytecodeToC.Proofs.ExprTree
import BytecodeToC.Proofs.FoldStep
import BytecodeToC.Proofs.FoldRun
import BytecodeToC.Proofs.NormalForm
import BytecodeToC.Proofs.SymbolicStack
import BytecodeToC.Proofs.Arena
import BytecodeToC.Proofs.InPlaceFolds
import BytecodeToC.Proofs.TrapOrder
import BytecodeToC.Proofs.Refusal
import BytecodeToC.Proofs.Assembled
import BytecodeToC.Proofs.Absorption
import BytecodeToC.Proofs.MethodLowering
import BytecodeToC.Proofs.Acceptance
import BytecodeToC.Proofs.Manifest
import BytecodeToC.Proofs.Marks
import BytecodeToC.Proofs.TryScopes
import BytecodeToC.Proofs.OpenRegions
import BytecodeToC.Proofs.TryTables
import BytecodeToC.Proofs.JumpDepths
import BytecodeToC.Proofs.Isolation
import BytecodeToC.Proofs.References
import BytecodeToC.Proofs.Ledger
import BytecodeToC.Proofs.Ownership
import BytecodeToC.Proofs.Declarations
import BytecodeToC.Proofs.Mentions
import BytecodeToC.Proofs.KeepGoing
import BytecodeToC.Proofs.VirtualCalls
import BytecodeToC.Proofs.TableOrder
import BytecodeToC.Proofs.CArithmetic
import BytecodeToC.Proofs.CText
import BytecodeToC.Proofs.IntegerExpressions
import BytecodeToC.Proofs.FailureNames
import BytecodeToC.Proofs.FunctionSymbols
import BytecodeToC.Proofs.Dependencies
import BytecodeToC.Proofs.PoolOffsets
import BytecodeToC.Proofs.Anchors
import BytecodeToC.Proofs.DepthCache
import BytecodeToC.Proofs.TabledState
import BytecodeToC.Proofs.DescriptorBytes
import BytecodeToC.Proofs.DescriptorText
import BytecodeToC.Proofs.JsonText
import BytecodeToC.Proofs.ProgramFormat
import BytecodeToC.Proofs.Annotations
import BytecodeToC.Proofs.ReceiverReads
import BytecodeToC.Proofs.LocalLayout
import BytecodeToC.Proofs.CallOperands
import BytecodeToC.Proofs.InstructionRuns
import BytecodeToC.Proofs.StaticOwners
import BytecodeToC.Proofs.StringLiterals
import BytecodeToC.Proofs.MultiArrays
import BytecodeToC.Proofs.TypeSymbols
