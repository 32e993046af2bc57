import CellMachine.Main
import CellMachine.Snapshot
import CellMachine.Proofs.Attempt
import CellMachine.Proofs.Operations
import CellMachine.Proofs.Layout
import CellMachine.Proofs.EarlierText
import CellMachine.Proofs.Running
import CellMachine.Proofs.Pausing
import CellMachine.Proofs.HeldProgram
import CellMachine.Proofs.LabelledJump
import CellMachine.Proofs.ZoneOverlap
import CellMachine.Proofs.ControlFlow
import CellMachine.Proofs.Halting
import CellMachine.Proofs.FaultResidue
import CellMachine.Proofs.InstructionMeaning
import CellMachine.Proofs.ClientHistories
import CellMachine.Proofs.HeapBlocks
import CellMachine.Proofs.HeapFrame
import CellMachine.Proofs.BoundedStack
import CellMachine.Proofs.Restarting
import CellMachine.Proofs.Traffic
import CellMachine.Proofs.ExactArithmetic
import CellMachine.Proofs.RunAccounts
import CellMachine.Proofs.ReadOnlyStore
import CellMachine.Proofs.HostLoop
import CellMachine.Proofs.Arrivals
import CellMachine.Proofs.Lockstep
import CellMachine.Proofs.SnapshotEquality
import CellMachine.Proofs.Budgets
import CellMachine.Proofs.PrintedText
import CellMachine.Proofs.Acceptance
import CellMachine.Proofs.Seeding
import CellMachine.Proofs.ForwardJumps
import CellMachine.Proofs.EndOfStore
import CellMachine.Proofs.DerivedSizes
import CellMachine.Proofs.RequestedBreakpoints
import CellMachine.Proofs.Sessions
import CellMachine.Proofs.RoomChecks
import CellMachine.Proofs.OverflowDemo
import CellMachine.Proofs.Numerals
import CellMachine.Proofs.NearestDouble
import CellMachine.Proofs.ReadBack
import CellMachine.Proofs.TextOrder
import CellMachine.Proofs.NamedDefinitions
import CellMachine.Proofs.GroupRegistration
