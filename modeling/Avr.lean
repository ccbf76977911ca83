import Avr.Compile
import Avr.Json.Device
import Avr.Json.Program
import Avr.CommandLine
import Avr.Main
import Avr.Proofs.JumpTargets
import Avr.Proofs.TargetReads
import Avr.Proofs.MemoryImage
import Avr.Proofs.Decoder
import Avr.Proofs.Placement
import Avr.Proofs.SkipIdiom
import Avr.Proofs.StructuredFlow
import Avr.Proofs.HexFile
import Avr.Proofs.FormatIndependence
import Avr.Proofs.DisplacedJumps
import Avr.Proofs.FreshLabels
import Avr.Proofs.VectorTable
import Avr.Proofs.RamCells
import Avr.Proofs.ContinueTargets
import Avr.Proofs.SavedRegisters
import Avr.Proofs.Readings
import Avr.Proofs.ArgumentPassing
import Avr.Proofs.SharedRegisters
import Avr.Proofs.ParallelMoves
import Avr.Proofs.ShortCircuit
import Avr.Proofs.Comparisons
import Avr.Proofs.ConstantUpdates
import Avr.Proofs.AddressUpdates
import Avr.Proofs.Simplification
import Avr.Proofs.CountedLoops
import Avr.Proofs.Terms
import Avr.Proofs.LabelOrigins
import Avr.Proofs.SymbolicText
import Avr.Proofs.PrintedNames
import Avr.Proofs.HexAliases
import Avr.Proofs.CutBlocks
import Avr.Proofs.EncodingSafety
import Avr.Proofs.Origins
import Avr.Proofs.DataRows
import Avr.Proofs.Flattening
import Avr.Proofs.BoundNames
import Avr.Proofs.StatementWalk
import Avr.Proofs.WalkOutlook
import Avr.Proofs.WalkSteps
import Avr.Proofs.RestoredContext
