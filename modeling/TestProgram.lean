import TestProgram.CommandLine.Disk
import TestProgram.Flow.Operation
import TestProgram.Main
import TestProgram.Proofs.Bench.Emission
import TestProgram.Proofs.Pattern.Events
import TestProgram.Proofs.Pattern.Timeline
import TestProgram.Proofs.Pattern.Barriers
import TestProgram.Proofs.Sequencer.Moves
import TestProgram.Proofs.Sequencer.Paths
import TestProgram.Proofs.Pattern.Stores
import TestProgram.Proofs.Pin.Pinout
import TestProgram.Proofs.Sequencer.Tiling
import TestProgram.Proofs.Sequencer.Ceiling
import TestProgram.Proofs.Clock.Operations
import TestProgram.Proofs.Clock.Partition
import TestProgram.Proofs.Bench.SquareWave
import TestProgram.Proofs.Sequencer.Waveform
import TestProgram.Proofs.Sequencer.Steps
import TestProgram.Proofs.Sequencer.Records
import TestProgram.Proofs.Sequencer.Scopes
import TestProgram.Proofs.Pattern.Loops
import TestProgram.Proofs.Sequencer.Loops
import TestProgram.Proofs.Sequencer.Groups
import TestProgram.Proofs.Render.Debugger
import TestProgram.Proofs.Render.Levels
import TestProgram.Proofs.Sequencer.Periods
import TestProgram.Proofs.Render.Microcode
import TestProgram.Proofs.Sequencer.Tables
import TestProgram.Proofs.Sequencer.Scripts
import TestProgram.Proofs.Sequencer.Emissions
import TestProgram.Proofs.Sequencer.Sleeps
import TestProgram.Proofs.Bench.StillPins
import TestProgram.Proofs.Pattern.Permutations
import TestProgram.Proofs.Sequencer.Replays
import TestProgram.Proofs.Sequencer.PinChanges
import TestProgram.Proofs.Sequencer.ThreadOrder
import TestProgram.Proofs.Sequencer.GroupFit
import TestProgram.Proofs.Clock.Ahead
import TestProgram.Proofs.Bench.Togglings
import TestProgram.Proofs.Sequencer.Ticking
import TestProgram.Proofs.Text.Names
import TestProgram.Proofs.Sequencer.Subroutines
import TestProgram.Proofs.Sequencer.Failures
import TestProgram.Proofs.Sequencer.Reuse
import TestProgram.Proofs.Sequencer.Imports
import TestProgram.Proofs.Timing.Switches
import TestProgram.Proofs.Sequencer.ScopedTimesets
import TestProgram.Proofs.Sequencer.Labels
import TestProgram.Proofs.Sequencer.Inhibition
import TestProgram.Proofs.Sequencer.PlainPrograms
import TestProgram.Proofs.Sequencer.Recuts
import TestProgram.Proofs.Flow.Gates
import TestProgram.Proofs.Flow.Enables
import TestProgram.Proofs.Flow.Flags
import TestProgram.Proofs.Flow.Jobs
import TestProgram.Proofs.Sheet.Contents
import TestProgram.Proofs.Sheet.Owners
import TestProgram.Proofs.Script.Reading
import TestProgram.Proofs.Script.Literals
import TestProgram.Proofs.Script.Nodes
import TestProgram.Proofs.Run.Spacing
import TestProgram.Proofs.Run.Reports
import TestProgram.Proofs.CommandLine.Files
import TestProgram.Proofs.Number.Doubles
import TestProgram.Proofs.Script.Counts
import TestProgram.Proofs.Text.YamlScalar
import TestProgram.Proofs.Text.CoreSchema
import TestProgram.Proofs.Flow.Tables
import TestProgram.Proofs.Render.Comments
import TestProgram.Proofs.Timing.Formulas
import TestProgram.Proofs.Sequencer.LoopWarnings
import TestProgram.Proofs.Bench.Refusals
import TestProgram.Proofs.Pattern.Captures
import TestProgram.Proofs.Bench.OneShots
import TestProgram.Proofs.Flow.Formats
import TestProgram.Proofs.Timing.Table
