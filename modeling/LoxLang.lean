import LoxLang.Main
import LoxLang.Syntax.Outline
import LoxLang.Proofs.Resolution.Site
import LoxLang.Proofs.Syntax.ProperTrees
import LoxLang.Proofs.Running.Watched
import LoxLang.Proofs.Running.World
import LoxLang.Proofs.Resolution.Walk
import LoxLang.Proofs.Running.Order
import LoxLang.Proofs.Running.Closures
import LoxLang.Proofs.Running.Sound
import LoxLang.Proofs.Running.Lockstep
import LoxLang.Proofs.Running.Sessions
import LoxLang.Proofs.Renaming.Pairs
import LoxLang.Proofs.Renaming.Steps
import LoxLang.Proofs.Renaming.TwinRuns
import LoxLang.Proofs.Renaming.Relabelling
import LoxLang.Proofs.Renaming.Renamed
import LoxLang.Proofs.Renaming.Invariance
import LoxLang.Proofs.Syntax.Dialect
import LoxLang.Proofs.Syntax.Beginnings
import LoxLang.Proofs.Syntax.Following
import LoxLang.Proofs.Syntax.Settling
import LoxLang.Proofs.Syntax.Covering
import LoxLang.Proofs.Syntax.Gathering
import LoxLang.Proofs.Syntax.Acceptance
import LoxLang.Proofs.Syntax.Stratified
import LoxLang.Proofs.Syntax.EarliestFault
import LoxLang.Proofs.Syntax.Totality
import LoxLang.Proofs.Syntax.Recovery
import LoxLang.Proofs.Running.StaticErrors
import LoxLang.Proofs.Running.Termination
import LoxLang.Proofs.Splitting.Relocation
import LoxLang.Proofs.Splitting.Scanning
import LoxLang.Proofs.Splitting.Machines
import LoxLang.Proofs.Splitting.Parsing
import LoxLang.Proofs.Splitting.Resolving
import LoxLang.Proofs.Splitting.Running
import LoxLang.Proofs.Splitting.Seam
import LoxLang.Proofs.Running.Depth
import LoxLang.Proofs.Running.Alike
import LoxLang.Proofs.Running.Abreast
import LoxLang.Proofs.Running.Control
import LoxLang.Proofs.Resolution.Addressing
import LoxLang.Proofs.Resolution.Faults
import LoxLang.Proofs.Resolution.Unused
import LoxLang.Proofs.Scanning.Bytes
import LoxLang.Proofs.Scanning.Lexemes
import LoxLang.Proofs.Scanning.Tiling
import LoxLang.Proofs.Scanning.Rescanning
import LoxLang.Proofs.Scanning.Longest
import LoxLang.Proofs.Receivers.Faithful
import LoxLang.Proofs.Receivers.Keeping
import LoxLang.Proofs.Receivers.Timeline
import LoxLang.Proofs.Receivers.Moments
import LoxLang.Proofs.Receivers.Sessions
import LoxLang.Proofs.Receivers.Methods
import LoxLang.Proofs.Syntax.Fatal
import LoxLang.Proofs.Syntax.Tracking
import LoxLang.Proofs.Nesting.Blocks
import LoxLang.Proofs.Nesting.Padding
import LoxLang.Proofs.Nesting.Walking
import LoxLang.Proofs.Nesting.Placing
import LoxLang.Proofs.Nesting.Machines
import LoxLang.Proofs.Nesting.Environments
import LoxLang.Proofs.Nesting.Steps
import LoxLang.Proofs.Nesting.Runs
import LoxLang.Proofs.Nesting.Doubles
import LoxLang.Proofs.Nesting.Invariance
import LoxLang.Proofs.Paring.Trees
import LoxLang.Proofs.Paring.Slimming
import LoxLang.Proofs.Paring.Placing
import LoxLang.Proofs.Paring.Walking
import LoxLang.Proofs.Paring.Accepting
import LoxLang.Proofs.Paring.Machines
import LoxLang.Proofs.Paring.Steps
import LoxLang.Proofs.Paring.Runs
import LoxLang.Proofs.Paring.Invariance
import LoxLang.Proofs.Running.Raising
import LoxLang.Proofs.Running.WellFormed
import LoxLang.Proofs.Syntax.Terminated
import LoxLang.Proofs.Splitting.Prompt
import LoxLang.Proofs.Syntax.Offending
import LoxLang.Proofs.Running.Traced
import LoxLang.Proofs.Running.DepthGuard
import LoxLang.Proofs.Running.Jumps
import LoxLang.Proofs.Running.Returning
import LoxLang.Proofs.Running.Watching
import LoxLang.Proofs.Running.Truncation
import LoxLang.Proofs.Running.Binding
import LoxLang.Proofs.Running.Visits
import LoxLang.Proofs.Running.Sparing
import LoxLang.Proofs.Running.Globals
import LoxLang.Proofs.Looping.Loops
import LoxLang.Proofs.Looping.Rounds
import LoxLang.Proofs.Looping.Desugared
import LoxLang.Proofs.Syntax.Drawn
import LoxLang.Proofs.Resolution.Sourced
import LoxLang.Proofs.Running.Diagnostics
import LoxLang.Proofs.Printing.Shortest
import LoxLang.Proofs.Printing.Numerals
import LoxLang.Proofs.Printing.Rounding
import LoxLang.Proofs.Printing.Packing
import LoxLang.Proofs.Printing.ReadBack
import LoxLang.Proofs.Printing.Bracketed
import LoxLang.Proofs.Printing.Words
import LoxLang.Proofs.Printing.Prefix
import LoxLang.Proofs.Printing.Postfix
import LoxLang.Proofs.Scanning.Comments
