import Restack.Arguments
import Restack.Backend
import Restack.CommandLine
import Restack.Event
import Restack.FileTree
import Restack.Git
import Restack.Lineage
import Restack.LogFile
import Restack.Main
import Restack.Path
import Restack.Plan
import Restack.Planner
import Restack.Program
import Restack.Proofs.Agreement
import Restack.Proofs.AllOrNothing
import Restack.Proofs.Ancestry
import Restack.Proofs.ArgumentForms
import Restack.Proofs.ArgumentOrder
import Restack.Proofs.Ascent
import Restack.Proofs.BranchNames
import Restack.Proofs.CommandOutcomes
import Restack.Proofs.CommitOrder
import Restack.Proofs.Diagnostics
import Restack.Proofs.Disclosure
import Restack.Proofs.Emission
import Restack.Proofs.Encoding
import Restack.Proofs.EndToEnd
import Restack.Proofs.Exclusion
import Restack.Proofs.Independence
import Restack.Proofs.Invocations
import Restack.Proofs.Lines
import Restack.Proofs.Listings
import Restack.Proofs.LogOpening
import Restack.Proofs.Logging
import Restack.Proofs.Loop
import Restack.Proofs.LoopReports
import Restack.Proofs.ParentPath
import Restack.Proofs.Parents
import Restack.Proofs.Pieces
import Restack.Proofs.Queries
import Restack.Proofs.QueryOrder
import Restack.Proofs.ReadBack
import Restack.Proofs.Reading
import Restack.Proofs.Recordings
import Restack.Proofs.Renaming
import Restack.Proofs.Replay
import Restack.Proofs.Sessions
import Restack.Proofs.Shadowing
import Restack.Proofs.SharedHeads
import Restack.Proofs.SplitPaths
import Restack.Proofs.StepOrder
import Restack.Recording
import Restack.Run
import Restack.Shell
import Restack.Text.Blank
import Restack.Text.Shapeless
import Restack.Text.Styled
import Restack.Tip
import Restack.Utf8
