import ApiGraph.FileTree.Listing
import ApiGraph.Inspection.Session
import ApiGraph.Main
import ApiGraph.Proofs.Asking.Runs
import ApiGraph.Proofs.Depicting.Merging
import ApiGraph.Proofs.Depicting.Parameters
import ApiGraph.Proofs.Dialogue.Replay
import ApiGraph.Proofs.Drafting.Variants
import ApiGraph.Proofs.Restoring.Conversions
import ApiGraph.Proofs.Writing.Drafts
import ApiGraph.Proofs.Selecting.Lines
import ApiGraph.Proofs.Declaring.Selected
import ApiGraph.Proofs.Selecting.Mirrors
import ApiGraph.Proofs.Succeeding.Declarations
import ApiGraph.Proofs.Succeeding.Runs
import ApiGraph.Proofs.Succeeding.Visits
import ApiGraph.Proofs.Referring.Pointers
import ApiGraph.Proofs.Selecting.Texts
import ApiGraph.Proofs.Selecting.Braces
import ApiGraph.Proofs.Delivering.Runs
import ApiGraph.Proofs.Choosing.Runs
import ApiGraph.Proofs.Dialogue.Recordings
import ApiGraph.Proofs.Planting.Trees
import ApiGraph.Proofs.Grouping.Compositions
import ApiGraph.Proofs.Writing.Spelling
import ApiGraph.Proofs.Finishing.Bindings
import ApiGraph.FileTree.Replacement
import ApiGraph.Proofs.Delivering.Directories
import ApiGraph.Proofs.Delivering.Writes
import ApiGraph.Proofs.Declaring.Clashes
import ApiGraph.Proofs.Inspecting.Dumps
import ApiGraph.Proofs.Inspecting.Sessions
