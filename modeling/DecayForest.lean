import DecayForest.Arena
import DecayForest.CommandLine.Command
import DecayForest.CommandLine.Console
import DecayForest.CommandLine.Parsing
import DecayForest.CommandLine.Run
import DecayForest.CommandLine.Spec
import DecayForest.CommandLine.Usage
import DecayForest.Database.Basic
import DecayForest.Database.Reading
import DecayForest.Disk
import DecayForest.Document
import DecayForest.Environment
import DecayForest.Fault
import DecayForest.Forest.Attributes
import DecayForest.Forest.Basic
import DecayForest.Forest.Chain
import DecayForest.Forest.Copy
import DecayForest.Forest.Edit
import DecayForest.Forest.Error
import DecayForest.Forest.Expansion
import DecayForest.Forest.Tree
import DecayForest.Forest.Walk
import DecayForest.Grammar.Blank
import DecayForest.Grammar.Identifier
import DecayForest.Grammar.List
import DecayForest.Grammar.Outcome
import DecayForest.Grammar.Statement
import DecayForest.Group.Basic
import DecayForest.Group.Building
import DecayForest.Group.Drawing
import DecayForest.Group.Expansion
import DecayForest.Group.Kinematics
import DecayForest.Group.Writing
import DecayForest.Host
import DecayForest.Main
import DecayForest.Number.Decimal
import DecayForest.Number.Reading
import DecayForest.Number.Shortest
import DecayForest.Number.Text
import DecayForest.Outline
import DecayForest.Params
import DecayForest.Path
import DecayForest.Settings
import DecayForest.Settings.Variable
import DecayForest.Statement
import DecayForest.Text.Alphanumeric
import DecayForest.Text.Blank
import DecayForest.Text.Hidden
import DecayForest.Text.Pieces
import DecayForest.Text.Quoted
import DecayForest.Toml.Assembly
import DecayForest.Toml.Basic
import DecayForest.Toml.Number
import DecayForest.Toml.Reading
import DecayForest.Toml.Text
import DecayForest.Proofs.Arena
import DecayForest.Proofs.Lists
import DecayForest.Proofs.Params
import DecayForest.Proofs.Paths
import DecayForest.Proofs.Forest.Running
import DecayForest.Proofs.Forest.Views
import DecayForest.Proofs.Forest.Linkage
import DecayForest.Proofs.Forest.Attachment
import DecayForest.Proofs.Forest.Editing
import DecayForest.Proofs.Forest.Tree
import DecayForest.Proofs.Forest.Subtree
import DecayForest.Proofs.Forest.Walking
import DecayForest.Proofs.Forest.Growth
import DecayForest.Proofs.Forest.Copying
import DecayForest.Proofs.Forest.Discarding
import DecayForest.Proofs.Forest.Reachability
import DecayForest.Proofs.Forest.Offering
import DecayForest.Proofs.Forest.Choices
import DecayForest.Proofs.Forest.Fractions
import DecayForest.Proofs.Forest.Resolving
import DecayForest.Proofs.Forest.Alternatives
import DecayForest.Proofs.Forest.Refusal
import DecayForest.Proofs.Forest.Numbers
import DecayForest.Proofs.Forest.Lookup
import DecayForest.Proofs.Forest.Replacement
import DecayForest.Proofs.Forest.Weights
import DecayForest.Proofs.Forest.Footprint
import DecayForest.Proofs.Forest.Rejection
import DecayForest.Proofs.Forest.Persistence
import DecayForest.Proofs.Forest.Naming
import DecayForest.Proofs.Forest.Removal
import DecayForest.Proofs.Forest.Duplication
import DecayForest.Proofs.Forest.Remnants
import DecayForest.Proofs.Forest.Loops
import DecayForest.Proofs.Group.Edges
import DecayForest.Proofs.Group.Construction
import DecayForest.Proofs.Group.Passes
import DecayForest.Proofs.Group.Acceptance
import DecayForest.Proofs.Group.Correspondence
import DecayForest.Proofs.Group.Scoping
import DecayForest.Proofs.Group.Species
import DecayForest.Proofs.Group.Numbering
import DecayForest.Proofs.Grammar.Spelling
import DecayForest.Proofs.Grammar.Values
import DecayForest.Proofs.Grammar.Documents
import DecayForest.Proofs.Grammar.Layout
import DecayForest.Proofs.Grammar.Sentences
import DecayForest.Proofs.Grammar.Yield
import DecayForest.Proofs.Grammar.Identifiers
import DecayForest.Proofs.Grammar.Arrows
import DecayForest.Proofs.Grammar.Quoting
import DecayForest.Proofs.Grammar.Nesting
import DecayForest.Proofs.Grammar.Bounds
import DecayForest.Proofs.Grammar.Places
import DecayForest.Proofs.Group.Emission
import DecayForest.Proofs.Group.Rebuilding
import DecayForest.Proofs.Group.RoundTrip
import DecayForest.Proofs.Group.Contents
import DecayForest.Proofs.Group.Showing
import DecayForest.Proofs.Group.Reemission
import DecayForest.Proofs.Group.Canonical
import DecayForest.Proofs.Group.Reordering
import DecayForest.Proofs.Group.Expanding
import DecayForest.Proofs.Group.Faults
import DecayForest.Proofs.Group.Masses
import DecayForest.Proofs.Group.Roots
import DecayForest.Proofs.CommandLine.Outcomes
import DecayForest.Proofs.CommandLine.Faults
import DecayForest.Proofs.Settings.Relative
