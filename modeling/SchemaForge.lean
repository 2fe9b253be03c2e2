import SchemaForge.Main
import SchemaForge.Path.Address
import SchemaForge.Session
import SchemaForge.Proofs.Answers
import SchemaForge.Proofs.Value.Alike
import SchemaForge.Proofs.Value.Readable
import SchemaForge.Proofs.Numeric.Shortest
import SchemaForge.Proofs.Json.Texts
import SchemaForge.Proofs.Json.Numbers
import SchemaForge.Proofs.Json.RoundTrip
import SchemaForge.Proofs.Json.Reading
import SchemaForge.Proofs.Schema.Complete
import SchemaForge.Proofs.Schema.ReachedNodes
import SchemaForge.Proofs.Schema.Additions
import SchemaForge.Proofs.Schema.SwitchedPlaces
import SchemaForge.Proofs.Inference.Samples
import SchemaForge.Proofs.Inference.Accepts
import SchemaForge.Proofs.Inference.Finished
import SchemaForge.Proofs.Inference.Describes
import SchemaForge.Proofs.Inference.Merging
import SchemaForge.Proofs.Inference.Fields
import SchemaForge.Proofs.Inference.Elements
import SchemaForge.Proofs.Inference.Turns
import SchemaForge.Proofs.Inference.Widening
import SchemaForge.Proofs.Inference.Batches
import SchemaForge.Proofs.Inference.Growth
import SchemaForge.Proofs.Inference.Held
import SchemaForge.Proofs.Inference.Repeats
import SchemaForge.Proofs.Inference.Exactness
import SchemaForge.Proofs.Inference.Finishing
import SchemaForge.Proofs.Inference.WellFormed
import SchemaForge.Proofs.Inference.Filled
import SchemaForge.Proofs.Inference.VariantSets
import SchemaForge.Proofs.Inference.Normality
import SchemaForge.Proofs.Editor.Atomicity
import SchemaForge.Proofs.Editor.Consistency
import SchemaForge.Proofs.Editor.Normality
import SchemaForge.Proofs.Editor.RootObject
import SchemaForge.Proofs.Editor.Heredity
import SchemaForge.Proofs.Editor.Export
import SchemaForge.Proofs.Path.Writing
import SchemaForge.Proofs.Editor.FreshNames
import SchemaForge.Proofs.Editor.RequiredSwitch
import SchemaForge.Proofs.Command.Runs
import SchemaForge.Proofs.Command.Stray
import SchemaForge.Proofs.Command.Edit
import SchemaForge.Proofs.Session.Notification
import SchemaForge.Proofs.Session.Imports
import SchemaForge.Proofs.Path.Separation
import SchemaForge.Proofs.Path.Failures
import SchemaForge.Proofs.Path.Deletion
import SchemaForge.Proofs.Path.Grammar
import SchemaForge.Proofs.Path.Joining
import SchemaForge.Proofs.Json.LongNumerals
import SchemaForge.Proofs.Session.AllOrNothing
import SchemaForge.Proofs.Command.Output
import SchemaForge.Proofs.Command.FixedPoint
import SchemaForge.Proofs.Session.Seed
import SchemaForge.Proofs.Editor.Renaming
import SchemaForge.Proofs.Editor.Removal
import SchemaForge.Proofs.Editor.Undo
import SchemaForge.Proofs.Editor.Locality
import SchemaForge.Proofs.Command.FormatCheck
import SchemaForge.Proofs.Config
import SchemaForge.Proofs.Editor.TreeView
import SchemaForge.Proofs.Session.TreeView
