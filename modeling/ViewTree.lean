import ViewTree.Diagnostic
import ViewTree.Diagnostic.Policy
import ViewTree.Failure
import ViewTree.Handler
import ViewTree.Json
import ViewTree.Json.Reader
import ViewTree.Json.Writer
import ViewTree.Members
import ViewTree.Node
import ViewTree.Number.Decimal
import ViewTree.Number.Double
import ViewTree.Options
import ViewTree.Order
import ViewTree.Render.Host
import ViewTree.Render.Registry
import ViewTree.Render.Renderer
import ViewTree.Sample
import ViewTree.Setting
import ViewTree.Slot
import ViewTree.Store
import ViewTree.Text.Printable
import ViewTree.Text.Quoted
import ViewTree.Transform
import ViewTree.Traverse
import ViewTree.Tree
import ViewTree.Tree.Equality
import ViewTree.Tree.Literal
import ViewTree.Visit.Context
import ViewTree.Visit.Tour
import ViewTree.Visit.Visitor
import ViewTree.Visit.Walk
import ViewTree.Visitor.Binding
import ViewTree.Visitor.Ledger
import ViewTree.Visitor.Recorder
import ViewTree.Visitor.Rule
import ViewTree.Visitor.Script
import ViewTree.Visitor.Survey
import ViewTree.Proofs.Store.Loading
import ViewTree.Proofs.Store.Expansion
import ViewTree.Proofs.Walk.Course
import ViewTree.Proofs.Traverse.Sight
import ViewTree.Proofs.Traverse.Agreement
import ViewTree.Proofs.Store.Writing
import ViewTree.Proofs.Store.Placing
import ViewTree.Proofs.Transform.Entry
import ViewTree.Proofs.Transform.Reading
import ViewTree.Proofs.Transform.Revising
import ViewTree.Proofs.Traverse.Engines
import ViewTree.Proofs.Store.Guarding
import ViewTree.Proofs.Transform.Seclusion
import ViewTree.Proofs.Diagnostic.Mapping
import ViewTree.Proofs.Store.Closure
import ViewTree.Proofs.Store.Relocation
import ViewTree.Proofs.Transform.Copying
import ViewTree.Proofs.Render.Policies
import ViewTree.Proofs.Visitor.Watching
import ViewTree.Proofs.Transform.Immunity
import ViewTree.Proofs.Tree.Validity
import ViewTree.Proofs.Store.Tending
import ViewTree.Proofs.Transform.Record
import ViewTree.Proofs.Visitor.Aloofness
import ViewTree.Proofs.Transform.Recording
import ViewTree.Proofs.Transform.Coverage
import ViewTree.Proofs.Transform.Phases
import ViewTree.Proofs.Tree.Binding
import ViewTree.Proofs.Store.Binding
import ViewTree.Proofs.Store.Bindable
import ViewTree.Proofs.Render.Binding
import ViewTree.Proofs.Visitor.Binding
import ViewTree.Proofs.Transform.Binding
import ViewTree.Proofs.Visitor.Retelling
import ViewTree.Proofs.Transform.Observing
import ViewTree.Proofs.Render.Props
import ViewTree.Proofs.Render.Outcome
import ViewTree.Proofs.Render.Defects
import ViewTree.Proofs.Traverse.Listing
import ViewTree.Proofs.Render.Contents
import ViewTree.Proofs.Transform.SinglePhase
import ViewTree.Proofs.Tree.Flattening
import ViewTree.Proofs.Render.Flattening
import ViewTree.Proofs.Store.Relisting
import ViewTree.Proofs.Traverse.Sweeping
import ViewTree.Proofs.Store.Rewriting
import ViewTree.Proofs.Transform.Steadiness
import ViewTree.Proofs.Transform.Ruling
import ViewTree.Proofs.Transform.Refilling
import ViewTree.Proofs.Transform.Errands
import ViewTree.Proofs.Transform.Bearing
import ViewTree.Proofs.Transform.Fulfilment
import ViewTree.Proofs.Transform.Orders
import ViewTree.Proofs.Store.Pairing
import ViewTree.Proofs.Store.Joining
import ViewTree.Proofs.Store.Lots
import ViewTree.Proofs.Walk.Lockstep
import ViewTree.Proofs.Transform.Impartiality
import ViewTree.Proofs.Visitor.Impartiality
import ViewTree.Proofs.Transform.Endurance
import ViewTree.Proofs.Transform.Elements
import ViewTree.Proofs.Transform.Roots
import ViewTree.Proofs.Transform.Boxes
import ViewTree.Proofs.Transform.Leaves
import ViewTree.Proofs.Transform.Leaving
import ViewTree.Proofs.Transform.Independence
import ViewTree.Proofs.Walk.Related
import ViewTree.Proofs.Traverse.Levels
import ViewTree.Proofs.Traverse.Showing
import ViewTree.Proofs.Traverse.Passing
import ViewTree.Proofs.Traverse.Selection
import ViewTree.Proofs.Traverse.LevelOrder
import ViewTree.Proofs.Render.Mappings
import ViewTree.Proofs.Transform.Charting
import ViewTree.Proofs.Transform.Schedule
import ViewTree.Proofs.Transform.Freezing
import ViewTree.Proofs.Render.Layering
import ViewTree.Proofs.Render.Soundness
import ViewTree.Proofs.Tree.Culling
import ViewTree.Proofs.Transform.Culling
import ViewTree.Proofs.Render.Culling
import ViewTree.Proofs.Tree.Calls
import ViewTree.Proofs.Store.Leftovers
import ViewTree.Proofs.Transform.Rebinding
import ViewTree.Render.Shelf
import ViewTree.Proofs.Render.Stacking
import ViewTree.Proofs.Render.Shelving
import ViewTree.Proofs.Diagnostic.Bookkeeping
import ViewTree.Proofs.Tree.Breadth
import ViewTree.Proofs.Traverse.Positions
import ViewTree.Proofs.Traverse.Consensus
import ViewTree.Proofs.Walk.Upholding
import ViewTree.Proofs.Transform.Beside
import ViewTree.Proofs.Transform.Upholding
import ViewTree.Proofs.Transform.Weighing
import ViewTree.Proofs.Transform.Foresight
import ViewTree.Proofs.Render.Keys
import ViewTree.Proofs.Store.Copies
import ViewTree.Proofs.Visitor.Folding
import ViewTree.Proofs.Tree.Spots
import ViewTree.Proofs.Visitor.Logs
import ViewTree.Proofs.Transform.Logging
