import PointerKinds.Store.Sanity
import PointerKinds.Session
import PointerKinds.Proofs.Solver.Least
import PointerKinds.Proofs.Session.Agreement
import PointerKinds.Proofs.Session.Origins
import PointerKinds.Proofs.Solver.Refinement
import PointerKinds.Proofs.Solver.Foundation
import PointerKinds.Proofs.Solver.Cost
import PointerKinds.Proofs.Solver.Report
import PointerKinds.Form.Recording
import PointerKinds.Form.Options
import PointerKinds.Form.Dump
import PointerKinds.Form.Statistics
import PointerKinds.Proofs.Solver.Shortfall
import PointerKinds.Proofs.Solver.Replay
import PointerKinds.Proofs.Solver.Assertions
import PointerKinds.Proofs.Store.Tally
import PointerKinds.Proofs.Session.Numbering
import PointerKinds.Proofs.Session.Relations
import PointerKinds.Proofs.Session.Events
import PointerKinds.Proofs.Session.Calls
import PointerKinds.Proofs.Session.Undo
import PointerKinds.Proofs.Session.Release
import PointerKinds.Proofs.Session.Invalidation
import PointerKinds.Proofs.Store.Operations
import PointerKinds.Proofs.Solver.Repeat
import PointerKinds.Proofs.Store.Removal
import PointerKinds.Proofs.RootCauses.Blame
import PointerKinds.Proofs.RootCauses.Partition
import PointerKinds.Proofs.Store.Interning
import PointerKinds.Proofs.Session.Globals
import PointerKinds.Proofs.Session.Statics
import PointerKinds.Proofs.Session.Arrays
import PointerKinds.Proofs.Session.Safety
import PointerKinds.Proofs.Session.Visits
import PointerKinds.Proofs.Session.Distrust
import PointerKinds.Proofs.Form.RoundTrip
import PointerKinds.Proofs.Session.Forest
import PointerKinds.Proofs.Session.Variance
import PointerKinds.Proofs.Report.Listing
import PointerKinds.Proofs.Solver.Preferences
import PointerKinds.Proofs.Solver.Frame
import PointerKinds.Proofs.Session.Parameters
import PointerKinds.Proofs.Bounds
import PointerKinds.Proofs.Variable.Comparison
import PointerKinds.Proofs.Store.Dump
