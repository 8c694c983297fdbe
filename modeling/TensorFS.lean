import TensorFS.Adapter.Inverse
import TensorFS.Adapter.SelfView
import TensorFS.Compose.Adopt
import TensorFS.Compose.Inherit
import TensorFS.Contract.Pinned
import TensorFS.Engine.Cheapest
import TensorFS.Engine.Pinned
import TensorFS.Engine.Reference
import TensorFS.Engine.Rekeys
import TensorFS.Layout.Fill
import TensorFS.Layout.Parity
import TensorFS.Planner.Declared
import TensorFS.Planner.GgufStrings
import TensorFS.Planner.Portable
import TensorFS.Projection.Whole
import TensorFS.Python.Bf16
import TensorFS.Python.Convert
import TensorFS.Python.Fp8
import TensorFS.Python.Ranges
import TensorFS.Repository.Derived
import TensorFS.Repository.Disclosure
import TensorFS.Repository.Parity
import TensorFS.Repository.Surrogates
import TensorFS.Repository.Verdict
import TensorFS.Store.Refines
import TensorFS.Store.StreamReader
import TensorFS.Sync.Ends
import TensorFS.Sync.Parts
import TensorFS.Tfm1.Carriers
import TensorFS.Tfp1.Parity
import TensorFS.Workspace.Adoption
import TensorFS.Workspace.Arbor
import TensorFS.Workspace.Clone
import TensorFS.Workspace.Pins
import TensorFS.Workspace.Restamp
import TensorFS.Workspace.Truncation
