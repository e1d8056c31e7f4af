import Cubature.Config.Basic
import Cubature.Config.Text
import Cubature.Decimal.Binary64
import Cubature.Decimal.Layout
import Cubature.Decimal.Scaled
import Cubature.Decimal.Shortest
import Cubature.Error
import Cubature.Event
import Cubature.Gauss.Jacobi
import Cubature.Gauss.Legendre
import Cubature.Gauss.Newton
import Cubature.Gauss.Nodes
import Cubature.Gauss.Rule
import Cubature.Gauss.Tridiagonal
import Cubature.Journal
import Cubature.Json.Basic
import Cubature.Json.Reader
import Cubature.Kind
import Cubature.Registry.Basic
import Cubature.Registry.Build
import Cubature.Rule.Basic
import Cubature.Rule.Product
import Cubature.Rule.Views
import Cubature.Scalar
import Cubature.Session.Basic
import Cubature.Session.Request
import Cubature.Side.Catalog
import Cubature.Side.Mapping
import Cubature.Side.Set
import Cubature.Size
import Cubature.Topology.Basic
import Cubature.Topology.Reference
import Cubature.Proofs.Registry.Invariant
import Cubature.Proofs.Side.Build
import Cubature.Proofs.Side.Faults
import Cubature.Proofs.Side.Mapping
import Cubature.Proofs.Side.Interior
import Cubature.Proofs.Session.Carried
import Cubature.Proofs.Session.Outcome
import Cubature.Proofs.Session.Ownership
import Cubature.Proofs.Session.Schedule
import Cubature.Proofs.Session.Calls
import Cubature.Proofs.Session.SideRules
import Cubature.Proofs.Session.Convergence
import Cubature.Proofs.Registry.Contents
import Cubature.Proofs.Registry.Request
import Cubature.Proofs.Registry.Schedule
import Cubature.Proofs.Session.Contents
import Cubature.Proofs.Session.Transition
import Cubature.Proofs.Session.Identity
import Cubature.Proofs.Scalar.Exact
import Cubature.Proofs.Gauss.Polynomial
import Cubature.Proofs.Gauss.Orthogonal
import Cubature.Proofs.Gauss.Quadrature
import Cubature.Proofs.Gauss.Interval
import Cubature.Proofs.Gauss.Exact
import Cubature.Proofs.Rule.Exactness
import Cubature.Proofs.Rule.Generate
import Cubature.Proofs.Rule.Interior
import Cubature.Proofs.Rule.Sums
import Cubature.Proofs.Rule.Table
import Cubature.Proofs.Session.Reports
import Cubature.Proofs.Session.Aliases
import Cubature.Proofs.Json.Grammar
import Cubature.Proofs.Json.Reader
import Cubature.Proofs.Config.Text
import Cubature.Proofs.Json.Numbers
import Cubature.Proofs.Decimal.Rounding
import Cubature.Proofs.Decimal.Binary64
import Cubature.Proofs.Decimal.Arithmetic
import Cubature.Proofs.Decimal.Scaled
import Cubature.Proofs.Decimal.Shortest
import Cubature.Proofs.Decimal.Layout
import Cubature.Proofs.Decimal.Stored
import Cubature.Proofs.Config.Storage
import Cubature.Proofs.Gauss.Sturm
import Cubature.Proofs.Gauss.Bisection
import Cubature.Proofs.Session.Named
import Cubature.Proofs.Decimal.Reread
import Cubature.Proofs.Config.RoundTrip
import Cubature.Proofs.Gauss.Deficit
import Cubature.Proofs.Rule.Element
import Cubature.Proofs.Rule.Stiffness
import Cubature.Proofs.Gauss.Roots
import Cubature.Proofs.Gauss.ClosedForm
import Cubature.Proofs.Gauss.Spectrum
import Cubature.Proofs.Gauss.Symmetry
import Cubature.Proofs.Side.Affine
import Cubature.Proofs.Rule.Views
import Cubature.Proofs.Rule.Index
import Cubature.Proofs.Session.Views
import Cubature.Proofs.Session.Products
import Cubature.Proofs.Decimal.Powers
import Cubature.Proofs.Gauss.Exponent
import Cubature.Proofs.Gauss.Brackets
