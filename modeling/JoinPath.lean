import JoinPath.Command.Run
import JoinPath.Json.Decode
import JoinPath.Main
import JoinPath.Proofs.Bindings.Capture
import JoinPath.Proofs.Family.Names
import JoinPath.Proofs.Hops.Scoped
import JoinPath.Proofs.Session.Literals
import JoinPath.Proofs.Session.Shape
import JoinPath.Session.Summary
import JoinPath.Proofs.Hops.Restrictions
import JoinPath.Proofs.Sql.Placeholders
import JoinPath.Proofs.Sql.Clause
import JoinPath.Proofs.Sql.Reader
import JoinPath.Proofs.Sql.Shown
import JoinPath.Proofs.Sql.ReadBack
import JoinPath.Proofs.Criteria.Renamed
import JoinPath.Proofs.Session.Alike
import JoinPath.Proofs.Session.Renamed
import JoinPath.Proofs.Bindings.Reordered
import JoinPath.Proofs.Session.FilterPosition
import JoinPath.Proofs.Schema.WellFormed
import JoinPath.Proofs.Session.Bound
import JoinPath.Proofs.Drafted.Run
import JoinPath.Proofs.Session.Reindexed
import JoinPath.Proofs.Command.Explained
import JoinPath.Proofs.Hops.Grown
import JoinPath.Proofs.Hops.Announced
import JoinPath.Proofs.Json.RoundTrip
import JoinPath.Proofs.Sql.Delimited
import JoinPath.Proofs.Hops.Fetched
import JoinPath.Proofs.Session.Distinct
import JoinPath.Proofs.Session.WholeText
import JoinPath.Proofs.Sql.ParameterOrder
import JoinPath.Proofs.Config.Faults
import JoinPath.Proofs.Session.Refiltered
import JoinPath.Proofs.Session.Rebased
import JoinPath.Proofs.Hops.Repeated
import JoinPath.Proofs.Command.Typed
import JoinPath.Proofs.Session.Rebuilt
import JoinPath.Proofs.Hops.Selected
import JoinPath.Proofs.Parameters.Dumped
import JoinPath.Proofs.Path.Deepest
import JoinPath.Proofs.Criteria.Requalified
import JoinPath.Proofs.Sql.Literals
