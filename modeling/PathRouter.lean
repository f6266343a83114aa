import PathRouter.Dispatcher.Recorder
import PathRouter.Pattern.Printer
import PathRouter.Router.Builder
import PathRouter.Search.Recursive
import PathRouter.Proofs.Pattern.Grammar
import PathRouter.Proofs.Text.Components
import PathRouter.Proofs.Pattern.RoundTrip
import PathRouter.Proofs.Node.Entries
import PathRouter.Proofs.Node.Maps
import PathRouter.Proofs.Search.Ways
import PathRouter.Proofs.Search.Specificity
import PathRouter.Proofs.Router.Routes
import PathRouter.Proofs.Router.Resolution
import PathRouter.Proofs.Router.Requests
import PathRouter.Proofs.Router.Reachability
import PathRouter.Proofs.Text.Percent
import PathRouter.Proofs.Router.ParameterValues
import PathRouter.Proofs.Tree.Insertions
import PathRouter.Proofs.Router.ReadBack
import PathRouter.Proofs.Pattern.Names
import PathRouter.Proofs.Router.Duplicates
import PathRouter.Proofs.Router.Allowed
import PathRouter.Proofs.Router.Values
import PathRouter.Proofs.Dispatcher.Runs
import PathRouter.Proofs.Node.Operations
import PathRouter.Proofs.Search.Turns
import PathRouter.Proofs.Search.Stack
import PathRouter.Proofs.Router.Contenders
import PathRouter.Proofs.Router.Policies
import PathRouter.Proofs.Router.Order
import PathRouter.Proofs.Router.LocalEffect
import PathRouter.Proofs.Tree.Rejected
import PathRouter.Proofs.Text.Unescaped
import PathRouter.Proofs.Pattern.Faults
import PathRouter.Proofs.Router.Renaming
import PathRouter.Proofs.Router.LeadingSlash
import PathRouter.Proofs.Node.Totals
import PathRouter.Proofs.Tree.Records
import PathRouter.Proofs.Tree.Methods
import PathRouter.Proofs.Router.SearchLog
import PathRouter.Proofs.Text.Lossy
import PathRouter.Proofs.Text.Runs
