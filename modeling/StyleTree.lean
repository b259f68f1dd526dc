import StyleTree.Catalog
import StyleTree.Config
import StyleTree.Support.Decode
import StyleTree.Tree.Outline
import StyleTree.Walk
import StyleTree.Proofs.Arena
import StyleTree.Proofs.Arena.Issued
import StyleTree.Proofs.Tree.Links
import StyleTree.Proofs.Tree.Reach
import StyleTree.Proofs.Tree.Unfold
import StyleTree.Proofs.Action
import StyleTree.Proofs.Tree.Grow
import StyleTree.Proofs.Edit.Outcome
import StyleTree.Proofs.Walk.Keeps
import StyleTree.Proofs.Reachable
import StyleTree.Proofs.Css.Extent
import StyleTree.Proofs.Css.Plain
import StyleTree.Proofs.Css.Head
import StyleTree.Proofs.RoundTrip
import StyleTree.Proofs.Walk.Local
import StyleTree.Proofs.Walk.Once
import StyleTree.Proofs.Tree.Cut
import StyleTree.Proofs.Walk.Pruned
import StyleTree.Proofs.Walk.Pruning
import StyleTree.Proofs.Tree.Kept
import StyleTree.Proofs.Vendor
import StyleTree.Proofs.Tree.Sprout
import StyleTree.Proofs.Edit.Copy
import StyleTree.Proofs.Catalog.Cover
import StyleTree.Proofs.Catalog.Move
import StyleTree.Proofs.Catalog.Refine
import StyleTree.Proofs.Catalog.Plain
import StyleTree.Proofs.Catalog.Ends
import StyleTree.Proofs.Catalog.Planted
import StyleTree.Proofs.Catalog.Pure
import StyleTree.Proofs.Catalog.Adds
import StyleTree.Proofs.Catalog.Covered
import StyleTree.Proofs.Catalog.Twice
import StyleTree.Proofs.Catalog.Sown
import StyleTree.Proofs.Catalog.Precede
import StyleTree.Proofs.Walk.Calls
import StyleTree.Proofs.Walk.Merge
import StyleTree.Proofs.Walk.Blame
import StyleTree.Proofs.Walk.Ledger
import StyleTree.Proofs.Walk.Reentry
import StyleTree.Proofs.Css.Closed
import StyleTree.Proofs.Edit.Faithful
import StyleTree.Proofs.Edit.Failure
import StyleTree.Proofs.Edit.Place
import StyleTree.Proofs.Edit.Replace
import StyleTree.Proofs.Edit.Beside
import StyleTree.Proofs.Edit.Remove
import StyleTree.Proofs.Edit.Compact
import StyleTree.Proofs.Edit.Lasting
import StyleTree.Proofs.Edit.History
import StyleTree.Proofs.Dangling
import StyleTree.Proofs.Css.Assembly
import StyleTree.Proofs.Css.Layout
import StyleTree.Proofs.Tree.Nearest
import StyleTree.Proofs.Tree.Sweep
import StyleTree.Proofs.Edit.Scope
import StyleTree.Proofs.Search
import StyleTree.Proofs.Edit.Plant
import StyleTree.Proofs.Edit.Silent
import StyleTree.Proofs.Gate
import StyleTree.Proofs.Resolution
import StyleTree.Proofs.Css.Formed
import StyleTree.Proofs.Css.Descent
import StyleTree.Proofs.Css.Termination
import StyleTree.Proofs.Css.Malformed
