import Bundler.Main
import Bundler.Proofs.Build.Accounts
import Bundler.Proofs.Graph.Edits
import Bundler.Proofs.Hook.Batches
import Bundler.Proofs.Session.Compiled
import Bundler.Proofs.Session.Edits
import Bundler.Proofs.Session.OnDemand
import Bundler.Proofs.Session.Published
import Bundler.Proofs.Session.Failures
import Bundler.Proofs.Session.Reuse
import Bundler.Proofs.Chunk.Preorder
import Bundler.Proofs.Chunk.Discovery
import Bundler.Proofs.Chunk.Claims
import Bundler.Proofs.Session.Wanted
import Bundler.Proofs.Graph.Prune
import Bundler.Proofs.Session.Rerendered
import Bundler.Proofs.Resolve.Ancestors
import Bundler.Proofs.FileTree.Directories
import Bundler.Proofs.Resolve.Candidates
import Bundler.Proofs.Resolve.Endless
import Bundler.Proofs.Resolve.FirstFile
import Bundler.Proofs.Resolve.Precedence
import Bundler.Proofs.Resolve.Snapshot
import Bundler.Proofs.Session.Located
import Bundler.Proofs.Render.Keys
import Bundler.Proofs.Render.Layout
import Bundler.Proofs.Source.Printed
import Bundler.Proofs.Source.Unclosed
import Bundler.Proofs.Source.Abandoned
import Bundler.Proofs.Source.Declarations
import Bundler.Proofs.Transform
import Bundler.Proofs.Hook.Breakdown
import Bundler.Proofs.FileTree.Replacement
import Bundler.Proofs.Session.Progress
import Bundler.Proofs.Source.ImportRules
import Bundler.Proofs.Source.Turns
import Bundler.Proofs.Session.Outputs
