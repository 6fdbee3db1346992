import VersionedTree.Bytes
import VersionedTree.Client
import VersionedTree.Config
import VersionedTree.Contents.Chain
import VersionedTree.Delta.Matcher
import VersionedTree.Filesystem
import VersionedTree.Json.Printer
import VersionedTree.Json.Reader
import VersionedTree.NodeRevision
import VersionedTree.Record.Transaction
import VersionedTree.Skel.Parser
import VersionedTree.Skel.Printer
import VersionedTree.Store.Cached
import VersionedTree.Store.Faulty
import VersionedTree.Text.Base36
import VersionedTree.Tree.Commit
import VersionedTree.Tree.Root
import VersionedTree.Proofs.Delta.Positions
import VersionedTree.Proofs.Skel.RoundTrip
import VersionedTree.Proofs.Record.RoundTrip
import VersionedTree.Proofs.Contents.RoundTrip
import VersionedTree.Proofs.Filesystem.Owners
import VersionedTree.Proofs.Filesystem.Reading
import VersionedTree.Proofs.Filesystem.Refinement
import VersionedTree.Proofs.Filesystem.Commits
import VersionedTree.Proofs.Contents.Archive
import VersionedTree.Proofs.Delta.PlainScan
import VersionedTree.Proofs.Record.Canonical
import VersionedTree.Proofs.Store.Persistent
import VersionedTree.Proofs.Trail.Immediate
import VersionedTree.Proofs.Filesystem.Integrity
import VersionedTree.Proofs.Filesystem.Handouts
import VersionedTree.Proofs.Filesystem.Handles
import VersionedTree.Proofs.Filesystem.Interleaving
import VersionedTree.Proofs.Tree.Failures
import VersionedTree.Proofs.Tree.Marking
import VersionedTree.Proofs.Filesystem.Revocation
import VersionedTree.Proofs.Filesystem.Paths
import VersionedTree.Proofs.Delta.Coverage
import VersionedTree.Proofs.Delta.FirstOccurrence
import VersionedTree.Proofs.Tree.Successors
import VersionedTree.Proofs.Contents.Reading
import VersionedTree.Proofs.Filesystem.Deletion
import VersionedTree.Proofs.Tree.Coherence
import VersionedTree.Proofs.Delta.Moves
import VersionedTree.Proofs.Contents.Exactness
import VersionedTree.Proofs.Filesystem.Opening
import VersionedTree.Proofs.Filesystem.Cloning
import VersionedTree.Proofs.Record.Counters
import VersionedTree.Proofs.Filesystem.Lookup
import VersionedTree.Proofs.Delta.Pieces
import VersionedTree.Proofs.Record.Properties
