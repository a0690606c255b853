import OscAddressing.Address.Path
import OscAddressing.Config.Basic
import OscAddressing.Config.Reading
import OscAddressing.Dispatch.Call
import OscAddressing.Dispatch.Live
import OscAddressing.Dispatch.Message
import OscAddressing.Error
import OscAddressing.Json.Token
import OscAddressing.Json.Value
import OscAddressing.Matching.Matcher
import OscAddressing.Matching.Search
import OscAddressing.Pattern.AddressPattern
import OscAddressing.Pattern.Component
import OscAddressing.Pattern.Scan
import OscAddressing.Pattern.Token
import OscAddressing.Space.Basic
import OscAddressing.Space.Lookup
import OscAddressing.Space.Registration
import OscAddressing.Text.Basic
import OscAddressing.Text.GraphemeExtend
import OscAddressing.Text.Printable
import OscAddressing.Text.Quoted
import OscAddressing.Tree.Edit
import OscAddressing.Tree.Identity
import OscAddressing.Tree.Name
import OscAddressing.Tree.Node
import OscAddressing.Proofs.Text.Split
import OscAddressing.Proofs.Matching.Pieces
import OscAddressing.Proofs.Matching.Search
import OscAddressing.Proofs.Tree.Rows
import OscAddressing.Proofs.Address.Path
import OscAddressing.Proofs.Tree.Orderly
import OscAddressing.Proofs.Tree.Edit
import OscAddressing.Proofs.Tree.Withdraw
import OscAddressing.Proofs.Space.Run
import OscAddressing.Proofs.Space.Registry
import OscAddressing.Proofs.Space.Resolve
import OscAddressing.Proofs.Space.WellFormed
import OscAddressing.Proofs.Dispatch.Threads
import OscAddressing.Proofs.Pattern.Groups
import OscAddressing.Proofs.Pattern.Scan
import OscAddressing.Proofs.Pattern.Layout
import OscAddressing.Proofs.Space.Exact
import OscAddressing.Proofs.Dispatch.Isolation
import OscAddressing.Proofs.Space.Failure
import OscAddressing.Proofs.Tree.Tidy
import OscAddressing.Proofs.Space.Tidy
import OscAddressing.Proofs.Space.Identity
import OscAddressing.Proofs.Dispatch.Identity
import OscAddressing.Proofs.Pattern.NormalForm
import OscAddressing.Proofs.Dispatch.Finishing
import OscAddressing.Proofs.Dispatch.Packets
import OscAddressing.Proofs.Matching.Language
import OscAddressing.Proofs.Matching.Rewriting
import OscAddressing.Proofs.Dispatch.Tasks
import OscAddressing.Proofs.Space.Prune
import OscAddressing.Proofs.Matching.Calls
import OscAddressing.Proofs.Matching.Longest
import OscAddressing.Proofs.Dispatch.Refusal
import OscAddressing.Proofs.Space.Addresses
import OscAddressing.Proofs.Tree.Lookup
import OscAddressing.Proofs.Space.Walks
import OscAddressing.Proofs.Matching.Stepping
import OscAddressing.Proofs.Tree.Frame
import OscAddressing.Proofs.Space.Frame
