import JevGrep.Lib.Split
import JevGrep.Lib.Sha256
import JevGrep.Lib.Canonical
import JevGrep.Lib.Prefix
import JevGrep.Lib.Regex
import JevGrep.Lib.Utf16
import JevGrep.Worker.Types
import JevGrep.Contracts.PathSchema
import JevGrep.Worker.RegexGuard
import JevGrep.Lib.Utf8
import JevGrep.Lib.Json
import JevGrep.Lib.Schema
import JevGrep.Lib.Transition
import JevGrep.Client.Protocol
import JevGrep.Client.NativeWorker
import JevGrep.Client.CallSafety
import JevGrep.Client.Pinning
import JevGrep.Worker.Wire
import JevGrep.Client.Carriage
import JevGrep.Workspace.Policy
import JevGrep.Workspace.Registry
import JevGrep.Workspace.RootAuthority
import JevGrep.Workspace.Scoped
import JevGrep.Service.Contract
import JevGrep.Service.Exact
import JevGrep.Service.Coverage
import JevGrep.Service.Answers
import JevGrep.Service.Trimming
import JevGrep.Lib.Exec
import JevGrep.Worker.Os
import JevGrep.Worker.Scope
import JevGrep.Worker.Search
import JevGrep.Worker.Account
import JevGrep.Worker.Tree
import JevGrep.Worker.Calls
import JevGrep.Worker.Observed
import JevGrep.Worker.Streams
import JevGrep.Worker.Invariant
import JevGrep.Worker.Result
import JevGrep.Worker.Excerpt
import JevGrep.Worker.Capture
import JevGrep.Worker.Reply
import JevGrep.Worker.Read
import JevGrep.Worker.Budget
import JevGrep.Worker.Passed
import JevGrep.Worker.Snapshot
import JevGrep.Lib.Simulation
import JevGrep.Worker.Plan
import JevGrep.Worker.Follow
import JevGrep.Worker.Totals
import JevGrep.Worker.Order
import JevGrep.Worker.Longest
import JevGrep.Worker.Agree
import JevGrep.Worker.Eligible
import JevGrep.Client.Accept
import JevGrep.Service.Source
import JevGrep.Workspace.Lifecycle
import JevGrep.Workspace.Grammar
import JevGrep.Service.Identity
import JevGrep.Service.Delivery
import JevGrep.Client.Framing
import JevGrep.Worker.Session
import JevGrep.Client.Journal
import JevGrep.Client.Together
import JevGrep.Service.Reread
