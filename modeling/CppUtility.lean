import CppUtility.Transition
import CppUtility.Ownership
import CppUtility.RoundRobin
import CppUtility.Serial
import CppUtility.Printf
import CppUtility.Worker.Basic
import CppUtility.Worker.Step
import CppUtility.Worker.Queues
import CppUtility.Worker.Wakeup
import CppUtility.Worker.Drain
import CppUtility.Worker.Timers
import CppUtility.Worker.Purge
import CppUtility.Worker.Events
import CppUtility.Worker.Repeat
import CppUtility.Worker.Outcome
import CppUtility.Worker.Delay
import CppUtility.Worker.Promises
import CppUtility.Worker.Life
import CppUtility.Worker.Destructor
import CppUtility.Worker.Settle
import CppUtility.Pool.Basic
import CppUtility.Pool.Ids
import CppUtility.Pool.Shutdown
import CppUtility.Pool.Start
import CppUtility.Pool.Turns
import CppUtility.Pool.Tasks
import CppUtility.Pool.Share
import CppUtility.Pool.Rest
import CppUtility.Pool.Drain
import CppUtility.TaskDispatch.Step
import CppUtility.TaskDispatch.Fifo
import CppUtility.TaskDispatch.Wakeup
import CppUtility.TaskDispatch.Settle
import CppUtility.TaskDispatch.Life
import CppUtility.Lock.Core
import CppUtility.Lock.Guard
import CppUtility.Lock.Scope
import CppUtility.Lock.Clients
import CppUtility.Lock.Exclusive
import CppUtility.Lock.Sorted
import CppUtility.Lock.Atomic
import CppUtility.Lock.Answers
import CppUtility.Lock.WaitFree
import CppUtility.Lock.Crowd
import CppUtility.Lock.Refine
import CppUtility.Lock.Vault
import CppUtility.Status.Basic
import CppUtility.Status.Value
import CppUtility.Status.Layout
import CppUtility.Status.Format
import CppUtility.Process
import CppUtility.LineReader
import CppUtility.LineReader.Shared
import CppUtility.Regex.Syntax
import CppUtility.Regex.Match
import CppUtility.Regex.Search
import CppUtility.Regex.FullMatch
import CppUtility.Regex.Extend
import CppUtility.Regex.Append
import CppUtility.Path
import CppUtility.FileUtils.Basic
import CppUtility.FileUtils.Split
import CppUtility.FileUtils.Climb
import CppUtility.FileUtils.Stat
import CppUtility.LinkedList
import CppUtility.Router.Template
import CppUtility.Router.Route
import CppUtility.Router.Tokens
import CppUtility.Router.Tokenise
import CppUtility.Router.Pattern
import CppUtility.Router.Matches
import CppUtility.Router.Router
import CppUtility.Router.Params
import CppUtility.Router.Agree
import CppUtility.Router.Trailing
import CppUtility.Router.Dispatch
import CppUtility.WebService.Start
import CppUtility.WebService.Handlers
import CppUtility.WebService.Server
import CppUtility.WebService.Site
