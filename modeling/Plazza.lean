import Plazza.Foundation.Balance
import Plazza.Foundation.Countdown
import Plazza.Foundation.Custody
import Plazza.Foundation.Effect
import Plazza.Foundation.Fairness
import Plazza.Foundation.Fifo
import Plazza.Foundation.Lines
import Plazza.Foundation.Machine
import Plazza.Foundation.Mutex
import Plazza.Foundation.Regex
import Plazza.Foundation.Tally
import Plazza.Foundation.Unwind
import Plazza.Construction.Concurrency
import Plazza.Construction.Cook
import Plazza.Construction.Demolition
import Plazza.Construction.Dispatch
import Plazza.Construction.Exchange
import Plazza.Construction.Fork
import Plazza.Construction.IngredientStock
import Plazza.Construction.Kernel
import Plazza.Construction.Kitchen
import Plazza.Construction.KitchenProcess
import Plazza.Construction.KitchenWorker
import Plazza.Construction.Ledger
import Plazza.Construction.LoadBalancer
import Plazza.Construction.LockedPool
import Plazza.Construction.MessageQueue
import Plazza.Construction.Packet
import Plazza.Construction.Parser
import Plazza.Construction.Pizza
import Plazza.Construction.Pizzeria
import Plazza.Construction.PoolClient
import Plazza.Construction.Session
import Plazza.Construction.SharedPool
import Plazza.Construction.SharedStock
import Plazza.Construction.Shell
import Plazza.Construction.Spawn
import Plazza.Construction.StockClient
import Plazza.Construction.Storage
import Plazza.Construction.ThreadPool
import Plazza.Proof.Kitchen.Alone
import Plazza.Proof.Kitchen.Contract
import Plazza.Proof.Kitchen.Cooking
import Plazza.Proof.Kitchen.Demolition
import Plazza.Proof.Kitchen.Departure
import Plazza.Proof.Kitchen.Idle
import Plazza.Proof.Kitchen.Idling
import Plazza.Proof.Kitchen.Legible
import Plazza.Proof.Kitchen.Liveness
import Plazza.Proof.Kitchen.Progress
import Plazza.Proof.Kitchen.Provisions
import Plazza.Proof.Kitchen.Service
import Plazza.Proof.Kitchen.Steps
import Plazza.Proof.Kitchen.Tickets
import Plazza.Proof.Kitchen.Turns
import Plazza.Proof.Kitchen.Worker
import Plazza.Proof.Ledger.Countdown
import Plazza.Proof.Ledger.Totals
import Plazza.Proof.Parser.Errors
import Plazza.Proof.Parser.Orders
import Plazza.Proof.Parser.Pattern
import Plazza.Proof.Parser.Splits
import Plazza.Proof.Parser.Tokens
import Plazza.Proof.Pool.Accounts
import Plazza.Proof.Pool.Conservation
import Plazza.Proof.Pool.Guard
import Plazza.Proof.Pool.Invariant
import Plazza.Proof.Pool.Joining
import Plazza.Proof.Pool.Progress
import Plazza.Proof.Pool.Statements
import Plazza.Proof.Pool.Teardown
import Plazza.Proof.Pool.Wakeup
import Plazza.Proof.Process.Containment
import Plazza.Proof.Reception.Announcement
import Plazza.Proof.Reception.Books
import Plazza.Proof.Reception.Capacity
import Plazza.Proof.Reception.Closing
import Plazza.Proof.Reception.Completion
import Plazza.Proof.Reception.Conservation
import Plazza.Proof.Reception.Departure
import Plazza.Proof.Reception.Dispatch
import Plazza.Proof.Reception.DispatchRun
import Plazza.Proof.Reception.Frames
import Plazza.Proof.Reception.Kitchens
import Plazza.Proof.Reception.LedgerRules
import Plazza.Proof.Reception.Peak
import Plazza.Proof.Reception.Record
import Plazza.Proof.Reception.Refusal
import Plazza.Proof.Reception.Register
import Plazza.Proof.Reception.Returns
import Plazza.Proof.Reception.Settlement
import Plazza.Proof.Reception.Sites
import Plazza.Proof.Reception.StatusReply
import Plazza.Proof.Reception.Steps
import Plazza.Proof.Reception.Sweep
import Plazza.Proof.Reception.Turns
import Plazza.Proof.Reception.Unbounded
import Plazza.Proof.Reception.Vacancy
import Plazza.Proof.Reception.Work
import Plazza.Proof.Resources.Creation
import Plazza.Proof.Resources.Ownership
import Plazza.Proof.Resources.Unwinding
import Plazza.Proof.Shell.Buffering
import Plazza.Proof.Shell.Ending
import Plazza.Proof.Shell.Rejection
import Plazza.Proof.Shell.Verdict
import Plazza.Proof.Shutdown.Deadlock
import Plazza.Proof.Shutdown.FullQueue
import Plazza.Proof.Shutdown.Room
import Plazza.Proof.Shutdown.Schedule
import Plazza.Proof.Status.Answers
import Plazza.Proof.Status.Consultation
import Plazza.Proof.Status.Decode
import Plazza.Proof.Status.Pass
import Plazza.Proof.Status.Report
import Plazza.Proof.Status.Responses
import Plazza.Proof.Stock.Conservation
import Plazza.Proof.Stock.Consumption
import Plazza.Proof.Stock.Regrowth
import Plazza.Proof.Stock.Sections
import Plazza.Proof.Stock.Sleepers
