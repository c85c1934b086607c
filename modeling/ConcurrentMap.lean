import ConcurrentMap.Slot
import ConcurrentMap.Table
import ConcurrentMap.Snapshot
import ConcurrentMap.Event
import ConcurrentMap.Shared
import ConcurrentMap.Action
import ConcurrentMap.Program
import ConcurrentMap.Machine
import ConcurrentMap.Cell
import ConcurrentMap.Map.Structure
import ConcurrentMap.Map.Basic
import ConcurrentMap.Map.Whole
import ConcurrentMap.Request
import ConcurrentMap.Key
import ConcurrentMap.Double
import ConcurrentMap.Value
import ConcurrentMap.Text
import ConcurrentMap.Script.Command
import ConcurrentMap.Script.Interpreter
import ConcurrentMap.Script.Session
import ConcurrentMap.Script.Concurrent
import ConcurrentMap.Script.Contention
import ConcurrentMap.Script.CellTrial
import ConcurrentMap.Script.SnapshotTrial
import ConcurrentMap.Proofs.Plain
import ConcurrentMap.Proofs.Lookup
import ConcurrentMap.Proofs.Representation
import ConcurrentMap.Proofs.Interference.Chronicle
import ConcurrentMap.Proofs.Interference.World
import ConcurrentMap.Proofs.Interference.Conduct
import ConcurrentMap.Proofs.Interference.Entries
import ConcurrentMap.Proofs.Interference.Closings
import ConcurrentMap.Proofs.Interference.Changes
import ConcurrentMap.Proofs.Interference.Logic
import ConcurrentMap.Proofs.Interference.CellRules
import ConcurrentMap.Proofs.Interference.TableRules
import ConcurrentMap.Proofs.Interference.MapRules
import ConcurrentMap.Proofs.Client
import ConcurrentMap.Proofs.Interference.Calling
import ConcurrentMap.Proofs.Interference.Runs
import ConcurrentMap.Proofs.Turns
import ConcurrentMap.Proofs.Interference.Line
import ConcurrentMap.Proofs.Linearizability
import ConcurrentMap.Proofs.Consistency
import ConcurrentMap.Proofs.Tombstones
import ConcurrentMap.Proofs.Traversal
import ConcurrentMap.Proofs.Refinement
import ConcurrentMap.Proofs.Alone
import ConcurrentMap.Proofs.Reshaping
import ConcurrentMap.Proofs.Journal
import ConcurrentMap.Proofs.Log
import ConcurrentMap.Proofs.Counters
import ConcurrentMap.Proofs.Interference.Accounts
import ConcurrentMap.Proofs.Conservation
import ConcurrentMap.Proofs.Interference.Places
import ConcurrentMap.Proofs.Interference.Touring
import ConcurrentMap.Proofs.Crowd
import ConcurrentMap.Proofs.Renaming
import ConcurrentMap.Proofs.Routines
import ConcurrentMap.Proofs.Division
import ConcurrentMap.Proofs.Interference.Sequels
import ConcurrentMap.Proofs.Interference.Courses
import ConcurrentMap.Proofs.Interference.Shares
import ConcurrentMap.Proofs.Interference.Partings
import ConcurrentMap.Proofs.Separation
import ConcurrentMap.Proofs.Reentrance
import ConcurrentMap.Proofs.Account
import ConcurrentMap.Proofs.Custody.Logic
import ConcurrentMap.Proofs.Custody.Cells
import ConcurrentMap.Proofs.Custody.Structure
import ConcurrentMap.Proofs.Custody.Operations
import ConcurrentMap.Proofs.Custody.Steps
import ConcurrentMap.Proofs.Custody.Crowds
import ConcurrentMap.Proofs.Assertions
import ConcurrentMap.Proofs.Amortisation
import ConcurrentMap.Proofs.Relocation
import ConcurrentMap.Proofs.Mirrors
import ConcurrentMap.Proofs.Renewal
import ConcurrentMap.Proofs.Solo.Cells
import ConcurrentMap.Proofs.Solo.Requests
import ConcurrentMap.Proofs.Misses
import ConcurrentMap.Proofs.Retirement
import ConcurrentMap.Proofs.Arrivals
import ConcurrentMap.Proofs.Stays
import ConcurrentMap.Proofs.Alignment
import ConcurrentMap.Proofs.Agendas
import ConcurrentMap.Proofs.Impartiality
import ConcurrentMap.Proofs.Rearranging
import ConcurrentMap.Proofs.Reclaiming
import ConcurrentMap.Proofs.Spellings
import ConcurrentMap.Proofs.Acquisitions
import ConcurrentMap.Proofs.FastPath
import ConcurrentMap.Proofs.Filling
import ConcurrentMap.Proofs.Composition
import ConcurrentMap.Proofs.Debts
import ConcurrentMap.Proofs.Announcing
import ConcurrentMap.Proofs.Cells.Access
import ConcurrentMap.Proofs.Cells.Decisions
import ConcurrentMap.Proofs.Cells.Supplies
import ConcurrentMap.Proofs.Cells.Arena
import ConcurrentMap.Proofs.Thrift
import ConcurrentMap.Proofs.Installations
import ConcurrentMap.Proofs.Parts
import ConcurrentMap.Proofs.Cells.Retries
import ConcurrentMap.Proofs.Cells.Vouching
import ConcurrentMap.Proofs.Burying
import ConcurrentMap.Proofs.Rebuilding
