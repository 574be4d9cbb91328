import Micro86.Lib.Transition
import Micro86.Lib.Redo
import Micro86.Lib.Bytes
import Micro86.Lib.Counting
import Micro86.Param
import Micro86.Log.Header
import Micro86.Log.Commit
import Micro86.Log.Recovery
import Micro86.Log.System
import Micro86.Log.Invariant
import Micro86.Log.GroupCommit
import Micro86.Log.WriteAhead
import Micro86.Log.Reservation
import Micro86.Fs.Layout
import Micro86.Lib.Exec
import Micro86.Lib.Ownership
import Micro86.Fs.State
import Micro86.Fs.Blocks
import Micro86.Fs.Inodes
import Micro86.Fs.Content
import Micro86.Fs.ReadWrite
import Micro86.Fs.Files
import Micro86.Fs.Dirs
import Micro86.Fs.Paths
import Micro86.Fs.Ownership
import Micro86.Tree.Model
import Micro86.Tree.Blocks
import Micro86.Tree.Forest
import Micro86.Tree.Directories
import Micro86.Tree.Walks
import Micro86.Tree.Links
import Micro86.Tree.Removal
import Micro86.Tree.Creation
import Micro86.Tree.System
import Micro86.Tree.Runs
import Micro86.Mkfs.Image
import Micro86.Mkfs.Append
import Micro86.Mkfs.ReadBack
import Micro86.Mkfs.Scan
import Micro86.Mkfs.Packing
import Micro86.Mkfs.Stored
import Micro86.Mkfs.Consistency
import Micro86.Fs.Lookup
import Micro86.Mkfs.Entries
import Micro86.Mkfs.Names
import Micro86.Mkfs.Links
import Micro86.Tree.Quiet
import Micro86.Mm.Copyout
import Micro86.Sys.Args
import Micro86.Sys.Vector
import Micro86.Signal.Frame
import Micro86.Signal.Deliver
import Micro86.Signal.Mode
import Micro86.Ipc.Pipe
import Micro86.Proc.Ids
import Micro86.Ipc.Wakeup
import Micro86.File.Refs
import Micro86.File.Balance
import Micro86.Lib.Links
import Micro86.Bio.Cache
import Micro86.Bio.Locks
import Micro86.Bio.Transparent
import Micro86.Lib.Program
import Micro86.Calls.Model
import Micro86.Calls.Routines
import Micro86.Calls.Transactions
import Micro86.Calls.Steps
import Micro86.Calls.Ledger
import Micro86.Calls.References
import Micro86.Lib.Serial
import Micro86.Calls.Serial
import Micro86.Calls.Calm
import Micro86.Calls.Creation
import Micro86.Calls.Owner
import Micro86.Calls.Files
import Micro86.Signal.Chosen
import Micro86.Signal.Nesting
import Micro86.Signal.Pending
import Micro86.Proc.Table
import Micro86.Proc.Tree
import Micro86.Proc.Steps
import Micro86.Proc.Exit
import Micro86.Proc.Sigchld
import Micro86.Proc.Signals
import Micro86.Mm.Vm
import Micro86.Mm.Uvm
import Micro86.Mm.Kmap
import Micro86.Time.Clock
import Micro86.Exec.Script
import Micro86.Tty.Input
import Micro86.Tty.Discipline
import Micro86.Bio.Pool
import Micro86.Exec.Load
import Micro86.Exec.Safe
import Micro86.Exec.Stack
import Micro86.Exec.Outcome
import Micro86.Proc.Results
import Micro86.Klib.Strings
import Micro86.Klib.Type64
