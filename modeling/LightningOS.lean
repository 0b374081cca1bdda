import LightningOS.Lib.Memory
import LightningOS.Lib.BlockList
import LightningOS.Lib.Ring
import LightningOS.Lib.CString
import LightningOS.Lib.Fields
import LightningOS.Lib.Store
import LightningOS.Lib.Forest
import LightningOS.Lib.Fnv
import LightningOS.Lib.Queue
import LightningOS.Lib.History
import LightningOS.Lib.Buffer
import LightningOS.Lib.Stack
import LightningOS.Kernel.Mem
import LightningOS.Kernel.Task
import LightningOS.Kernel.Interrupt
import LightningOS.Fs.Ramfs
import LightningOS.Fs.WalkArray
import LightningOS.Kernel.Users
import LightningOS.Drivers.Ata
import LightningOS.Drivers.AtaPorts
import LightningOS.Fs.Persist
import LightningOS.Kernel.Console
import LightningOS.Kernel.Install
import LightningOS.Kernel.Shell
import LightningOS.Kernel.Jobs
import LightningOS.Kernel.Main
import LightningOS.Properties.HeapLayout
import LightningOS.Properties.Heap
import LightningOS.Properties.Region
import LightningOS.Properties.Alloc
import LightningOS.Properties.Align
import LightningOS.Properties.Refree
import LightningOS.Properties.Sched
import LightningOS.Properties.Fair
import LightningOS.Properties.Effects
import LightningOS.Properties.Frame
import LightningOS.Properties.Switch
import LightningOS.Properties.Ledger
import LightningOS.Properties.Codec
import LightningOS.Properties.Transfer
import LightningOS.Properties.Ports
import LightningOS.Properties.Sectors
import LightningOS.Properties.PersistRun
import LightningOS.Properties.Seal
import LightningOS.Properties.Tree
import LightningOS.Properties.Walk
import LightningOS.Properties.TreeParts
import LightningOS.Properties.TreeOps
import LightningOS.Properties.Cwd
import LightningOS.Properties.Accounts
import LightningOS.Properties.Area
import LightningOS.Properties.Backing
import LightningOS.Properties.Representation
import LightningOS.Properties.Siblings
import LightningOS.Properties.Location
import LightningOS.Properties.Resolve
import LightningOS.Properties.Removal
import LightningOS.Properties.Contents
import LightningOS.Properties.Terminal
import LightningOS.Properties.InstallBoot
import LightningOS.Properties.Commands
import LightningOS.Properties.Privilege
import LightningOS.Properties.Flush
import LightningOS.Properties.Reader
import LightningOS.Properties.Decoder
import LightningOS.Properties.Mount
import LightningOS.Properties.Permission
import LightningOS.Properties.Capacity
import LightningOS.Properties.Snapshot
import LightningOS.Properties.Corruption
import LightningOS.Properties.Reach
import LightningOS.Properties.Records
import LightningOS.Properties.Restore
import LightningOS.Properties.Target
import LightningOS.Properties.Confine
import LightningOS.Properties.Keystrokes
import LightningOS.Properties.PastLines
import LightningOS.Properties.LineEditor
import LightningOS.Properties.Prompts
import LightningOS.Properties.RoundTrip
import LightningOS.Properties.Listing
import LightningOS.Properties.States
import LightningOS.Properties.Passwd
import LightningOS.Properties.Replayed
import LightningOS.Properties.SaveMount
import LightningOS.Properties.Longer
import LightningOS.Properties.Superblock
import LightningOS.Properties.Echo
import LightningOS.Properties.Modifiers
import LightningOS.Properties.Clock
import LightningOS.Properties.Resync
import LightningOS.Properties.Format
import LightningOS.Properties.Numbers
import LightningOS.Properties.Truncation
import LightningOS.Properties.Jobs
import LightningOS.Lib.Layout
import LightningOS.Tools.MakeIso
import LightningOS.Properties.Iso
import LightningOS.Properties.Crash
import LightningOS.Properties.Overflow
import LightningOS.Properties.Boot
import LightningOS.Properties.Login
import LightningOS.Properties.Shown
import LightningOS.Properties.Faults
