import CS111.Boot.BootDisk
import CS111.Boot.LibMemory
import CS111.Boot.Loader
import CS111.Boot.Loading
import CS111.Lib.Absorb
import CS111.Lib.Accounting
import CS111.Lib.Acyclic
import CS111.Lib.CString
import CS111.Lib.Digits
import CS111.Lib.Doubling
import CS111.Lib.Exclusion
import CS111.Lib.Fallible
import CS111.Lib.ForwardCopy
import CS111.Lib.GrowBuffer
import CS111.Lib.Initializer
import CS111.Lib.Logged
import CS111.Lib.Md5
import CS111.Lib.Memory
import CS111.Lib.Ownership
import CS111.Lib.Passes
import CS111.Lib.Paths
import CS111.Lib.Ring
import CS111.Lib.Rotation
import CS111.Lib.RoundRobin
import CS111.Lib.Run
import CS111.Lib.Scattered
import CS111.Lib.Turns
import CS111.Lib.Words
import CS111.Lib.WriteBack
import CS111.Mpos.Answers
import CS111.Mpos.Deliveries
import CS111.Mpos.Effects
import CS111.Mpos.ForkStack
import CS111.Mpos.History
import CS111.Mpos.Kernel
import CS111.Mpos.Waiters
import CS111.Ospfs.BlankEntries
import CS111.Ospfs.BlockCache
import CS111.Ospfs.BlockMap
import CS111.Ospfs.BlockOwnership
import CS111.Ospfs.Blocks
import CS111.Ospfs.BoundedReads
import CS111.Ospfs.ChangeSize
import CS111.Ospfs.Crash
import CS111.Ospfs.Digest
import CS111.Ospfs.Directories
import CS111.Ospfs.Directory
import CS111.Ospfs.DirectoryCalls
import CS111.Ospfs.DirectoryNames
import CS111.Ospfs.Dirents
import CS111.Ospfs.Disk
import CS111.Ospfs.Dropping
import CS111.Ospfs.EntryChanges
import CS111.Ospfs.FailedInsertions
import CS111.Ospfs.FileBytes
import CS111.Ospfs.FileRuns
import CS111.Ospfs.FileTrees
import CS111.Ospfs.Files
import CS111.Ospfs.Format
import CS111.Ospfs.FormatConsistent
import CS111.Ospfs.FormatDirectory
import CS111.Ospfs.FormatFiles
import CS111.Ospfs.FormatImage
import CS111.Ospfs.FormatTree
import CS111.Ospfs.Forming
import CS111.Ospfs.Frames
import CS111.Ospfs.FreeMap
import CS111.Ospfs.FullDisk
import CS111.Ospfs.Growing
import CS111.Ospfs.HardLinks
import CS111.Ospfs.HostTree
import CS111.Ospfs.ImageSource
import CS111.Ospfs.InPlace
import CS111.Ospfs.LastBlock
import CS111.Ospfs.LinkCounts
import CS111.Ospfs.LinkNames
import CS111.Ospfs.Lookup
import CS111.Ospfs.Md5
import CS111.Ospfs.Mounted
import CS111.Ospfs.MountedTree
import CS111.Ospfs.NameMaps
import CS111.Ospfs.NameRuns
import CS111.Ospfs.NameTables
import CS111.Ospfs.NewSymlinks
import CS111.Ospfs.NodeImage
import CS111.Ospfs.Nodes
import CS111.Ospfs.OpenFiles
import CS111.Ospfs.Pointers
import CS111.Ospfs.Readdir
import CS111.Ospfs.Readn
import CS111.Ospfs.Resize
import CS111.Ospfs.RoundTrip
import CS111.Ospfs.SafeResizing
import CS111.Ospfs.Shrinking
import CS111.Ospfs.SizeLimits
import CS111.Ospfs.SlotTrees
import CS111.Ospfs.SymlinkTargets
import CS111.Ospfs.TransparentCache
import CS111.Ospfs.Undo
import CS111.Ospfs.Volume
import CS111.Ospfs.ZeroFill
import CS111.P2P.DecimalScan
import CS111.P2P.Digest
import CS111.P2P.DownloadFiles
import CS111.P2P.FileNames
import CS111.P2P.Md5
import CS111.P2P.MessageBuffer
import CS111.P2P.MessageRoundTrip
import CS111.P2P.PeerList
import CS111.P2P.ScanBounds
import CS111.P2P.TaskBuffer
import CS111.P2P.TaskBufferFifo
import CS111.P2P.TrackerResponse
import CS111.P2P.Transfer
import CS111.P2P.UploadLimit
import CS111.P2P.UploadPaths
import CS111.P2P.WriteScan
import CS111.Ramdisk.Access
import CS111.Ramdisk.Backing
import CS111.Ramdisk.Deadlock
import CS111.Ramdisk.Effects
import CS111.Ramdisk.FailedTries
import CS111.Ramdisk.Lock
import CS111.Ramdisk.LockCalls
import CS111.Ramdisk.LockExclusion
import CS111.Ramdisk.Queue
import CS111.Ramdisk.Sectors
import CS111.Ramdisk.TicketNumbers
import CS111.Ramdisk.TicketOrder
import CS111.Ramdisk.TicketWrap
import CS111.Ramdisk.WakeUps
import CS111.Schedos.Application
import CS111.Schedos.ByPid
import CS111.Schedos.Completion
import CS111.Schedos.Console
import CS111.Schedos.ConsoleBounds
import CS111.Schedos.Dispatch
import CS111.Schedos.Fairness
import CS111.Schedos.Kernel
import CS111.Schedos.Printing
import CS111.Schedos.Priorities
import CS111.Schedos.Queues
import CS111.Schedos.Shares
import CS111.Schedos.System
import CS111.Schedos.Turns
import CS111.Shell.Command
import CS111.Shell.Continued
import CS111.Shell.EveryCommand
import CS111.Shell.Execute
import CS111.Shell.FrontEnd
import CS111.Shell.LastLine
import CS111.Shell.LexemeScanner
import CS111.Shell.LexerBuffers
import CS111.Shell.LexerReads
import CS111.Shell.LexerRefinement
import CS111.Shell.LogLines
import CS111.Shell.NewlineEdits
import CS111.Shell.OpenDescriptors
import CS111.Shell.PaddedScripts
import CS111.Shell.Parser
import CS111.Shell.ParserCalls
import CS111.Shell.ParserComplete
import CS111.Shell.ParserSimulation
import CS111.Shell.ParserSound
import CS111.Shell.PrintCommand
import CS111.Shell.PrintedTrees
import CS111.Shell.Printing
import CS111.Shell.ReadCommand
import CS111.Shell.Redirection
import CS111.Shell.Rendering
import CS111.Shell.ScannerRuns
import CS111.Shell.ScannerState
import CS111.Shell.Scanning
import CS111.Shell.ScriptReads
import CS111.Shell.ScriptTrees
import CS111.Shell.Statuses
import CS111.Shell.Token
import CS111.Shell.TokenLines
import CS111.Shell.TokenReads
import CS111.Shell.Tokenizer
import CS111.Shell.WriteLog
