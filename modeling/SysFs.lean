import SysFs.AbsolutePath
import SysFs.Base.CapturedStdFd
import SysFs.Base.Cmsg
import SysFs.Base.FileIo
import SysFs.Base.InitLogging
import SysFs.Base.LogMessage
import SysFs.Base.NetAddress
import SysFs.Base.ParseInt
import SysFs.Base.Properties
import SysFs.Base.Strings
import SysFs.Base.UniqueFd
import SysFs.Binding
import SysFs.Canonical
import SysFs.Capture
import SysFs.Climb
import SysFs.Coherence
import SysFs.Command
import SysFs.Create
import SysFs.Cutils.LocalName
import SysFs.Cutils.LocalServer
import SysFs.Cutils.NetworkClient
import SysFs.Cutils.RecordStream
import SysFs.Decompose
import SysFs.Demo.LocalSocket
import SysFs.Dir
import SysFs.Entries
import SysFs.Execute
import SysFs.Existence
import SysFs.FailedCreate
import SysFs.File
import SysFs.FsObject
import SysFs.History
import SysFs.Interchange
import SysFs.Lib.Calls
import SysFs.Lib.Descriptors
import SysFs.Lib.FileTree
import SysFs.Lib.Frames
import SysFs.Lib.Handles
import SysFs.Lib.Lines
import SysFs.Lib.Locks
import SysFs.Lib.Lookup
import SysFs.Lib.Numerals
import SysFs.Lib.Partial
import SysFs.Lib.Pieces
import SysFs.Lib.PrefixTree
import SysFs.Lib.Redirect
import SysFs.Lib.Run
import SysFs.Lib.Script
import SysFs.Lib.Sequence
import SysFs.Lib.Sh
import SysFs.Lib.Steps
import SysFs.Lib.System
import SysFs.Lib.Walk
import SysFs.Links
import SysFs.Listing
import SysFs.Location
import SysFs.Logging
import SysFs.MakePath
import SysFs.Methods
import SysFs.Move
import SysFs.Objects
import SysFs.Outcome
import SysFs.OutputFile
import SysFs.Path
import SysFs.PathText
import SysFs.Pipe
import SysFs.Queries
import SysFs.Redirection
import SysFs.Remove
import SysFs.Resolve
import SysFs.Resolved
import SysFs.Separators
import SysFs.Shell
import SysFs.Spelling
import SysFs.Streams
import SysFs.Transfer
