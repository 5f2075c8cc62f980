import TlpiLearn.Accounts.AclQuery
import TlpiLearn.BinaryFifo.Fifo
import TlpiLearn.BinaryFifo.Nonblock
import TlpiLearn.BinaryFifo.Tokens
import TlpiLearn.Bridge.QueueBridge
import TlpiLearn.Environ.SetEnv
import TlpiLearn.Environ.UnsetEnv
import TlpiLearn.FifoSeqnum.SaveFile
import TlpiLearn.FifoSeqnum.Termination
import TlpiLearn.FileIo.Dup
import TlpiLearn.FileIo.RandomFiles
import TlpiLearn.FileIo.ScatterGather
import TlpiLearn.FileIo.SendFile
import TlpiLearn.FileIo.Tail
import TlpiLearn.FileIo.TreeWalk
import TlpiLearn.FileIo.TreeWalkFrame
import TlpiLearn.FileIo.TreeWalkRuns
import TlpiLearn.FileIo.TreeWalkStart
import TlpiLearn.FileIo.TreeWalkSteps
import TlpiLearn.FileServer.MqFile
import TlpiLearn.FileServer.SvMsgFile
import TlpiLearn.Foundations.CString
import TlpiLearn.Foundations.Component
import TlpiLearn.Foundations.Decimal
import TlpiLearn.Foundations.DescriptorTable
import TlpiLearn.Foundations.Environ
import TlpiLearn.Foundations.FileSystem
import TlpiLearn.Foundations.HeapTree
import TlpiLearn.Foundations.InsertionMap
import TlpiLearn.Foundations.Intervals
import TlpiLearn.Foundations.Lines
import TlpiLearn.Foundations.Machine
import TlpiLearn.Foundations.Merge
import TlpiLearn.Foundations.MsgQueue
import TlpiLearn.Foundations.Outcome
import TlpiLearn.Foundations.Overlay
import TlpiLearn.Foundations.ParentTable
import TlpiLearn.Foundations.Pathname
import TlpiLearn.Foundations.SList
import TlpiLearn.Foundations.StringMemory
import TlpiLearn.Foundations.Tokens
import TlpiLearn.Foundations.Traces
import TlpiLearn.Groups.InitGroups
import TlpiLearn.KeyValue.Acknowledged
import TlpiLearn.KeyValue.ClientServer
import TlpiLearn.KeyValue.CommandSafety
import TlpiLearn.KeyValue.ConnectionLoop
import TlpiLearn.KeyValue.Grammar
import TlpiLearn.KeyValue.Kv
import TlpiLearn.KeyValue.LockStep
import TlpiLearn.KeyValue.Refinement
import TlpiLearn.KeyValue.Returns
import TlpiLearn.KeyValue.ShowFits
import TlpiLearn.MsgSeqnum.Safety
import TlpiLearn.MsgSeqnum.Service
import TlpiLearn.MsgSeqnum.Wedge
import TlpiLearn.Paths.Dirname
import TlpiLearn.Paths.GetCwd
import TlpiLearn.Paths.RealPath
import TlpiLearn.Popen.BadModes
import TlpiLearn.Popen.Inheritance
import TlpiLearn.Popen.MyPopen
import TlpiLearn.Popen.Waits
import TlpiLearn.Processes.PrintProc
import TlpiLearn.Processes.ProcessTree
import TlpiLearn.Processes.StatusFile
import TlpiLearn.ReadLine.Interrupts
import TlpiLearn.ReadLine.LongLines
import TlpiLearn.ReadLine.MyReadLineBuf
import TlpiLearn.ReadLine.ReadLine
import TlpiLearn.SharedMemory.BinarySemXfr
import TlpiLearn.SharedMemory.BinarySemXfrTraces
import TlpiLearn.SharedMemory.EventFlag
import TlpiLearn.SharedMemory.EventFlagHistory
import TlpiLearn.SharedMemory.EventFlagXfr
import TlpiLearn.SharedMemory.EventFlagXfrSafety
import TlpiLearn.SharedMemory.EventFlagXfrTraces
import TlpiLearn.Signals.PingPong
import TlpiLearn.Signals.SigSet
import TlpiLearn.Sockets.EchoLimit
import TlpiLearn.Sockets.InetSockets
import TlpiLearn.Sockets.Relay
import TlpiLearn.Sockets.RelaySafety
import TlpiLearn.Sockets.SelectEcho
import TlpiLearn.Sockets.SelectEchoAvailability
import TlpiLearn.Sockets.SelectEchoSafety
import TlpiLearn.Sockets.ShellServer
import TlpiLearn.Sockets.SshLogin
import TlpiLearn.Sockets.TcpSeqnum
import TlpiLearn.Sockets.UnixSeqnum
import TlpiLearn.Terminal.GetPass
import TlpiLearn.Terminal.PtyRelay
import TlpiLearn.Terminal.Recording
import TlpiLearn.Terminal.ReplaySplitter
import TlpiLearn.Terminal.ScriptReplay
import TlpiLearn.Terminal.ScriptTime
import TlpiLearn.Terminal.ScriptTimes
import TlpiLearn.Threads.OneTimeInit
import TlpiLearn.Threads.PosixXfr
import TlpiLearn.Threads.PosixXfrSafety
import TlpiLearn.Threads.TsbDelete
import TlpiLearn.Threads.TsbInitialize
import TlpiLearn.Threads.TsbLocks
import TlpiLearn.Threads.TsbMap
import TlpiLearn.Threads.TsbTree
import TlpiLearn.Threads.TsbTreeSafety
import TlpiLearn.Timers.AbsoluteSleep
import TlpiLearn.Timers.TimerSpec
import TlpiLearn.Foundations.Dispenser
import TlpiLearn.Foundations.Refinement
import TlpiLearn.MqSeqnum.Service
import TlpiLearn.MqSeqnum.Correct
import TlpiLearn.Foundations.Parties
import TlpiLearn.MqSeqnum.Served
import TlpiLearn.FifoSeqnum.Protocol
import TlpiLearn.FifoSeqnum.Tickets
import TlpiLearn.FifoSeqnum.BadClients
import TlpiLearn.CommandLine.GetNum
import TlpiLearn.FileServer.SvMsgServer
import TlpiLearn.Foundations.Notification
import TlpiLearn.MqNotify.Signals
import TlpiLearn.MqNotify.Polling
import TlpiLearn.MqNotify.Threads
import TlpiLearn.Foundations.Monitor
import TlpiLearn.Threads.ProdCondvar
import TlpiLearn.Threads.MultiJoin
import TlpiLearn.ReadLine.ReadLineBuf
