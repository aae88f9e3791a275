import Apue.Lib.Transition
import Apue.Lib.Linked
import Apue.Lib.Threads
import Apue.Lib.File
import Apue.AdvIo.Rot13
import Apue.AdvIo.Rot13Run
import Apue.Threads.JobQueue
import Apue.Threads.JobQueueLock
import Apue.Threads.MsgQueue
import Apue.Threads.FooTable
import Apue.Threads.FooTableInv
import Apue.Threads.FooTableChains
import Apue.Threads.FooTableData
import Apue.Threads.FooTableStep
import Apue.Threads.FooTableRun
import Apue.Ipc.Bridge
import Apue.Lib.Token
import Apue.Lib.CString
import Apue.OpenServer.FdPassing
import Apue.OpenServer.Request
import Apue.OpenServer.Isolation
import Apue.Lib.Slots
import Apue.OpenServer.ClientTable
import Apue.OpenServer.Loop
import Apue.OpenServer.Codec
import Apue.OpenServer.Matching
import Apue.Threads.FooTableLocks
import Apue.Lib.Handshake
import Apue.TellWait.Pipe
import Apue.TellWait.Signal
import Apue.Daemons.AlreadyRunning
import Apue.Daemons.Daemonize
import Apue.Threads.Timeout
import Apue.Ipc.Popen
import Apue.Ipc.PopenTable
import Apue.Ipc.PopenRun
import Apue.Ipc.PopenChild
import Apue.Lib.Stdio
import Apue.Ipc.Coprocess
import Apue.Threads.CoarseTable
import Apue.Threads.CoarseTableInv
import Apue.Threads.CoarseTableStep
import Apue.Threads.CoarseTableRun
import Apue.Ipc.BridgePoll
import Apue.Lib.Strtok
import Apue.OpenServer.BufArgs
import Apue.OpenServer.ClientHistory
import Apue.OpenServer.Spawn
import Apue.Environ.Getenv
import Apue.Ipc.UnixSocket
import Apue.Environ.PerThread
import Apue.Lib.Calls
import Apue.Threads.RefTable
import Apue.Threads.FooTableCalls
import Apue.Threads.CoarseTableCalls
import Apue.Signals.System
import Apue.Signals.Sleep
import Apue.AdvIo.Readn
import Apue.AdvIo.NonBlocking
import Apue.Ipc.PopenFail
import Apue.Sockets.Addrinfo
import Apue.Ipc.Semaphores
import Apue.Sockets.Ruptimed
import Apue.Lib.Levels
import Apue.Terminal.Ttyname
import Apue.Terminal.TtynameSearch
import Apue.Terminal.TtynameRun
import Apue.AdvIo.Rot13Sync
import Apue.OpenServer.Conversation
import Apue.OpenServer.ConversationEnds
import Apue.Ipc.ServAccept
import Apue.Lib.Awaits
import Apue.Signals.Quit
import Apue.Signals.QuitThread
import Apue.AdvIo.Deadlock
import Apue.Db.Access
import Apue.Db.Chains
import Apue.Db.Delete
import Apue.Db.Nextrec
import Apue.Db.Run
import Apue.Terminal.Getpass
import Apue.Filedir.FtwRun
import Apue.Threads.Barrier
