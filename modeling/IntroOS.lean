import IntroOS.CString.Token
import IntroOS.CString.Strtok
import IntroOS.CString.Number
import IntroOS.CString.Compare
import IntroOS.Concurrency.System
import IntroOS.Concurrency.Lock
import IntroOS.Concurrency.Program
import IntroOS.Concurrency.Fairness
import IntroOS.Concurrency.Potential
import IntroOS.Concurrency.Refinement
import IntroOS.RingBuffer.Window
import IntroOS.Gfclient.Model
import IntroOS.Gfclient.Perform
import IntroOS.Gfclient.Memory
import IntroOS.Gfclient.OnStrings
import IntroOS.Gfclient.Refinement
import IntroOS.Gfclient.Phases
import IntroOS.Gfclient.Transfer
import IntroOS.Gfclient.Download
import IntroOS.Gfclient.Survival
import IntroOS.Gfclient.Threads
import IntroOS.Gfclient.Truncation
import IntroOS.Gfclient.BodyPhase
import IntroOS.Gfclient.ErrorReply
import IntroOS.Gfserver.Model
import IntroOS.Gfserver.Serve
import IntroOS.Gfserver.Transfer
import IntroOS.Gfserver.Wire
import IntroOS.Gfclient.HeaderCall
import IntroOS.Gfclient.Status
import IntroOS.Gfserver.Fragments
import IntroOS.Gfserver.Leak
import IntroOS.Gfserver.Grammar
import IntroOS.Gfserver.Lifecycle
import IntroOS.Gfserver.Growth
import IntroOS.Gfserver.ShortWrites
import IntroOS.Gfserver.RetryingSend
import IntroOS.Content.Model
import IntroOS.Content.Lookup
import IntroOS.Content.Parse
import IntroOS.LinkedList.Chain
import IntroOS.Mtgf.Steque
import IntroOS.Mtgf.StequeList
import IntroOS.Mtgf.StequeDestroy
import IntroOS.Mtgf.Pool
import IntroOS.Mtgf.QueueRace
import IntroOS.Mtgf.PathRace
import IntroOS.Mtgf.Transfers
import IntroOS.Mtgf.Descriptors
import IntroOS.Mtgf.Workload
import IntroOS.Gfclient.LocalNames
import IntroOS.Gfclient.OpenFile
import IntroOS.Gfclient.Workload
import IntroOS.Transfer.Server
import IntroOS.Transfer.Client
import IntroOS.Transfer.Exchange
import IntroOS.Metrics.Workload
import IntroOS.Preparation.Role
import IntroOS.Preparation.OneSlot
import IntroOS.Preparation.Semaphores
import IntroOS.Preparation.Mailboxes
import IntroOS.Preparation.Monitor
import IntroOS.Preparation.MonitorWakeups
import IntroOS.Preparation.SleepWakeup
import IntroOS.Preparation.MutualExclusion
import IntroOS.Preparation.Starvation
import IntroOS.Preparation.Throughput
import IntroOS.Preparation.BoundedQueue
import IntroOS.Gfclient.Kept
import IntroOS.Session.Getfile
import IntroOS.Mtgf.Waiting
import IntroOS.Mtgf.Dispatch
import IntroOS.Mtgf.Answers
import IntroOS.Session.AcceptLoop
import IntroOS.Echo.Session
import IntroOS.Gfserver.Forking
import IntroOS.Preparation.BackAndForth
import IntroOS.Gfclient.MainLoop
import IntroOS.Session.Downloads
import IntroOS.Gfserver.Limit
import IntroOS.Session.Library
import IntroOS.Session.Workload
