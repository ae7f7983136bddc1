import GreenLib.Simulation
import GreenLib.Handover
import GreenLib.CurrentThread
import GreenLib.Waiters
import GreenLib.Lock
import GreenLib.ReleaseAcquire
import GreenLib.CondVar
import GreenLib.Buffer
import GreenLib.Continuation
import GreenLib.Semaphore
import GreenLib.EventServer
import GreenLib.DList
import GreenLib.Effects
import GreenLib.Registry
import GreenLib.Create
import GreenLib.FastWaiting
import GreenLib.SlowWaiting
import GreenLib.Asm
import GreenLib.Context
import GreenLib.Sel4Server
import GreenLib.Clients
import GreenLib.Sel4Init
import GreenLib.GreenServer
import GreenLib.GreenSteps
import GreenLib.GreenBuffer
import GreenLib.GreenDesk
import GreenLib.GreenReplies
import GreenLib.Untyped
import GreenLib.Fairness
import GreenLib.BusyWait
import GreenLib.GreenRouting
import GreenLib.Join
import GreenLib.GreenFree
import GreenLib.GreenBooks
import GreenLib.GreenLive
import GreenLib.BinSem
import GreenLib.Sel4Refine
import GreenLib.GreenDone
import GreenLib.GreenOrder
import GreenLib.Contract
import GreenLib.GreenContract
import GreenLib.TokenServer
import GreenLib.TokenSteps
import GreenLib.TokenDesk
import GreenLib.TokenReplies
import GreenLib.TokenOrder
import GreenLib.TokenLock
import GreenLib.TokenSemaphore
