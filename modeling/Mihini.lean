import Mihini.Bysant.Serializer
import Mihini.Bysant.Deserializer
import Mihini.Bysant.Plan
import Mihini.Lib.Retry
import Mihini.Bysant.Resume
import Mihini.Bysant.Unchecked
import Mihini.Bysant.Codec
import Mihini.Bysant.Classes
import Mihini.Bysant.Staging
import Mihini.Bysant.Reading
import Mihini.Bysant.Lockstep
import Mihini.Bysant.Roundtrip
import Mihini.Bysant.Incremental
import Mihini.M3da.Security
import Mihini.Lib.Run
import Mihini.M3da.Freshness
import Mihini.Lib.LuaArray
import Mihini.Racon.EmpParser
import Mihini.Sched.Pipe
import Mihini.Sched.PipeTasks
import Mihini.Lib.LuaTable
import Mihini.Sched.Lock
import Mihini.Sched.Signals
import Mihini.Sched.Hooks
import Mihini.Sched.Waits
import Mihini.Sched.Life
import Mihini.LuaToBin.Codec
import Mihini.LuaToBin.Roundtrip
import Mihini.LuaToBin.Prefix
import Mihini.Persist.File
import Mihini.Persist.Copies
import Mihini.Persist.Reload
import Mihini.Persist.Crash
import Mihini.M3da.Fragments
import Mihini.Sched.Timer
import Mihini.Lib.Checks
import Mihini.Update.PkgCheck
import Mihini.Update.Dependencies
import Mihini.Treemgr.Mapping
import Mihini.Treemgr.Agreement
import Mihini.Update.Machine
import Mihini.Update.Invariant
import Mihini.Update.Soundness
import Mihini.Update.Pause
import Mihini.Update.Quiet
import Mihini.Update.Consistency
import Mihini.Update.Cache
import Mihini.Update.Retries
import Mihini.Treemgr.Hooks
import Mihini.Treemgr.Notifications
import Mihini.Asscon.Registry
import Mihini.Data.Tables
import Mihini.Data.Bookkeeping
import Mihini.Racon.Semaphore
import Mihini.Lib.Pieces
import Mihini.Racon.EmpFrame
import Mihini.Racon.Ipc
import Mihini.Rpc.Session
import Mihini.Monitoring.Scripts
import Mihini.Bysant.Independence
import Mihini.M3da.Connections
import Mihini.M3da.Exchange
import Mihini.Lib.LuaPaths
import Mihini.Lib.LuaTree
import Mihini.Racon.AssetTree
import Mihini.Racon.SendData
import Mihini.Srvcon.Dispatch
import Mihini.Update.Downloader
import Mihini.Config.Store
import Mihini.Config.Agreement
import Mihini.Sched.Fd
import Mihini.Sched.FdWatches
import Mihini.Web.Digest
import Mihini.Web.Protection
import Mihini.Treemgr.ExtVars
import Mihini.Airvantage.Messages
import Mihini.Airvantage.Dispatch
import Mihini.Airvantage.AssetLock
import Mihini.Appmon.PointerList
import Mihini.Appmon.Daemon
import Mihini.Appmon.Supervision
import Mihini.Appcon.Container
import Mihini.Appcon.Stores
import Mihini.Devicetree.Registrations
import Mihini.Devicetree.Invariant
import Mihini.Devicetree.Delivery
import Mihini.Sms.Listeners
import Mihini.Modbus.Crc
import Mihini.Modbus.Pool
import Mihini.Modbus.Responses
import Mihini.Web.Url
import Mihini.Web.Rest
import Mihini.Devicetree.Get
import Mihini.Lib.Recv
import Mihini.Luasignal.Frames
import Mihini.Ntp.Core
import Mihini.Ntp.Synchronize
import Mihini.Serial.At
import Mihini.Serial.Responses
import Mihini.Lib.Numerals
import Mihini.Lib.Http
import Mihini.Web.Server
import Mihini.Web.Responses
import Mihini.Web.Exchanges
import Mihini.Lib.LuaString
import Mihini.Lib.Cbc
import Mihini.Crypto.Filter
import Mihini.Teel.History
import Mihini.Socket.Boundaries
import Mihini.Sched.Latency
import Mihini.Shell.Jobs
import Mihini.Shell.Lines
import Mihini.Racon.Dispatch
import Mihini.Lib.Cut
import Mihini.Teel.KeySeq
import Mihini.Teel.Recognition
import Mihini.Lib.Loop
import Mihini.Telnet.Interpreter
import Mihini.Telnet.Stream
import Mihini.Telnet.LineMode
import Mihini.Telnet.EditMode
import Mihini.Telnet.Commands
import Mihini.Mediation.Service
import Mihini.Update.Versions
import Mihini.Update.SoftwareList
import Mihini.Keystore.Keys
import Mihini.Messaging.Concat
import Mihini.Messaging.Septets
import Mihini.Messaging.Submit
import Mihini.Log.Store
import Mihini.Data.Delivery
import Mihini.Data.Completion
import Mihini.Treemgr.GetSet
import Mihini.Utils.Multipairs
import Mihini.Utils.PathAlgebra
