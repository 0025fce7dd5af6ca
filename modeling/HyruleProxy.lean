import HyruleProxy.GoString
import HyruleProxy.GoMap
import HyruleProxy.Digits
import HyruleProxy.NetIP
import HyruleProxy.Lease
import HyruleProxy.Allocator
import HyruleProxy.PortReuse
import HyruleProxy.Store
import HyruleProxy.Ledger
import HyruleProxy.StoreInvariant
import HyruleProxy.StoreOpen
import HyruleProxy.StoreRun
import HyruleProxy.Recovery
import HyruleProxy.TokenLife
import HyruleProxy.Atomicity
import HyruleProxy.Manager
import HyruleProxy.Daemon
import HyruleProxy.Heap
import HyruleProxy.DaemonInvariant
import HyruleProxy.DaemonRun
import HyruleProxy.Isolation
import HyruleProxy.Revocation
import HyruleProxy.Generation
import HyruleProxy.Handover
import HyruleProxy.Sessions
import HyruleProxy.SessionView
import HyruleProxy.LastWriter
import HyruleProxy.VisitorCap
import HyruleProxy.ForwardClose
import HyruleProxy.AuthLimiter
import HyruleProxy.Coordinator
import HyruleProxy.Traffic
import HyruleProxy.Sweep
import HyruleProxy.Secrecy
import HyruleProxy.PaidTime
import HyruleProxy.Durations
import HyruleProxy.Usable
import HyruleProxy.NetIPText
import HyruleProxy.HardCap
import HyruleProxy.Strings
import HyruleProxy.HeaderKeys
import HyruleProxy.HostPort
import HyruleProxy.Allowlist
import HyruleProxy.Asking
import HyruleProxy.IPPolicy
import HyruleProxy.IPBlocks
import HyruleProxy.Dialer
import HyruleProxy.Quote
import HyruleProxy.PortRange
import HyruleProxy.NetURL
import HyruleProxy.NetURLText
import HyruleProxy.URLPolicy
import HyruleProxy.Client
import HyruleProxy.Redirects
import HyruleProxy.Gates
import HyruleProxy.Lookups
import HyruleProxy.RequestHeaders
import HyruleProxy.Responses
import HyruleProxy.Handler
import HyruleProxy.Json
import HyruleProxy.RequestCodec
import HyruleProxy.RequestSize
import HyruleProxy.StatusClass
import HyruleProxy.Counting
import HyruleProxy.Cardinality
import HyruleProxy.PrefixCode
import HyruleProxy.Runs
import HyruleProxy.SSHMessages
import HyruleProxy.Intake
import HyruleProxy.Channels
import HyruleProxy.SoleForward
import HyruleProxy.RFC3339
import HyruleProxy.JsonText
import HyruleProxy.LeaseCodec
import HyruleProxy.Disk
import HyruleProxy.PortBounds
import HyruleProxy.Trim
import HyruleProxy.Bearer
import HyruleProxy.ServeMux
import HyruleProxy.ControlAPI
import HyruleProxy.ControlRuns
import HyruleProxy.ControlPaths
import HyruleProxy.JsonStable
import HyruleProxy.ControlBodies
import HyruleProxy.StunResponder
import HyruleProxy.EgressAPI
