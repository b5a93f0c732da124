import PySpell.ParseTotal
import PySpell.ScopeNames
import PySpell.EvalBounds
import PySpell.EvalMemory
import PySpell.EvalBudget
import PySpell.EvalAsync
import PySpell.Deadline
import PySpell.Membership
import PySpell.Integers
import PySpell.JsonGet
import PySpell.Allowlist
import PySpell.SerialPush
import PySpell.TcpStream
import PySpell.TcpOnce
import PySpell.TcpAck
import PySpell.TcpReceive
import PySpell.TcpTeardown
import PySpell.TcpWindow
import PySpell.WgTransport
import PySpell.Node
import PySpell.NetMapFraming
import PySpell.H2
import PySpell.H2Framing
import PySpell.H2Credit
import PySpell.ControlChannel
import PySpell.ControlFraming
import PySpell.ControlRecords
import PySpell.H2Clients
import PySpell.CheckpointLayout
import PySpell.Runnable
import PySpell.DataPlane
import PySpell.DataPlaneSteps
import PySpell.TunnelTable
import PySpell.Derp
import PySpell.SourceFilter
import PySpell.PacketFilter
import PySpell.DualCore
import PySpell.LocalServer
import PySpell.Ranges
import PySpell.Stun
import PySpell.DiscoMessages
import PySpell.PacketRoutes
import PySpell.Checksums
import PySpell.TokenizerText
import PySpell.TcpBatch
import PySpell.TcpFetch
import PySpell.OutboundClient
import PySpell.Transformer
import PySpell.TransformerSafe
import PySpell.CacheReuse
import PySpell.Lib.JsonString
import PySpell.GenerationBounds
import PySpell.TokenizerParity
import PySpell.ProgramSize
import PySpell.CallNames
import PySpell.PyspellWeb
import PySpell.FetchGate
import PySpell.ChainOrder
import PySpell.DerpPeers
import PySpell.FetchServer
import PySpell.ModelImage
import PySpell.DeviceLlm
import PySpell.JsonOutput
import PySpell.InboundReturns
import PySpell.EditDirectives
import PySpell.DelexRoundTrip
import PySpell.DelexStream
import PySpell.DelexParity
import PySpell.HandshakeHeader
import PySpell.H2Headers
import PySpell.PortSweep
import PySpell.JsonSafe
import PySpell.PyFrontend
import PySpell.Confinement
import PySpell.JobCounters
import PySpell.LwipBridge
import PySpell.Mdns
import PySpell.BpeTraining
