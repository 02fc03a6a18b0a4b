import KoheronSdk.Lib.ByteOrder
import KoheronSdk.Lib.Program
import KoheronSdk.Lib.Interpretation
import KoheronSdk.Lib.Transition
import KoheronSdk.Lib.Atomicity
import KoheronSdk.Lib.Interleaving
import KoheronSdk.Lib.Streams
import KoheronSdk.Lib.Foresight
import KoheronSdk.Lib.Dependency
import KoheronSdk.Lib.WebSocketFrame
import KoheronSdk.Lib.TextSearch
import KoheronSdk.Lib.QuotedText
import KoheronSdk.Lib.HttpText
import KoheronSdk.Lib.Base64
import KoheronSdk.Lib.JsonText
import KoheronSdk.Lib.Clocked
import KoheronSdk.Lib.MemoTable
import KoheronSdk.Lib.SecureHash
import KoheronSdk.Serdes.Scalar
import KoheronSdk.Serdes.Wire
import KoheronSdk.Serdes.Serializer
import KoheronSdk.Generator.Signature
import KoheronSdk.Server.Commands
import KoheronSdk.Server.Action
import KoheronSdk.Server.Tcp
import KoheronSdk.Server.WebSocket
import KoheronSdk.Server.Session
import KoheronSdk.Server.Footprint
import KoheronSdk.Server.Parsing
import KoheronSdk.Server.Serving
import KoheronSdk.Server.Framing
import KoheronSdk.Server.SendFrame
import KoheronSdk.Server.ReplyStream
import KoheronSdk.Server.Truncation
import KoheronSdk.Server.PayloadDecoding
import KoheronSdk.Server.Receiving
import KoheronSdk.Server.SessionManager
import KoheronSdk.Server.Listeners
import KoheronSdk.Server.Workers
import KoheronSdk.Server.SessionLifetime
import KoheronSdk.Server.Descriptors
import KoheronSdk.Server.HandedOver
import KoheronSdk.Server.Conversation
import KoheronSdk.Server.ConcurrentSessions
import KoheronSdk.Server.AtomicCalls
import KoheronSdk.Server.Decoding
import KoheronSdk.Server.ReadResults
import KoheronSdk.Server.Handshake
import KoheronSdk.Server.Sha1
import KoheronSdk.Server.Base64
import KoheronSdk.Client.Replies
import KoheronSdk.Client.TypeStrings
import KoheronSdk.Client.Python
import KoheronSdk.Client.TypeScript
import KoheronSdk.Client.WebSocketPool
import KoheronSdk.Client.Sending
import KoheronSdk.Client.PythonReplies
import KoheronSdk.Client.TypeScriptReplies
import KoheronSdk.Server.BufferGate
import KoheronSdk.Client.Http
import KoheronSdk.Client.InstrumentStatus
import KoheronSdk.Generator.ContextJson
import KoheronSdk.Client.OpTable
import KoheronSdk.Client.ContextRoundTrip
import KoheronSdk.Client.OpLookup
import KoheronSdk.Client.CanonicalType
import KoheronSdk.Client.ArgTypeCheck
import KoheronSdk.Client.RemoteCalls
import KoheronSdk.Client.Network
import KoheronSdk.Client.SharedDrivers
import KoheronSdk.Client.ServerContext
import KoheronSdk.Client.CheckedCalls
import KoheronSdk.Drivers.Allocation
import KoheronSdk.Drivers.Coherence
import KoheronSdk.Drivers.Requests
import KoheronSdk.Drivers.Threads
import KoheronSdk.Drivers.Starting
import KoheronSdk.Drivers.FailedAllocation
import KoheronSdk.Drivers.StartUp
import KoheronSdk.Drivers.Dispatch
import KoheronSdk.Context.MemoryMap
import KoheronSdk.Drivers.LedBlinker
import KoheronSdk.Context.MemoryWindow
import KoheronSdk.Context.SpiDev
import KoheronSdk.Generator.RegisterMap
import KoheronSdk.Fpga.CtlSts
import KoheronSdk.Fpga.AxiRegister
import KoheronSdk.Fpga.AxisStreams
import KoheronSdk.Fpga.AxisHistogram
import KoheronSdk.Fpga.SpiCfg
import KoheronSdk.Fpga.SpiCfgFrames
import KoheronSdk.Fpga.PulseDensity
import KoheronSdk.Fpga.PrecisionDac
import KoheronSdk.Fpga.Ad7124
import KoheronSdk.Fpga.At93c46d
import KoheronSdk.Fpga.LaserEeprom
import KoheronSdk.Fpga.PsdCounter
import KoheronSdk.Fpga.PhaseUnwrapper
import KoheronSdk.Fpga.AveragerCounter
import KoheronSdk.Fpga.PinHelpers
import KoheronSdk.Boards.SpiConfig
import KoheronSdk.Boards.Eeprom
import KoheronSdk.Boards.EepromPages
import KoheronSdk.Boards.ClockGenerator
import KoheronSdk.Os.Instruments
