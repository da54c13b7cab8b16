import WolServer.CString
import WolServer.JsonText
import WolServer.CJSON
import WolServer.CJSONSteps
import WolServer.CJSONShape
import WolServer.CJSONComplete
import WolServer.CJSONFront
import WolServer.CJSONPrint
import WolServer.CJSONCut
import WolServer.Runs
import WolServer.Framing
import WolServer.HexText
import WolServer.Ledger
import WolServer.Significand
import WolServer.Draining
import WolServer.Position
import WolServer.Filling
import WolServer.TextStream
import WolServer.LibJson
import WolServer.LibEpoll
import WolServer.EpollCounter
import WolServer.Server
import WolServer.Request
import WolServer.Values
import WolServer.Session
import WolServer.Registry
import WolServer.Routing
import WolServer.Population
import WolServer.FlatText
import WolServer.Listing
import WolServer.Output
import WolServer.Outcomes
import WolServer.Segmentation
import WolServer.Locality
import WolServer.Timeout
import WolServer.Batch
import WolServer.Honesty
import WolServer.Closing
import WolServer.Device
import WolServer.DeviceTask
import WolServer.Keepalive
import WolServer.Announce
import WolServer.DeviceStream
import WolServer.Broadcast
import WolServer.Notice
import WolServer.RateLimit
import WolServer.Network
import WolServer.Reactions
import WolServer.Storm
import WolServer.Identity
import WolServer.Lanes
import WolServer.Conversation
import WolServer.Buffers
import WolServer.Lookups
import WolServer.Watchdog
import WolServer.MacText
import WolServer.IfConfig
import WolServer.Persistence
import WolServer.Stores
import WolServer.Cursors
import WolServer.TreeCount
import WolServer.Arrays
import WolServer.HttpReq
import WolServer.DefaultRoute
import WolServer.Owning
import WolServer.Chains
import WolServer.CJSONMemory
import WolServer.CJSONOwned
import WolServer.CJSONText
import WolServer.CJSONPieces
import WolServer.CJSONBuffer
import WolServer.CJSONBuffered
import WolServer.CJSONClient
import WolServer.CJSONHeld
import WolServer.CJSONBlock
import WolServer.CJSONChain
import WolServer.Stripping
import WolServer.CJSONMinify
