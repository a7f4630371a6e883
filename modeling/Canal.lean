import Canal.Correlation.EndToEnd
import Canal.Foundation.Framing
import Canal.Foundation.Progress
import Canal.Foundation.Trace
import Canal.Handover.Mutex
import Canal.Handover.Refusal
import Canal.LoopThread.Affinity
import Canal.LoopThread.Batch
import Canal.LoopThread.Closing
import Canal.LoopThread.Connected
import Canal.LoopThread.Delivery
import Canal.LoopThread.Lifetime
import Canal.LoopThread.Spread
import Canal.Pool.Backends
import Canal.Pool.Selection
import Canal.Proxy.Wholeness
import Canal.Reading.Chunking
import Canal.Reading.Forwarding
import Canal.RespParser.Cost
import Canal.RespParser.Elements
import Canal.RespParser.Payload
import Canal.RespParser.Recursion
import Canal.Sockets.Clients
