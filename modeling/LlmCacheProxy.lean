import LlmCacheProxy.Foundation.Framing
import LlmCacheProxy.Foundation.JsonCanonical
import LlmCacheProxy.Foundation.JsonText
import LlmCacheProxy.Foundation.ExpiringStore
import LlmCacheProxy.Foundation.Table
import LlmCacheProxy.Sse.NonInterference
import LlmCacheProxy.Sse.Terminal
import LlmCacheProxy.Sse.WindowRestore
import LlmCacheProxy.Sse.Chunking
import LlmCacheProxy.Sse.Detection
import LlmCacheProxy.Sse.Passing
import LlmCacheProxy.Sse.Signals
import LlmCacheProxy.Sse.Channels
import LlmCacheProxy.Sse.Done
import LlmCacheProxy.Sse.Arguments
import LlmCacheProxy.Sse.Extras
import LlmCacheProxy.Sse.Delivery
import LlmCacheProxy.Stripping
import LlmCacheProxy.Runs
import LlmCacheProxy.Sse.RoundTrip
import LlmCacheProxy.Sse.Hold
import LlmCacheProxy.Sse.Tail
import LlmCacheProxy.Accounting
import LlmCacheProxy.Purges
import LlmCacheProxy.Recut
import LlmCacheProxy.Attribution
import LlmCacheProxy.Verbatim
import LlmCacheProxy.Lookup
import LlmCacheProxy.ByModel
import LlmCacheProxy.Timestamps
import LlmCacheProxy.UpstreamUrl
import LlmCacheProxy.Foundation.Machine
import LlmCacheProxy.Foundation.Channel
import LlmCacheProxy.Streaming
import LlmCacheProxy.Foundation.TaskPool
import LlmCacheProxy.BackgroundWrites
import LlmCacheProxy.Faults
import LlmCacheProxy.Sse.Reader
import LlmCacheProxy.Wrapping
import LlmCacheProxy.Doppel
import LlmCacheProxy.Router
import LlmCacheProxy.Reporting
import LlmCacheProxy.Foundation.Toml
import LlmCacheProxy.Config
import LlmCacheProxy.PrintedConfig
