import Viking.Cache.Freshness
import Viking.Cache.Replacing
import Viking.Http.Casing
import Viking.Http.Chunks
import Viking.Http.Completion
import Viking.Http.Compression
import Viking.Http.Containment
import Viking.Http.Extensions
import Viking.Http.Framing
import Viking.Http.Handlers
import Viking.Http.Indexing
import Viking.Http.Messages
import Viking.Http.Mimetypes
import Viking.Http.Redirects
import Viking.Http.Segments
import Viking.Http.Streaming
import Viking.Io.Delivery
import Viking.Io.Interest
import Viking.Io.Lives
import Viking.Io.Order
import Viking.Io.Placement
import Viking.Io.Progress
import Viking.Io.Reading
import Viking.Io.Registering
import Viking.Server.Conversations
import Viking.Server.Files
import Viking.Server.Interchange
import Viking.Server.Names
import Viking.Server.Ownership
