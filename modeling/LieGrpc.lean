import LieGrpc.Library.Incremental
import LieGrpc.Library.Chunked
import LieGrpc.Library.Interrupted
import LieGrpc.Library.Backlog
import LieGrpc.Library.BigEndian
import LieGrpc.Library.Multimap
import LieGrpc.Library.Ascii
import LieGrpc.Library.Decimal
import LieGrpc.Library.Abnf
import LieGrpc.Library.Residues
import LieGrpc.Runtime.Std
import LieGrpc.Runtime.Hyper
import LieGrpc.Runtime.Http
import LieGrpc.Runtime.Uri
import LieGrpc.Runtime.Prost
import LieGrpc.Status
import LieGrpc.StatusWire
import LieGrpc.StatusParsers
import LieGrpc.Metadata
import LieGrpc.MetadataHistory
import LieGrpc.MetadataGrammar
import LieGrpc.Framing
import LieGrpc.Codec
import LieGrpc.CodecLimits
import LieGrpc.Grpc.Request
import LieGrpc.Grpc.Building
import LieGrpc.Grpc.RequestHeaders
import LieGrpc.Grpc.EditedMetadata
import LieGrpc.Grpc.Streaming
import LieGrpc.Grpc.Reading
import LieGrpc.Grpc.Delivery
import LieGrpc.Grpc.Ending
import LieGrpc.Grpc.Schedules
import LieGrpc.Grpc.Recovery
import LieGrpc.Grpc.Backlog
import LieGrpc.Grpc.Tasks
import LieGrpc.Grpc.Response
import LieGrpc.Grpc.FirstFrame
import LieGrpc.Grpc.Unary
import LieGrpc.Grpc.UnaryBody
import LieGrpc.Grpc.Headers
import LieGrpc.Grpc.UnaryTable
import LieGrpc.Grpc.ServerStreaming
import LieGrpc.Channel
import LieGrpc.Client
import LieGrpc.Targets
import LieGrpc.Failures
import LieGrpc.Remote
