import LieGrpc.Codec
import LieGrpc.Metadata
import LieGrpc.Runtime.Http

/-!
# Requests

A streaming request wraps a stream of messages; its HTTP body is the stream of what the
encoder makes of them, one chunk a message. The headers of a request are the content type and
then the metadata, name by name.
-/

namespace LieGrpc

structure Request (T : Type) where
  message : T
  metadata : MetadataMap

/-- The body of an HTTP request: `Body::from` some bytes, or `Body::wrap_stream`. -/
inductive Payload where
  | full (bytes : Bytes)
  | stream (results : List (Except Status Bytes))

def applicationGrpcProto : String := "application/grpc+proto"

section Http

variable {H : Type} [RequestHeaders H]

/-- The builder after the loop over the metadata. -/
def requestBuilder (metadata : MetadataMap) : Builder H :=
  let builder := ((Builder.new.version .http2).method .post).header "content-type"
    (utf8 applicationGrpcProto)
  metadata.iter.foldl (fun builder entry =>
    entry.2.foldl (fun builder v => builder.header entry.1 (utf8 v)) builder) builder

/-- The request, or `none` where the `unwrap` panics. -/
def intoHttpRequest (metadata : MetadataMap) (body : Payload) : Option (HttpRequest H Payload) :=
  (requestBuilder metadata).body body

end Http

namespace Request

def new {T : Type} (message : T) : Request T := ⟨message, .new⟩

variable {M : Type} [Message M]

/-- The stream that `into_stream` hands to `Body::wrap_stream`. -/
def streamPayload (self : Request (List M)) : List (Except Status Bytes) :=
  self.message.map ProstEncoder.encode

/-- The inner `none` is a panic. -/
def intoUnary {H : Type} [RequestHeaders H] (self : Request M) :
    Except Status (Option (HttpRequest H Payload)) :=
  match ProstEncoder.encode self.message with
  | .error e => .error e
  | .ok m => .ok (intoHttpRequest self.metadata (.full m))

/-- `none` is a panic. -/
def intoStream {H : Type} [RequestHeaders H] (self : Request (List M)) :
    Option (HttpRequest H Payload) :=
  intoHttpRequest self.metadata (.stream self.streamPayload)

/-- The decoder gives back the messages of a streaming request, and leaves alone whatever
follows them that is not yet a frame. -/
theorem drain_streamPayload [LawfulMessage M] (request : Request (List M))
    (hlen : ∀ m ∈ request.message, (Message.encodeToVec m).length < 2 ^ 32) (s : Bytes)
    (hs : (ProstDecoder.decode M s).1 = .ok none) :
    ∃ fs : List Bytes, request.streamPayload = fs.map .ok ∧
      ∀ fuel, request.message.length < fuel →
        ProstDecoder.drain M fuel (fs.flatten ++ s) = some (request.message.map .ok, s) :=
  ⟨_, ProstEncoder.map_encode hlen, fun _ hfuel =>
    ProstDecoder.drain_frames hlen (ProstDecoder.decode_eq_none_iff.mp hs) hfuel⟩

theorem drain_streamPayload_bools :
    ∃ fs : List Bytes, (new [true, false]).streamPayload = fs.map .ok ∧
      ∀ fuel, 2 < fuel →
        ProstDecoder.drain Bool fuel (fs.flatten ++ [0, 0, 0]) =
          some ([.ok true, .ok false], [0, 0, 0]) :=
  drain_streamPayload (new [true, false]) (by decide) [0, 0, 0] rfl

end Request

end LieGrpc
