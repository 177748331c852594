import Fasthttp.Response.Write

/-!
# Responses as they are built

The setters of `ResponseHeader` and `Response`: everything that a handler can do to what `Response.Write` writes.
-/

namespace Fasthttp

/-! ## Headers -/

namespace ResponseHeader

variable (h : ResponseHeader)

def setNonSpecial (key value : Bytes) : ResponseHeader := { h with h := setArg h.h key value false }

def resetConnectionClose : ResponseHeader :=
  if h.connectionClose then { h with connectionClose := false, h := delAllArgs h.h strConnection } else h

def addTrailerBytes (trailer : Bytes) : ResponseHeader :=
  { h with trailer := (addResponseTrailer h.disableNormalizing h.trailer trailer).1 }

def setSpecialHeader (key value : Bytes) (set : Bool) : Option ResponseHeader :=
  if key.isEmpty then none
  else if key = strContentType then some { h with contentType := value }
  else if key = strContentLength then
    let v := parseContentLength value
    some (if v.2.isNone then { h with contentLength := v.1, contentLengthBytes := value } else h)
  else if key = strContentEncoding then some { h with contentEncoding := value }
  else if key = strConnection then
    some (if value = strClose then { h with connectionClose := true } else h.resetConnectionClose.setNonSpecial key value)
  else if key = strServer then some { h with server := value }
  else if key = strSetCookie then
    some { h with cookies := appendArg (if set then [] else h.cookies) (getCookieKey value) value false }
  else if key = strTransferEncoding then some h
  else if key = strTrailer then some (h.setTrailerBytes value).1
  else if key = strDate then some h
  else none

theorem setSpecialHeader_rule (P : ResponseHeader → Prop) {h g : ResponseHeader} {key value : Bytes} {set : Bool}
    (hg : h.setSpecialHeader key value set = some g) (same : P h)
    (contentType : P { h with contentType := value })
    (contentLength : P { h with contentLength := (parseContentLength value).1, contentLengthBytes := value })
    (contentEncoding : P { h with contentEncoding := value }) (close : P { h with connectionClose := true })
    (connection : key = strConnection → P (h.resetConnectionClose.setNonSpecial key value)) (server : P { h with server := value })
    (cookie : P { h with cookies := appendArg (if set then [] else h.cookies) (getCookieKey value) value false })
    (trailer : key = strTrailer → P (h.setTrailerBytes value).1) : P g := by
  suffices hall : ∀ g ∈ h.setSpecialHeader key value set, P g from hall g hg
  refine forall_mem_ite (fun _ => forall_mem_none) (forall_mem_ite (fun _ => forall_mem_some contentType)
    (forall_mem_ite (fun _ => forall_mem_some ?_) (forall_mem_ite (fun _ => forall_mem_some contentEncoding)
      (forall_mem_ite (fun hkey => forall_mem_some ?_) (forall_mem_ite (fun _ => forall_mem_some server)
        (forall_mem_ite (fun _ => forall_mem_some cookie) (forall_mem_ite (fun _ => forall_mem_some same)
          (forall_mem_ite (fun hkey => forall_mem_some (trailer hkey))
            (forall_mem_ite (fun _ => forall_mem_some same) forall_mem_none)))))))))
  · split
    · exact contentLength
    · exact same
  · split
    · exact close
    · exact connection hkey

def setCanonical (key value : Bytes) : ResponseHeader :=
  (h.setSpecialHeader key value true).getD (h.setNonSpecial key value)

def addCanonical (key value : Bytes) : ResponseHeader :=
  (h.setSpecialHeader key value false).getD { h with h := appendArg h.h key value false }

def set (key value : Bytes) : ResponseHeader :=
  h.setCanonical (initHeaderK key h.disableNormalizing) (initHeaderV value)

def add (key value : Bytes) : ResponseHeader :=
  h.addCanonical (initHeaderK key h.disableNormalizing) (initHeaderV value)

def delSpecial (key : Bytes) : ResponseHeader :=
  if key = strContentType then { h with contentType := [] }
  else if key = strContentEncoding then { h with contentEncoding := [] }
  else if key = strServer then { h with server := [] }
  else if key = strSetCookie then { h with cookies := [] }
  else if key = strContentLength then { h with contentLength := -2, contentLengthBytes := [] }
  else if key = strConnection then { h with connectionClose := false }
  else if key = strTrailer then { h with trailer := [] }
  else h

def delCanonical (key : Bytes) : ResponseHeader :=
  let h := h.delSpecial key
  { h with h := delAllArgs h.h key }

def setCookie (key cookie : Bytes) : ResponseHeader := { h with cookies := setArg h.cookies key cookie false }

end ResponseHeader

/-! ## Responses -/

namespace OutResponse

def new : OutResponse := ⟨ResponseHeader.zero, none, none, [], none, none, false⟩

def resetBody (resp : OutResponse) : OutResponse := { resp with chunkedW := none, bodyRaw := none, bodyStream := none, body := [] }

/-- The setters. `head` is what a server does with the response to a HEAD request. -/
inductive Op
  | set (key value : Bytes)
  | add (key value : Bytes)
  | setCanonical (key value : Bytes)
  | addCanonical (key value : Bytes)
  | del (key : Bytes)
  | setContentLength (n : Int)
  | setTrailer (names : Bytes)
  | addTrailer (names : Bytes)
  | setStatusCode (statusCode : Int)
  | setStatusMessage (statusMessage : Bytes)
  | setProtocol (protocol : Bytes)
  | setContentType (contentType : Bytes)
  | setContentEncoding (contentEncoding : Bytes)
  | setServer (server : Bytes)
  | setConnectionClose
  | resetConnectionClose
  | setCookie (key cookie : Bytes)
  | setCookieBytes (value : Bytes)
  | delCookie (key : Bytes)
  | setNormalizing (disable : Bool)
  | setNoDefaultContentType (b : Bool)
  | setNoDefaultDate (b : Bool)
  | setBody (body : Bytes)
  | appendBody (p : Bytes)
  | setBodyRaw (body : Bytes)
  | resetBody
  | setBodyStream (bodyStream : OutStream) (bodySize : Int)
  | setBodyStreamChunkedWriter (w : ChunkedWriter)
  | setCompressPool (c : Option Compressor)
  | skipBody
  | head

def apply (resp : OutResponse) : Op → OutResponse
  | .set key value => { resp with header := resp.header.set key value }
  | .add key value => { resp with header := resp.header.add key value }
  | .setCanonical key value => { resp with header := resp.header.setCanonical key (initHeaderV value) }
  | .addCanonical key value => { resp with header := resp.header.addCanonical key (initHeaderV value) }
  | .del key => { resp with header := resp.header.delCanonical (initHeaderK key resp.header.disableNormalizing) }
  | .setContentLength n => { resp with header := { resp.header with contentLength := n } }
  | .setTrailer names => { resp with header := (resp.header.setTrailerBytes names).1 }
  | .addTrailer names => { resp with header := resp.header.addTrailerBytes names }
  | .setStatusCode statusCode => { resp with header := { resp.header with statusCode } }
  | .setStatusMessage statusMessage => { resp with header := { resp.header with statusMessage } }
  | .setProtocol protocol => { resp with header := { resp.header with protocol } }
  | .setContentType contentType => { resp with header := { resp.header with contentType } }
  | .setContentEncoding contentEncoding => { resp with header := { resp.header with contentEncoding } }
  | .setServer server => { resp with header := { resp.header with server } }
  | .setConnectionClose => { resp with header := { resp.header with connectionClose := true } }
  | .resetConnectionClose => { resp with header := resp.header.resetConnectionClose }
  | .setCookie key cookie => { resp with header := resp.header.setCookie key cookie }
  | .setCookieBytes value =>
    { resp with header := { resp.header with cookies := appendArg resp.header.cookies (getCookieKey value) value false } }
  | .delCookie key => { resp with header := { resp.header with cookies := delAllArgs resp.header.cookies key } }
  | .setNormalizing disable => { resp with header := { resp.header with disableNormalizing := disable } }
  | .setNoDefaultContentType b => { resp with header := { resp.header with noDefaultContentType := b } }
  | .setNoDefaultDate b => { resp with header := { resp.header with noDefaultDate := b } }
  | .setBody body => { resp with bodyStream := none, chunkedW := none, bodyRaw := none, body }
  | .appendBody p => { resp with bodyStream := none, chunkedW := none, bodyRaw := none, body := resp.body ++ p }
  | .setBodyRaw body => { resp.resetBody with bodyRaw := some body }
  | .resetBody => resp.resetBody
  | .setBodyStream bodyStream bodySize =>
    { resp.resetBody with bodyStream := some bodyStream, header := { resp.header with contentLength := bodySize } }
  | .setBodyStreamChunkedWriter w =>
    { resp.resetBody with chunkedW := some w, header := { resp.header with contentLength := -1 } }
  | .setCompressPool c => { resp with compressPool := c }
  | .skipBody => { resp with skipBody := true }
  | .head => { resp with skipBody := true, header := { resp.header with headMethod := true } }

def machine : Machine OutResponse Op := ⟨fun resp op => some (resp.apply op)⟩

def built (ops : List Op) : OutResponse := machine.exec new ops

end OutResponse

end Fasthttp
