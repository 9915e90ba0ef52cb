import Leviathan.Net.Chunked

/-!
# Requests and responses

`HeaderMap`, `HttpRequest` and `HttpResponse` of the prelude: the parsers of a request and a
response, and the renderers of a response.
-/

namespace Leviathan.Net

/-- `string.toLower`. -/
def toLower (s : Str) : Str := s.map Char.toLower

structure Header where
  name : Str
  value : Str
  deriving DecidableEq

/-- `HeaderMap.firstOr`. -/
def firstOr (items : List Header) (name dflt : Str) : Str :=
  match items.find? fun h => toLower h.name = toLower name with
  | some h => h.value
  | none => dflt

/-- The header of one line, if it is one. -/
def headerOf (line : Str) : Option Header :=
  match indexOf [':'] line with
  | none => none
  | some colon =>
    let k := trim (line.take colon)
    if 0 < k.length then some ⟨k, trim (line.drop (colon + 1))⟩ else none

/-- The loop of `parseHeaderLines`; every round takes at least one byte. -/
def headerLines : Nat → Str → List Header
  | 0, _ => []
  | fuel + 1, hs =>
    if hs.length = 0 then []
    else
      match indexOf crlf hs with
      | some nl => (headerOf (hs.take nl)).toList ++ headerLines fuel (hs.drop (nl + 2))
      | none => (headerOf hs).toList ++ headerLines fuel []

/-- `parseHeaderLines`. -/
def parseHeaderLines (block : Str) : List Header := headerLines block.length block

/-- The loop of `bodyLenOf`: the number, or -1 at a byte that is no digit. -/
def decimalOf : Int → Str → Int
  | v, [] => v
  | v, c :: cs =>
    if c.toNat < 48 ∨ 57 < c.toNat then -1 else decimalOf (wrap (v * 10 + (c.toNat - 48))) cs

/-- `bodyLenOf`. -/
def bodyLenOf (headers : List Header) : Int :=
  let cl := firstOr headers "Content-Length".toList []
  if cl.length = 0 then -1 else decimalOf 0 cl

/-- The fields of `HttpRequest`. -/
structure HttpRequest where
  method : Str := []
  path : Str := []
  version : Str := []
  body : Str := []
  headers : List Header := []
  acc : Str := []
  headersDone : Bool := false
  complete : Bool := false
  bodyNeeded : Int := 0
  deriving DecidableEq

namespace HttpRequest

/-- The part of `s` before the first `sep`, or all of it, and the part after it, or
nothing. -/
def cutAt (sep s : Str) : Str × Str :=
  match indexOf sep s with
  | some i => (s.take i, s.drop (i + sep.length))
  | none => (s, [])

/-- `parseHead`. -/
def parseHead (r : HttpRequest) (head : Str) : HttpRequest :=
  let (reqLine, hs) := cutAt crlf head
  let (method, rest) := cutAt [' '] reqLine
  let (path, version) := cutAt [' '] rest
  { r with method, path, version, headers := parseHeaderLines hs }

/-- `parse`. -/
def parse (r : HttpRequest) (raw : Str) : HttpRequest :=
  match indexOf (crlf ++ crlf) raw with
  | some headerEnd =>
    { r.parseHead (raw.take headerEnd) with body := raw.drop (headerEnd + 4) }
  | none => r.parseHead raw

/-- The body of a request whose head is parsed, if it is there. -/
def feedBody (r : HttpRequest) : Bool × HttpRequest :=
  if r.bodyNeeded ≤ r.acc.length then
    (true, { r with body := r.acc.take r.bodyNeeded.toNat, complete := true })
  else (false, r)

/-- `feed`: whether the request is complete. -/
def feed (r : HttpRequest) (chunk : Str) : Bool × HttpRequest :=
  if r.complete then (true, r)
  else
    let r := { r with acc := r.acc ++ chunk }
    if r.headersDone then r.feedBody
    else
      match indexOf (crlf ++ crlf) r.acc with
      | none => (false, r)
      | some he =>
        let bl := bodyLenOf (r.parseHead (r.acc.take he)).headers
        { r.parseHead (r.acc.take he) with
          acc := r.acc.drop (he + 4)
          headersDone := true
          bodyNeeded := if 0 < bl then bl else 0 }.feedBody

/-- `header`. -/
def header (r : HttpRequest) (name : Str) : Str := firstOr r.headers name []

theorem feedBody_complete (r : HttpRequest) (h : r.complete = false) :
    r.feedBody.2.complete = r.feedBody.1 := by
  unfold feedBody
  split
  · rfl
  · exact h

/-- `feed` says whether the request is complete. -/
theorem feed_complete (r : HttpRequest) (chunk : Str) :
    (r.feed chunk).2.complete = (r.feed chunk).1 := by
  unfold feed
  by_cases hc : r.complete = true
  · rw [if_pos hc]
    exact hc
  · rw [if_neg hc]
    rw [Bool.not_eq_true] at hc
    dsimp only
    split
    · exact feedBody_complete _ hc
    · split
      · exact hc
      · exact feedBody_complete _ hc

end HttpRequest

/-- `string.toInt`, which reads strictly. -/
def toInt (s : Str) : Option Int :=
  let digits := if s.head? = some '-' then s.tail else s
  let n : Int := Nat.ofDigitChars 10 digits 0
  let v := if s.head? = some '-' then -n else n
  if digits ≠ [] ∧ digits.all Char.isDigit ∧ -2 ^ 63 ≤ v ∧ v < 2 ^ 63 then some v else none

/-- The fields of `HttpResponse` that the server reads; a stream writer is a number. -/
structure HttpResponse where
  status : Int
  reasonText : Str := []
  body : Str := []
  headers : List Header := []
  keepAlive : Bool := false
  streamWriters : List Nat := []
  deriving DecidableEq

namespace HttpResponse

/-- `new HttpResponse(status, body)`. -/
def new (status : Int) (body : String) : HttpResponse := { status, body := body.toList }

/-- `isStreaming`. -/
def isStreaming (r : HttpResponse) : Bool := r.streamWriters.length = 1

/-- `reason`. -/
def reason (r : HttpResponse) : Str :=
  if 0 < r.reasonText.length then r.reasonText
  else if r.status = 200 then "OK".toList
  else if r.status = 201 then "Created".toList
  else if r.status = 204 then "No Content".toList
  else if r.status = 301 then "Moved Permanently".toList
  else if r.status = 302 then "Found".toList
  else if r.status = 304 then "Not Modified".toList
  else if r.status = 400 then "Bad Request".toList
  else if r.status = 401 then "Unauthorized".toList
  else if r.status = 403 then "Forbidden".toList
  else if r.status = 404 then "Not Found".toList
  else if r.status = 500 then "Internal Server Error".toList
  else if r.status = 505 then "HTTP Version Not Supported".toList
  else "OK".toList

/-- The user's headers, less those that the server computes. -/
def extra (r : HttpResponse) : Str :=
  let kept := r.headers.filter fun h =>
    toLower h.name ≠ "content-length".toList ∧ toLower h.name ≠ "connection".toList ∧
      toLower h.name ≠ "transfer-encoding".toList
  (kept.map fun h => h.name ++ ": ".toList ++ h.value ++ crlf).flatten

def statusLine (r : HttpResponse) : Str :=
  "HTTP/1.1 ".toList ++ (toString r.status).toList ++ [' '] ++ r.reason

def connection (keep : Bool) : Str :=
  "\r\nConnection: ".toList ++ (if keep then "keep-alive".toList else "close".toList) ++ crlf

/-- `render`; none for the exception of a streaming response. -/
def render (r : HttpResponse) : Option Str :=
  if r.isStreaming then none
  else
    some (r.statusLine ++ "\r\nContent-Length: ".toList ++ (toString r.body.length).toList ++
      connection r.keepAlive ++ r.extra ++ crlf ++ r.body)

/-- `renderStreamHead`. -/
def renderStreamHead (r : HttpResponse) (keep : Bool) : Str :=
  r.statusLine ++ "\r\nTransfer-Encoding: chunked".toList ++ connection keep ++ r.extra ++ crlf

/-- `renderHeadOnly`. -/
def renderHeadOnly (r : HttpResponse) (keep : Bool) : Str :=
  r.statusLine ++ connection keep ++ r.extra ++ crlf

/-- `parse`. -/
def parse (r : HttpResponse) (raw : Str) : HttpResponse :=
  let (statusLine, lines) := HttpRequest.cutAt crlf raw
  let rest := match indexOf [' '] statusLine with
    | some sp1 => statusLine.drop (sp1 + 1)
    | none => statusLine
  let (code, reasonText) := HttpRequest.cutAt [' '] rest
  let r := { r with status := (toInt code).getD 0, reasonText, headers := [] }
  match indexOf crlf raw, indexOf (crlf ++ crlf) raw with
  | some lineEnd, some bodyStart =>
    -- without headers the length is negative, and `subStr` goes to the end
    let block := if bodyStart < lineEnd + 2 then lines else lines.take (bodyStart - (lineEnd + 2))
    let headers := parseHeaderLines block
    let rawBody := raw.drop (bodyStart + 4)
    let chunked := toLower (firstOr headers "Transfer-Encoding".toList []) = "chunked".toList
    { r with headers, body := if chunked then (ChunkedDecoder.feed {} rawBody).2 else rawBody }
  | _, _ => r

end HttpResponse

end Leviathan.Net
