/-
# The request parser

`httpParserExecute` follows `http_parser_execute` for a parser initialised with
`HTTP_REQUEST`, the only use the server makes of it, in strict mode. The
response states and the states of a parser that has yet to find out its type
cannot occur and are left out.

The main loop is one `step` per byte. Its two inner `for` loops, over the bytes
of a header name and of a header value, read several bytes in one turn of the
main loop; `Inner` records that the execution stands inside one of them and how
many bytes it has read there, since the header limit is only charged with them
when the inner loop ends. The bulk moves over a body are unrolled byte by byte,
which is what they compute. `finish` is the end of the buffer.

Callbacks return zero in every context this parser runs in, so they do not
influence it and an execution is given by the list of calls it makes.
-/

import Viking.Http.Methods

namespace Viking.Http

/-- The parser states a request can reach. -/
inductive State
  | dead
  | startReq
  | reqMethod | reqSpacesBeforeUrl
  | reqSchema | reqSchemaSlash | reqSchemaSlashSlash
  | reqServerStart | reqServer | reqServerWithAt
  | reqPath | reqQueryStringStart | reqQueryString | reqFragmentStart | reqFragment
  | reqHttpStart | reqHttpH | reqHttpHT | reqHttpHTT | reqHttpHTTP
  | reqFirstHttpMajor | reqHttpMajor | reqFirstHttpMinor | reqHttpMinor
  | reqLineAlmostDone
  | headerFieldStart | headerField
  | headerValueDiscardWs | headerValueDiscardWsAlmostDone | headerValueDiscardLws
  | headerValueStart | headerValue | headerValueLws
  | headerAlmostDone
  | chunkSizeStart | chunkSize | chunkParameters | chunkSizeAlmostDone
  | headersAlmostDone | headersDone
  | chunkData | chunkDataAlmostDone | chunkDataDone
  | bodyIdentity | bodyIdentityEof
  | messageDone
  deriving DecidableEq, Repr

/-- `PARSING_HEADER`: every state up to `s_headers_done`. -/
def State.parsingHeader : State → Bool
  | .chunkData | .chunkDataAlmostDone | .chunkDataDone
  | .bodyIdentity | .bodyIdentityEof | .messageDone => false
  | _ => true

/-- `enum header_states` -/
inductive HeaderState
  | general | c | co | con
  | matchingConnection | matchingProxyConnection | matchingContentLength
  | matchingTransferEncoding | matchingUpgrade
  | connection | contentLength | transferEncoding | upgrade
  | matchingTransferEncodingChunked
  | matchingConnectionTokenStart | matchingConnectionKeepAlive | matchingConnectionClose
  | matchingConnectionUpgrade | matchingConnectionToken
  | transferEncodingChunked
  | connectionKeepAlive | connectionClose | connectionUpgrade
  deriving DecidableEq, Repr

/-- The errors a request can raise. -/
inductive HttpErrno
  | ok
  | invalidEofState | headerOverflow | closedConnection
  | invalidVersion | invalidMethod | invalidUrl | lfExpected
  | invalidHeaderToken | invalidContentLength | invalidChunkSize | invalidConstant
  | strict
  deriving DecidableEq, Repr

/-- `enum flags` -/
structure Flags where
  chunked : Bool := false
  connectionKeepAlive : Bool := false
  connectionClose : Bool := false
  connectionUpgrade : Bool := false
  trailing : Bool := false
  upgrade : Bool := false
  skipBody : Bool := false
  deriving DecidableEq, Repr

/-- `struct http_parser`, less `type` and the response's status code. -/
structure HttpParser where
  flags : Flags := {}
  state : State := .startReq
  headerState : HeaderState := .general
  index : Nat := 0
  nread : Nat := 0
  contentLength : Nat := 0
  httpMajor : Nat := 0
  httpMinor : Nat := 0
  method : HttpMethod := .delete
  httpErrno : HttpErrno := .ok
  upgrade : Bool := false
  deriving DecidableEq, Repr

/-- `http_parser_init(parser, HTTP_REQUEST)` -/
def httpParserInit : HttpParser := {}

/-- One call through `http_parser_settings`, with what the callee reads. -/
inductive Callback
  | onMessageBegin
  | onUrl (text : Bytes)
  | onHeaderField (text : Bytes)
  | onHeaderValue (text : Bytes)
  | onHeadersComplete (httpMajor httpMinor : Nat) (method : HttpMethod)
  | onBody (text : Bytes)
  | onMessageComplete
  | onChunkHeader
  | onChunkComplete
  deriving DecidableEq, Repr

/-- The data callback a mark belongs to. -/
inductive Mark
  | headerField | headerValue | url | body
  deriving DecidableEq, Repr

def Mark.callback : Mark → Bytes → Callback
  | .headerField => .onHeaderField
  | .headerValue => .onHeaderValue
  | .url => .onUrl
  | .body => .onBody

/-- An inner loop of the main loop, with the number of bytes read since its
`start`. `search` is `memchr` at work on a header value, with the bytes it has
looked at; `skip` is what follows a `memchr` that gave up. -/
inductive Inner
  | headerField (read : Nat)
  | headerValue (read : Nat)
  | search (read looked : Nat)
  | skip (read : Nat)
  deriving DecidableEq, Repr

/-- The locals of `http_parser_execute` and the parser it works on. `marked` is
the one mark that is set, with the text since it; the source asserts that there
is at most one. `parsed` is `p - data`. -/
structure Execution where
  parser : HttpParser
  inner : Option Inner := none
  marked : Option (Mark × Bytes) := none
  callbacks : List Callback := []
  parsed : Nat := 0
  returned : Bool := false
  deriving DecidableEq, Repr

def ullongMax : Nat := 2 ^ 64 - 1

def httpMaxHeaderSize : Nat := 80 * 1024

/-! ## Character classes, strict mode -/

/-- `LOWER` -/
def lower (c : Byte) : Byte := c ||| 0x20

/-- `IS_ALPHA` -/
def isAlpha (c : Byte) : Bool := ascii 'a' ≤ lower c && lower c ≤ ascii 'z'

/-- `IS_NUM` -/
def isNum (c : Byte) : Bool := ascii '0' ≤ c && c ≤ ascii '9'

/-- The decimal digit that `c - '0'` denotes. -/
def digit (c : Byte) : Nat := (c - ascii '0').toNat

/-- `TOKEN`: the byte in lower case if it may stand in a token, zero otherwise. -/
def token (c : Byte) : Byte :=
  if isAlpha c then lower c
  else if isNum c ∨ c ∈ bytes "!#$%&'*+-.^_`|~" then c
  else 0

/-- `unhex`: the table has entries for the ASCII bytes, and zero is the value of the others. -/
def unhex (c : Byte) : Option Nat := if 128 ≤ c then some 0 else hexValue c

/-- `IS_MARK` -/
def isMark (c : Byte) : Bool := (bytes "-_.!~*'()").contains c

/-- `IS_USERINFO_CHAR` -/
def isUserinfoChar (c : Byte) : Bool :=
  isAlpha c || isNum c || isMark c || (bytes "%;:&=+$,").contains c

/-- `IS_URL_CHAR`, the bits of `normal_url_char`. -/
def isUrlChar (c : Byte) : Bool :=
  ascii '!' ≤ c && c ≤ ascii '~' && c != ascii '#' && c != ascii '?'

def cr : Byte := ascii '\r'

def lf : Byte := ascii '\n'

def formFeed : Byte := 12

/-! ## The URL parser -/

/-- `parse_url_char` -/
def parseUrlChar (s : State) (ch : Byte) : State :=
  if ch = ascii ' ' ∨ ch = cr ∨ ch = lf then .dead
  -- `HTTP_PARSER_STRICT` adds the tab and the form feed
  else if ch = ascii '\t' ∨ ch = formFeed then .dead
  else
    match s with
    | .reqSpacesBeforeUrl =>
      if ch = ascii '/' ∨ ch = ascii '*' then .reqPath
      else if isAlpha ch then .reqSchema
      else .dead
    | .reqSchema =>
      if isAlpha ch then .reqSchema
      else if ch = ascii ':' then .reqSchemaSlash
      else .dead
    | .reqSchemaSlash => if ch = ascii '/' then .reqSchemaSlashSlash else .dead
    | .reqSchemaSlashSlash => if ch = ascii '/' then .reqServerStart else .dead
    | .reqServerWithAt | .reqServerStart | .reqServer =>
      -- `s_req_server_with_at` refuses a second `@` and falls through to the other two
      if s = .reqServerWithAt ∧ ch = ascii '@' then .dead
      else if ch = ascii '/' then .reqPath
      else if ch = ascii '?' then .reqQueryStringStart
      else if ch = ascii '@' then .reqServerWithAt
      else if isUserinfoChar ch ∨ ch = ascii '[' ∨ ch = ascii ']' then .reqServer
      else .dead
    | .reqPath =>
      if isUrlChar ch then .reqPath
      else if ch = ascii '?' then .reqQueryStringStart
      else if ch = ascii '#' then .reqFragmentStart
      else .dead
    | .reqQueryStringStart | .reqQueryString =>
      if isUrlChar ch ∨ ch = ascii '?' then .reqQueryString
      else if ch = ascii '#' then .reqFragmentStart
      else .dead
    | .reqFragmentStart =>
      if isUrlChar ch ∨ ch = ascii '?' then .reqFragment
      else if ch = ascii '#' then .reqFragmentStart
      else .dead
    | .reqFragment =>
      if isUrlChar ch ∨ ch = ascii '?' ∨ ch = ascii '#' then .reqFragment else .dead
    | _ => .dead

/-! ## The macros -/

namespace Execution

variable (e : Execution)

/-- `UPDATE_STATE` -/
def updateState (s : State) : Execution := { e with parser := { e.parser with state := s } }

/-- `SET_ERRNO(err); goto error;` -/
def error (err : HttpErrno) : Execution :=
  { e with parser := { e.parser with httpErrno := err }, returned := true }

/-- `COUNT_HEADER_SIZE(V)`, with what follows it; `nread` has 32 bits. -/
def countHeaderSize (v : Nat) (next : Execution → Execution) : Execution :=
  let counted := { e with parser := { e.parser with nread := (e.parser.nread + v) % 2 ^ 32 } }
  -- the comparison is made on the wrapped counter
  if counted.parser.nread > httpMaxHeaderSize then counted.error .headerOverflow
  else next counted

/-- `CALLBACK_NOTIFY` and the call of `on_headers_complete`. -/
def notify (call : Callback) : Execution := { e with callbacks := e.callbacks ++ [call] }

/-- `MARK`: set the mark unless it is already set. -/
def mark (m : Mark) : Execution :=
  match e.marked with
  | none => { e with marked := some (m, []) }
  | some _ => e

/-- `CALLBACK_DATA`: report the text between the mark and `p` and clear the mark. -/
def callbackData (m : Mark) : Execution :=
  match e.marked with
  | some (m', text) =>
    if m' = m then { e.notify (m.callback text) with marked := none } else e
  | none => e

/-- `CALLBACK_DATA_(FOR, p - FOR_mark + 1, ..)`: the text includes the byte at `p`. -/
def callbackDataThrough (m : Mark) (ch : Byte) : Execution :=
  callbackData { e with marked := e.marked.map fun (m', text) => (m', text ++ [ch]) } m

/-- `p++` -/
def advance (ch : Byte) : Execution :=
  { e with
    parsed := e.parsed + 1
    marked := e.marked.map fun (m, text) => (m, text ++ [ch]) }

/-- `RETURN((p - data) + 1)` -/
def returnPast : Execution := { e with parsed := e.parsed + 1, returned := true }

end Execution

/-! ## End of a message -/

/-- `http_should_keep_alive`; a request never needs an end of file. -/
def httpShouldKeepAlive (parser : HttpParser) : Bool :=
  if 0 < parser.httpMajor ∧ 0 < parser.httpMinor then !parser.flags.connectionClose
  else parser.flags.connectionKeepAlive

/-- `NEW_MESSAGE()` -/
def newMessage (parser : HttpParser) : State :=
  if httpShouldKeepAlive parser then .startReq else .dead

namespace Execution

variable (e : Execution) (ch : Byte)

/-- `UPDATE_STATE(NEW_MESSAGE()); CALLBACK_NOTIFY(message_complete);` -/
def completeMessage : Execution :=
  (e.updateState (newMessage e.parser)).notify .onMessageComplete

/-- `case s_message_done` -/
def messageDone : Execution :=
  let done := e.completeMessage
  -- after an upgrade the rest of the buffer is not HTTP and is left to the caller
  if done.parser.upgrade then done.returnPast else done

/-- `hasBody` of `case s_headers_done` -/
def hasBody (parser : HttpParser) : Bool :=
  parser.flags.chunked || (0 < parser.contentLength && parser.contentLength != ullongMax)

/-- `case s_headers_done` -/
def headersDone : Execution :=
  if ch ≠ lf then e.error .strict
  else
    let e := { e with parser := { e.parser with nread := 0 } }
    let parser := e.parser
    if parser.upgrade ∧
        (parser.method = .connect ∨ parser.flags.skipBody ∨ !hasBody parser) then
      -- exit: the rest of the buffer belongs to another protocol
      e.completeMessage.returnPast
    else if parser.flags.skipBody then e.completeMessage
    else if parser.flags.chunked then e.updateState .chunkSizeStart
    else if parser.contentLength = 0 then e.completeMessage
    else if parser.contentLength ≠ ullongMax then e.updateState .bodyIdentity
    -- no length was given, and a request does not read until the end of file
    else e.completeMessage

/-- `case s_headers_almost_done` -/
def headersAlmostDone : Execution :=
  if ch ≠ lf then e.error .strict
  else if e.parser.flags.trailing then
    -- the end of a chunked request: `REEXECUTE` in `s_message_done`
    ((e.updateState .messageDone).notify .onChunkComplete).messageDone
  else
    let parser := { e.parser with
      state := .headersDone
      upgrade := (e.parser.flags.upgrade && e.parser.flags.connectionUpgrade) ||
        e.parser.method = .connect }
    -- the callback returned zero: `REEXECUTE` in `s_headers_done`, on the same line feed
    (({ e with parser := parser }).notify
      (.onHeadersComplete parser.httpMajor parser.httpMinor parser.method)).headersDone ch

/-! ## Request line -/

/-- The method a first letter stands for until more is known. -/
def methodOfLetter (ch : Byte) : Option HttpMethod :=
  if ch = ascii 'A' then some .acl
  else if ch = ascii 'B' then some .bind
  else if ch = ascii 'C' then some .connect
  else if ch = ascii 'D' then some .delete
  else if ch = ascii 'G' then some .get
  else if ch = ascii 'H' then some .head
  else if ch = ascii 'L' then some .lock
  else if ch = ascii 'M' then some .mkcol
  else if ch = ascii 'N' then some .notify
  else if ch = ascii 'O' then some .options
  else if ch = ascii 'P' then some .post
  else if ch = ascii 'R' then some .report
  else if ch = ascii 'S' then some .subscribe
  else if ch = ascii 'T' then some .trace
  else if ch = ascii 'U' then some .unlock
  else none

/-- `case s_start_req` -/
def startReq : Execution :=
  if ch = cr ∨ ch = lf then e
  else
    -- a message forgets the flags of the one before it, but not `upgrade` or the version
    let e := { e with
      parser := { e.parser with flags := {}, contentLength := ullongMax } }
    if !isAlpha ch then e.error .invalidMethod
    else
      match methodOfLetter ch with
      -- method 0 is what the source stores before its `switch`
      | none => { e with parser := { e.parser with method := .delete, index := 1 } }.error
          .invalidMethod
      | some m => { e with parser := { e.parser with
          method := m, index := 1, state := .reqMethod } }.notify .onMessageBegin

/-- The method that `ch` turns `method` into at `index`, where it does not go on
spelling it: `none` where the source raises `HPE_INVALID_METHOD`. At index 1 a
method that is neither `POST` nor `LOCK` passes whatever the byte is. -/
def switchMethod (method : HttpMethod) (index : Nat) (ch : Byte) : Option HttpMethod :=
  match method with
  | .connect =>
    if index = 1 ∧ ch = ascii 'H' then some .checkout
    else if index = 2 ∧ ch = ascii 'P' then some .copy
    else none
  | .mkcol =>
    if index = 1 ∧ ch = ascii 'O' then some .move
    else if index = 1 ∧ ch = ascii 'E' then some .merge
    else if index = 1 ∧ ch = ascii '-' then some .msearch
    else if index = 2 ∧ ch = ascii 'A' then some .mkactivity
    else if index = 3 ∧ ch = ascii 'A' then some .mkcalendar
    else none
  | .subscribe => if index = 1 ∧ ch = ascii 'E' then some .search else none
  | .report => if index = 2 ∧ ch = ascii 'B' then some .rebind else none
  | _ =>
    if index = 1 then
      if method = .post then
        if ch = ascii 'R' then some .propfind
        else if ch = ascii 'U' then some .put
        else if ch = ascii 'A' then some .patch
        else none
      else if method = .lock then
        if ch = ascii 'I' then some .link else none
      -- neither inner `if` applies and the source has no `else` here
      else some method
    else if index = 2 then
      if method = .put then
        if ch = ascii 'R' then some .purge else none
      else if method = .unlock then
        if ch = ascii 'S' then some .unsubscribe
        else if ch = ascii 'B' then some .unbind
        else none
      else none
    else if index = 4 ∧ method = .propfind ∧ ch = ascii 'P' then some .proppatch
    else if index = 3 ∧ method = .unlock ∧ ch = ascii 'I' then some .unlink
    else none

/-- `case s_req_method`; past its last letter a spelling reads as zero. -/
def reqMethod : Execution :=
  if ch = 0 then e.error .invalidMethod
  else
    let next := ((httpMethodStr e.parser.method)[e.parser.index]?).getD 0
    let parser := { e.parser with index := e.parser.index + 1 }
    if ch = ascii ' ' ∧ next = 0 then
      { e with parser := { parser with state := .reqSpacesBeforeUrl } }
    else if ch = next then { e with parser := parser }
    else
      match switchMethod e.parser.method e.parser.index ch with
      | none => e.error .invalidMethod
      | some m => { e with parser := { parser with method := m } }

/-- `UPDATE_STATE(parse_url_char(CURRENT_STATE(), ch))` and its check. -/
def urlChar : Execution :=
  let s := parseUrlChar e.parser.state ch
  if s = .dead then (e.updateState s).error .invalidUrl else e.updateState s

/-- `case s_req_spaces_before_url` -/
def reqSpacesBeforeUrl : Execution :=
  if ch = ascii ' ' then e
  else
    let e := e.mark .url
    -- `CONNECT` takes a host and a port where the others take a path
    let e := if e.parser.method = .connect then e.updateState .reqServerStart else e
    e.urlChar ch

/-- `case s_req_schema` to `s_req_server_start`: no blank is allowed. -/
def reqSchema : Execution :=
  if ch = ascii ' ' ∨ ch = cr ∨ ch = lf then e.error .invalidUrl else e.urlChar ch

/-- `case s_req_server` to `s_req_fragment` -/
def reqUrl : Execution :=
  if ch = ascii ' ' then (e.updateState .reqHttpStart).callbackData .url
  else if ch = cr ∨ ch = lf then
    -- a request line that ends with its URL is HTTP/0.9
    let parser := { e.parser with httpMajor := 0, httpMinor := 9 }
    ({ e with parser := parser }.updateState
      (if ch = cr then .reqLineAlmostDone else .headerFieldStart)).callbackData .url
  else e.urlChar ch

/-- `case s_req_http_start` -/
def reqHttpStart : Execution :=
  if ch = ascii 'H' then e.updateState .reqHttpH
  else if ch = ascii ' ' then e
  else e.error .invalidConstant

/-- A state that wants one byte: `STRICT_CHECK(ch != expected); UPDATE_STATE(next);` -/
def expect (expected : Byte) (next : State) : Execution :=
  if ch ≠ expected then e.error .strict else e.updateState next

/-- `case s_req_first_http_major` -/
def reqFirstHttpMajor : Execution :=
  if ch < ascii '1' ∨ ch > ascii '9' then e.error .invalidVersion
  else { e with parser := { e.parser with httpMajor := digit ch, state := .reqHttpMajor } }

/-- `case s_req_http_major` -/
def reqHttpMajor : Execution :=
  if ch = ascii '.' then e.updateState .reqFirstHttpMinor
  else if !isNum ch then e.error .invalidVersion
  else
    let e := { e with parser := { e.parser with httpMajor := e.parser.httpMajor * 10 + digit ch } }
    if e.parser.httpMajor > 999 then e.error .invalidVersion else e

/-- `case s_req_first_http_minor` -/
def reqFirstHttpMinor : Execution :=
  if !isNum ch then e.error .invalidVersion
  else { e with parser := { e.parser with httpMinor := digit ch, state := .reqHttpMinor } }

/-- `case s_req_http_minor` -/
def reqHttpMinor : Execution :=
  if ch = cr then e.updateState .reqLineAlmostDone
  else if ch = lf then e.updateState .headerFieldStart
  else if !isNum ch then e.error .invalidVersion
  else
    let e := { e with parser := { e.parser with httpMinor := e.parser.httpMinor * 10 + digit ch } }
    if e.parser.httpMinor > 999 then e.error .invalidVersion else e

/-- `case s_req_line_almost_done` -/
def reqLineAlmostDone : Execution :=
  if ch ≠ lf then e.error .lfExpected else e.updateState .headerFieldStart

/-! ## Header lines -/

/-- The header state the first letter of a name opens. -/
def headerStateOfLetter (c : Byte) : HeaderState :=
  if c = ascii 'c' then .c
  else if c = ascii 'p' then .matchingProxyConnection
  else if c = ascii 't' then .matchingTransferEncoding
  else if c = ascii 'u' then .matchingUpgrade
  else .general

/-- `case s_header_field_start` -/
def headerFieldStart : Execution :=
  if ch = cr then e.updateState .headersAlmostDone
  -- the end of the headers without a carriage return: `REEXECUTE` on this byte
  else if ch = lf then (e.updateState .headersAlmostDone).headersAlmostDone ch
  else if token ch = 0 then e.error .invalidHeaderToken
  else
    let e := e.mark .headerField
    { e with parser := { e.parser with
        index := 0, state := .headerField, headerState := headerStateOfLetter (token ch) } }

/-- One more letter of a known name or value: `parser->index++` and the
comparison with `text`; the state becomes `mismatch` or, on the last letter, `whole`. -/
def matchText (text : Bytes) (mismatch whole : HeaderState) (parser : HttpParser) (c : Byte) :
    HttpParser :=
  let index := parser.index + 1
  -- `index > sizeof(text) - 1`: the terminating zero counts as a letter of `text`
  if index > text.length ∨ (text[index]?).getD 0 ≠ c then
    { parser with index := index, headerState := mismatch }
  else if index = text.length - 1 then { parser with index := index, headerState := whole }
  else { parser with index := index }

/-- The `switch` of the loop in `case s_header_field`. -/
def headerFieldByte (parser : HttpParser) (ch : Byte) : HttpParser :=
  let c := token ch
  match parser.headerState with
  | .c => { parser with
      index := parser.index + 1
      headerState := if c = ascii 'o' then .co else .general }
  | .co => { parser with
      index := parser.index + 1
      headerState := if c = ascii 'n' then .con else .general }
  | .con => { parser with
      index := parser.index + 1
      headerState :=
        if c = ascii 'n' then .matchingConnection
        else if c = ascii 't' then .matchingContentLength
        else .general }
  | .matchingConnection => matchText (bytes "connection") .general .connection parser c
  | .matchingProxyConnection =>
    matchText (bytes "proxy-connection") .general .connection parser c
  | .matchingContentLength => matchText (bytes "content-length") .general .contentLength parser c
  | .matchingTransferEncoding =>
    matchText (bytes "transfer-encoding") .general .transferEncoding parser c
  | .matchingUpgrade => matchText (bytes "upgrade") .general .upgrade parser c
  | .connection | .contentLength | .transferEncoding | .upgrade =>
    -- blanks may follow a known name, another letter makes it a longer, unknown one
    if ch ≠ ascii ' ' then { parser with headerState := .general } else parser
  | _ => parser

/-- The loop of `case s_header_field`, at the byte `read` bytes after `start`. -/
def headerFieldLoop (read : Nat) : Execution :=
  if token ch = 0 then
    -- the loop ends at `ch`; the first byte was charged by the main loop
    { e with inner := none }.countHeaderSize read fun e =>
      if ch = ascii ':' then (e.updateState .headerValueDiscardWs).callbackData .headerField
      else e.error .invalidHeaderToken
  else { e with
    parser := headerFieldByte e.parser ch
    inner := some (.headerField (read + 1)) }

/-- `case s_header_value_start`, where the text of a value begins. -/
def headerValueStart : Execution :=
  let e := e.mark .headerValue
  let parser := { e.parser with state := .headerValue, index := 0 }
  let c := lower ch
  match parser.headerState with
  -- the name alone asks for the upgrade, its value is not looked at
  | .upgrade => { e with parser := { parser with
      flags := { parser.flags with upgrade := true }, headerState := .general } }
  | .transferEncoding => { e with parser := { parser with
      headerState := if c = ascii 'c' then .matchingTransferEncodingChunked else .general } }
  | .contentLength =>
    if !isNum ch then { e with parser := parser }.error .invalidContentLength
    else { e with parser := { parser with contentLength := digit ch } }
  | .connection => { e with parser := { parser with
      headerState :=
        if c = ascii 'k' then .matchingConnectionKeepAlive
        else if c = ascii 'c' then .matchingConnectionClose
        else if c = ascii 'u' then .matchingConnectionUpgrade
        else .matchingConnectionToken } }
  -- a folded `Connection` list goes on where the line before left it
  | .matchingConnectionTokenStart => { e with parser := parser }
  | _ => { e with parser := { parser with headerState := .general } }

/-- `case s_header_value_discard_ws`, which falls through to the start of the value. -/
def headerValueDiscardWs : Execution :=
  if ch = ascii ' ' ∨ ch = ascii '\t' then e
  else if ch = cr then e.updateState .headerValueDiscardWsAlmostDone
  else if ch = lf then e.updateState .headerValueDiscardLws
  else e.headerValueStart ch

/-- The flag a token of a `Connection` list sets when the list goes on or ends. -/
def connectionFlag (parser : HttpParser) : HttpParser :=
  match parser.headerState with
  | .connectionKeepAlive =>
    { parser with flags := { parser.flags with connectionKeepAlive := true } }
  | .connectionClose => { parser with flags := { parser.flags with connectionClose := true } }
  | .connectionUpgrade => { parser with flags := { parser.flags with connectionUpgrade := true } }
  | _ => parser

/-- The flags the end of a header line sets. -/
def lineFlag (parser : HttpParser) : HttpParser :=
  match parser.headerState with
  | .transferEncodingChunked => { parser with flags := { parser.flags with chunked := true } }
  | _ => connectionFlag parser

/-- The `switch` of the loop in `case s_header_value`: `none` for an error in a
content length. The general case, which searches the end of the line, is apart. -/
def headerValueByte (parser : HttpParser) (ch : Byte) : Option HttpParser :=
  let c := lower ch
  match parser.headerState with
  | .connection | .transferEncoding => some parser
  | .contentLength =>
    if ch = ascii ' ' then some parser
    else if !isNum ch then none
    -- the test for overflow is conservative: it refuses the last few lengths below 2 ^ 64
    else if (ullongMax - 10) / 10 < parser.contentLength then none
    else some { parser with contentLength := parser.contentLength * 10 + digit ch }
  | .matchingTransferEncodingChunked =>
    some (matchText (bytes "chunked") .general .transferEncodingChunked parser c)
  | .matchingConnectionTokenStart => some { parser with
      headerState :=
        if c = ascii 'k' then .matchingConnectionKeepAlive
        else if c = ascii 'c' then .matchingConnectionClose
        else if c = ascii 'u' then .matchingConnectionUpgrade
        else if token c ≠ 0 then .matchingConnectionToken
        else if c = ascii ' ' ∨ c = ascii '\t' then .matchingConnectionTokenStart
        else .general }
  | .matchingConnectionKeepAlive =>
    some (matchText (bytes "keep-alive") .matchingConnectionToken .connectionKeepAlive parser c)
  | .matchingConnectionClose =>
    some (matchText (bytes "close") .matchingConnectionToken .connectionClose parser c)
  | .matchingConnectionUpgrade =>
    some (matchText (bytes "upgrade") .matchingConnectionToken .connectionUpgrade parser c)
  | .matchingConnectionToken =>
    if ch = ascii ',' then
      some { parser with headerState := .matchingConnectionTokenStart, index := 0 }
    else some parser
  | .transferEncodingChunked =>
    some (if ch ≠ ascii ' ' then { parser with headerState := .general } else parser)
  | .connectionKeepAlive | .connectionClose | .connectionUpgrade =>
    if ch = ascii ',' then
      some { connectionFlag parser with headerState := .matchingConnectionTokenStart, index := 0 }
    else if ch ≠ ascii ' ' then some { parser with headerState := .matchingConnectionToken }
    else some parser
  | _ => some { parser with state := .headerValue, headerState := .general }

/-- The end of the line inside the loop of `case s_header_value`. A line feed
without a carriage return re-executes the byte in `s_header_almost_done`. -/
def headerValueEnd (read : Nat) : Execution :=
  let e := { e with inner := none }.updateState .headerAlmostDone
  if ch = cr then (e.callbackData .headerValue).countHeaderSize read id
  -- on a line feed the count comes first and an overflow leaves the value unreported
  else e.countHeaderSize read fun e =>
    (e.callbackData .headerValue).expect ch lf .headerValueLws

/-- The loop of `case s_header_value`, at the byte `read` bytes after `start`. -/
def headerValueLoop (read : Nat) : Execution :=
  if ch = cr ∨ ch = lf then e.headerValueEnd ch read
  -- `case h_general`: `memchr` looks for the end of the line from this byte on
  else if e.parser.headerState = .general then { e with inner := some (.search (read + 1) 1) }
  else
    match headerValueByte e.parser ch with
    | none => e.error .invalidContentLength
    | some parser => { e with parser := parser, inner := some (.headerValue (read + 1)) }

/-- `memchr` for the end of the line looks at `HTTP_MAX_HEADER_SIZE` bytes; when
they hold no end of line the source goes on at the end of the buffer. -/
def searchLoop (read looked : Nat) : Execution :=
  if looked ≥ httpMaxHeaderSize then { e with inner := some (.skip (read + 1)) }
  else if ch = cr ∨ ch = lf then e.headerValueEnd ch read
  else { e with inner := some (.search (read + 1) (looked + 1)) }

/-- `case s_header_value_lws` -/
def headerValueLws : Execution :=
  -- a line that starts with a blank continues the value; otherwise the line is over
  if ch = ascii ' ' ∨ ch = ascii '\t' then (e.updateState .headerValueStart).headerValueStart ch
  else ({ e with parser := lineFlag e.parser }.updateState .headerFieldStart).headerFieldStart ch

/-- `case s_header_value_discard_lws`; otherwise the value was empty. -/
def headerValueDiscardLws : Execution :=
  if ch = ascii ' ' ∨ ch = ascii '\t' then e.updateState .headerValueDiscardWs
  else
    (({ e with parser := lineFlag e.parser }.mark .headerValue).updateState
      .headerFieldStart |>.callbackData .headerValue).headerFieldStart ch

/-! ## Bodies -/

/-- `case s_body_identity` -/
def bodyIdentity : Execution :=
  let e := e.mark .body
  let e := { e with parser := { e.parser with contentLength := e.parser.contentLength - 1 } }
  if e.parser.contentLength = 0 then
    -- the last byte: the body is reported with it and `s_message_done` re-executes it
    ((e.updateState .messageDone).callbackDataThrough .body ch).messageDone
  else e

/-- `case s_chunk_size_start` -/
def chunkSizeStart : Execution :=
  match unhex ch with
  | none => e.error .invalidChunkSize
  | some v => { e with parser := { e.parser with contentLength := v, state := .chunkSize } }

/-- `case s_chunk_size` -/
def chunkSize : Execution :=
  if ch = cr then e.updateState .chunkSizeAlmostDone
  else
    match unhex ch with
    | none =>
      if ch = ascii ';' ∨ ch = ascii ' ' then e.updateState .chunkParameters
      else e.error .invalidChunkSize
    | some v =>
      -- as for a content length, the last few sizes below 2 ^ 64 are refused
      if (ullongMax - 16) / 16 < e.parser.contentLength then e.error .invalidContentLength
      else { e with parser := { e.parser with contentLength := e.parser.contentLength * 16 + v } }

/-- `case s_chunk_parameters` -/
def chunkParameters : Execution :=
  if ch = cr then e.updateState .chunkSizeAlmostDone else e

/-- `case s_chunk_size_almost_done` -/
def chunkSizeAlmostDone : Execution :=
  if ch ≠ lf then e.error .strict
  else
    let parser := { e.parser with nread := 0 }
    let parser :=
      if parser.contentLength = 0 then
        -- the chunk of size zero is the last; header lines may follow it
        { parser with flags := { parser.flags with trailing := true }, state := .headerFieldStart }
      else { parser with state := .chunkData }
    { e with parser := parser }.notify .onChunkHeader

/-- `case s_chunk_data` -/
def chunkData : Execution :=
  let e := e.mark .body
  let e := { e with parser := { e.parser with contentLength := e.parser.contentLength - 1 } }
  if e.parser.contentLength = 0 then e.updateState .chunkDataAlmostDone else e

/-- `case s_chunk_data_almost_done` -/
def chunkDataAlmostDone : Execution :=
  if ch ≠ cr then e.error .strict
  else (e.updateState .chunkDataDone).callbackData .body

/-- `case s_chunk_data_done` -/
def chunkDataDone : Execution :=
  if ch ≠ lf then e.error .strict
  else
    ({ e with parser := { e.parser with nread := 0 } }.updateState .chunkSizeStart).notify
      .onChunkComplete

/-! ## The main loop -/

/-- The `switch` of the main loop. -/
def dispatch : Execution :=
  match e.parser.state with
  | .dead => if ch = cr ∨ ch = lf then e else e.error .closedConnection
  | .startReq => e.startReq ch
  | .reqMethod => e.reqMethod ch
  | .reqSpacesBeforeUrl => e.reqSpacesBeforeUrl ch
  | .reqSchema | .reqSchemaSlash | .reqSchemaSlashSlash | .reqServerStart => e.reqSchema ch
  | .reqServer | .reqServerWithAt | .reqPath | .reqQueryStringStart | .reqQueryString
  | .reqFragmentStart | .reqFragment => e.reqUrl ch
  | .reqHttpStart => e.reqHttpStart ch
  | .reqHttpH => e.expect ch (ascii 'T') .reqHttpHT
  | .reqHttpHT => e.expect ch (ascii 'T') .reqHttpHTT
  | .reqHttpHTT => e.expect ch (ascii 'P') .reqHttpHTTP
  | .reqHttpHTTP => e.expect ch (ascii '/') .reqFirstHttpMajor
  | .reqFirstHttpMajor => e.reqFirstHttpMajor ch
  | .reqHttpMajor => e.reqHttpMajor ch
  | .reqFirstHttpMinor => e.reqFirstHttpMinor ch
  | .reqHttpMinor => e.reqHttpMinor ch
  | .reqLineAlmostDone => e.reqLineAlmostDone ch
  | .headerFieldStart => e.headerFieldStart ch
  | .headerField => e.headerFieldLoop ch 0
  | .headerValueDiscardWs => e.headerValueDiscardWs ch
  | .headerValueDiscardWsAlmostDone => e.expect ch lf .headerValueDiscardLws
  | .headerValueDiscardLws => e.headerValueDiscardLws ch
  | .headerValueStart => e.headerValueStart ch
  | .headerValue => e.headerValueLoop ch 0
  | .headerValueLws => e.headerValueLws ch
  | .headerAlmostDone => e.expect ch lf .headerValueLws
  | .chunkSizeStart => e.chunkSizeStart ch
  | .chunkSize => e.chunkSize ch
  | .chunkParameters => e.chunkParameters ch
  | .chunkSizeAlmostDone => e.chunkSizeAlmostDone ch
  | .headersAlmostDone => e.headersAlmostDone ch
  | .headersDone => e.headersDone ch
  | .chunkData => e.chunkData
  | .chunkDataAlmostDone => e.chunkDataAlmostDone ch
  | .chunkDataDone => e.chunkDataDone ch
  | .bodyIdentity => e.bodyIdentity ch
  | .bodyIdentityEof => e.mark .body
  | .messageDone => e.messageDone

/-- What the byte `ch` does before `p++`. -/
def consume : Execution :=
  match e.inner with
  | some (.headerField read) => e.headerFieldLoop ch read
  | some (.headerValue read) => e.headerValueLoop ch read
  | some (.search read looked) => e.searchLoop ch read looked
  | some (.skip read) => { e with inner := some (.skip (read + 1)) }
  | none =>
    -- the parser's state is read before the `switch`, so a re-executed byte counts once
    if e.parser.state.parsingHeader then e.countHeaderSize 1 fun e => e.dispatch ch
    else e.dispatch ch

/-- One byte of the buffer. -/
def step : Execution :=
  if e.returned then e
  else
    let next := e.consume ch
    if next.returned then next else next.advance ch

/-- The number of bytes an inner loop still has to charge to the header limit. -/
def Inner.charge : Inner → Nat
  | .headerField read | .headerValue read | .search read _ | .skip read => read

/-- The end of the buffer: an inner loop ends there, and the mark that is left
is reported with the text it has. -/
def finish : Execution :=
  if e.returned then e
  else
    let report := fun (e : Execution) =>
      match e.marked with
      | some (m, _) => { e.callbackData m with returned := true }
      | none => { e with returned := true }
    match e.inner with
    -- the loop meets the end of the buffer, is charged, and the main loop ends with it
    | some inner => { e with inner := none }.countHeaderSize (Inner.charge inner) report
    | none => report e

end Execution

/-- The mark that stands at `data` when a buffer continues a piece of text. -/
def initialMark : State → Option Mark
  | .headerField => some .headerField
  | .headerValue => some .headerValue
  | .reqPath | .reqSchema | .reqSchemaSlash | .reqSchemaSlashSlash | .reqServerStart
  | .reqServer | .reqServerWithAt | .reqQueryStringStart | .reqQueryString
  | .reqFragmentStart | .reqFragment => some .url
  | _ => none

/-- `http_parser_execute` -/
def httpParserExecute (parser : HttpParser) (data : Bytes) : Execution :=
  if parser.httpErrno ≠ .ok then { parser := parser, returned := true }
  -- an empty buffer stands for the end of file
  else if data = [] then
    match parser.state with
    | .bodyIdentityEof =>
      { ({ parser := parser } : Execution).notify .onMessageComplete with returned := true }
    | .dead | .startReq => { parser := parser, returned := true }
    | _ => { ({ parser := parser } : Execution).error .invalidEofState with parsed := 1 }
  else
    let start : Execution :=
      { parser := parser, marked := (initialMark parser.state).map fun m => (m, []) }
    (data.foldl Execution.step start).finish

end Viking.Http
