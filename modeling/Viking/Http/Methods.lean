/-
# Request methods

Two enumerations meet here: `http_method` of the vendored parser, which spells
each method, and `http::method` of the server, which routes on it. The parser's
spellings are the stringified third column of its table, so the entry written
`M - SEARCH` there is spelled with its blanks, and the server's own table writes
`Connect` in mixed case. A method whose spelling the server's table does not
hold leaves `m_request.method` as it was.
-/

import Viking.Misc.StringUtil

namespace Viking.Http

/-- `enum http_method` of the parser. -/
inductive HttpMethod
  | delete | get | head | post | put
  | connect | options | trace
  | copy | lock | mkcol | move | propfind | proppatch | search | unlock
  | bind | rebind | unbind | acl
  | report | mkactivity | checkout | merge
  | msearch | notify | subscribe | unsubscribe
  | patch | purge
  | mkcalendar
  | link | unlink
  deriving DecidableEq, Repr

/-- `method_strings`, as the preprocessor spells them. -/
def httpMethodStr : HttpMethod → Bytes
  | .delete => bytes "DELETE"
  | .get => bytes "GET"
  | .head => bytes "HEAD"
  | .post => bytes "POST"
  | .put => bytes "PUT"
  | .connect => bytes "CONNECT"
  | .options => bytes "OPTIONS"
  | .trace => bytes "TRACE"
  | .copy => bytes "COPY"
  | .lock => bytes "LOCK"
  | .mkcol => bytes "MKCOL"
  | .move => bytes "MOVE"
  | .propfind => bytes "PROPFIND"
  | .proppatch => bytes "PROPPATCH"
  | .search => bytes "SEARCH"
  | .unlock => bytes "UNLOCK"
  | .bind => bytes "BIND"
  | .rebind => bytes "REBIND"
  | .unbind => bytes "UNBIND"
  | .acl => bytes "ACL"
  | .report => bytes "REPORT"
  | .mkactivity => bytes "MKACTIVITY"
  | .checkout => bytes "CHECKOUT"
  | .merge => bytes "MERGE"
  | .msearch => bytes "M - SEARCH"
  | .notify => bytes "NOTIFY"
  | .subscribe => bytes "SUBSCRIBE"
  | .unsubscribe => bytes "UNSUBSCRIBE"
  | .patch => bytes "PATCH"
  | .purge => bytes "PURGE"
  | .mkcalendar => bytes "MKCALENDAR"
  | .link => bytes "LINK"
  | .unlink => bytes "UNLINK"

/-- `enum class http::method`. A member that was never assigned holds an
arbitrary value of the underlying `int`; one that names no enumerator is
`unnamed`. -/
inductive Method
  | delete | get | head | post | put | connect | options | trace
  | copy | lock | mkcol | move | propfind | proppatch | unlock
  | report | mkactivity | checkout | merge
  | mSearch | notify | subscribe | unsubscribe
  | unnamed (value : Int)
  deriving DecidableEq, Repr

/-- `http::method_map` -/
def methodMap : List (Bytes × Method) :=
  [(bytes "GET", .get), (bytes "POST", .post), (bytes "PUT", .put), (bytes "DELETE", .delete),
   (bytes "Connect", .connect), (bytes "HEAD", .head), (bytes "OPTIONS", .options),
   (bytes "TRACE", .trace), (bytes "COPY", .copy), (bytes "LOCK", .lock),
   (bytes "MKCOL", .mkcol), (bytes "MOVE", .move), (bytes "PROPFIND", .propfind),
   (bytes "PROPPATCH", .proppatch), (bytes "UNLOCK", .unlock), (bytes "REPORT", .report),
   (bytes "MKACTIVITY", .mkactivity), (bytes "CHECKOUT", .checkout), (bytes "MERGE", .merge),
   (bytes "M-SEARCH", .mSearch), (bytes "NOTIFY", .notify), (bytes "SUBSCRIBE", .subscribe),
   (bytes "UNSUBSCRIBE", .unsubscribe)]

/-- `method_map.find(http_method_str(method_numeric))` -/
def methodOf (m : HttpMethod) : Option Method := methodMap.lookup (httpMethodStr m)

end Viking.Http
