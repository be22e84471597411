/-
# The dispatcher

`processRequest` is `dispatcher_impl::process_request` with all that it calls: the routes,
the listing of directories, files sent from memory, and files sent from their descriptor.
It asks the file system through `Serving` and answers with an item for the scheduler.

A function of the source that is `noexcept` ends the process when an exception gets there.
-/

import Viking.Cache.Caches

namespace Viking.Http

open Io Cache

/-! ## Exceptions -/

/-- A function declared `noexcept`. -/
def nothrow {α : Type} (m : Serving α) : Serving α := m.through noexcept

/-- `catch (...)` -/
def catchAll {α : Type} (m : Serving α) (handler : Serving α) : Serving α :=
  m.handle fun fault =>
    match fault with
    | .thrown _ => handler
    | fault => Asking.fail fault

/-! ## Routes -/

/-- `http::resolution` -/
inductive Resolution (ρ : Type)
  | sync (response : Response)
  /-- `keep` is what the flag of the item holds, which nothing sets -/
  | async (future : AsyncBuffer ρ) (keep : Bool)

/-- `http_handler` -/
abbrev Handler (ρ : Type) := Request → Except Fault (Resolution ρ)

/-- `route`; its `std::function` may be empty. -/
structure Route (ρ : Type) where
  method : Method
  validator : Bytes → Bool
  handler : Option (Handler ρ)

/-- `route_util::strip_route`; without a slash it starts before the beginning. -/
def stripRoute (uri : Bytes) : Except Fault Bytes :=
  match uri.dropWhile (· ≠ ascii '/') with
  | [] => .error (.undefined .outsideString)
  | route => .ok route

/-- `get_user_handler`, when `strip_route` has returned. -/
def findHandler {ρ : Type} (request : Request) (routes : List (Route ρ)) (strippedRoute : Bytes) :
    Option (Handler ρ) :=
  match routes.find? fun route =>
    request.method = route.method && route.validator strippedRoute with
  -- the first route that matches, whose handler may be empty
  | some route => route.handler
  | none => none

/-- `route_util::get_user_handler` -/
def getUserHandler {ρ : Type} (request : Request) (routes : List (Route ρ)) :
    Except Fault (Option (Handler ρ)) := do
  let strippedRoute ← stripRoute request.url
  return findHandler request routes strippedRoute

/-! ## Listing a directory -/

/-- `trim_quotes`. The second `substr` keeps the whole string. -/
def trimQuotes (str : Bytes) : Except Fault Bytes :=
  match str with
  | [] => .error (.undefined .outsideString)
  | front :: rest =>
    let str := if front = ascii '"' then rest else front :: rest
    -- `str.back()` comes next, of a string that may be empty by now
    if str = [] then .error (.undefined .outsideString) else .ok str

/-- `isalnum` in the "C" locale -/
def isAlnum (c : Byte) : Bool :=
  (ascii '0' ≤ c && c ≤ ascii '9') || (ascii 'a' ≤ c && c ≤ ascii 'z') ||
    (ascii 'A' ≤ c && c ≤ ascii 'Z')

/-- A digit as a stream prints it in `std::hex` and `std::uppercase`. -/
def hexDigit (n : Byte) : Byte := if n < 10 then ascii '0' + n else ascii 'A' + (n - 10)

/-- `url_encode` -/
def urlEncode (value : Bytes) : Bytes :=
  value.flatMap fun c =>
    if isAlnum c || c = ascii '-' || c = ascii '_' || c = ascii '.' || c = ascii '~' then [c]
    else [ascii '%', hexDigit (c / 16), hexDigit (c % 16)]

/-- What the listing has for one entry. -/
def listingLine (name : Bytes) : Except Fault Bytes := do
  let target ← trimQuotes name
  let text ← trimQuotes name
  return bytes "<a href=\"" ++ urlEncode target ++ bytes "\">" ++ text ++ bytes "</a><br/>"

/-- What the dispatcher is built on. -/
structure Site where
  platform : Platform
  config : Configuration
  page : PageSize

variable {ρ : Type} (site : Site)

/-- `root_path + request.url` -/
def fullPath (request : Request) : Bytes := site.config.rootPath ++ request.url

/-- `list_directory` inside its `try`. -/
def listEntries (req : Request) : Serving Response :=
  match req.url.getLast? with
  | none => Asking.fail (.undefined .outsideString)
  | some back =>
    if back ≠ ascii '/' then
      -- a redirection to the same URL with a slash
      return ((Response.ofCode site.platform site.config req .found).set locationField
        (req.url ++ bytes "/")).set cacheControlField (bytes "no-cache")
    else do
      let listing : Listing ← Asking.ask (Call.list (cString (fullPath site req)))
      let lines ← Asking.ofExcept (listing.names.mapM listingLine)
      -- incrementing the iterator throws when the directory cannot be read on
      if !listing.complete then Asking.fail (.thrown .filesystemError)
      else
        return ((Response.ofText site.platform site.config req
          (bytes "<h1>Directory listing of " ++ req.url ++ bytes "</h1>" ++ lines.flatten)).set
            contentTypeField (bytes "text/html; charset=utf-8")).set cacheControlField
              (bytes "no-cache")

/-- `http::list_directory` -/
def listDirectory (req : Request) : Serving Response :=
  catchAll (listEntries site req) <|
    return (Response.ofCode site.platform site.config req .notFound).set cacheControlField
      (bytes "no-cache")

/-! ## `dispatcher_impl` -/

/-- `{serializer(response), response.get_keep_alive()}` -/
def itemOf (response : Response) : Serving (ScheduleItem ρ) := do
  let text ← Asking.ofExcept (Serializer.serialize site.platform.traversal response)
  return .ofData text response.getKeepAlive

/-- `not_found` -/
def notFound (r : Request) : Serving (ScheduleItem ρ) := nothrow do
  let res := (Response.ofCode site.platform site.config r .notFound).set cacheControlField
    (bytes "no-cache")
  let text ← Asking.ofExcept (Serializer.serialize site.platform.traversal res)
  return .ofData text false

/-- `should_copy` -/
def shouldCopy (resourcePath : Bytes) : Serving Bool :=
  catchAll
    (do
      let fileSize ← fsFileSize resourcePath
      return (fileSize < 2000000 && getExtension resourcePath = bytes "jpg") ||
        fileSize ≤ site.page.bytes)
    (Asking.fail (.thrown (.statusCode StatusCode.notFound)))

/-- `take_folder`, with the callback that `configuration` sets -/
def takeFolder (request : Request) : Serving (ScheduleItem ρ) := do
  itemOf site (← listDirectory site request)

/-- `take_file_from_memory` -/
def takeFileFromMemory (request : Request) (path : Bytes) : Serving (ScheduleItem ρ) := do
  let resource ← ResourceCache.aquire path
  if resource.toBool then
    itemOf site (Response.ofResource site.platform site.config request resource)
  else Asking.fail (.thrown (.statusCode StatusCode.notFound))

/-- `take_unix_file` -/
def takeUnixFile (r : Request) (path : Bytes) : Serving (ScheduleItem ρ) := do
  let file ← unixFile path
  let response := Response.ofFile site.platform site.config r (some file)
  let header ← Asking.ofExcept (Serializer.makeHeader site.platform.traversal response)
  -- header, file and ending are three buffers of one item
  let item := (ScheduleItem.empty false).putBackMemory (.new header)
  let item := (item.putBackFile file).putBackMemory (.new Serializer.makeEnding)
  return { item with keepFileOpen := response.getKeepAlive }

/-- `take_regular_file` -/
def takeRegularFile (request : Request) (path : Bytes) : Serving (ScheduleItem ρ) := do
  if ← shouldCopy site path then takeFileFromMemory site request path
  else takeUnixFile site request path

/-- `take_disk_resource` inside its `try`; `none` when it comes out at the end. -/
def takeEntry (request : Request) : Serving (Option (ScheduleItem ρ)) := do
  if ← fsIsDirectory (fullPath site request) then return some (← takeFolder site request)
  else if ← fsIsRegularFile (fullPath site request) then
    return some (← takeRegularFile site request (fullPath site request))
  else return none

/-- `take_disk_resource` -/
def takeDiskResource (request : Request) : Serving (ScheduleItem ρ) := nothrow do
  match ← catchAll (takeEntry site request) (return none) with
  | some item => return item
  | none => notFound site request

/-- `pass_request` -/
def passRequest (req : Request) (h : Handler ρ) : Serving (ScheduleItem ρ) := nothrow do
  let resolution ← Asking.ofExcept (h req)
  match resolution with
  | .sync response => itemOf site response
  | .async future keep => return .ofFuture future keep

/-- `util::is_disk_resource` -/
def isDiskResource (request : Request) : Serving Bool := nothrow (fsExists (fullPath site request))

/-- `process_request`, with what comes of looking for a handler. -/
def processHandled (r : Request) (found : Except Fault (Option (Handler ρ))) :
    Serving (ScheduleItem ρ) := nothrow do
  let userHandler ← Asking.ofExcept found
  -- an empty handler converts to `false` and counts as no route
  match userHandler with
  | some userHandler => passRequest site r userHandler
  | none =>
    if ← isDiskResource site r then takeDiskResource site r
    else notFound site r

/-- `process_request` -/
def processRequest (routes : List (Route ρ)) (r : Request) : Serving (ScheduleItem ρ) :=
  processHandled site r (if isPassable r then getUserHandler r routes else .ok none)

end Viking.Http
