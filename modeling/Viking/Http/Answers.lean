/-
# How requests are answered

The item that `process_request` returns is made from a response, and `Answers` says how: a
handler's response and those that the dispatcher makes itself are serialised as a whole, and
a file goes out between its header and the ending. Or a handler has returned a future.
-/

import Viking.Http.Caching
import Viking.Http.Fields
import Viking.Http.Replies

namespace Viking.Http

open Io Cache Asking

variable {ρ : Type} (site : Site)

/-- The response of `not_found`. -/
def notFoundResponse (r : Request) : Response :=
  (Response.ofCode site.platform site.config r .notFound).set cacheControlField (bytes "no-cache")

/-- The responses with a body that the dispatcher makes. -/
inductive Own (r : Request) : Response → Prop
  | notFound : Own r (notFoundResponse site r)
  | found : Own r (((Response.ofCode site.platform site.config r .found).set locationField
      (r.url ++ bytes "/")).set cacheControlField (bytes "no-cache"))
  | listing (text : Bytes) : Own r (((Response.ofText site.platform site.config r text).set
      contentTypeField (bytes "text/html; charset=utf-8")).set cacheControlField
        (bytes "no-cache"))
  | resource (resource : Resource) :
    Own r (Response.ofResource site.platform site.config r resource)

/-- The item is made from the response, which answers the request. -/
inductive Answers (routes : List (Route ρ)) (r : Request) : Response → ScheduleItem ρ → Prop
  | routed {handler : Handler ρ} {response : Response} {text : Bytes}
    (routed : handlerFor routes r = some handler) (handled : handler r = .ok (.sync response))
    (serialized : Serializer.serialize site.platform.traversal response = .ok text) :
    Answers routes r response (.ofData text response.getKeepAlive)
  | own {response : Response} {text : Bytes} (unrouted : handlerFor routes r = none)
    (own : Own site r response)
    (serialized : Serializer.serialize site.platform.traversal response = .ok text) :
    Answers routes r response (.ofData text response.getKeepAlive)
  /-- `not_found` does not ask the response -/
  | closing {text : Bytes} (unrouted : handlerFor routes r = none)
    (serialized : Serializer.serialize site.platform.traversal (notFoundResponse site r) =
      .ok text) :
    Answers routes r (notFoundResponse site r) (.ofData text false)
  | file {file : UnixFile} {header : Bytes} (unrouted : handlerFor routes r = none)
    (fresh : file.offset = 0)
    (made : Serializer.makeHeader site.platform.traversal
      (.ofFile site.platform site.config r (some file)) = .ok header) :
    Answers routes r (.ofFile site.platform site.config r (some file))
      ⟨[.memory (.new header), .file file, .memory (.new Serializer.makeEnding)],
        (Response.ofFile site.platform site.config r (some file)).getKeepAlive⟩

/-- The item waits for a future that the handler has returned. -/
def Awaits (routes : List (Route ρ)) (r : Request) (item : ScheduleItem ρ) : Prop :=
  ∃ handler future keep, handlerFor routes r = some handler ∧
    handler r = .ok (.async future keep) ∧ item = .ofFuture future keep

section Yields

variable {site} {routes : List (Route ρ)} {r : Request} {path : Bytes}

/-- The item is made from some response. -/
def Answered (site : Site) (routes : List (Route ρ)) (r : Request) (item : ScheduleItem ρ) : Prop :=
  ∃ response, Answers site routes r response item

theorem yields_nothrow {α : Type} {Q : α → Prop} {m : Serving α} (h : Yields Q m) :
    Yields Q (nothrow m) :=
  h.through fun _ _ => noexcept_eq_ok.mp

theorem yields_catchAll {α : Type} {Q : α → Prop} {m handler : Serving α} (h : Yields Q m)
    (handles : Yields Q handler) : Yields Q (catchAll m handler) := by
  refine h.handle fun fault => ?_
  cases fault with
  | thrown exception => exact handles
  | terminated | undefined => exact .fail _

theorem yields_itemOf {response : Response} (unrouted : handlerFor routes r = none)
    (own : Own site r response) :
    Yields (Answered site routes r) (itemOf site response) :=
  .ofExcept fun _ serialized => .pure ⟨response, .own unrouted own serialized⟩

theorem yields_notFound (unrouted : handlerFor routes r = none) :
    Yields (Answered site routes r) (notFound site r) := by
  apply yields_nothrow
  exact .ofExcept fun _ serialized => .pure ⟨_, .closing unrouted serialized⟩

theorem yields_listDirectory : Yields (Own site r) (listDirectory site r) := by
  refine yields_catchAll ?_ (.pure .notFound)
  unfold listEntries
  split
  · exact .fail _
  · split_ifs
    · exact .pure .found
    · refine (Yields.trivial _).bind fun listing _ => ?_
      refine (Yields.trivial _).bind fun lines _ => ?_
      split_ifs
      · exact .fail _
      · exact .pure (.listing _)

theorem yields_takeFileFromMemory (unrouted : handlerFor routes r = none) :
    Yields (Answered site routes r) (takeFileFromMemory site r path) := by
  refine (Yields.trivial _).bind fun resource _ => ?_
  split_ifs
  · exact yields_itemOf unrouted (.resource resource)
  · exact .fail _

theorem yields_takeUnixFile (unrouted : handlerFor routes r = none) :
    Yields (Answered site routes r) (takeUnixFile site r path) := by
  refine yields_unixFile.bind fun file opened => ?_
  exact .ofExcept fun _ made => .pure ⟨_, .file unrouted opened.2 made⟩

theorem yields_takeEntry (unrouted : handlerFor routes r = none) :
    Yields (fun item => ∀ i ∈ item, Answered site routes r i) (takeEntry site r) := by
  have some {m : Serving (ScheduleItem ρ)} (h : Yields (Answered site routes r) m) :
      Yields (fun item => ∀ i ∈ item, Answered site routes r i)
        (do return some (← m) : Serving (Option (ScheduleItem ρ))) :=
    h.bind fun item answered => .pure (by simpa using answered)
  refine (Yields.trivial _).bind fun directory _ => ?_
  split_ifs
  · exact some (yields_listDirectory.bind fun _ own => yields_itemOf unrouted own)
  · refine (Yields.trivial _).bind fun regular _ => ?_
    split_ifs
    · refine some ((Yields.trivial _).bind fun copy _ => ?_)
      split_ifs
      · exact yields_takeFileFromMemory unrouted
      · exact yields_takeUnixFile unrouted
    · exact .pure (by simp)

theorem yields_takeDiskResource (unrouted : handlerFor routes r = none) :
    Yields (Answered site routes r) (takeDiskResource site r) := by
  apply yields_nothrow
  have entry : Yields (fun item => ∀ i ∈ item, Answered site routes r i)
      (catchAll (takeEntry site r) (return none)) :=
    yields_catchAll (yields_takeEntry unrouted) (.pure (by simp))
  refine entry.bind fun item answered => ?_
  cases item with
  | some item => exact .pure (answered item rfl)
  | none => exact yields_notFound unrouted

theorem yields_passRequest {handler : Handler ρ} (routed : handlerFor routes r = some handler) :
    Yields (fun item => Answered site routes r item ∨ Awaits routes r item)
      (passRequest site r handler) := by
  apply yields_nothrow
  refine .ofExcept fun resolution handled => ?_
  cases resolution with
  | sync response =>
    exact .ofExcept fun _ serialized => .pure (.inl ⟨response, .routed routed handled serialized⟩)
  | async future keep => exact .pure (.inr ⟨handler, future, keep, routed, handled, rfl⟩)

/-- Every item that is returned answers the request or waits for a handler's future. -/
theorem yields_processRequest (site : Site) (routes : List (Route ρ)) (r : Request) :
    Yields (fun item => Answered site routes r item ∨ Awaits routes r item)
      (processRequest site routes r) := by
  apply yields_nothrow
  refine .ofExcept fun handler found => ?_
  have routed := handlerFor_of_ok found
  cases handler with
  | some handler => exact yields_passRequest routed
  | none =>
    refine (Yields.trivial _).bind fun there _ => ?_
    have answered {m : Serving (ScheduleItem ρ)} (h : Yields (Answered site routes r) m) :
        Yields (fun item => Answered site routes r item ∨ Awaits routes r item) m :=
      fun w s item returned => .inl (h w s item returned)
    split_ifs
    · exact answered (yields_takeDiskResource routed)
    · exact answered (yields_notFound routed)

end Yields

end Viking.Http
