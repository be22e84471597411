/-
# Positions in a URL

`strip_route` starts at the first slash of the URL and `list_directory` looks at its last byte,
and neither looks first whether there is one. `Indexed` says that there is, wherever a request
comes to these functions.

The URL is decoded from the target that the parser reported last on the bytes of the request.
`indexed_run_iff` says along a whole connection what these targets have to be like: the other
ones, such as `*`, or one that the first read ends in, take the server out of the URL.
-/

import Viking.Http.Reception
import Viking.Http.Replies
import Viking.Lib.Delimited
import Viking.Misc.Escapes

namespace Viking.Http

open Io Cache Asking

/-! ## What the two functions need -/

/-- `strip_route` finds a slash, and returns the URL from its first slash on. -/
def StripsInside (url : Bytes) : Prop :=
  ∃ before after, ascii '/' ∉ before ∧ url = before ++ ascii '/' :: after ∧
    stripRoute url = .ok (ascii '/' :: after)

/-- `process_request` comes to `list_directory`: it has no handler for the request, and the full
path is that of a directory. -/
def ComesToListing {ρ : Type} (site : Site) (routes : List (Route ρ)) (r : Request)
    (w : World Call.Answer) (s : Record Call Caches) : Prop :=
  (if isPassable r then getUserHandler r routes else .ok none) = .ok none ∧
    ∃ s' s'', isDiskResource site r w s = (.ok true, s') ∧
      fsIsDirectory (fullPath site r) w s' = (.ok true, s'')

/-- Whatever the site, the routes and the files are, `process_request` stays inside the URL. -/
structure Indexed (r : Request) : Prop where
  strip : isPassable r = true → StripsInside r.url
  back : ∀ {ρ : Type} (site : Site) (routes : List (Route ρ)) (w : World Call.Answer)
    (s : Record Call Caches), ComesToListing site routes r w s → r.url ≠ []

section Requests

variable {ρ : Type} {site : Site} {routes : List (Route ρ)} {r : Request} {url : Bytes}
  {w : World Call.Answer} {s : Record Call Caches}

theorem stripRoute_of_not_mem (slashless : ascii '/' ∉ url) :
    stripRoute url = .error (.undefined .outsideString) := by
  rw [stripRoute, List.dropWhile_eq_nil_iff.mpr (Delimited.ne_of_plain slashless)]

theorem stripsInside_iff : StripsInside url ↔ ascii '/' ∈ url := by
  constructor
  · rintro ⟨before, after, -, rfl, -⟩
    exact List.mem_append_right _ (List.mem_cons_self ..)
  · intro mem
    obtain ⟨before, after, rfl, first⟩ := List.eq_append_cons_of_mem mem
    refine ⟨before, after, first, rfl, ?_⟩
    rw [stripRoute, Delimited.dropWhile_append first]

/-- A request that asks for no route comes to the listing of the root when its URL is empty. -/
theorem comesToListing_root (other : isPassable r = false) :
    ComesToListing site routes r (unreadable (.found .directory)) ⟨[], .empty⟩ := by
  refine ⟨by rw [other]; rfl, _, _, rfl, rfl⟩

theorem indexed_iff :
    Indexed r ↔ if isPassable r then ascii '/' ∈ r.url else r.url ≠ [] := by
  split_ifs with passable
  · constructor
    · intro indexed
      exact stripsInside_iff.mp (indexed.strip passable)
    · intro slash
      exact ⟨fun _ => stripsInside_iff.mpr slash, fun _ _ _ _ _ => List.ne_nil_of_mem slash⟩
  · rw [Bool.not_eq_true] at passable
    constructor
    · intro indexed
      let site : Site := ⟨⟨[], id, id, fun _ => none, fun _ => [], .byName⟩, ⟨[], 0, false⟩, ⟨12⟩⟩
      exact indexed.back (ρ := Unit) site [] _ _ (comesToListing_root passable)
    · intro nonempty
      exact ⟨fun passable' => absurd passable' (by simp [passable]), fun _ _ _ _ _ => nonempty⟩

/-- Without a slash there is no route to look for. -/
theorem processRequest_of_not_mem (passable : isPassable r = true) (slashless : ascii '/' ∉ r.url) :
    processRequest site routes r w s = (.error (.undefined .outsideString), s) := by
  have stripped : getUserHandler r routes = .error (.undefined .outsideString) := by
    rw [getUserHandler, stripRoute_of_not_mem slashless]
    rfl
  have first : (ofExcept (if isPassable r then getUserHandler r routes else .ok none) :
      Serving (Option (Handler ρ))) w s = (.error (.undefined .outsideString), s) := by
    rw [ofExcept_run, if_pos passable, stripped]
  rw [processRequest, processHandled, nothrow, through, bind_run_error first]
  rfl

/-- `list_directory` looks at the last byte of the empty URL. -/
theorem processRequest_of_comesToListing (comes : ComesToListing site routes r w s)
    (empty : r.url = []) :
    (processRequest site routes r w s).1 = .error (.undefined .outsideString) := by
  obtain ⟨handler, s', s'', there, directory⟩ := comes
  have entries : listEntries site r w s'' = (.error (.undefined .outsideString), s'') := by
    rw [listEntries, empty]
    rfl
  have listing : listDirectory site r w s'' = (.error (.undefined .outsideString), s'') := by
    rw [listDirectory, catchAll, handle, entries]
    rfl
  have folder : (takeFolder site r : Serving (ScheduleItem ρ)) w s'' =
      (.error (.undefined .outsideString), s'') := by
    rw [takeFolder, bind_run_error listing]
  have entry : (takeEntry site r : Serving (Option (ScheduleItem ρ))) w s' =
      (.error (.undefined .outsideString), s'') := by
    rw [takeEntry, bind_run_ok directory, if_pos rfl, bind_run_error folder]
  have caught : (catchAll (takeEntry site r) (return none) :
      Serving (Option (ScheduleItem ρ))) w s' = (.error (.undefined .outsideString), s'') := by
    rw [catchAll, handle, entry]
    rfl
  rw [processRequest_of_there handler there, takeDiskResource, nothrow, nothrow, through, through,
    bind_run_error caught]
  rfl

/-- Where a request is not indexed the server leaves the URL. -/
theorem undefined_of_not_indexed (outside : ¬ Indexed r) (site : Site) :
    (processRequest site ([] : List (Route ρ)) r (unreadable (.found .directory))
      ⟨[], .empty⟩).1 = .error (.undefined .outsideString) := by
  rw [indexed_iff] at outside
  split_ifs at outside with passable
  · rw [processRequest_of_not_mem passable outside]
  · rw [not_not] at outside
    rw [Bool.not_eq_true] at passable
    exact processRequest_of_comesToListing (comesToListing_root passable) outside

end Requests

/-! ## Connections -/

/-- The text that is reported for a URL. -/
def Callback.target : Callback → Option Bytes
  | .onUrl text => some text
  | _ => none

/-- The text has a slash, as such or as one of its escapes. -/
def HasSlash (text : Bytes) : Prop :=
  ascii '/' ∈ literals text ∨ bytes "2F" ∈ escapes text ∨ bytes "2f" ∈ escapes text

instance : DecidablePred HasSlash := fun _ => inferInstanceAs (Decidable (_ ∨ _ ∨ _))

/-- What a URL has to have, from the target that was reported last, or from the URL that was there
if none was reported: a slash where routes are looked for, and some byte elsewhere. -/
def Located (passable : Bool) (target : Option Bytes) (url : Bytes) : Prop :=
  match target with
  | some text => if passable then HasSlash text else text ≠ []
  | none => if passable then ascii '/' ∈ url else url ≠ []

/-- Whatever request the arrival makes `handle_connection` pass on is indexed. -/
def Arrival.PassesIndexed (cookie : Option Context) (arrival : Arrival) : Prop :=
  ∀ request cookie', serve cookie arrival = .ok (some request, cookie') → Indexed request

/-- When no callback fails and the request is complete, its bytes locate a position in the URL. -/
def Arrival.Targeted (cookie : Option Context) (arrival : Arrival) : Prop :=
  match arrival.read with
  | .closed => True
  | .data chunk _ =>
    let context := arrival.context cookie
    let request := context.received chunk
    HarmlessOn context.settings (context.buffer ++ chunk) → isComplete request = true →
      Located (isPassable request) (lastOf Callback.target (report (context.buffer ++ chunk)))
        context.request.url

section Connections

variable {text url : Bytes} {calls : List Callback}

theorem hasSlash_iff (decoded : urlDecode text = .ok url) : ascii '/' ∈ url ↔ HasSlash text := by
  rw [mem_urlDecode_iff decoded, HasSlash]
  refine or_congr_right ?_
  constructor
  · rintro ⟨escape, mem, read⟩
    rcases (hexToChar_slash_iff mem).mp read with rfl | rfl
    · exact .inl mem
    · exact .inr mem
  · rintro (mem | mem)
    · exact ⟨_, mem, (hexToChar_slash_iff mem).mpr (.inl rfl)⟩
    · exact ⟨_, mem, (hexToChar_slash_iff mem).mpr (.inr rfl)⟩

/-- The last URL that is written is the last target, decoded. -/
theorem lastOf_url (calls : List Callback) :
    lastOf Callback.url calls =
      (lastOf Callback.target calls).map fun text => (urlDecode text).toOption.getD [] := by
  induction calls with
  | nil => rfl
  | cons call calls ih =>
    rw [lastOf_cons, lastOf_cons, ih]
    cases lastOf Callback.target calls <;> cases call <;> rfl

theorem onUrl_of_lastOf (last : lastOf Callback.target calls = some text) :
    .onUrl text ∈ calls := by
  obtain ⟨call, mem, reported⟩ := List.mem_filterMap.mp (List.mem_of_getLast? last)
  cases call <;> cases reported
  exact mem

/-- The URL of a request that was received. -/
theorem received_indexed_iff {c : Context} {chunk : Bytes}
    (harmless : HarmlessOn c.settings (c.buffer ++ chunk)) :
    Indexed (c.received chunk) ↔
      Located (isPassable (c.received chunk))
        (lastOf Callback.target (report (c.buffer ++ chunk))) c.request.url := by
  have url : (c.received chunk).url =
      (lastOf Callback.url (report (c.buffer ++ chunk))).getD c.request.url := rfl
  rw [indexed_iff, url, lastOf_url]
  cases last : lastOf Callback.target (report (c.buffer ++ chunk)) with
  | none => exact Iff.rfl
  | some text =>
    obtain ⟨url, decoded⟩ := (decodable_iff text).mpr (harmless _ (onUrl_of_lastOf last))
    have same : (urlDecode text).toOption.getD [] = url := by rw [decoded]; rfl
    simp only [Located, Option.map_some, Option.getD_some, same, hasSlash_iff decoded, ne_eq,
      urlDecode_eq_nil_iff decoded]

theorem passesIndexed_iff (cookie : Option Context) (arrival : Arrival) :
    arrival.PassesIndexed cookie ↔ arrival.Targeted cookie := by
  obtain ⟨heap, read⟩ := arrival
  cases read with
  | closed => simp [Arrival.PassesIndexed, Arrival.Targeted, serve, handleConnection]
  | data chunk nonempty =>
    simp only [Arrival.PassesIndexed, Arrival.Targeted, serve, handleConnection, Arrival.context]
    generalize cookie.getD (Context.new heap) = context
    cases h : context.receive chunk with
    | error fault =>
      have harmful : ¬ HarmlessOn context.settings (context.buffer ++ chunk) := by
        simp [← Context.receive_isOk_iff, h]
      simp [bind, Except.bind, harmful]
    | ok c =>
      have received := Context.receive_receives h
      have harmless := Context.receive_isOk_iff.mp ⟨c, h⟩
      rw [← received_indexed_iff harmless, ← received.request, ← received.complete]
      simp only [bind, Except.bind, pure, Except.pure, harmless, true_imp_iff]
      split_ifs with complete
      · simp [complete]
      · simp [complete]

end Connections

/-- On a connection every request that is passed to `process_request` is indexed iff each of them
has, in the target that was reported last, what its method needs. -/
theorem indexed_run_iff (arrivals : List Arrival) :
    Machine.Along serve (fun cookie arrival => arrival.PassesIndexed cookie) none arrivals ↔
      Machine.Along serve (fun cookie arrival => arrival.Targeted cookie) none arrivals :=
  Machine.along_congr passesIndexed_iff

/-- A request for `*` has no slash. -/
theorem asterisk_outside :
    ¬ ∀ (arrivals : List Arrival),
      Machine.Along serve (fun cookie arrival => arrival.PassesIndexed cookie) none arrivals := by
  intro all
  let arrival : Arrival := ⟨⟨.get, ⟨1, 1⟩, ⟨false, false⟩⟩,
    .data (bytes "GET * HTTP/1.1\r\n\r\n") (by decide)⟩
  have passed : (serve none arrival).map (fun out => out.1.map fun r => (isPassable r, r.url)) =
      .ok (some (true, bytes "*")) := by decide +kernel
  obtain ⟨⟨passed, cookie⟩, served, same⟩ := Machine.exists_ok_of_map passed
  obtain ⟨request, rfl, found⟩ := Option.map_eq_some_iff.mp same
  obtain ⟨passable, url⟩ := Prod.mk.inj found
  have indexed := (all [arrival]).1 request cookie served
  rw [indexed_iff, if_pos passable, url] at indexed
  exact absurd indexed (by decide)

end Viking.Http
