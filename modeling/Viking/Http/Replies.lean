/-
# What a request is answered

Whatever the file system answers, `process_request` asks only about the path that the
request names, and an item that it returns is one that the scheduler can send: see
`meets_processRequest`.

`replies_iff` says when it returns at all. The one question that is not inside a handler
is the first, and what is left are places where the source goes outside a string.
-/

import Viking.Http.Dispatcher
import Viking.Io.Session

namespace Viking.Http

open Io Cache Asking

/-! ## Rules for the handlers -/

section Handlers

variable {α : Type} {P : Call → Prop} {Q : α → Prop} {E E' : Fault → Prop} {m handler : Serving α}

theorem noexcept_eq_ok {r : Except Fault α} {a : α} : noexcept r = .ok a ↔ r = .ok a := by
  cases r with
  | ok b => exact Iff.rfl
  | error fault => cases fault <;> simp [noexcept]

/-- Nothing that a handler could stop comes out of a `noexcept` function. -/
theorem meets_nothrow (h : Meets P Q E m) (stops : ∀ fault, E fault → ¬ Thrown fault → E' fault)
    (terminated : (∃ fault, E fault ∧ Thrown fault) → E' .terminated) :
    Meets P Q E' (nothrow m) := by
  apply h.through
  · intro r a
    exact noexcept_eq_ok.mp
  · intro r fault all stopped
    cases r with
    | ok a => cases stopped
    | error fault' =>
      have may := all fault' rfl
      cases fault' with
      | thrown exception =>
        -- an exception reaches the boundary and ends the process
        cases stopped
        exact terminated ⟨_, may, _, rfl⟩
      | terminated =>
        cases stopped
        exact stops _ may (by simp [Thrown])
      | undefined reason =>
        cases stopped
        exact stops _ may (by simp [Thrown])

theorem meets_catchAll (h : Meets P Q E m) (handles : Meets P Q E' handler)
    (rest : ∀ fault, E fault → ¬ Thrown fault → E' fault) :
    Meets P Q E' (catchAll m handler) := by
  apply h.handle
  intro fault may
  cases fault with
  | thrown exception => exact handles
  | terminated => exact .fail (rest _ may (by simp [Thrown]))
  | undefined reason => exact .fail (rest _ may (by simp [Thrown]))

end Handlers

/-! ## What an item is made of -/

/-- The item is one for the scheduler, and its files are at paths in `files`. -/
structure WellMade {ρ : Type} (files : Bytes → Prop) (item : ScheduleItem ρ) : Prop where
  nonempty : item.buffers ≠ []
  uniform : (∀ b ∈ item.buffers, b.isAsync = false) ∨ ∃ a, item.buffers = [.async a]
  paths : ∀ file, Buffer.file file ∈ item.buffers → files file.path

section Items

variable {ρ : Type} {site : Site} {r : Request} {files : Bytes → Prop} {P : Call → Prop}
  {E : Fault → Prop}

theorem wellMade_ofData (text : Bytes) (keep : Bool) :
    WellMade files (.ofData text keep : ScheduleItem ρ) where
  nonempty := by simp [ScheduleItem.ofData]
  uniform := .inl (by simp [ScheduleItem.ofData, Buffer.isAsync])
  paths := by simp [ScheduleItem.ofData]

/-- What is serialised becomes an item. -/
theorem meets_serialize {response : Response} {f : Bytes → ScheduleItem ρ}
    (made : ∀ text, WellMade files (f text))
    (stops : ∀ fault, Serializer.serialize site.platform.traversal response = .error fault →
      E fault) :
    Meets P (WellMade files) E (do
      let text ← ofExcept (Serializer.serialize site.platform.traversal response)
      return f text : Serving (ScheduleItem ρ)) := by
  have serializes : Meets P (fun _ => True) E
      (ofExcept (Serializer.serialize site.platform.traversal response) : Serving Bytes) :=
    .ofExcept (fun _ _ => trivial) stops
  exact serializes.bind fun text _ => .pure (made text)

/-- A response that can be sent is serialised. -/
theorem not_stops_of_sendable {response : Response} (sendable : response.Sendable) (fault : Fault)
    (stopped : Serializer.serialize site.platform.traversal response = .error fault) : E fault := by
  obtain ⟨text, serializes⟩ := Serializer.serialize_isOk_iff.mpr sendable
  rw [serializes] at stopped
  cases stopped

theorem meets_itemOf {response : Response} (sendable : response.Sendable) :
    Meets P (WellMade files) E (itemOf site response : Serving (ScheduleItem ρ)) :=
  meets_serialize (fun text => wellMade_ofData text _) (not_stops_of_sendable sendable)

/-- The response that stands for every failure. -/
theorem ofCode_sendable {code : StatusCode} (known : (statusCodes.lookup code).isSome) :
    (Response.ofCode site.platform site.config r code).Sendable :=
  Response.make_sendable known (by simp)

theorem meets_notFound :
    Meets P (WellMade files) E (notFound site r : Serving (ScheduleItem ρ)) := by
  have sendable : ((Response.ofCode site.platform site.config r .notFound).set cacheControlField
      (bytes "no-cache")).Sendable :=
    (Response.sameKind_set _ _ _).sendable (ofCode_sendable (by decide))
  apply meets_nothrow (E := fun _ => False)
    (meets_serialize (fun text => wellMade_ofData text false) (not_stops_of_sendable sendable))
  · intro fault impossible
    exact impossible.elim
  · rintro ⟨fault, impossible, -⟩
    exact impossible.elim

end Items

/-! ## Files -/

section Files

variable {ρ : Type} {site : Site} {r : Request} {path : Bytes}

theorem meets_shouldCopy : Meets (OnPath path) (fun _ => True) Thrown (shouldCopy site path) := by
  apply meets_catchAll (E := Thrown)
  · exact meets_fsFileSize.bind fun _ _ => .pure trivial
  · exact .fail ⟨_, rfl⟩
  · intro fault thrown other
    exact absurd thrown other

theorem meets_takeFileFromMemory :
    Meets (OnPath path) (WellMade (· = path)) Thrown
      (takeFileFromMemory site r path : Serving (ScheduleItem ρ)) := by
  refine meets_resourceCache.bind fun resource _ => ?_
  split_ifs
  · apply meets_itemOf
    apply (Response.sameKind_set _ _ _).sendable
    exact Response.make_sendable (by decide) (by simp)
  · exact .fail ⟨_, rfl⟩

theorem meets_takeUnixFile :
    Meets (OnPath path) (WellMade (· = path)) Thrown
      (takeUnixFile site r path : Serving (ScheduleItem ρ)) := by
  refine meets_unixFile.bind fun file same => ?_
  -- The code is 200, which the table of codes holds, so the header can be made.
  have code : (Response.ofFile site.platform site.config r (some file)).code = .ok :=
    Response.sameKind_init.1
  obtain ⟨header, made⟩ := (Serializer.makeHeader_isOk_iff site.platform.traversal).mpr
    (show (statusCodes.lookup (Response.ofFile site.platform site.config r
      (some file)).code).isSome by rw [code]; decide)
  dsimp only
  rw [made]
  have returns : Meets (OnPath path) (fun _ => True) Thrown
      (ofExcept (.ok header) : Serving Bytes) :=
    .ofExcept (fun _ _ => trivial) fun fault stopped => by cases stopped
  refine returns.bind fun header _ => .pure ?_
  -- the header, the file and the ending
  exact {
    nonempty := by simp [ScheduleItem.putBackMemory, ScheduleItem.putBackFile,
      ScheduleItem.putBackBuffer]
    uniform := .inl (by simp [ScheduleItem.putBackMemory, ScheduleItem.putBackFile,
      ScheduleItem.putBackBuffer, ScheduleItem.empty, Buffer.isAsync])
    paths := by simp [ScheduleItem.putBackMemory, ScheduleItem.putBackFile,
      ScheduleItem.putBackBuffer, ScheduleItem.empty, same] }

theorem meets_takeRegularFile :
    Meets (OnPath path) (WellMade (· = path)) Thrown
      (takeRegularFile site r path : Serving (ScheduleItem ρ)) := by
  refine meets_shouldCopy.bind fun copy _ => ?_
  split_ifs
  · exact meets_takeFileFromMemory
  · exact meets_takeUnixFile

end Files

/-! ## Directories -/

section Directories

variable {ρ : Type} {site : Site} {r : Request}

theorem meets_listEntries :
    Meets (OnPath (fullPath site r)) Response.Sendable (fun _ => True) (listEntries site r) := by
  unfold listEntries
  split
  · exact .fail trivial
  · split_ifs
    · refine .pure ?_
      apply (Response.sameKind_set _ _ _).sendable
      apply (Response.sameKind_set _ _ _).sendable
      exact ofCode_sendable (by decide)
    · apply meets_answer
      · rfl
      · intro listing
        -- The entries are turned into lines without another question.
        have lines : Meets (OnPath (fullPath site r)) (fun _ => True) (fun _ => True)
            (ofExcept (Listing.names listing |>.mapM listingLine) : Serving (List Bytes)) :=
          .ofExcept (fun _ _ => trivial) fun _ _ => trivial
        refine lines.bind fun lines _ => ?_
        split_ifs
        · exact .fail trivial
        · refine .pure ?_
          apply (Response.sameKind_set _ _ _).sendable
          apply (Response.sameKind_set _ _ _).sendable
          exact Response.make_sendable (by decide) (by simp)

theorem meets_listDirectory :
    Meets (OnPath (fullPath site r)) Response.Sendable (fun fault => ¬ Thrown fault)
      (listDirectory site r) := by
  -- Its own handler takes every exception and answers with a 404.
  apply meets_catchAll meets_listEntries
  · refine .pure ?_
    apply (Response.sameKind_set _ _ _).sendable
    exact ofCode_sendable (by decide)
  · intro fault _ other
    exact other

theorem meets_takeFolder :
    Meets (OnPath (fullPath site r)) (WellMade (· = fullPath site r)) (fun fault => ¬ Thrown fault)
      (takeFolder site r : Serving (ScheduleItem ρ)) :=
  meets_listDirectory.bind fun _ sendable => meets_itemOf sendable

end Directories

/-! ## `process_request` -/

section Requests

variable {ρ : Type} {site : Site} {r : Request}

/-- What `take_disk_resource` does once it is known not to be at a directory. -/
theorem meets_takeOther :
    Meets (OnPath (fullPath site r)) (fun item => ∀ i ∈ item, WellMade (· = fullPath site r) i)
      Thrown (do
        if ← fsIsRegularFile (fullPath site r) then
          return some (← takeRegularFile site r (fullPath site r))
        else return none : Serving (Option (ScheduleItem ρ))) := by
  refine (meets_fsTest (· = some .regular)).bind fun regular _ => ?_
  split_ifs
  · refine meets_takeRegularFile.bind fun item made => .pure ?_
    simpa using made
  · exact .pure (by simp)

theorem meets_takeEntry :
    Meets (OnPath (fullPath site r)) (fun item => ∀ i ∈ item, WellMade (· = fullPath site r) i)
      (fun _ => True) (takeEntry site r : Serving (Option (ScheduleItem ρ))) := by
  have directory : Meets (OnPath (fullPath site r)) (fun _ => True) (fun _ => True)
      (fsIsDirectory (fullPath site r) : Serving Bool) :=
    (meets_fsTest (· = some .directory)).mono (fun _ _ => trivial) fun _ _ => trivial
  refine directory.bind fun directory _ => ?_
  split_ifs
  · have folder : Meets (OnPath (fullPath site r)) (WellMade (· = fullPath site r)) (fun _ => True)
        (takeFolder site r : Serving (ScheduleItem ρ)) :=
      meets_takeFolder.mono (fun _ made => made) fun _ _ => trivial
    refine folder.bind fun item made => .pure ?_
    simpa using made
  · exact meets_takeOther.mono (fun _ made => made) fun _ _ => trivial

theorem meets_takeDiskResource :
    Meets (OnPath (fullPath site r)) (WellMade (· = fullPath site r)) (fun fault => ¬ Thrown fault)
      (takeDiskResource site r : Serving (ScheduleItem ρ)) := by
  have entry : Meets (OnPath (fullPath site r))
      (fun item => ∀ i ∈ item, WellMade (· = fullPath site r) i) (fun fault => ¬ Thrown fault)
      (catchAll (takeEntry site r) (return none) : Serving (Option (ScheduleItem ρ))) :=
    meets_catchAll meets_takeEntry (.pure (by simp)) fun _ _ other => other
  -- No exception is left to reach the `noexcept` of the function.
  apply meets_nothrow (E := fun fault => ¬ Thrown fault)
  · refine entry.bind fun item made => ?_
    cases item with
    | some item => exact .pure (made item rfl)
    | none => exact meets_notFound
  · intro fault other _
    exact other
  · rintro ⟨fault, other, thrown⟩
    exact absurd thrown other

theorem meets_isDiskResource :
    Meets (OnPath (fullPath site r)) (fun _ => True) (fun fault => ¬ Thrown fault)
      (isDiskResource site r) := by
  -- `is_disk_resource` is `noexcept` without a handler: here an exception terminates.
  apply meets_nothrow (meets_fsTest Option.isSome)
  · intro fault _ other
    exact other
  · intro _
    simp [Thrown]

/-- A handler's response asks the file system nothing and holds no file. -/
theorem meets_passRequest {P : Call → Prop} {files : Bytes → Prop} (h : Handler ρ) :
    Meets P (WellMade files) (fun fault => ¬ Thrown fault) (passRequest site r h) := by
  apply meets_nothrow (E := fun _ => True)
  · have handled : Meets P (fun _ => True) (fun _ => True)
        (ofExcept (h r) : Serving (Resolution ρ)) :=
      .ofExcept (fun _ _ => trivial) fun _ _ => trivial
    refine handled.bind fun resolution _ => ?_
    cases resolution with
    | sync response =>
      -- The response is the handler's own, so serialising it may stop.
      exact meets_serialize (fun text => wellMade_ofData text _) fun _ _ => trivial
    | async future keep =>
      refine .pure ⟨by simp [ScheduleItem.ofFuture], .inr ⟨future, rfl⟩, ?_⟩
      simp [ScheduleItem.ofFuture]
  · intro fault _ other
    exact other
  · intro _
    simp [Thrown]

/-- Whatever handler is found and the file system answers, the request is served with
questions about the path it names, and an item that is returned is one for the scheduler. -/
theorem meets_processHandled (found : Except Fault (Option (Handler ρ))) :
    Meets (OnPath (fullPath site r)) (WellMade (· = fullPath site r)) (fun fault => ¬ Thrown fault)
      (processHandled site r found) := by
  apply meets_nothrow (E := fun _ => True)
  · have routed : Meets (OnPath (fullPath site r)) (fun _ => True) (fun _ => True)
        (ofExcept found : Serving (Option (Handler ρ))) :=
      .ofExcept (fun _ _ => trivial) fun _ _ => trivial
    -- A handler answers alone; without one the disk is asked, and 404 is what is left.
    refine routed.bind fun userHandler _ => ?_
    cases userHandler with
    | some userHandler =>
      exact (meets_passRequest userHandler).mono (fun _ made => made) fun _ _ => trivial
    | none =>
      refine (meets_isDiskResource.mono (fun _ _ => trivial) fun _ _ => trivial).bind
        fun there _ => ?_
      split_ifs
      · exact meets_takeDiskResource.mono (fun _ made => made) fun _ _ => trivial
      · exact meets_notFound
  · intro fault _ other
    exact other
  · intro _
    simp [Thrown]

theorem meets_processRequest (routes : List (Route ρ)) :
    Meets (OnPath (fullPath site r)) (WellMade (· = fullPath site r)) (fun fault => ¬ Thrown fault)
      (processRequest site routes r) :=
  meets_processHandled _

end Requests

/-! ## When it returns -/

/-- What `stat` says of a path, given what was asked before. -/
def statusAt (w : World Call.Answer) (asked : List Call) (path : Bytes) : FileStatus :=
  w asked (.status (cString path))

/-- What listing a directory yields. -/
def listingAt (w : World Call.Answer) (asked : List Call) (path : Bytes) : Listing :=
  w asked (.list (cString path))

/-- What has been asked once the status of `path` is known. -/
def afterStatus (asked : List Call) (path : Bytes) : List Call := asked ++ [.status (cString path)]

section Runs

variable {α : Type} {m handler : Serving α} {w : World Call.Answer} {s : Record Call Caches}
  {path : Bytes}

theorem returns_nothrow : Returns (nothrow m) w s ↔ Returns m w s := by
  simp only [Returns, nothrow, through, Prod.mk.injEq, exists_and_left, noexcept_eq_ok]
  rcases m w s with ⟨r, s'⟩
  simp

theorem returns_catchAll :
    Returns (catchAll m handler) w s ↔
      Returns m w s ∨ ∃ e s', m w s = (.error (.thrown e), s') ∧ Returns handler w s' := by
  simp only [Returns, catchAll, handle]
  rcases m w s with ⟨r, s'⟩
  cases r with
  | ok a => simp
  | error fault => cases fault <;> simp

/-- A question about what there is at a path. -/
theorem fsTest_run (w : World Call.Answer) (s : Record Call Caches) (path : Bytes)
    (test : Option FileType → Bool) :
    (do return test (← fsStatus path) : Serving Bool) w s =
      (match statusAt w s.asked path with
        | .found type => .ok (test (some type))
        | .notFound => .ok (test none)
        | .failed => .error (.thrown .filesystemError),
        { s with asked := afterStatus s.asked path }) := by
  have run : (fsStatus path : Serving _) w s =
      (match statusAt w s.asked path with
        | .found type => pure (some type)
        | .notFound => pure none
        | .failed => fail (.thrown .filesystemError) : Serving (Option FileType)) w
          { s with asked := afterStatus s.asked path } := rfl
  rw [bind_run, run]
  cases statusAt w s.asked path <;> rfl

end Runs

/-! ### Listing a directory -/

section Listing

variable {ρ : Type} {site : Site} {r : Request} {w : World Call.Answer} {s : Record Call Caches}

/-- `trim_quotes` of a name goes outside the string iff the name is one quote. -/
theorem trimQuotes_cases {name : Bytes} (nonempty : name ≠ []) :
    name = bytes "\"" ∧ trimQuotes name = .error (.undefined .outsideString) ∨
      name ≠ bytes "\"" ∧ ∃ text, trimQuotes name = .ok text := by
  have quote : bytes "\"" = [ascii '"'] := rfl
  obtain ⟨front, rest, rfl⟩ := List.exists_cons_of_ne_nil nonempty
  simp only [trimQuotes, quote, List.cons.injEq, ne_eq]
  by_cases front = ascii '"' <;> by_cases rest = [] <;> simp_all

theorem listingLine_cases {name : Bytes} (nonempty : name ≠ []) :
    name = bytes "\"" ∧ listingLine name = .error (.undefined .outsideString) ∨
      name ≠ bytes "\"" ∧ ∃ line, listingLine name = .ok line := by
  rcases trimQuotes_cases nonempty with ⟨quote, fails⟩ | ⟨other, text, trimmed⟩
  · left
    simp [quote, listingLine, quote ▸ fails, bind, Except.bind]
  · right
    refine ⟨other, ?_⟩
    simp [listingLine, trimmed, bind, Except.bind, pure, Except.pure]

/-- The lines of a listing, by induction on its entries. -/
theorem listingLines_cases {names : List Bytes} (nonempty : ∀ name ∈ names, name ≠ []) :
    bytes "\"" ∈ names ∧ names.mapM listingLine = .error (.undefined .outsideString) ∨
      bytes "\"" ∉ names ∧ ∃ lines, names.mapM listingLine = .ok lines := by
  induction names with
  | nil => exact .inr ⟨List.not_mem_nil, [], rfl⟩
  | cons name names ih =>
    rw [List.mapM_cons]
    rcases listingLine_cases (nonempty name List.mem_cons_self) with
      ⟨quote, fails⟩ | ⟨other, line, made⟩
    · left
      rw [fails, quote]
      exact ⟨List.mem_cons_self, rfl⟩
    · rw [made]
      rcases ih fun name mem => nonempty name (List.mem_cons_of_mem _ mem) with
        ⟨there, fails⟩ | ⟨absent, lines, mades⟩
      · left
        rw [fails]
        exact ⟨List.mem_cons_of_mem _ there, rfl⟩
      · right
        rw [mades]
        refine ⟨?_, _, rfl⟩
        rw [List.mem_cons, not_or]
        exact ⟨Ne.symm other, absent⟩

/-- A directory can be listed for the request: its URL has a last byte, and no entry that is
shown is one quote. -/
def Listable (r : Request) (listing : Listing) : Prop :=
  r.url ≠ [] ∧ (r.url.getLast? = some (ascii '/') → bytes "\"" ∉ listing.names)

theorem returns_listDirectory :
    Returns (listDirectory site r) w s ↔ Listable r (listingAt w s.asked (fullPath site r)) := by
  rw [listDirectory, returns_catchAll]
  cases last : r.url.getLast? with
  | none =>
    have empty := List.getLast?_eq_none_iff.mp last
    simp [listEntries, Returns, Listable, empty]
  | some back =>
    have nonempty : r.url ≠ [] := by
      intro empty
      simp [empty] at last
    by_cases slash : back = ascii '/'
    · -- the entries are shown until the listing ends
      have run : listEntries site r w s =
          (ofExcept ((listingAt w s.asked (fullPath site r)).names.mapM listingLine) >>=
            fun lines =>
              if !(listingAt w s.asked (fullPath site r)).complete then
                fail (.thrown .filesystemError)
              else
                pure (((Response.ofText site.platform site.config r
                  (bytes "<h1>Directory listing of " ++ r.url ++ bytes "</h1>" ++
                    lines.flatten)).set contentTypeField
                      (bytes "text/html; charset=utf-8")).set cacheControlField
                        (bytes "no-cache")) : Serving Response) w
            { s with asked := s.asked ++ [.list (cString (fullPath site r))] } := by
        simp only [listEntries, last, slash]
        rfl
      simp only [Listable, nonempty, last, slash, ne_eq, not_false_eq_true, true_and,
        forall_const]
      -- A quote is no exception but a step outside the string, so no handler helps.
      rcases listingLines_cases (listingAt w s.asked (fullPath site r)).nonempty with
        ⟨there, fails⟩ | ⟨absent, lines, made⟩
      · rw [fails] at run
        simp [Returns, run, bind_run, there]
      · rw [made] at run
        refine iff_of_true ?_ absent
        -- An iteration that breaks off throws, and that is handled.
        cases complete : (listingAt w s.asked (fullPath site r)).complete with
        | true =>
          left
          simp [Returns, run, bind_run, complete]
        | false =>
          right
          simp [Returns, run, bind_run, complete]
    · refine iff_of_true ?_ ?_
      · left
        -- without a slash at the end the answer is a redirection
        simp [Returns, listEntries, last, slash]
      · simp [Listable, nonempty, last, slash]

end Listing

/-! ### `process_request` -/

section Requests

variable {ρ : Type} {site : Site} {r : Request} {w : World Call.Answer} {s : Record Call Caches}

theorem returns_takeFolder :
    Returns (takeFolder site r : Serving (ScheduleItem ρ)) w s ↔
      Listable r (listingAt w s.asked (fullPath site r)) := by
  rw [← returns_listDirectory]
  have answers (response : Response) (sendable : response.Sendable) :
      Meets (OnPath (fullPath site r)) (WellMade fun _ => False) (fun _ => False)
        (itemOf site response : Serving (ScheduleItem ρ)) := meets_itemOf sendable
  exact returns_bind_of_false meets_listDirectory answers

/-- The first question of `take_entry` decides between the listing and the rest. -/
theorem takeEntry_directory
    (directory : statusAt w s.asked (fullPath site r) = .found .directory) :
    (takeEntry site r : Serving (Option (ScheduleItem ρ))) w s =
      (takeFolder site r >>= fun item => pure (some item)) w
        { s with asked := afterStatus s.asked (fullPath site r) } := by
  have test := fsTest_run w s (fullPath site r) (· = some .directory)
  rw [← fsIsDirectory, directory] at test
  exact bind_run_ok test

/-- All that stops the rest is an exception. -/
theorem thrown_takeEntry (other : statusAt w s.asked (fullPath site r) ≠ .found .directory)
    {fault : Fault}
    (stopped : ((takeEntry site r : Serving (Option (ScheduleItem ρ))) w s).1 = .error fault) :
    Thrown fault := by
  have test := fsTest_run w s (fullPath site r) (· = some .directory)
  rw [← fsIsDirectory] at test
  cases status : statusAt w s.asked (fullPath site r) with
  | failed =>
    rw [status] at test
    rw [takeEntry, bind_run_error test, Except.error.injEq] at stopped
    exact ⟨_, stopped.symm⟩
  | notFound =>
    rw [status] at test
    rw [takeEntry, bind_run_ok test] at stopped
    exact meets_takeOther.stops w _ fault stopped
  | found type =>
    have no : decide (some type = some FileType.directory) = false := by
      rw [status] at other
      simpa using other
    simp only [status, no] at test
    rw [takeEntry, bind_run_ok test] at stopped
    exact meets_takeOther.stops w _ fault stopped

/-- `take_folder` handles its exceptions itself, so a listing that stops is not caught. -/
theorem returns_caught_directory
    (directory : statusAt w s.asked (fullPath site r) = .found .directory) :
    Returns (catchAll (takeEntry site r) (pure none) : Serving (Option (ScheduleItem ρ))) w s ↔
      Listable r (listingAt w (afterStatus s.asked (fullPath site r)) (fullPath site r)) := by
  have run := takeEntry_directory (ρ := ρ) directory
  have folder : Meets (OnPath (fullPath site r)) (fun _ => True) (fun fault => ¬ Thrown fault)
      (takeFolder site r >>= fun item => pure (some item) :
        Serving (Option (ScheduleItem ρ))) :=
    meets_takeFolder.bind fun _ _ => .pure trivial
  have returns : Returns (takeEntry site r : Serving (Option (ScheduleItem ρ))) w s ↔
      Listable r (listingAt w (afterStatus s.asked (fullPath site r)) (fullPath site r)) := by
    unfold Returns
    rw [run]
    exact (returns_bind_of_false (R := fun _ => True) meets_takeFolder
      fun _ _ => .pure trivial).trans returns_takeFolder
  rw [returns_catchAll, returns]
  constructor
  · rintro (listable | ⟨e, s', stopped, -⟩)
    · exact listable
    · rw [run] at stopped
      exact absurd ⟨e, rfl⟩ (folder.stops w _ (.thrown e) (by rw [stopped]))
  · exact .inl

/-- Nothing but a directory that cannot be listed keeps `take_disk_resource` from
returning. -/
theorem returns_takeDiskResource :
    Returns (takeDiskResource site r : Serving (ScheduleItem ρ)) w s ↔
      (statusAt w s.asked (fullPath site r) = .found .directory →
        Listable r (listingAt w (afterStatus s.asked (fullPath site r)) (fullPath site r))) := by
  have last : Returns (takeDiskResource site r : Serving (ScheduleItem ρ)) w s ↔
      Returns (catchAll (takeEntry site r) (pure none) : Serving (Option (ScheduleItem ρ)))
        w s := by
    rw [takeDiskResource, returns_nothrow]
    apply returns_bind_of_false (P := OnPath (fullPath site r)) (E := fun fault => ¬ Thrown fault)
      (meets_catchAll meets_takeEntry (.pure (by simp)) fun _ _ other => other)
    intro item made
    cases item with
    | some item => exact .pure (made item rfl)
    | none => exact meets_notFound
  have handler (s' : Record Call Caches) :
      Returns (pure none : Serving (Option (ScheduleItem ρ))) w s' := ⟨none, s', rfl⟩
  rw [last]
  by_cases directory : statusAt w s.asked (fullPath site r) = .found .directory
  · rw [returns_caught_directory directory]
    exact (imp_iff_right directory).symm
  · refine iff_of_true ?_ fun h => absurd h directory
    rw [returns_catchAll]
    rcases run : (takeEntry site r : Serving (Option (ScheduleItem ρ))) w s with ⟨r', s'⟩
    cases r' with
    | ok item => exact .inl ⟨item, s', run⟩
    | error fault =>
      obtain ⟨e, rfl⟩ := thrown_takeEntry directory (by rw [run])
      exact .inr ⟨e, s', rfl, handler s'⟩

/-! ### The routes -/

/-- The handler that the routes have for a request, when its path can be taken from the URL. -/
def handlerFor (routes : List (Route ρ)) (r : Request) : Option (Handler ρ) :=
  if isPassable r then
    (routes.find? fun route => r.method = route.method &&
      route.validator (r.url.dropWhile (· ≠ ascii '/'))).bind Route.handler
  else none

theorem getUserHandler_eq (routes : List (Route ρ)) (r : Request) :
    (if isPassable r then getUserHandler r routes else .ok none) =
      if isPassable r = true ∧ ascii '/' ∉ r.url then .error (.undefined .outsideString)
      else .ok (handlerFor routes r) := by
  by_cases passable : isPassable r = true
  · simp only [passable, if_true, true_and, getUserHandler, stripRoute, handlerFor]
    cases route : r.url.dropWhile (· ≠ ascii '/') with
    | nil =>
      -- `find_first_of` has found nothing.
      have absent : ascii '/' ∉ r.url := by
        intro there
        have := List.dropWhile_eq_nil_iff.mp route _ there
        simp at this
      rw [if_pos absent]
      rfl
    | cons slash rest =>
      have there : ascii '/' ∈ r.url := by
        by_contra absent
        have empty : r.url.dropWhile (· ≠ ascii '/') = [] := by
          rw [List.dropWhile_eq_nil_iff]
          intro c mem
          simpa using fun same : c = ascii '/' => absent (same ▸ mem)
        rw [route] at empty
        cases empty
      rw [if_neg (not_not.mpr there)]
      simp only [bind, Except.bind, pure, Except.pure, findHandler]
      cases routes.find? fun route =>
        r.method = route.method && route.validator (slash :: rest) <;> rfl
  · simp [passable, handlerFor]

theorem handlerFor_of_ok {routes : List (Route ρ)} {r : Request} {handler : Option (Handler ρ)}
    (found : (if isPassable r then getUserHandler r routes else .ok none) = .ok handler) :
    handlerFor routes r = handler := by
  rw [getUserHandler_eq] at found
  split_ifs at found
  exact Except.ok.inj found

/-- A request without a handler that names something is one for the disk. -/
theorem processRequest_of_there {routes : List (Route ρ)} {s' : Record Call Caches}
    (unhandled : (if isPassable r then getUserHandler r routes else .ok none) = .ok none)
    (there : isDiskResource site r w s = (.ok true, s')) :
    processRequest site routes r w s =
      nothrow (takeDiskResource site r : Serving (ScheduleItem ρ)) w s' := by
  have none : (ofExcept (if isPassable r then getUserHandler r routes else .ok none) :
      Serving (Option (Handler ρ))) w s = (.ok none, s) := by rw [unhandled, ofExcept_run]
  rw [processRequest, processHandled, nothrow, nothrow, through, through, bind_run_ok none]
  simp only
  rw [bind_run_ok there, if_pos rfl]

/-- The handlers do not throw and answer with a text at once. -/
def TextRoutes (routes : List (Route ρ)) : Prop :=
  ∀ route ∈ routes, ∀ handler ∈ route.handler, ∀ request,
    ∃ response, handler request = .ok (.sync response) ∧ response.type = .text

/-- When a request is answered. `asked` is what was asked of the file system before. -/
structure Servable (site : Site) (routes : List (Route ρ)) (r : Request)
    (w : World Call.Answer) (asked : List Call) : Prop where
  /-- a request that may be routed has a slash in its URL -/
  slash : isPassable r = true → ascii '/' ∈ r.url
  /-- a routed request is answered with a code that the table of codes holds -/
  code : ∀ handler ∈ handlerFor routes r, ∀ response, handler r = .ok (.sync response) →
    (statusCodes.lookup response.code).isSome
  /-- the first question is answered with no error but that there is no such file -/
  status : handlerFor routes r = none → statusAt w asked (fullPath site r) ≠ .failed
  /-- a directory that is found can be listed -/
  listable : handlerFor routes r = none → ∀ type, statusAt w asked (fullPath site r) = .found type →
    let asked := afterStatus asked (fullPath site r)
    statusAt w asked (fullPath site r) = .found .directory →
      Listable r (listingAt w (afterStatus asked (fullPath site r)) (fullPath site r))

theorem returns_passRequest {h : Handler ρ} {response : Response}
    (handled : h r = .ok (.sync response)) (text : response.type = .text) :
    Returns (passRequest site r h) w s ↔ (statusCodes.lookup response.code).isSome := by
  have item : Returns (itemOf site response : Serving (ScheduleItem ρ)) w s ↔
      ∃ text, Serializer.serialize site.platform.traversal response = .ok text := by
    simp only [Returns, itemOf, bind_run, ofExcept_run]
    cases Serializer.serialize site.platform.traversal response <;> simp
  have sendable : response.Sendable ↔ (statusCodes.lookup response.code).isSome := by
    simp [Response.Sendable, Response.bodyAvailable, text]
  rw [Serializer.serialize_isOk_iff, sendable] at item
  rw [passRequest, returns_nothrow, handled, ← item]
  exact Iff.rfl

theorem mem_of_handlerFor {routes : List (Route ρ)} {handler : Handler ρ}
    (h : handlerFor routes r = some handler) : ∃ route ∈ routes, handler ∈ route.handler := by
  unfold handlerFor at h
  split_ifs at h
  obtain ⟨route, found, same⟩ := Option.bind_eq_some_iff.mp h
  exact ⟨route, List.mem_of_find?_eq_some found, same⟩

/-- Without a handler the first question is what there is at the path. -/
theorem returns_fromDisk :
    Returns (do
      if ← isDiskResource site r then takeDiskResource site r
      else notFound site r : Serving (ScheduleItem ρ)) w s ↔
      statusAt w s.asked (fullPath site r) ≠ .failed ∧
        ∀ type, statusAt w s.asked (fullPath site r) = .found type →
          let asked := afterStatus s.asked (fullPath site r)
          statusAt w asked (fullPath site r) = .found .directory →
            Listable r (listingAt w (afterStatus asked (fullPath site r)) (fullPath site r)) := by
  have test := fsTest_run w s (fullPath site r) Option.isSome
  rw [← fsExists] at test
  have run : isDiskResource site r w s = (noexcept (fsExists (fullPath site r) w s).1,
      (fsExists (fullPath site r) w s).2) := rfl
  rw [test] at run
  rw [returns_bind]
  cases status : statusAt w s.asked (fullPath site r) with
  | failed =>
    rw [status] at run
    simp [run, noexcept]
  | notFound =>
    rw [status] at run
    refine iff_of_true ⟨false, _, run, ?_⟩ (by simp)
    have answers : Meets (OnPath []) (WellMade fun _ => False) (fun _ => False)
        (notFound site r : Serving (ScheduleItem ρ)) := meets_notFound
    exact answers.returns_of_false
  | found type =>
    rw [status] at run
    rw [run]
    simp only [noexcept, Prod.mk.injEq, Except.ok.injEq, Option.isSome_some]
    constructor
    · rintro ⟨_, _, ⟨rfl, rfl⟩, returns⟩
      refine ⟨by simp, fun _ _ => ?_⟩
      exact returns_takeDiskResource.mp returns
    · rintro ⟨-, listable⟩
      refine ⟨true, _, ⟨rfl, rfl⟩, ?_⟩
      exact returns_takeDiskResource.mpr (listable type rfl)

theorem returns_processRequest {routes : List (Route ρ)} (texts : TextRoutes routes) :
    Returns (processRequest site routes r) w s ↔ Servable site routes r w s.asked := by
  rw [processRequest, processHandled, returns_nothrow, getUserHandler_eq]
  split_ifs with outside
  · refine iff_of_false ?_ fun servable => outside.2 (servable.slash outside.1)
    rintro ⟨item, s', returned⟩
    cases returned
  · have slash : isPassable r = true → ascii '/' ∈ r.url := by
      intro passable
      by_contra absent
      exact outside ⟨passable, absent⟩
    cases found : handlerFor routes r with
    | some handler =>
      -- A handler answers with a text, and only its code can be unknown.
      obtain ⟨route, mem, is⟩ := mem_of_handlerFor found
      obtain ⟨response, handled, text⟩ := texts route mem handler is r
      refine (returns_passRequest handled text).trans ⟨fun known => ?_, fun servable => ?_⟩
      · refine ⟨slash, fun handler' same response' handled' => ?_, by simp [found], by simp [found]⟩
        rw [found, Option.mem_some_iff] at same
        rw [← same, handled] at handled'
        cases handled'
        exact known
      · exact servable.code handler found response handled
    | none =>
      refine Iff.trans returns_fromDisk ⟨fun disk => ?_, fun servable => ?_⟩
      · exact ⟨slash, by simp [found], fun _ => disk.1, fun _ => disk.2⟩
      · exact ⟨servable.status found, servable.listable found⟩

end Requests

/-- A request is answered, with something to send, iff it is servable. -/
theorem replies_iff {ρ : Type} (site : Site) {routes : List (Route ρ)} (texts : TextRoutes routes)
    (r : Request) (w : World Call.Answer) (s : Record Call Caches) :
    (∃ item s', processRequest site routes r w s = (.ok item, s') ∧ item.buffers ≠ []) ↔
      Servable site routes r w s.asked := by
  rw [← returns_processRequest texts]
  constructor
  · rintro ⟨item, s', returned, -⟩
    exact ⟨item, s', returned⟩
  · rintro ⟨item, s', returned⟩
    have made := (meets_processRequest routes).returns w s item (by rw [returned])
    exact ⟨item, s', returned, made.nonempty⟩

/-- A request for a file that is not there, beside a route for another method. -/
theorem replies_iff_not_found :
    let site : Site :=
      ⟨⟨bytes "now", id, id, fun _ => none, fun _ => [], .byName⟩, ⟨bytes "/srv", 300, false⟩, ⟨12⟩⟩
    let answer : Handler Unit := fun r =>
      .ok (.sync (.ofText site.platform site.config r (bytes "hello")))
    let r : Request := ⟨.get, ⟨1, 1⟩, ∅, bytes "/missing", []⟩
    ∃ item s', processRequest site [⟨.post, fun _ => true, some answer⟩] r (unreadable .notFound)
      ⟨[], .empty⟩ = (.ok item, s') ∧ item.buffers ≠ [] := by
  intro site answer r
  have texts : TextRoutes [(⟨.post, fun _ => true, some answer⟩ : Route Unit)] := by
    intro route mem handler is request
    rw [List.mem_singleton] at mem
    subst mem
    rw [Option.mem_some_iff] at is
    subst is
    exact ⟨_, rfl, Response.sameKind_init.2⟩
  have unrouted : handlerFor [(⟨.post, fun _ => true, some answer⟩ : Route Unit)] r = none := rfl
  refine (replies_iff site texts r (unreadable .notFound) ⟨[], .empty⟩).mpr ⟨?_, ?_, ?_, ?_⟩
  · intro _
    decide +kernel
  · intro handler found
    rw [unrouted] at found
    cases found
  · intro _ failed
    cases failed
  · intro _ type found
    cases found

/-- The name is too long for the file system, and the exception ends the process. -/
theorem long_name_terminates :
    ¬ ∀ (site : Site) (r : Request) (w : World Call.Answer),
      ∃ item s', processRequest (ρ := Unit) site [] r w ⟨[], .empty⟩ = (.ok item, s') ∧
        item.buffers ≠ [] := by
  intro all
  let site : Site :=
    ⟨⟨bytes "now", id, id, fun _ => none, fun _ => [], .byName⟩, ⟨bytes "/srv", 300, false⟩, ⟨12⟩⟩
  let r : Request := ⟨.get, ⟨1, 1⟩, ∅, ascii '/' :: List.replicate 300 (ascii 'a'), []⟩
  -- `exists` throws inside a `noexcept` function.
  have fails : (processRequest (ρ := Unit) site [] r (unreadable .failed) ⟨[], .empty⟩).1.toBool =
      false := by
    decide +kernel
  obtain ⟨item, s', returned, -⟩ := all site r (unreadable .failed)
  rw [returned] at fails
  cases fails

end Viking.Http
