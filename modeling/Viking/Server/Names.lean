/-
# One name for a file

The full path of a request is a string with a length where its extension is taken and where the
caches keep what they have of it, and a C string where the kernel gets it. `OneName` says of a
request that all of these are one string, so that what is sent is the file that the extension was
taken from.

`decided_opened_iff` says for which URLs that is so whatever the files are and whatever the caches
have come to hold: those whose full path has no zero byte.
-/

import Viking.Server.Files

namespace Viking.Server

open Http Io Cache Asking

variable {ρ : Type}

/-! ## What was asked under a path -/

/-- The call was made, and the answer is what it got. -/
def Told (w : World Call.Answer) (s : Record Call Caches) (call : Call) (answer : call.Answer) :
    Prop :=
  ∃ asked, asked ++ [call] <+: s.asked ∧ w asked call = answer

/-- What the caches hold of a path was read or opened under that path. -/
structure Filed (w : World Call.Answer) (s : Record Call Caches) : Prop where
  resource : ∀ path resource, s.store.findResource path = some resource →
    resource.path = path ∧ Told w s (.read (cString path)) (some resource.raw)
  descriptor : ∀ path d, s.store.findDescriptor path = some d →
    Told w s (.openFile (cString path)) (some d.handle)

/-- From `s` to `s'` all calls are on the path, and the caches change under the path only. -/
structure Under (w : World Call.Answer) (path : Bytes) (s s' : Record Call Caches) : Prop where
  asked : ∃ more, s'.asked = s.asked ++ more ∧ ∀ call ∈ more, OnPath path call
  resource : ∀ other, other ≠ path → s'.store.findResource other = s.store.findResource other
  descriptor : ∀ other, other ≠ path → s'.store.findDescriptor other = s.store.findDescriptor other
  filed : Filed w s → Filed w s'

section Steps

variable {w : World Call.Answer} {path : Bytes} {s s' : Record Call Caches} {call : Call}

theorem Told.later {answer : call.Answer} (told : Told w s call answer)
    (later : s.asked <+: s'.asked) : Told w s' call answer := by
  obtain ⟨asked, made, same⟩ := told
  exact ⟨asked, made.trans later, same⟩

theorem Told.last (w : World Call.Answer) (s : Record Call Caches) (call : Call) :
    Told w ⟨s.asked ++ [call], s.store⟩ call (w s.asked call) := ⟨s.asked, List.prefix_rfl, rfl⟩

/-- The caches are what they were. -/
theorem Filed.later (filed : Filed w s) (later : s.asked <+: s'.asked) (same : s'.store = s.store) :
    Filed w s' where
  resource path resource found := by
    rw [same] at found
    obtain ⟨named, read⟩ := filed.resource path resource found
    exact ⟨named, read.later later⟩
  descriptor path d found := by
    rw [same] at found
    exact (filed.descriptor path d found).later later

theorem Under.grows (under : Under w path s s') : s.asked <+: s'.asked := by
  obtain ⟨more, same, -⟩ := under.asked
  exact ⟨more, same.symm⟩

instance : Std.Refl (Under w path) where
  refl _ := ⟨⟨[], (List.append_nil _).symm, nofun⟩, fun _ _ => rfl, fun _ _ => rfl, id⟩

instance : IsTrans (Record Call Caches) (Under w path) where
  trans s t u first second := by
    obtain ⟨more, before, all⟩ := first.asked
    obtain ⟨more', later, all'⟩ := second.asked
    exact {
      asked := Meets.extend before all later all'
      resource := fun other ne => (second.resource other ne).trans (first.resource other ne)
      descriptor := fun other ne => (second.descriptor other ne).trans (first.descriptor other ne)
      filed := second.filed ∘ first.filed }

/-- A call on the path. -/
theorem under_ask (onPath : OnPath path call) :
    Under w path s ⟨s.asked ++ [call], s.store⟩ where
  asked := ⟨[call], rfl, by simpa using onPath⟩
  resource _ _ := rfl
  descriptor _ _ := rfl
  filed filed := filed.later (List.prefix_append ..) rfl

/-- What is put under the path was read there. -/
theorem under_putResource {resource : Resource} (named : resource.path = path)
    (read : Told w s (.read (cString path)) (some resource.raw)) :
    Under w path s ⟨s.asked, s.store.putResource path resource⟩ where
  asked := ⟨[], (List.append_nil _).symm, nofun⟩
  resource other ne := by rw [Caches.findResource_putResource, if_neg ne]
  descriptor _ _ := rfl
  filed filed := by
    refine ⟨fun path' resource' found => ?_, filed.descriptor⟩
    rw [Caches.findResource_putResource] at found
    split_ifs at found with here
    · cases found
      subst here
      exact ⟨named, read⟩
    · exact filed.resource path' resource' found

theorem under_eraseResource : Under w path s ⟨s.asked, s.store.eraseResource path⟩ where
  asked := ⟨[], (List.append_nil _).symm, nofun⟩
  resource other ne := by rw [Caches.findResource_eraseResource, if_neg ne]
  descriptor _ _ := rfl
  filed filed := by
    refine ⟨fun path' resource' found => ?_, filed.descriptor⟩
    rw [Caches.findResource_eraseResource] at found
    split_ifs at found
    exact filed.resource path' resource' found

/-- Changing the counts of some entries leaves what they refer to. -/
theorem Filed.map (filed : Filed w s) {f : HandleUseCount → HandleUseCount}
    (paths : ∀ d, (f d).path = d.path) (handles : ∀ d, (f d).handle = d.handle) :
    Filed w ⟨s.asked, { s.store with descriptors := s.store.descriptors.map f }⟩ where
  resource := filed.resource
  descriptor path' d found := by
    rw [Caches.findDescriptor_map paths, Option.map_eq_some_iff] at found
    obtain ⟨e, held, rfl⟩ := found
    rw [handles]
    exact filed.descriptor path' e held

theorem under_useDescriptor : Under w path s ⟨s.asked, s.store.useDescriptor path⟩ where
  asked := ⟨[], (List.append_nil _).symm, nofun⟩
  resource _ _ := rfl
  descriptor other ne := by
    rw [Caches.useDescriptor, Caches.findDescriptor_map (fun d => by split_ifs <;> rfl)]
    cases held : s.store.findDescriptor other with
    | none => rfl
    | some d =>
      have place : d.path = other := by simpa using List.find?_some held
      rw [Option.map_some, if_neg (place ▸ ne)]
  filed filed := filed.map (fun d => by split_ifs <;> rfl) fun d => by split_ifs <;> rfl

/-- A descriptor that was opened under the path. -/
theorem under_open {fd : Fd} (opened : Told w s (.openFile (cString path)) (some fd)) :
    Under w path s
      ⟨s.asked, { s.store with descriptors := s.store.descriptors ++ [⟨path, 1, fd⟩] }⟩ where
  asked := ⟨[], (List.append_nil _).symm, nofun⟩
  resource _ _ := rfl
  descriptor other ne := by
    rw [Caches.findDescriptor_append, if_neg (Ne.symm ne), Option.or_none]
  filed filed := by
    refine ⟨filed.resource, fun path' d found => ?_⟩
    rw [Caches.findDescriptor_append, Option.or_eq_some_iff] at found
    rcases found with old | ⟨-, new⟩
    · exact filed.descriptor path' d old
    · split_ifs at new with here
      cases new
      exact here ▸ opened

theorem Filed.release (filed : Filed w s) (fd : Fd) :
    Filed w ⟨s.asked, (FileDescriptor.release fd s.store).2⟩ := by
  unfold FileDescriptor.release
  split
  · exact filed
  · rename_i d _
    have counted : Filed w ⟨s.asked, s.store.unuseDescriptor d.path⟩ :=
      filed.map (fun d => by split_ifs <;> rfl) fun d => by split_ifs <;> rfl
    dsimp only
    split_ifs
    · refine ⟨counted.resource, fun path' d' found => ?_⟩
      rw [Caches.findDescriptor_eraseDescriptor] at found
      split_ifs at found
      exact counted.descriptor path' d' found
    · exact counted

end Steps

/-! ## What a request sends -/

variable (site : Site) (r : Request) (w : World Call.Answer)

/-- `should_copy` has decided, by the size that the kernel told of `seen` and by the extension of
`name`. -/
def Judged (seen name : Bytes) (s : Record Call Caches) (copy : Bool) : Prop :=
  ∃ size : Nat, Told w s (.fileSize seen) (some size) ∧
    (copy = true ↔ size < 2000000 ∧ getExtension name = bytes "jpg" ∨ size ≤ site.page.bytes)

/-- A text of the server's own is sent, or the file that the kernel has found at `seen` under the
type of `name`. -/
inductive SentFor (seen name : Bytes) : ScheduleItem ρ → Record Call Caches → Prop
  | text {s : Record Call Caches} {response : Response} {text : Bytes} (keep : Bool)
    (type : response.type = .text)
    (serialized : Serializer.serialize site.platform.traversal response = .ok text) :
    SentFor seen name (.ofData text keep) s
  | copied {s : Record Call Caches} {resource : Resource} {text : Bytes}
    (named : resource.path = name)
    (judged : Judged site w seen name s true) (read : Told w s (.read seen) (some resource.raw))
    (typed : (Response.ofResource site.platform site.config r resource).get contentTypeField true =
      some (getMimetype site.platform name))
    (serialized : Serializer.serialize site.platform.traversal
      (.ofResource site.platform site.config r resource) = .ok text) :
    SentFor seen name
      (.ofData text (Response.ofResource site.platform site.config r resource).getKeepAlive) s
  | opened {s : Record Call Caches} {file : UnixFile} {header : Bytes} (named : file.path = name)
    (judged : Judged site w seen name s false)
    (opened : Told w s (.openFile seen) (some file.fd))
    (measured : ∃ size, Told w s (.stat seen) (some size) ∧ file.size = size.1)
    (typed : (Response.ofFile site.platform site.config r (some file)).get contentTypeField true =
      some (getMimetype site.platform name))
    (made : Serializer.makeHeader site.platform.traversal
      (.ofFile site.platform site.config r (some file)) = .ok header) :
    SentFor seen name
      (fileReply header file
        (Response.ofFile site.platform site.config r (some file)).getKeepAlive : Reply ρ).item s

section Runs

variable {site r w} {path : Bytes} {s s' : Record Call Caches}

theorem Judged.later {seen name : Bytes} {copy : Bool} (judged : Judged site w seen name s copy)
    (later : s.asked <+: s'.asked) : Judged site w seen name s' copy := by
  obtain ⟨size, told, decided⟩ := judged
  exact ⟨size, told.later later, decided⟩

theorem goes_nothrow {α : Type} {m : Serving α} {Q : α → Record Call Caches → Prop}
    (h : Goes (Under w path) m w Q s) : Goes (Under w path) (nothrow m) w Q s :=
  h.through fun _ _ => noexcept_eq_ok.mp

theorem goes_catchAll {α : Type} {m handler : Serving α} {Q : α → Record Call Caches → Prop}
    (h : Goes (Under w path) m w Q s)
    (handles : ∀ s', Under w path s s' → Goes (Under w path) handler w Q s') :
    Goes (Under w path) (catchAll m handler) w Q s := by
  refine h.handle fun fault s' under => ?_
  cases fault with
  | thrown exception => exact handles s' under
  | terminated | undefined => exact .fail _

/-- What follows a call is told its answer. -/
theorem goes_answer {α : Type} {call : Call} {f : call.Answer → Serving α}
    {Q : α → Record Call Caches → Prop} (onPath : OnPath path call)
    (rest : Told w ⟨s.asked ++ [call], s.store⟩ call (w s.asked call) →
      Goes (Under w path) (f (w s.asked call)) w Q ⟨s.asked ++ [call], s.store⟩) :
    Goes (Under w path) ((ask call : Serving (Call.Answer call)) >>= f) w Q s :=
  .ask (under_ask onPath) (rest (Told.last w s call))

/-- A question whose answer is not needed later. -/
theorem goes_fsTest (test : Option FileType → Bool) :
    Goes (Under w path) (do return test (← fsStatus path) : Serving Bool) w (fun _ _ => True)
      s := by
  refine Goes.bind (Q := fun _ _ => True) ?_ fun _ _ _ _ => .pure trivial
  refine goes_answer rfl fun _ => ?_
  cases w s.asked (.status (cString path)) with
  | found | notFound => exact .pure trivial
  | failed => exact .fail _

theorem goes_fsFileSize :
    Goes (Under w path) (fsFileSize path : Serving Nat) w
      (fun size s' => Told w s' (.fileSize (cString path)) (some size)) s := by
  refine goes_answer rfl fun told => ?_
  cases answered : w s.asked (.fileSize (cString path)) with
  | none => exact .fail _
  | some size => exact .pure (answered ▸ told)

theorem goes_fsLastWriteTime :
    Goes (Under w path) (fsLastWriteTime path : Serving Nat) w (fun _ _ => True) s := by
  refine goes_answer rfl fun _ => ?_
  cases w s.asked (.lastWriteTime (cString path)) with
  | none => exact .fail _
  | some time => exact .pure trivial

theorem goes_readFile :
    Goes (Under w path) (readFile path : Serving Bytes) w
      (fun raw s' => Told w s' (.read (cString path)) (some raw)) s := by
  refine goes_answer rfl fun told => ?_
  cases answered : w s.asked (.read (cString path)) with
  | none => exact .fail _
  | some raw => exact .pure (answered ▸ told)

/-- A resource that counts as one was read under the path, and names it. -/
def ReadAt (w : World Call.Answer) (path : Bytes) (resource : Resource) (s : Record Call Caches) :
    Prop :=
  resource.toBool = true → resource.path = path ∧
    Told w s (.read (cString path)) (some resource.raw)

theorem goes_load : Goes (Under w path) (ResourceCache.load path) w (ReadAt w path) s := by
  have reads : Goes (Under w path) (Cache.resource path) w (fun resource s' =>
      resource.path = path ∧ Told w s' (.read (cString path)) (some resource.raw)) s := by
    refine goes_fsLastWriteTime.bind fun time _ _ _ => ?_
    exact goes_readFile.bind fun raw _ _ told => .pure ⟨rfl, told⟩
  refine reads.bind fun resource s' _ read => ?_
  exact .modifyStore (under_putResource read.1 read.2) (.pure fun _ => read)

theorem goes_resourceCache (filed : Filed w s) :
    Goes (Under w path) (ResourceCache.aquire path) w (ReadAt w path) s := by
  apply Goes.getStore
  refine (goes_fsTest Option.isSome).bind fun there s' under _ => ?_
  cases found : s.store.findResource path with
  | none => exact goes_load
  | some resource =>
    dsimp only
    split_ifs
    · exact .modifyStore under_eraseResource (.pure fun some => absurd some (by decide))
    · refine goes_fsLastWriteTime.bind fun time s'' under' _ => ?_
      split_ifs
      · exact goes_load
      · -- what was cached was read by an earlier request
        obtain ⟨named, read⟩ := filed.resource path resource found
        exact .pure fun _ => ⟨named, read.later (under.grows.trans under'.grows)⟩

theorem goes_fileDescriptor (filed : Filed w s) :
    Goes (Under w path) (FileDescriptor.aquire path) w
      (fun fd? s' => ∀ fd, fd? = some fd → Told w s' (.openFile (cString path)) (some fd)) s := by
  apply Goes.getStore
  cases found : s.store.findDescriptor path with
  | some d =>
    refine .modifyStore under_useDescriptor (.pure ?_)
    rintro _ ⟨⟩
    exact filed.descriptor path d found
  | none =>
    refine goes_answer rfl fun told => ?_
    cases answered : w s.asked (.openFile (cString path)) with
    | none => exact .pure nofun
    | some fd =>
      rw [answered] at told
      refine .modifyStore (under_open told) (.pure ?_)
      rintro _ ⟨⟩
      exact told

theorem goes_unixFile (filed : Filed w s) :
    Goes (Under w path) (unixFile path) w (fun file s' => file.path = path ∧
      Told w s' (.openFile (cString path)) (some file.fd) ∧
        ∃ size, Told w s' (.stat (cString path)) (some size) ∧ file.size = size.1) s := by
  refine (goes_fileDescriptor filed).bind fun fd? s' _ opened => ?_
  cases fd? with
  | none => exact .fail _
  | some fd =>
    refine goes_answer rfl fun told => ?_
    cases answered : w s'.asked (.stat (cString path)) with
    | none => exact .fail _
    | some size =>
      refine .pure ⟨rfl, ?_, size, answered ▸ told, rfl⟩
      exact (opened fd rfl).later (List.prefix_append ..)

theorem goes_shouldCopy :
    Goes (Under w path) (shouldCopy site path) w
      (fun copy s' => Judged site w (cString path) path s' copy) s := by
  refine goes_catchAll (goes_fsFileSize.bind fun size s' _ told => .pure ?_) fun _ _ => .fail _
  exact ⟨size, told, by simp⟩

/-- A response with a text is serialised to an item. -/
theorem goes_text {response : Response} {seen name : Bytes} (keep : Bool)
    (type : response.type = .text) :
    Goes (Under w path) (do
      let text ← ofExcept (Serializer.serialize site.platform.traversal response)
      return .ofData text keep : Serving (ScheduleItem ρ)) w (SentFor site r w seen name) s :=
  .ofExcept fun _ serialized => .pure (.text keep type serialized)

theorem goes_notFound {seen name : Bytes} :
    Goes (Under w path) (notFound site r : Serving (ScheduleItem ρ)) w (SentFor site r w seen name)
      s :=
  goes_nothrow (goes_text false Response.sameKind_init.2)

theorem goes_listDirectory :
    Goes (Under w (fullPath site r)) (listDirectory site r) w
      (fun response _ => response.type = .text) s := by
  refine goes_catchAll ?_ fun _ _ => .pure Response.sameKind_init.2
  unfold listEntries
  split
  · exact .fail _
  · split_ifs
    · exact .pure Response.sameKind_init.2
    · refine goes_answer rfl fun _ => ?_
      refine .ofExcept fun lines _ => ?_
      split_ifs
      · exact .fail _
      · exact .pure Response.sameKind_init.2

theorem goes_takeFileFromMemory (filed : Filed w s)
    (judged : Judged site w (cString path) path s true) :
    Goes (Under w path) (takeFileFromMemory site r path : Serving (ScheduleItem ρ)) w
      (SentFor site r w (cString path) path) s := by
  refine (goes_resourceCache filed).bind fun resource s' under read => ?_
  split_ifs with some
  · obtain ⟨named, read⟩ := read some
    refine .ofExcept fun text serialized => ?_
    refine .pure (.copied named (judged.later under.grows) read ?_ serialized)
    rw [Response.ofResource, Response.get_set, if_pos rfl, named]
  · exact .fail _

theorem goes_takeUnixFile (filed : Filed w s)
    (judged : Judged site w (cString path) path s false) :
    Goes (Under w path) (takeUnixFile site r path : Serving (ScheduleItem ρ)) w
      (SentFor site r w (cString path) path) s := by
  refine (goes_unixFile filed).bind fun file s' under made => ?_
  obtain ⟨named, opened, measured⟩ := made
  refine .ofExcept fun header made => ?_
  refine .pure (.opened named (judged.later under.grows) opened measured ?_ made)
  rw [Response.ofFile, Response.get_set, if_neg (by decide), Response.get_set, if_pos rfl, named]

theorem goes_some {m : Serving (ScheduleItem ρ)} {Q : ScheduleItem ρ → Record Call Caches → Prop}
    (h : Goes (Under w path) m w Q s) :
    Goes (Under w path) (m >>= fun item => return some item) w (fun item s' => ∀ i ∈ item, Q i s')
      s := by
  refine h.bind fun item s' _ sent => .pure ?_
  rintro _ ⟨⟩
  exact sent

theorem goes_takeEntry (filed : Filed w s) :
    Goes (Under w (fullPath site r)) (takeEntry site r : Serving (Option (ScheduleItem ρ))) w
      (fun item s' => ∀ i ∈ item,
        SentFor site r w (cString (fullPath site r)) (fullPath site r) i s') s := by
  refine (goes_fsTest (· = some .directory)).bind fun directory s₁ under₁ _ => ?_
  split_ifs
  · exact goes_some (goes_listDirectory.bind fun response _ _ type => goes_text _ type)
  · refine (goes_fsTest (· = some .regular)).bind fun regular s₂ under₂ _ => ?_
    split_ifs
    · refine goes_some (goes_shouldCopy.bind fun copy s₃ under₃ judged => ?_)
      have filed₃ := under₃.filed (under₂.filed (under₁.filed filed))
      cases copy with
      | true => exact goes_takeFileFromMemory filed₃ judged
      | false => exact goes_takeUnixFile filed₃ judged
    · exact .pure (by simp)

theorem goes_takeDiskResource (filed : Filed w s) :
    Goes (Under w (fullPath site r)) (takeDiskResource site r : Serving (ScheduleItem ρ)) w
      (SentFor site r w (cString (fullPath site r)) (fullPath site r)) s := by
  apply goes_nothrow
  refine (goes_catchAll (goes_takeEntry filed) fun _ _ => .pure (by simp)).bind
    fun item s' _ sent => ?_
  cases item with
  | some item => exact .pure (sent item rfl)
  | none => exact goes_notFound

/-- A request goes on under its full path, and what is sent is decided by that path, if no handler
sends something. -/
theorem goes_processRequest (site : Site) (r : Request) (routes : List (Route ρ))
    (filed : Filed w s) :
    Goes (Under w (fullPath site r)) (processRequest site routes r) w
      (fun item s' => handlerFor routes r = none →
        SentFor site r w (cString (fullPath site r)) (fullPath site r) item s') s := by
  apply goes_nothrow
  refine .ofExcept fun handler found => ?_
  have routed := handlerFor_of_ok found
  cases handler with
  | some handler =>
    have other (item : ScheduleItem ρ) (s' : Record Call Caches) : handlerFor routes r = none →
        SentFor site r w (cString (fullPath site r)) (fullPath site r) item s' := by
      intro unrouted
      rw [routed] at unrouted
      cases unrouted
    refine goes_nothrow (.ofExcept fun resolution _ => ?_)
    cases resolution with
    | sync response => exact .ofExcept fun _ _ => .pure (other _ _)
    | async future keep => exact .pure (other _ _)
  | none =>
    refine (goes_nothrow (goes_fsTest Option.isSome)).bind fun there s' under _ => ?_
    split_ifs
    · exact (goes_takeDiskResource (under.filed filed)).mono fun _ _ _ sent _ => sent
    · exact goes_notFound.mono fun _ _ _ sent _ => sent

end Runs

/-! ## The whole of a request -/

/-- A run from `s` to `s'` that ends in `outcome` has used `name` for everything: the calls are on
it, the caches change under it only, and what is sent is what the kernel has found there, under the
type of its extension. -/
structure OneName (name : Bytes) (s : Record Call Caches) (outcome : Except Fault (ScheduleItem ρ))
    (s' : Record Call Caches) : Prop where
  asked : ∃ more, s'.asked = s.asked ++ more ∧ ∀ call ∈ more, call.path = name
  resource : ∀ other, other ≠ name → s'.store.findResource other = s.store.findResource other
  descriptor : ∀ other, other ≠ name → s'.store.findDescriptor other = s.store.findDescriptor other
  sent : ∀ item, outcome = .ok item → SentFor site r w name name item s'

/-- Every request with the URL that no handler takes uses one name, whatever the files are and
whatever the caches have come to hold. -/
def DecidedOpened (ρ : Type) (site : Site) (url : Bytes) : Prop :=
  ∀ (r : Request) (routes : List (Route ρ)) (w : World Call.Answer) (s : Record Call Caches),
    r.url = url → handlerFor routes r = none → Reached site routes w s →
      ∃ name, OneName site r w name s (processRequest site routes r w s).1
        (processRequest site routes r w s).2

section Whole

variable {site r w} {s : Record Call Caches} {path : Bytes}

theorem filed_start : Filed w ⟨[], .empty⟩ where
  resource _ _ found := by cases found
  descriptor _ _ found := by cases found

/-- What the caches of a server hold was found under the path that it is kept under. -/
theorem Reached.filed {routes : List (Route ρ)} (reached : Reached site routes w s) :
    Filed w s := by
  induction reached with
  | start => exact filed_start
  | request r before ih => exact (goes_processRequest site r routes ih).related.filed ih
  | release fd before ih => exact ih.release fd

/-- A full path without a zero byte is what the kernel gets. -/
theorem oneName_of_not_mem {routes : List (Route ρ)} (unrouted : handlerFor routes r = none)
    (filed : Filed w s) (none : 0 ∉ fullPath site r) :
    OneName site r w (fullPath site r) s (processRequest site routes r w s).1
      (processRequest site routes r w s).2 := by
  have goes := goes_processRequest site r routes filed
  have same := cString_eq_self_iff.mpr none
  obtain ⟨more, asked, all⟩ := goes.related.asked
  refine ⟨⟨more, asked, fun call mem => (all call mem).trans same⟩, goes.related.resource,
    goes.related.descriptor, fun item returned => ?_⟩
  have sent := goes.returned returned unrouted
  rwa [same] at sent

/-- The surroundings in which every path is that of one empty file. -/
abbrev emptyFile : World Call.Answer := oneFile 0 [] (by decide)

/-- The empty file is put into the cache under the path, and counts as none then. -/
theorem takeRegularFile_emptyFile (site : Site) (r : Request) (path : Bytes) (asked : List Call) :
    ∃ copy asked', (takeRegularFile site r path : Serving (ScheduleItem ρ)) emptyFile
        ⟨asked, .empty⟩ =
      (.error (.thrown (.statusCode StatusCode.notFound)),
        ⟨asked', Caches.empty.putResource path copy⟩) := by
  have file : Readable (fun _ => []) path [] emptyFile := readable_oneFile (by decide) rfl path
  have copied : Copied site path [] := .inr (Nat.zero_le _)
  obtain ⟨asked₁, run⟩ := file.shouldCopy site ⟨asked, .empty⟩
  obtain ⟨asked₂, there⟩ := file.exists (σ := Caches) ⟨asked₁, .empty⟩
  obtain ⟨resource, ⟨time, rfl⟩, found⟩ := file.toUnchanging.resource
  obtain ⟨asked₃, read⟩ := found ⟨asked₂, .empty⟩
  have look : (getStore : Serving Caches) emptyFile ⟨asked₁, .empty⟩ =
      (.ok .empty, ⟨asked₁, .empty⟩) := rfl
  have loaded : ResourceCache.aquire path emptyFile ⟨asked₁, .empty⟩ =
      (.ok ⟨path, time, [], [], []⟩,
        ⟨asked₃, Caches.empty.putResource path ⟨path, time, [], [], []⟩⟩) := by
    rw [ResourceCache.aquire, bind_run_ok look, bind_run_ok there]
    exact (bind_run_ok read).trans rfl
  refine ⟨⟨path, time, [], [], []⟩, asked₃, ?_⟩
  rw [takeRegularFile, bind_run_ok run, decide_eq_true copied, if_pos rfl, takeFileFromMemory,
    bind_run_ok loaded]
  rfl

/-- A request that no route can take leaves the empty file in the cache. -/
theorem stored_emptyFile (ρ : Type) (site : Site) (other : isPassable r = false) :
    ((processRequest site ([] : List (Route ρ)) r emptyFile
      ⟨[], .empty⟩).2.store.findResource (fullPath site r)).isSome := by
  have file : Readable (fun _ => []) (fullPath site r) [] emptyFile :=
    readable_oneFile (by decide) rfl _
  obtain ⟨asked, request⟩ := processRequest_disk ([] : List (Route ρ))
    (by rw [other]; rfl) file.toUnchanging ⟨[], .empty⟩
  obtain ⟨asked₁, entry⟩ := takeEntry_run (ρ := ρ) file.toUnchanging ⟨asked, .empty⟩
  obtain ⟨copy, asked₂, taken⟩ := takeRegularFile_emptyFile (ρ := ρ) site r (fullPath site r) asked₁
  rw [bind_run_error taken] at entry
  have caught : (catchAll (takeEntry site r) (return none) :
      Serving (Option (ScheduleItem ρ))) emptyFile ⟨asked, .empty⟩ =
        (.ok none, ⟨asked₂, Caches.empty.putResource (fullPath site r) copy⟩) := by
    rw [catchAll, Asking.handle, entry]
    rfl
  have put : ((Caches.empty.putResource (fullPath site r) copy).findResource
      (fullPath site r)).isSome := by
    rw [Caches.findResource_putResource, if_pos rfl]
    rfl
  -- what is answered then leaves the caches as they are
  have answered : PreservesIn emptyFile
      (fun caches => (caches.findResource (fullPath site r)).isSome = true)
      (notFound site r : Serving (ScheduleItem ρ)) := preserves_notFound
  rw [request, takeDiskResource]
  simp only [nothrow, Asking.through]
  rw [bind_run_ok caught]
  exact answered _ put

/-- In these surroundings a name that the caches are changed under is the full path, and one that
the file is read at is its C string. -/
theorem not_mem_of_oneName {name : Bytes} (other : isPassable r = false)
    (one : OneName site r emptyFile name ⟨[], .empty⟩
      (processRequest site ([] : List (Route ρ)) r emptyFile ⟨[], .empty⟩).1
      (processRequest site ([] : List (Route ρ)) r emptyFile ⟨[], .empty⟩).2) :
    0 ∉ fullPath site r := by
  have start : Filed emptyFile ⟨[], .empty⟩ := filed_start
  have filed := (goes_processRequest site r ([] : List (Route ρ)) start).related.filed start
  obtain ⟨copy, found⟩ := Option.isSome_iff_exists.mp (stored_emptyFile ρ site other)
  have key : fullPath site r = name := by
    by_contra ne
    rw [one.resource _ ne] at found
    cases found
  obtain ⟨-, asked, made, -⟩ := filed.resource _ copy found
  obtain ⟨more, later, all⟩ := one.asked
  rw [List.nil_append] at later
  have mem := made.subset (List.mem_append_right asked (List.mem_singleton_self _))
  rw [later] at mem
  have seen : cString (fullPath site r) = name := all _ mem
  exact cString_eq_self_iff.mp (seen.trans key.symm)

end Whole

/-- The file that is decided on is the one that is opened iff the path has no zero byte. -/
theorem decided_opened_iff (ρ : Type) (site : Site) (url : Bytes) :
    DecidedOpened ρ site url ↔ 0 ∉ site.config.rootPath ++ url := by
  constructor
  · intro decided
    let r : Request := ⟨.options, ⟨1, 1⟩, ∅, url, []⟩
    obtain ⟨name, one⟩ := decided r [] emptyFile ⟨[], .empty⟩ rfl rfl .start
    exact not_mem_of_oneName (r := r) rfl one
  · rintro none r routes w s rfl unrouted reached
    exact ⟨fullPath site r, oneName_of_not_mem unrouted reached.filed none⟩

/-- A text file that is asked for with an encoded zero byte and the extension of a picture. -/
theorem zero_byte_undecided :
    let site : Site :=
      ⟨⟨bytes "now", id, id, fun _ => none, fun _ => [], .byName⟩, ⟨bytes "/srv", 300, false⟩, ⟨12⟩⟩
    ∃ url, urlDecode (bytes "/secret.txt%00.jpg") = .ok url ∧ ¬ DecidedOpened Unit site url ∧
      cString (site.config.rootPath ++ url) = bytes "/srv/secret.txt" ∧
      getExtension (site.config.rootPath ++ url) = bytes "jpg" := by
  intro site
  let url : Bytes := bytes "/secret.txt" ++ 0 :: bytes ".jpg"
  refine ⟨url, by decide +kernel, fun decided => ?_, by decide +kernel, by decide +kernel⟩
  let r : Request := ⟨.options, ⟨1, 1⟩, ∅, url, []⟩
  obtain ⟨name, one⟩ := decided r [] emptyFile ⟨[], .empty⟩ rfl rfl .start
  exact not_mem_of_oneName (r := r) rfl one (by decide)

end Viking.Server
