/-
# What serving leaves in the caches

Whatever the requests are and whatever the file system answers, a cached resource is one of
the path that it is cached under. `Served` are the caches that a server can come to have.
-/

import Viking.Http.Dispatcher

namespace Viking.Http

open Io Cache Asking

variable {ρ : Type}

/-- A cached resource names the path that it is found under. -/
def Keyed (caches : Caches) : Prop :=
  ∀ path resource, (path, resource) ∈ caches.resources → resource.path = path

section Changes

variable {caches : Caches} {path : Bytes} {resource : Resource}

theorem Keyed.find (keyed : Keyed caches) (found : caches.findResource path = some resource) :
    resource.path = path := by
  simp only [Caches.findResource, Option.map_eq_some_iff] at found
  obtain ⟨entry, found, rfl⟩ := found
  have place : entry.1 = path := by simpa using List.find?_some found
  exact place ▸ keyed entry.1 entry.2 (List.mem_of_find?_eq_some found)

theorem keyed_eraseResource (keyed : Keyed caches) : Keyed (caches.eraseResource path) := by
  intro path' resource' mem
  exact keyed path' resource' (List.mem_of_mem_filter mem)

theorem keyed_putResource (named : resource.path = path) (keyed : Keyed caches) :
    Keyed (caches.putResource path resource) := by
  intro path' resource' mem
  simp only [Caches.putResource] at mem
  split_ifs at mem
  · obtain ⟨entry, old, same⟩ := List.mem_map.mp mem
    split_ifs at same with place
    · -- the resource at the path is the new one
      cases same
      exact named.trans place.symm
    · exact keyed path' resource' (same ▸ old)
  · rcases List.mem_append.mp mem with old | new
    · exact keyed path' resource' old
    · cases List.mem_singleton.mp new
      exact named

theorem keyed_release {fd : Fd} (keyed : Keyed caches) :
    Keyed (FileDescriptor.release fd caches).2 := by
  unfold FileDescriptor.release
  split
  · exact keyed
  · -- only the table of descriptors changes
    dsimp only
    split_ifs <;> exact keyed

end Changes

/-! ## Computations -/

section Preserves

variable {w : World Call.Answer} {I : Caches → Prop} {α β : Type} {path : Bytes} {site : Site}
  {r : Request}
  {m handler : Serving α}

theorem preserves_nothrow (h : PreservesIn w I m) : PreservesIn w I (nothrow m) := h.through

theorem preserves_catchAll (h : PreservesIn w I m) (handles : PreservesIn w I handler) :
    PreservesIn w I (catchAll m handler) := by
  refine h.handle fun fault => ?_
  cases fault with
  | thrown exception => exact handles
  | terminated | undefined => exact .fail _

/-- A question to the file system, of which nothing is known. -/
theorem preserves_answer {call : Call} {f : call.Answer → Serving β}
    (all : ∀ answer, PreservesIn w I (f answer)) :
    PreservesIn w I ((ask call : Serving (Call.Answer call)) >>= f) :=
  (PreservesIn.ask call).bind all

/-- A change of the caches, and what is returned after it. -/
theorem preserves_modify {f : Caches → Caches} {a : α} (keeps : ∀ caches, I caches → I (f caches)) :
    PreservesIn w I (do modifyStore f; return a : Serving α) :=
  (PreservesIn.modifyStore keeps).bind fun _ => .pure a

theorem preserves_fsStatus : PreservesIn w I (fsStatus path : Serving _) := by
  apply preserves_answer
  intro status
  cases status with
  | found | notFound => exact .pure _
  | failed => exact .fail _

theorem preserves_fsTest (test : Option FileType → Bool) :
    PreservesIn w I (do return test (← fsStatus path) : Serving Bool) :=
  preserves_fsStatus.bind fun _ => .pure _

theorem preserves_fsFileSize : PreservesIn w I (fsFileSize path : Serving _) := by
  apply preserves_answer
  intro size
  cases size with
  | none => exact .fail _
  | some size => exact .pure _

theorem preserves_fsLastWriteTime : PreservesIn w I (fsLastWriteTime path : Serving _) := by
  apply preserves_answer
  intro time
  cases time with
  | none => exact .fail _
  | some time => exact .pure _

theorem preserves_resource : PreservesIn w I (resource path) := by
  refine preserves_fsLastWriteTime.bind fun time => ?_
  refine PreservesIn.bind ?_ fun raw => .pure _
  apply preserves_answer
  intro content
  cases content with
  | none => exact .fail _
  | some content => exact .pure _

/-- What is read from a path names it. -/
theorem yields_resource : Yields (fun r => r.path = path) (resource path) := by
  refine (Yields.trivial _).bind fun time _ => ?_
  exact (Yields.trivial _).bind fun raw _ => .pure rfl

/-- A file that was opened just now names its path and is sent from its start. -/
theorem yields_unixFile :
    Yields (fun file => file.path = path ∧ file.offset = 0) (unixFile path) := by
  refine (Yields.trivial _).bind fun fd _ => ?_
  cases fd with
  | none => exact .fail _
  | some fd =>
    refine (Yields.trivial _).bind fun size _ => ?_
    cases size with
    | none => exact .fail _
    | some size => exact .pure ⟨rfl, rfl⟩

theorem preserves_load : PreservesIn w Keyed (ResourceCache.load path) := by
  refine preserves_resource.bind_of yields_resource fun r named => ?_
  exact preserves_modify fun _ => keyed_putResource named

theorem preserves_resourceCache : PreservesIn w Keyed (ResourceCache.aquire path) := by
  refine PreservesIn.getStore.bind fun caches => ?_
  refine (preserves_fsTest Option.isSome).bind fun there => ?_
  cases caches.findResource path with
  | none => exact preserves_load
  | some r =>
    dsimp only
    split_ifs
    · exact preserves_modify fun _ => keyed_eraseResource
    · refine preserves_fsLastWriteTime.bind fun time => ?_
      split_ifs
      · exact preserves_load
      · exact .pure _

theorem preserves_fileDescriptor : PreservesIn w Keyed (FileDescriptor.aquire path) := by
  refine PreservesIn.getStore.bind fun caches => ?_
  cases caches.findDescriptor path with
  | some d => exact preserves_modify fun _ keyed => keyed
  | none =>
    apply preserves_answer
    intro fd
    cases fd with
    | none => exact .pure _
    | some fd => exact preserves_modify fun _ keyed => keyed

theorem preserves_itemOf (response : Response) :
    PreservesIn w I (itemOf site response : Serving (ScheduleItem ρ)) :=
  (PreservesIn.ofExcept _).bind fun _ => .pure _

theorem preserves_notFound : PreservesIn w I (notFound site r : Serving (ScheduleItem ρ)) :=
  preserves_nothrow ((PreservesIn.ofExcept _).bind fun _ => .pure _)

theorem preserves_listDirectory : PreservesIn w I (listDirectory site r) := by
  refine preserves_catchAll ?_ (.pure _)
  unfold listEntries
  split
  · exact .fail _
  · split_ifs
    · exact .pure _
    · apply preserves_answer
      intro listing
      refine (PreservesIn.ofExcept _).bind fun lines => ?_
      split_ifs
      · exact .fail _
      · exact .pure _

theorem preserves_shouldCopy : PreservesIn w I (shouldCopy site path) :=
  preserves_catchAll (preserves_fsFileSize.bind fun _ => .pure _) (.fail _)

theorem preserves_passRequest (handler : Handler ρ) :
    PreservesIn w I (passRequest site r handler) := by
  apply preserves_nothrow
  refine (PreservesIn.ofExcept _).bind fun resolution => ?_
  cases resolution with
  | sync response => exact preserves_itemOf response
  | async future keep => exact .pure _

/-! What keeps an invariant of the caches through the two functions that use them keeps it
through a request. -/

section Requests

variable (copies : ∀ path, PreservesIn w I (ResourceCache.aquire path))
  (opens : ∀ path, PreservesIn w I (FileDescriptor.aquire path))

include opens in
theorem preserves_unixFile : PreservesIn w I (unixFile path) := by
  refine (opens path).bind fun fd => ?_
  cases fd with
  | none => exact .fail _
  | some fd =>
    apply preserves_answer
    intro size
    cases size with
    | none => exact .fail _
    | some size => exact .pure _

include copies in
theorem preserves_takeFileFromMemory :
    PreservesIn w I (takeFileFromMemory site r path : Serving (ScheduleItem ρ)) := by
  refine (copies path).bind fun resource => ?_
  split_ifs
  · exact preserves_itemOf _
  · exact .fail _

include opens in
theorem preserves_takeUnixFile :
    PreservesIn w I (takeUnixFile site r path : Serving (ScheduleItem ρ)) := by
  refine (preserves_unixFile opens).bind fun file => ?_
  exact (PreservesIn.ofExcept _).bind fun _ => .pure _

include copies opens in
theorem preserves_takeEntry :
    PreservesIn w I (takeEntry site r : Serving (Option (ScheduleItem ρ))) := by
  refine (preserves_fsTest fun type => type = some .directory).bind fun directory => ?_
  split_ifs
  · exact (preserves_listDirectory.bind fun _ => preserves_itemOf _).bind fun _ => .pure _
  · refine (preserves_fsTest fun type => type = some .regular).bind fun regular => ?_
    split_ifs
    · refine (preserves_shouldCopy.bind fun copy => ?_).bind fun _ => .pure _
      split_ifs
      · exact preserves_takeFileFromMemory copies
      · exact preserves_takeUnixFile opens
    · exact .pure _

include copies opens in
theorem preserves_takeDiskResource :
    PreservesIn w I (takeDiskResource site r : Serving (ScheduleItem ρ)) := by
  apply preserves_nothrow
  refine (preserves_catchAll (preserves_takeEntry copies opens) (.pure _)).bind fun item => ?_
  cases item with
  | some item => exact .pure _
  | none => exact preserves_notFound

include copies opens in
theorem preserves_processRequest (site : Site) (routes : List (Route ρ)) (r : Request) :
    PreservesIn w I (processRequest site routes r) := by
  apply preserves_nothrow
  refine (PreservesIn.ofExcept _).bind fun handler => ?_
  cases handler with
  | some handler => exact preserves_passRequest handler
  | none =>
    refine (preserves_nothrow (preserves_fsTest Option.isSome)).bind fun there => ?_
    split_ifs
    · exact preserves_takeDiskResource copies opens
    · exact preserves_notFound

end Requests

/-- Whatever it is answered, a request leaves every cached resource under its own path. -/
theorem preserves_keyed (site : Site) (routes : List (Route ρ)) (r : Request) :
    Preserves Keyed (processRequest site routes r) :=
  fun _ => preserves_processRequest (fun _ => preserves_resourceCache)
    (fun _ => preserves_fileDescriptor) site routes r

end Preserves

/-! ## The caches of a server -/

/-- The caches after any requests, each answered at its own time, and any releases of
descriptors. -/
inductive Served (ρ : Type) : Caches → Prop
  | empty : Served ρ .empty
  | request {caches : Caches} (site : Site) (routes : List (Route ρ)) (r : Request)
    (w : World Call.Answer) (asked : List Call) (before : Served ρ caches) :
    Served ρ (processRequest site routes r w ⟨asked, caches⟩).2.store
  | release {caches : Caches} (fd : Fd) (before : Served ρ caches) :
    Served ρ (FileDescriptor.release fd caches).2

theorem Served.keyed {caches : Caches} (served : Served ρ caches) : Keyed caches := by
  induction served with
  | empty =>
    intro path resource mem
    cases mem
  | request site routes r w asked before ih => exact preserves_keyed site routes r w _ ih
  | release fd before ih => exact keyed_release ih

end Viking.Http
