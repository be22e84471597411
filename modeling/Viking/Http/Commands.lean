/-
# The command that a request runs

The type of a file without an extension is asked of the command `file`, which a shell runs with
the path of the file in its line. `typedFile` is the file that `process_request` asks the type of,
if it comes to that; it goes through the functions of the dispatcher up to the response that would
be made. `processHandled_withShell` says that of all that a shell may print only the answer for this
file matters, and `typedFile_path` that the path of the file is that of the request.

`Spawning` is what is known of such a command from outside, and `confined_iff` says which paths make
it open nothing outside a root directory.
-/

import Viking.Http.Caching
import Viking.Http.Mimetypes
import Viking.Http.Replies

namespace Viking.Http

open Io Cache Asking Shell

variable {ρ : Type}

/-! ## The file whose type is asked -/

/-- What a regular file is sent from. -/
inductive Source
  | memory (resource : Resource)
  | descriptor (file : UnixFile)

/-- The path that the response has its type from. -/
def Source.path : Source → Bytes
  | .memory resource => resource.path
  | .descriptor file => file.path

/-- What `take_file_from_memory` and `take_unix_file` do with a file that they got. -/
def Source.item (site : Site) (r : Request) : Source → Serving (ScheduleItem ρ)
  | .memory resource => itemOf site (Response.ofResource site.platform site.config r resource)
  | .descriptor file => do
    let response := Response.ofFile site.platform site.config r (some file)
    let header ← Asking.ofExcept (Serializer.makeHeader site.platform.traversal response)
    let item := (ScheduleItem.empty false).putBackMemory (.new header)
    let item := (item.putBackFile file).putBackMemory (.new Serializer.makeEnding)
    return { item with keepFileOpen := response.getKeepAlive }

/-- `take_regular_file` up to the response. -/
def regularSource (site : Site) (path : Bytes) : Serving Source := do
  if ← shouldCopy site path then
    let resource ← ResourceCache.aquire path
    if resource.toBool then return .memory resource
    else Asking.fail (.thrown (.statusCode StatusCode.notFound))
  else return .descriptor (← unixFile path)

/-- `take_disk_resource` up to the response for a regular file; `none` for what is none. -/
def entrySource (site : Site) (r : Request) : Serving (Option Source) := do
  if ← fsIsDirectory (fullPath site r) then return none
  else if ← fsIsRegularFile (fullPath site r) then
    return some (← regularSource site (fullPath site r))
  else return none

/-- `process_request` up to the response for a regular file. -/
def handledSource (site : Site) (r : Request) (found : Except Fault (Option (Handler ρ))) :
    Serving (Option Source) := do
  match ← Asking.ofExcept found with
  | some _ => return none
  | none => if ← isDiskResource site r then entrySource site r else return none

/-- The path of the file that `get_mimetype` is called for, if it is. -/
def typedFile (site : Site) (r : Request) (found : Except Fault (Option (Handler ρ)))
    (w : World Call.Answer) (s : Record Call Caches) : Option Bytes :=
  match (handledSource site r found w s).1 with
  | .ok source => source.map Source.path
  | .error _ => none

/-- Another shell. -/
def Site.withShell (site : Site) (shell : Bytes → Bytes) : Site :=
  { site with platform := { site.platform with shell := shell } }

section Shells

variable {site : Site} {r : Request} {shell : Bytes → Bytes} {w : World Call.Answer}
  {s : Record Call Caches}

/-- A regular file is sent from what it was found in. -/
theorem takeRegularFile_run (path : Bytes) :
    (takeRegularFile site r path : Serving (ScheduleItem ρ)) w s =
      (regularSource site path >>= Source.item site r : Serving (ScheduleItem ρ)) w s := by
  simp only [takeRegularFile, regularSource, bind_run]
  rcases shouldCopy site path w s with ⟨- | (- | -), s'⟩
  · rfl
  · simp only [Bool.false_eq_true, if_false, takeUnixFile, bind_run]
    rcases unixFile path w s' with ⟨- | file, s''⟩ <;> rfl
  · simp only [if_true, takeFileFromMemory, bind_run]
    rcases ResourceCache.aquire path w s' with ⟨- | resource, s''⟩
    · rfl
    · dsimp only
      split_ifs <;> rfl

/-- Two shells that print the same about a file give it the same type. -/
theorem getMimetype_withShell {platform : Platform} {path : Bytes}
    (same : getExtension path = [] → shell (mimeCommand path) = platform.shell (mimeCommand path)) :
    getMimetype { platform with shell := shell } path = getMimetype platform path := by
  by_cases bare : getExtension path = []
  · have answer : shell (bytes "file --mime-type " ++ path) =
        platform.shell (bytes "file --mime-type " ++ path) := same bare
    simp only [getMimetype, bare, ne_eq, not_true_eq_false, if_false, shellGetMimetype, answer]
  · simp only [getMimetype, bare, ne_eq, not_false_eq_true, if_true]

theorem Source.item_withShell {source : Source} (same : getExtension source.path = [] →
      shell (mimeCommand source.path) = site.platform.shell (mimeCommand source.path)) :
    (source.item (site.withShell shell) r : Serving (ScheduleItem ρ)) = source.item site r := by
  have type := getMimetype_withShell same
  cases source with
  | memory resource =>
    have response : Response.ofResource (site.withShell shell).platform site.config r resource =
        Response.ofResource site.platform site.config r resource := by
      simp only [Response.ofResource, Site.withShell]
      rw [Source.path] at type
      rw [type]
      rfl
    show itemOf site _ = itemOf site _
    exact congrArg (itemOf site) response
  | descriptor file =>
    have response : Response.ofFile (site.withShell shell).platform site.config r (some file) =
        Response.ofFile site.platform site.config r (some file) := by
      simp only [Response.ofFile, Site.withShell]
      rw [Source.path] at type
      rw [type]
      rfl
    simp only [Source.item]
    rw [show (site.withShell shell).config = site.config from rfl, response]
    rfl

theorem notFound_withShell :
    (notFound (site.withShell shell) r : Serving (ScheduleItem ρ)) = notFound site r := rfl

theorem takeFolder_withShell :
    (takeFolder (site.withShell shell) r : Serving (ScheduleItem ρ)) = takeFolder site r := rfl

theorem passRequest_withShell (h : Handler ρ) :
    passRequest (site.withShell shell) r h = passRequest site r h := rfl

theorem regularSource_withShell (path : Bytes) :
    regularSource (site.withShell shell) path = regularSource site path := rfl

/-- The other shell prints the same about the file. -/
def Unchanged (site : Site) (shell : Bytes → Bytes) (path : Bytes) : Prop :=
  getExtension path = [] → shell (mimeCommand path) = site.platform.shell (mimeCommand path)

theorem takeEntry_withShell (same : ∀ source, (entrySource site r w s).1 = .ok (some source) →
      Unchanged site shell source.path) :
    (takeEntry (site.withShell shell) r : Serving (Option (ScheduleItem ρ))) w s =
      takeEntry site r w s := by
  have target : fullPath (site.withShell shell) r = fullPath site r := rfl
  simp only [takeEntry, target, takeFolder_withShell, bind_run]
  simp only [entrySource, bind_run] at same
  rcases folder : fsIsDirectory (fullPath site r) w s with ⟨- | (- | -), s'⟩
  · rfl
  · simp only [folder, Bool.false_eq_true, if_false, bind_run] at same ⊢
    rcases regular : fsIsRegularFile (fullPath site r) w s' with ⟨- | (- | -), s''⟩
    · rfl
    · simp only [Bool.false_eq_true, if_false]
    · simp only [regular, if_true, bind_run, takeRegularFile_run, regularSource_withShell] at same ⊢
      rcases taken : regularSource site (fullPath site r) w s'' with ⟨- | source, s₃⟩
      · rfl
      -- Only here is anything asked of the shell.
      · rw [taken] at same
        dsimp only
        rw [Source.item_withShell (same source rfl)]
  · simp only [if_true]

/-- Of what shells print, only the answer for the file whose type is asked matters. -/
theorem processHandled_withShell (found : Except Fault (Option (Handler ρ)))
    (same : ∀ path ∈ typedFile site r found w s, Unchanged site shell path) :
    processHandled (site.withShell shell) r found w s = processHandled site r found w s := by
  have there : (isDiskResource (site.withShell shell) r : Serving Bool) = isDiskResource site r :=
    rfl
  rcases found with fault | (- | handler)
  · rfl
  · simp only [typedFile, handledSource, bind_run, ofExcept_run] at same
    simp only [processHandled, nothrow, through, bind_run, ofExcept_run, there, notFound_withShell]
    rcases tested : isDiskResource site r w s with ⟨- | (- | -), s'⟩
    · rfl
    · simp only [Bool.false_eq_true, if_false]
    · simp only [tested, if_true] at same ⊢
      have entry : (takeEntry (site.withShell shell) r : Serving (Option (ScheduleItem ρ))) w s' =
          takeEntry site r w s' := by
        refine takeEntry_withShell fun source taken => same source.path ?_
        rw [taken]
        rfl
      simp only [takeDiskResource, nothrow, through, catchAll, Asking.handle, bind_run, entry,
        notFound_withShell]
  · simp only [processHandled, nothrow, through, bind_run, ofExcept_run, passRequest_withShell]

end Shells

/-! ## Its path -/

section Paths

variable {site : Site} {r : Request} {w : World Call.Answer} {s : Record Call Caches} {path : Bytes}

/-- A copy that counts as one is of the path that it was asked for under. -/
theorem ends_aquire (keyed : Keyed s.store) :
    Ends (ResourceCache.aquire path) w
      (fun resource _ => resource.toBool = true → resource.path = path) (fun _ => True) s := by
  have loaded : Yields (fun resource => resource.toBool = true → resource.path = path)
      (ResourceCache.load path) :=
    yields_resource.bind fun resource named =>
      (Yields.trivial _).bind fun _ _ => .pure fun _ => named
  unfold ResourceCache.aquire
  refine ends_bind.mpr (ends_getStore.mpr (Yields.ends ?_))
  refine (Yields.trivial _).bind fun there _ => ?_
  cases found : s.store.findResource path with
  | none => exact loaded
  | some resource =>
    dsimp only
    split_ifs
    -- the empty resource counts as none
    · exact (Yields.trivial _).bind fun _ _ => .pure fun some => by cases some
    · refine (Yields.trivial _).bind fun time _ => ?_
      split_ifs
      · exact loaded
      · exact .pure fun _ => keyed.find found

theorem ends_regularSource (keyed : Keyed s.store) :
    Ends (regularSource site path) w (fun source _ => source.path = path) (fun _ => True) s := by
  refine (preserves_shouldCopy.ends keyed).bind fun copy s' keyed => ?_
  split_ifs
  · refine (ends_aquire keyed).bind fun resource s'' named => ?_
    split_ifs with some
    · exact named some
    · trivial
  · exact yields_unixFile.ends.bind fun file s'' opened => opened.1

/-- From caches that a server can come to have, the file whose type is asked is that of the
request. -/
theorem typedFile_path {found : Except Fault (Option (Handler ρ))} (keyed : Keyed s.store)
    (typed : path ∈ typedFile site r found w s) : path = fullPath site r := by
  have ends : Ends (handledSource site r found) w
      (fun source _ => ∀ file ∈ source, Source.path file = fullPath site r) (fun _ => True) s := by
    have looked : PreservesIn w Keyed (ofExcept found : Serving (Option (Handler ρ))) :=
      .ofExcept _
    refine (looked.ends keyed).bind fun handler s keyed => ?_
    cases handler with
    | some handler => exact fun file none => by cases none
    | none =>
      refine ((preserves_nothrow (preserves_fsTest Option.isSome)).ends keyed).bind
        fun there s keyed => ?_
      split_ifs
      · refine ((preserves_fsTest fun type => type = some .directory).ends keyed).bind
          fun directory s keyed => ?_
        split_ifs
        · exact fun file none => by cases none
        · refine ((preserves_fsTest fun type => type = some .regular).ends keyed).bind
            fun regular s keyed => ?_
          split_ifs
          · exact (ends_regularSource keyed).bind fun source s named file same => by
              cases same
              exact named
          · exact fun file none => by cases none
      · exact fun file none => by cases none
  rw [typedFile] at typed
  cases taken : (handledSource site r found w s).1 with
  | error fault => simp [taken] at typed
  | ok source =>
    rw [taken] at typed
    obtain ⟨file, there, rfl⟩ := Option.map_eq_some_iff.mp typed
    exact ends.returned taken file there

end Paths

/-! ## What the command opens -/

/-- No word is an option, or stands for the standard input. -/
def Operands (words : List Bytes) : Prop := ∀ word ∈ words, word.head? ≠ some (ascii '-')

instance (words : List Bytes) : Decidable (Operands words) := inferInstanceAs (Decidable (∀ _, _))

/-- The files that a shell and the commands of a line open, those apart that they need to run. The
command `file` opens its operands, and what other commands do is not known. -/
structure Spawning where
  /-- the names that a pattern matches -/
  matching : Word → List Bytes
  opens : Bytes → List Bytes
  operands : ∀ line words, simpleCommand matching line =
    some (bytes "file" :: bytes "--mime-type" :: words) → Operands words → opens line = words

namespace Spawning

/-- What is opened to find the type of a path. `popen` gets the line as a C string. -/
def examined (spawning : Spawning) (path : Bytes) : List Bytes :=
  if getExtension path ≠ [] then [] else spawning.opens (cString (mimeCommand path))

/-- All that is opened for the path is in `P`: nothing, because it has an extension; the words that
the shell makes of it; or whatever is opened when the line is none with operands only. -/
inductive Confined (spawning : Spawning) (P : Bytes → Prop) (path : Bytes) : Prop
  | extension (named : getExtension path ≠ [])
  | operands {words : List Bytes}
    (read : simpleCommand spawning.matching (cString path) = some words) (plain : Operands words)
    (inside : ∀ word ∈ words, P word)
  | other (unread : ∀ words, simpleCommand spawning.matching (cString path) = some words →
      ¬ Operands words)
    (inside : ∀ name ∈ spawning.opens (cString (mimeCommand path)), P name)

variable {spawning : Spawning} {P : Bytes → Prop} {path : Bytes} {words : List Bytes}

theorem cString_mimeCommand (path : Bytes) :
    cString (mimeCommand path) = mimeCommand (cString path) := by
  have plain : ∀ c ∈ bytes "file --mime-type ", c ≠ 0 := by decide +kernel
  rw [mimeCommand, cString, List.takeWhile_append_of_pos (by simpa using plain)]
  rfl

/-- The words that the shell makes of the path are opened. -/
theorem examined_words (bare : getExtension path = [])
    (read : simpleCommand spawning.matching (cString path) = some words) (plain : Operands words) :
    spawning.examined path = words := by
  rw [examined, if_neg (not_not.mpr bare), cString_mimeCommand]
  refine spawning.operands _ words ?_ plain
  rw [simpleCommand_mimeCommand, read]
  rfl

theorem examined_iff : (∀ name ∈ spawning.examined path, P name) ↔ spawning.Confined P path := by
  by_cases bare : getExtension path = []
  · by_cases read : ∃ words, simpleCommand spawning.matching (cString path) = some words ∧
        Operands words
    · obtain ⟨words, read, plain⟩ := read
      rw [examined_words bare read plain]
      refine ⟨.operands read plain, fun confined => ?_⟩
      cases confined with
      | extension named => exact absurd bare named
      | operands read' _ inside =>
        obtain rfl := Option.some.inj (read.symm.trans read')
        exact inside
      | other unread => exact absurd plain (unread words read)
    · have unread : ∀ words, simpleCommand spawning.matching (cString path) = some words →
          ¬ Operands words := fun words same plain => read ⟨words, same, plain⟩
      rw [examined, if_neg (not_not.mpr bare)]
      refine ⟨.other unread, fun confined => ?_⟩
      cases confined with
      | extension named => exact absurd bare named
      | operands read' plain => exact absurd plain (unread _ read')
      | other _ inside => exact inside
  · rw [examined, if_pos bare]
    exact iff_of_true (by simp) (.extension bare)

/-- A path that the shell reads as itself is all that is opened. -/
theorem confined_self (read : ReadsItself spawning.matching (cString path))
    (plain : Operands [cString path]) (inside : P (cString path)) : spawning.Confined P path :=
  .operands (simpleCommand_self_iff.mpr read) plain (by simpa using inside)

end Spawning

end Viking.Http
