/-
# Serving a file

A regular file that can be read and does not change is what a request names. Its length and the
end of its name decide how it is sent, and the caches may hold it from earlier requests: `Warm`
are the caches that do, rightly. A copy in memory may be sent compressed, and then it has to be
what zlib restores. `regular_file_served_iff` says which files are sent.
-/

import Viking.Cache.Sharing
import Viking.Http.AcceptEncoding
import Viking.Http.Compression
import Viking.Http.Framing
import Viking.Server.Copying

namespace Viking.Server

open Http Io Cache Asking

variable {ρ : Type}

/-! ## What is sent for a file -/

/-- The site with the compression of `compression.h`. -/
def compressing (site : Site) (z : Zlib) : Site :=
  { site with platform := site.platform.compressing z }

/-- What a recipient makes of a body, given the coding that the header declares. -/
def decode (z : Zlib) : Option Bytes → Bytes → Option Bytes
  | none, body => some body
  | some coding, body =>
    if coding = bytes "gzip" then z.inflate .gzip body
    else if coding = bytes "deflate" then z.inflate .zlib body
    else none

/-- The header block of the response comes first, with the code 200, and then the content, in the
length and in the coding that the header declares. -/
structure Sends (z : Zlib) (traversal : Traversal) (response : Response) (content sent : Bytes) :
    Prop where
  code : response.code = .ok
  carried : ∃ header body rest, Serializer.makeHeader traversal response = .ok header ∧
    sent = header ++ body ++ rest ∧ Announces response body.length ∧
    decode z (response.get contentEncodingField true) body = some content

/-- A copy of the file as it was read. -/
def ReadCopy (path content : Bytes) (resource : Resource) : Prop :=
  ∃ time, resource = ⟨path, time, content, [], []⟩

/-- The item is made from a response with the file: with a copy of it or with its descriptor. -/
inductive MadeFrom (files : Fd → Bytes) (site : Site) (r : Request) (path content : Bytes) :
    Response → ScheduleItem ρ → Prop
  | memory {resource : Resource} {text : Bytes} (copy : ReadCopy path content resource)
      (serialized : Serializer.serialize site.platform.traversal
        (.ofResource site.platform site.config r resource) = .ok text) (keep : Bool) :
      MadeFrom files site r path content (.ofResource site.platform site.config r resource)
        (.ofData text keep)
  | descriptor {file : UnixFile} {header : Bytes} (named : file.path = path)
      (behind : files file.fd = content)
      (made : Serializer.makeHeader site.platform.traversal
        (.ofFile site.platform site.config r (some file)) = .ok header) (keep : Bool) :
      MadeFrom files site r path content (.ofFile site.platform site.config r (some file))
        (fileReply header file keep : Reply ρ).item

/-- The request is answered with the content of a file. -/
def FileServed (z : Zlib) (files : Fd → Bytes) (serialize : ρ → Bytes) (site : Site) (r : Request)
    (content : Bytes) (outcome : Except Fault (ScheduleItem ρ)) : Prop :=
  ∃ item response, outcome = .ok item ∧
    MadeFrom files site r (fullPath site r) content response item ∧
    Sends z site.platform.traversal response content
      (item.buffers.flatMap (Buffer.content files serialize))

/-- `should_copy`, of a file with this content -/
def Copied (site : Site) (path content : Bytes) : Prop :=
  content.length < 2000000 ∧ getExtension path = bytes "jpg" ∨ content.length ≤ site.page.bytes

instance {site : Site} {path content : Bytes} : Decidable (Copied site path content) :=
  inferInstanceAs (Decidable (_ ∨ _))

/-- What `compression.h` makes of the content is inflated to it again. -/
def Restored (z : Zlib) (content : Bytes) : CompressionType → Prop
  | .deflate => z.inflate .zlib (Compression.deflate z content) = some content
  | .gzip => z.inflate .gzip (Compression.gzip z content) = some content
  | .none => True

/-- A regular file at the path that can be read and does not change. -/
structure Readable (files : Fd → Bytes) (path content : Bytes) (w : World Call.Answer) : Prop
    extends Unchanging files path content w where
  fileSize : ∀ asked, w asked (.fileSize (cString path)) = some content.length

/-! ## What the caches hold of it -/

/-- What the caches hold of the file is right. -/
structure Warm (files : Fd → Bytes) (path content : Bytes) (caches : Caches) : Prop where
  copy : ∀ resource, caches.findResource path = some resource → ReadCopy path content resource
  opened : Opened files path content caches

section Caches

variable {files : Fd → Bytes} {caches : Caches} {path path' content : Bytes}
  {w : World Call.Answer} {s : Record Call Caches}

theorem warm_empty : Warm files path content .empty where
  copy _ found := by cases found
  opened _ found := by cases found

/-- Only what is read from the path itself is found there. -/
theorem Warm.put (warm : Warm files path content caches) {resource : Resource}
    (read : path' = path → ReadCopy path content resource) :
    Warm files path content (caches.putResource path' resource) where
  copy resource' found := by
    rw [Caches.findResource_putResource] at found
    split_ifs at found with here
    · cases found
      exact read here.symm
    · exact warm.copy resource' found
  opened := warm.opened

theorem Warm.erase (warm : Warm files path content caches) (path' : Bytes) :
    Warm files path content (caches.eraseResource path') where
  copy resource' found := by
    rw [Caches.findResource_eraseResource] at found
    split_ifs at found
    exact warm.copy resource' found
  opened := warm.opened

/-- What is found in the table is what was found before, but for the count. -/
theorem Warm.recount {caches' : Caches} (warm : Warm files path content caches)
    (resources : caches'.resources = caches.resources)
    (kept : ∀ d, caches'.findDescriptor path = some d →
      ∃ e, caches.findDescriptor path = some e ∧ d.handle = e.handle) :
    Warm files path content caches' where
  copy resource found := by
    rw [Caches.findResource, resources] at found
    exact warm.copy resource found
  opened d found := by
    obtain ⟨e, held, same⟩ := kept d found
    exact same ▸ warm.opened e held

/-- Changing the counts of a path leaves the handles. -/
theorem Warm.map {f : HandleUseCount → HandleUseCount} (warm : Warm files path content caches)
    (paths : ∀ d, (f d).path = d.path) (handles : ∀ d, (f d).handle = d.handle) :
    Warm files path content { caches with descriptors := caches.descriptors.map f } := by
  refine warm.recount rfl fun d found => ?_
  rw [Caches.findDescriptor_map paths, Option.map_eq_some_iff] at found
  obtain ⟨e, held, rfl⟩ := found
  exact ⟨e, held, handles e⟩

theorem Warm.use (warm : Warm files path content caches) (path' : Bytes) :
    Warm files path content (caches.useDescriptor path') := by
  apply warm.map <;> intro d <;> split_ifs <;> rfl

theorem Warm.unuse (warm : Warm files path content caches) (path' : Bytes) :
    Warm files path content (caches.unuseDescriptor path') := by
  apply warm.map <;> intro d <;> split_ifs <;> rfl

theorem Warm.eraseDescriptor (warm : Warm files path content caches) (path' : Bytes) :
    Warm files path content (caches.eraseDescriptor path') := by
  refine warm.recount rfl fun d found => ⟨d, ?_, rfl⟩
  rw [Caches.findDescriptor_eraseDescriptor] at found
  split_ifs at found
  exact found

theorem Warm.release (warm : Warm files path content caches) (fd : Fd) :
    Warm files path content (FileDescriptor.release fd caches).2 := by
  unfold FileDescriptor.release
  split
  · exact warm
  · dsimp only
    split_ifs
    · exact (warm.unuse _).eraseDescriptor _
    · exact warm.unuse _

/-- A descriptor that was opened for a path that had none. -/
theorem Warm.open (warm : Warm files path content caches) {fd : Fd}
    (behind : path' = path → files fd = content) :
    Warm files path content
      { caches with descriptors := caches.descriptors ++ [⟨path', 1, fd⟩] } where
  copy := warm.copy
  opened d found := by
    rw [Caches.findDescriptor_append, Option.or_eq_some_iff] at found
    rcases found with old | ⟨-, new⟩
    · exact warm.opened d old
    · split_ifs at new with here
      cases new
      exact behind here

end Caches

/-! ## What a request leaves of it -/

section Requests

variable {files : Fd → Bytes} {path path' content : Bytes} {w : World Call.Answer}

theorem Unchanging.resource (file : Unchanging files path content w) :
    ∃ copy, ReadCopy path content copy ∧ Finds w (Cache.resource path) copy := by
  obtain ⟨time, told⟩ := file.lastWriteTime
  exact ⟨_, ⟨time, rfl⟩, told.bind (file.readFile.bind (.pure _))⟩

theorem warm_load (file : Unchanging files path content w) (path' : Bytes) :
    PreservesIn w (Warm files path content) (ResourceCache.load path') := by
  by_cases here : path' = path
  · subst here
    intro s warm
    obtain ⟨copy, read, found⟩ := file.resource
    obtain ⟨asked, run⟩ := found s
    rw [ResourceCache.load, bind_run_ok run]
    exact warm.put fun _ => read
  · refine preserves_resource.bind fun r => ?_
    exact preserves_modify fun _ warm => warm.put fun same => absurd same here

theorem warm_resourceCache (file : Unchanging files path content w) (path' : Bytes) :
    PreservesIn w (Warm files path content) (ResourceCache.aquire path') := by
  refine PreservesIn.getStore.bind fun caches => ?_
  refine (preserves_fsTest Option.isSome).bind fun there => ?_
  cases caches.findResource path' with
  | none => exact warm_load file path'
  | some r =>
    dsimp only
    split_ifs
    · exact preserves_modify fun _ warm => warm.erase path'
    · refine preserves_fsLastWriteTime.bind fun time => ?_
      split_ifs
      · exact warm_load file path'
      · exact .pure _

theorem warm_fileDescriptor (file : Unchanging files path content w) (path' : Bytes) :
    PreservesIn w (Warm files path content) (FileDescriptor.aquire path') := by
  intro s warm
  let sharing : Sharing Unit := ⟨s, [], [], [], []⟩
  cases held : s.store.findDescriptor path' with
  | some d =>
    have run := Sharing.aquire_found (s := sharing) (w := w) held
    exact run ▸ warm.use path'
  | none =>
    have run := Sharing.aquire_missing (s := sharing) (w := w) held
    rw [run]
    cases answered : sharing.opening path' w with
    | none => simpa [Sharing.table] using warm
    | some fd =>
      refine warm.open fun here => ?_
      subst here
      obtain ⟨fd', answered', behind⟩ := file.opens s.asked
      have same : some fd = some fd' := answered.symm.trans answered'
      cases same
      exact behind

/-- The records after earlier requests, each about any file, and releases of descriptors. -/
inductive Reached (site : Site) (routes : List (Route ρ)) (w : World Call.Answer) :
    Record Call Caches → Prop
  | start : Reached site routes w ⟨[], .empty⟩
  | request {s : Record Call Caches} (r : Request) (before : Reached site routes w s) :
    Reached site routes w (processRequest site routes r w s).2
  | release {s : Record Call Caches} (fd : Fd) (before : Reached site routes w s) :
    Reached site routes w { s with store := (FileDescriptor.release fd s.store).2 }

/-- What the caches come to hold of a file that does not change is right. -/
theorem Reached.warm {site : Site} {routes : List (Route ρ)} {s : Record Call Caches}
    (reached : Reached site routes w s) (file : Unchanging files path content w) :
    Warm files path content s.store := by
  induction reached with
  | start => exact warm_empty
  | request r before ih =>
    exact preserves_processRequest (warm_resourceCache file) (warm_fileDescriptor file) site routes
      r _ ih
  | release fd before ih => exact ih.release fd

end Requests

/-! ## How a file is sent -/

section Sending

variable {files : Fd → Bytes} {path content : Bytes} {w : World Call.Answer} {site : Site}
  {r : Request} {platform : Platform} {config : Configuration} {resource : Resource}

/-- A copy as it was read is coded when it is needed. -/
theorem ReadCopy.codable (copy : ReadCopy path content resource) (platform : Platform)
    (coding : CompressionType) :
    Assigned.Codable platform coding resource := by
  obtain ⟨time, rfl⟩ := copy
  cases coding with
  | deflate | gzip => exact .inl rfl
  | none => exact .inr rfl

theorem body_ofResource (copy : ReadCopy path content resource) :
    Serializer.makeBody (Response.ofResource platform config r resource) =
      .ok (platform.coding (Response.coding config r) content) := by
  have coded := (Assigned.form_fill resource (Response.coding config r)).mpr
    (copy.codable platform _)
  have type : (Response.make platform config r .ok .resource resource [] none).type = .resource :=
    Response.sameKind_init.2
  have filled : (Response.make platform config r .ok .resource resource [] none).res =
      resource.fill platform (Response.coding config r) := by
    rw [Response.make, Response.init_res, Response.prepared_fresh rfl rfl]
    rfl
  have made := Response.body_resource type
  rw [filled, compressed_make platform config r .ok resource [] none (by simp), coded] at made
  obtain ⟨time, rfl⟩ := copy
  exact congrArg noexcept made

theorem makeHeader_ofResource (platform : Platform) (config : Configuration) (r : Request)
    (resource : Resource) :
    Serializer.makeHeader platform.traversal (Response.ofResource platform config r resource) =
      .ok (head (platform.traversal.entries
        (Response.ofResource platform config r resource).fields)) := by
  apply makeHeader_ok
  · obtain ⟨fields, made⟩ := Response.init_frame platform config
      ⟨∅, ⟨0, 0⟩, r, .ok, .resource, resource, [], .none, none⟩
    rw [Response.ofResource, Response.make, made]
    rfl
  · exact Response.sameKind_init.1

theorem serialize_ofResource_isOk (copy : ReadCopy path content resource) (platform : Platform)
    (config : Configuration) (r : Request) :
    ∃ text, Serializer.serialize platform.traversal
      (Response.ofResource platform config r resource) = .ok text := by
  rw [Serializer.serialize, makeHeader_ofResource, body_ofResource copy]
  exact ⟨_, rfl⟩

/-- The coding that is used is the one that the header declares. -/
theorem declared_ofResource (platform : Platform) (config : Configuration) (r : Request)
    (resource : Resource) :
    (Response.ofResource platform config r resource).get contentEncodingField true =
      (Response.coding config r).name := by
  have named := (Assigned.sound_start platform config r (.resource resource)).encoding
  rw [compressed_start] at named
  exact named

/-- What is decoded in the coding that was used is what was coded, if zlib restores that. -/
theorem decode_coding (z : Zlib) (platform : Platform) (coding : CompressionType)
    (content : Bytes) :
    decode z coding.name ((platform.compressing z).coding coding content) = some content ↔
      Restored z content coding := by
  cases coding with
  | deflate => exact Iff.rfl
  | gzip => exact Iff.rfl
  | none => exact iff_true_intro rfl

/-- A copy that is sent from memory is received iff its coding is undone. -/
theorem sends_memory {z : Zlib} {text : Bytes} (copy : ReadCopy path content resource)
    (serialized : Serializer.serialize (platform.compressing z).traversal
      (.ofResource (platform.compressing z) config r resource) = .ok text) :
    Sends z (platform.compressing z).traversal
        (.ofResource (platform.compressing z) config r resource) content text ↔
      Restored z content (Response.coding config r) := by
  let response := Response.ofResource (platform.compressing z) config r resource
  have declared : response.get contentEncodingField true = (Response.coding config r).name :=
    declared_ofResource ..
  have made : Serializer.makeBody response =
      .ok ((platform.compressing z).coding (Response.coding config r) content) :=
    body_ofResource copy
  obtain ⟨header, head, rest⟩ := Machine.bind_eq_ok.mp serialized
  obtain ⟨body, coded, rest⟩ := Machine.bind_eq_ok.mp rest
  obtain rfl := Except.ok.inj (made.symm.trans coded)
  obtain rfl := Except.ok.inj rest
  rw [← decode_coding z platform]
  have measured : Measured response := (measured_make (by simp)).set (by decide)
  obtain ⟨body, there, length⟩ := measured
  have same := congrArg noexcept there
  obtain rfl := Except.ok.inj (same.symm.trans coded)
  constructor
  · rintro ⟨-, header', body', rest, head', sent, announces, decoded⟩
    obtain rfl := Except.ok.inj (head'.symm.trans head)
    -- the length that is announced says where the body ends
    have long := announces_toText length announces
    rw [List.append_assoc, List.append_assoc, List.append_cancel_left_eq] at sent
    obtain ⟨rfl, -⟩ := List.append_inj sent long
    rwa [declared] at decoded
  · intro decoded
    exact ⟨Response.sameKind_init.1, header, _, Serializer.makeEnding, head, rfl,
      ⟨_, length, numeral_toText _, decimalNumber_toText _⟩, declared ▸ decoded⟩

/-- A file that is sent from its descriptor is received. -/
theorem sends_descriptor (z : Zlib) (serialize : ρ → Bytes) (platform : Platform)
    (config : Configuration) (r : Request) {file : UnixFile} {header : Bytes}
    (made : Serializer.makeHeader platform.traversal
      (.ofFile platform config r (some file)) = .ok header)
    (measured : file.size = content.length) (fresh : file.offset = 0)
    (behind : files file.fd = content) (keep : Bool) :
    Sends z platform.traversal (.ofFile platform config r (some file)) content
      ((fileReply header file keep : Reply ρ).item.buffers.flatMap
        (Buffer.content files serialize)) := by
  have unsent : file.unsent files = content := by
    rw [UnixFile.unsent, behind, fresh, List.drop_zero, UnixFile.sizeLeft, measured, fresh,
      Nat.sub_zero, List.take_length]
  have plain := @get_ofFile r platform config file contentEncodingField
  have length := @get_ofFile r platform config file contentLengthField
  rw [if_pos rfl, measured] at length
  refine ⟨Response.sameKind_init.1, header, content, Serializer.makeEnding, made, ?_,
    ⟨_, length, numeral_toText _, decimalNumber_toText _⟩, ?_⟩
  · simp [fileReply, Buffer.content, MemoryBuffer.new, unsent]
  · rw [plain]
    simp +decide [decode]

/-- The cache gives out a copy, new or from an earlier request. -/
theorem Warm.aquire {s : Record Call Caches} (file : Unchanging files path content w)
    (warm : Warm files path content s.store) :
    ∃ resource s', ResourceCache.aquire path w s = (.ok resource, s') ∧
      ReadCopy path content resource := by
  obtain ⟨copy, read, told⟩ := file.resource
  have loads (s : Record Call Caches) :
      ∃ s', ResourceCache.load path w s = (.ok copy, s') := by
    obtain ⟨asked, run⟩ := told s
    exact ⟨_, (bind_run_ok run).trans rfl⟩
  have look : (getStore : Serving Caches) w s = (.ok s.store, s) := rfl
  obtain ⟨asked, there⟩ := file.exists s
  rw [ResourceCache.aquire, bind_run_ok look, bind_run_ok there]
  cases found : s.store.findResource path with
  | none =>
    obtain ⟨s', run⟩ := loads ⟨asked, s.store⟩
    exact ⟨copy, s', run, read⟩
  | some resource =>
    obtain ⟨time, told⟩ := file.lastWriteTime
    obtain ⟨asked', told⟩ := told ⟨asked, s.store⟩
    simp only [Bool.not_true, Bool.false_eq_true, if_false]
    rw [bind_run_ok told]
    split_ifs
    · obtain ⟨s', run⟩ := loads ⟨asked', s.store⟩
      exact ⟨copy, s', run, read⟩
    · exact ⟨resource, _, rfl, warm.copy resource found⟩

theorem Readable.shouldCopy (file : Readable files path content w) (site : Site) :
    Finds w (Http.shouldCopy site path) (decide (Copied site path content)) := by
  have size : Finds w (fsFileSize path : Serving Nat) content.length :=
    Finds.bind (.ask file.fileSize) (.pure _)
  let copy : Bool := content.length < 2000000 && getExtension path = bytes "jpg" ||
    content.length ≤ site.page.bytes
  have decided : decide (Copied site path content) = copy := by
    rw [Bool.eq_iff_iff, decide_eq_true_iff]
    simp [Copied, copy]
  rw [decided]
  exact Finds.handle (size.bind (Finds.pure copy)) _

/-- A file that is copied and has a content is sent from memory. -/
theorem takeRegularFile_copied {s : Record Call Caches} (file : Readable files path content w)
    (warm : Warm files path content s.store) (copied : Copied site path content)
    (nonempty : content ≠ []) :
    ∃ (resource : Resource) (text : Bytes) (keep : Bool) (s' : Record Call Caches),
      (takeRegularFile site r path : Serving (ScheduleItem ρ)) w s = (.ok (.ofData text keep), s') ∧
      ReadCopy path content resource ∧
      Serializer.serialize site.platform.traversal
        (.ofResource site.platform site.config r resource) = .ok text := by
  obtain ⟨asked, run⟩ := file.shouldCopy site s
  obtain ⟨resource, s', acquired, read⟩ :=
    Warm.aquire (s := ⟨asked, s.store⟩) file.toUnchanging warm
  have some : resource.toBool = true := by
    obtain ⟨time, rfl⟩ := read
    simpa [Resource.toBool] using nonempty
  obtain ⟨text, serialized⟩ := serialize_ofResource_isOk read site.platform site.config r
  let keep := (Response.ofResource site.platform site.config r resource).getKeepAlive
  refine ⟨resource, text, keep, s', ?_, read, serialized⟩
  rw [takeRegularFile, bind_run_ok run, decide_eq_true copied, if_pos rfl, takeFileFromMemory,
    bind_run_ok acquired, if_pos some, itemOf, serialized]
  rfl

/-- A file that is not copied is sent from its descriptor. -/
theorem takeRegularFile_opened {s : Record Call Caches} (file : Readable files path content w)
    (warm : Warm files path content s.store) (opened : ¬ Copied site path content) :
    ∃ (unixFile : UnixFile) (header : Bytes) (keep : Bool) (s' : Record Call Caches),
      (takeRegularFile site r path : Serving (ScheduleItem ρ)) w s =
        (.ok (fileReply header unixFile keep : Reply ρ).item, s') ∧
      unixFile.path = path ∧ unixFile.size = content.length ∧ unixFile.offset = 0 ∧
      files unixFile.fd = content ∧
      Serializer.makeHeader site.platform.traversal
        (.ofFile site.platform site.config r (some unixFile)) = .ok header := by
  obtain ⟨asked, run⟩ := file.shouldCopy site s
  obtain ⟨unixFile, named, measured, fresh, behind, taken⟩ := takeUnixFile_run (ρ := ρ)
    (s := ⟨asked, s.store⟩) site r file.toUnchanging warm.opened
  rcases rest : (takeUnixFile site r path : Serving (ScheduleItem ρ)) w ⟨asked, s.store⟩
    with ⟨outcome, s'⟩
  rw [rest] at taken
  let response := Response.ofFile site.platform site.config r (some unixFile)
  refine ⟨unixFile, head (site.platform.traversal.entries response.fields), response.getKeepAlive,
    s', ?_, named, measured, fresh, behind, makeHeader_ofFile ..⟩
  rw [takeRegularFile, bind_run_ok run, decide_eq_false opened, if_neg Bool.false_ne_true, rest]
  exact congrArg (·, s') taken

/-- An empty file is copied, and its copy counts as none. -/
theorem takeRegularFile_empty {s : Record Call Caches} (file : Readable files path [] w)
    (warm : Warm files path [] s.store) :
    ∃ s' : Record Call Caches, (takeRegularFile site r path : Serving (ScheduleItem ρ)) w s =
      (.error (.thrown (.statusCode StatusCode.notFound)), s') := by
  obtain ⟨asked, run⟩ := file.shouldCopy site s
  have copied : Copied site path [] := .inr (Nat.zero_le _)
  obtain ⟨resource, s', acquired, time, rfl⟩ :=
    Warm.aquire (s := ⟨asked, s.store⟩) file.toUnchanging warm
  refine ⟨s', ?_⟩
  rw [takeRegularFile, bind_run_ok run, decide_eq_true copied, if_pos rfl, takeFileFromMemory,
    bind_run_ok acquired]
  rfl

/-- The reply that nothing was found is none that is made from a file. -/
theorem notFound_ne_ofResource {text : Bytes}
    (serialized : Serializer.serialize platform.traversal ((Response.ofCode platform config r
      .notFound).set cacheControlField (bytes "no-cache")) = .ok text) :
    Serializer.serialize platform.traversal (Response.ofResource platform config r resource) ≠
      .ok text := by
  let response := (Response.ofCode platform config r .notFound).set cacheControlField
    (bytes "no-cache")
  have code : response.code = .notFound := Response.sameKind_init.1
  have version : response.version = ⟨1, 1⟩ := by
    obtain ⟨fields, made⟩ := Response.init_frame platform config
      ⟨∅, ⟨0, 0⟩, r, .notFound, .text, .empty, [], .none, none⟩
    simp only [response, Response.ofCode, Response.make, made]
    rfl
  obtain ⟨header, made, rest⟩ := Machine.bind_eq_ok.mp serialized
  obtain ⟨body, -, rest⟩ := Machine.bind_eq_ok.mp rest
  cases rest
  have made : Serializer.makeHeader platform.traversal response = .ok header := made
  have reason : statusCodes.lookup response.code = some (bytes "Not Found") := by
    rw [code]
    rfl
  have line : bytes "HTTP/" ++ toText response.version.major ++ bytes "." ++
      toText response.version.minor ++ bytes " " ++ toText response.code =
        bytes "HTTP/1.1 404" := by
    rw [version, code]
    decide +kernel
  have starts : ∃ rest, header = bytes "HTTP/1.1 404" ++ rest := by
    have same : noexcept (.ok (bytes "HTTP/1.1 404" ++ (bytes " " ++ bytes "Not Found" ++
        Serializer.crlf ++ (platform.traversal.entries response.fields).flatMap
          Serializer.fieldLine ++ Serializer.crlf))) = Except.ok header := by
      rw [← made, Serializer.makeHeader, reason, ← line]
      simp [List.append_assoc]
    exact ⟨_, (Except.ok.inj same).symm⟩
  intro served
  obtain ⟨header', made', rest⟩ := Machine.bind_eq_ok.mp served
  obtain ⟨body', -, rest⟩ := Machine.bind_eq_ok.mp rest
  rw [makeHeader_ofResource] at made'
  obtain rfl := Except.ok.inj made'
  have same := Except.ok.inj rest
  obtain ⟨behind, rfl⟩ := starts
  -- the two codes are in the same place
  have codes := congrArg (List.take 12) same
  simp only [head, List.append_assoc] at codes
  rw [List.take_append_of_le_length (by decide), List.take_append_of_le_length (by decide)] at codes
  exact absurd codes (by decide)

theorem MadeFrom.ofData {response : Response} {text : Bytes} {keep : Bool}
    (made : MadeFrom files site r path content response (.ofData text keep : ScheduleItem ρ)) :
    ∃ resource, ReadCopy path content resource ∧
      response = .ofResource site.platform site.config r resource ∧
      Serializer.serialize site.platform.traversal
        (.ofResource site.platform site.config r resource) = .ok text := by
  generalize same : (ScheduleItem.ofData text keep : ScheduleItem ρ) = item at made
  cases made with
  | @memory resource text' copy serialized keep' =>
    simp only [ScheduleItem.ofData, MemoryBuffer.new, ScheduleItem.mk.injEq, List.cons.injEq,
      Buffer.memory.injEq, MemoryBuffer.mk.injEq] at same
    obtain rfl := same.1.1.1
    exact ⟨resource, copy, rfl, serialized⟩
  -- one buffer is not three
  | descriptor => cases same

theorem yields_notFound_unmade (files : Fd → Bytes) (site : Site) (r : Request)
    (path content : Bytes) :
    Yields (fun item : ScheduleItem ρ => ∀ response,
      ¬ MadeFrom files site r path content response item) (notFound site r) := by
  apply yields_nothrow
  refine .ofExcept fun text serialized => .pure fun response made => ?_
  obtain ⟨resource, -, -, same⟩ := made.ofData
  exact notFound_ne_ofResource serialized same

end Sending

/-! ## Requests for files -/

section Requests

variable {files : Fd → Bytes} {content : Bytes} {w : World Call.Answer} {site : Site}
  {r : Request}

/-- What is at the path is found to be a regular file, which is then taken. -/
theorem takeEntry_run (file : Unchanging files (fullPath site r) content w)
    (s : Record Call Caches) :
    ∃ asked, (takeEntry site r : Serving (Option (ScheduleItem ρ))) w s =
      ((takeRegularFile site r (fullPath site r) : Serving (ScheduleItem ρ)) >>=
        fun item => return some item) w ⟨asked, s.store⟩ := by
  have status : Finds w (fsStatus (fullPath site r) : Serving (Option FileType)) (some .regular) :=
    Finds.bind (.ask file.status) (.pure _)
  have directory : Finds w (fsIsDirectory (fullPath site r) : Serving Bool) false :=
    status.bind (.pure _)
  have regular : Finds w (fsIsRegularFile (fullPath site r) : Serving Bool) true :=
    status.bind (.pure _)
  obtain ⟨asked, run⟩ := directory s
  obtain ⟨asked', run'⟩ := regular ⟨asked, s.store⟩
  refine ⟨asked', ?_⟩
  rw [takeEntry, bind_run_ok run, if_neg Bool.false_ne_true, bind_run_ok run', if_pos rfl]

theorem processRequest_disk (routes : List (Route ρ))
    (unhandled : (if isPassable r then getUserHandler r routes else .ok none) = .ok none)
    (file : Unchanging files (fullPath site r) content w) (s : Record Call Caches) :
    ∃ asked, processRequest site routes r w s =
      nothrow (takeDiskResource site r : Serving (ScheduleItem ρ)) w ⟨asked, s.store⟩ := by
  have there : Finds w (isDiskResource site r : Serving Bool) true :=
    Finds.through file.exists rfl
  obtain ⟨asked, run⟩ := there s
  exact ⟨asked, processRequest_of_there unhandled run⟩

theorem processRequest_run {routes : List (Route ρ)}
    (unrouted : getUserHandler r routes = .ok none)
    (file : Unchanging files (fullPath site r) content w) (s : Record Call Caches) :
    ∃ asked, (processRequest site routes r w s).1 =
      noexcept ((takeDiskResource site r : Serving (ScheduleItem ρ)) w ⟨asked, s.store⟩).1 := by
  obtain ⟨asked, run⟩ := processRequest_disk routes (by rw [unrouted, ite_self]) file s
  exact ⟨asked, congrArg Prod.fst run⟩

/-- What is taken for a regular file is what the request is answered with. -/
theorem processRequest_regular {routes : List (Route ρ)}
    (unrouted : getUserHandler r routes = .ok none)
    (file : Unchanging files (fullPath site r) content w) (s : Record Call Caches) :
    ∃ asked, ∀ (item : ScheduleItem ρ) (s' : Record Call Caches),
      takeRegularFile site r (fullPath site r) w ⟨asked, s.store⟩ = (.ok item, s') →
        (processRequest site routes r w s).1 = .ok item := by
  obtain ⟨asked, request⟩ := processRequest_run unrouted file s
  obtain ⟨asked', entry⟩ := takeEntry_run (ρ := ρ) file ⟨asked, s.store⟩
  refine ⟨asked', fun item s' taken => ?_⟩
  rw [bind_run_ok taken] at entry
  have caught : (catchAll (takeEntry site r) (return none) :
      Serving (Option (ScheduleItem ρ))) w ⟨asked, s.store⟩ = (.ok (some item), s') := by
    rw [catchAll, Asking.handle, entry]
    rfl
  rw [request, takeDiskResource, nothrow, Asking.through, bind_run_ok caught]
  rfl

/-- A file that is sent from memory is served iff its coding is undone. -/
theorem fileServed_copied_iff (z : Zlib) (serialize : ρ → Bytes) {routes : List (Route ρ)}
    {s : Record Call Caches} (unrouted : getUserHandler r routes = .ok none)
    (file : Readable files (fullPath site r) content w)
    (warm : Warm files (fullPath site r) content s.store) (nonempty : content ≠ [])
    (copied : Copied site (fullPath site r) content) :
    FileServed z files serialize (compressing site z) r content
        (processRequest (compressing site z) routes r w s).1 ↔
      Restored z content (Response.coding site.config r) := by
  have unchanging : Unchanging files (fullPath (compressing site z) r) content w :=
    file.toUnchanging
  have copied : Copied (compressing site z) (fullPath site r) content := copied
  obtain ⟨asked, served⟩ := processRequest_regular unrouted unchanging s
  obtain ⟨resource, text, keep, s', taken, copy, serialized⟩ := takeRegularFile_copied
    (ρ := ρ) (r := r) (s := ⟨asked, s.store⟩) file warm copied nonempty
  have answered := served _ _ taken
  have bytes : (ScheduleItem.ofData text keep : ScheduleItem ρ).buffers.flatMap
      (Buffer.content files serialize) = text := by
    simp [ScheduleItem.ofData, Buffer.content, MemoryBuffer.new]
  constructor
  · rintro ⟨item, response, same, made, sends⟩
    obtain rfl := Except.ok.inj (answered.symm.trans same)
    rw [bytes] at sends
    obtain ⟨resource', copy', rfl, serialized'⟩ := made.ofData
    exact (sends_memory copy' serialized').mp sends
  · intro restored
    refine ⟨_, _, answered, .memory copy serialized keep, ?_⟩
    rw [bytes]
    exact (sends_memory copy serialized).mpr restored

/-- A file that is sent from its descriptor is served. -/
theorem fileServed_opened (z : Zlib) (serialize : ρ → Bytes) {routes : List (Route ρ)}
    {s : Record Call Caches} (unrouted : getUserHandler r routes = .ok none)
    (file : Readable files (fullPath site r) content w)
    (warm : Warm files (fullPath site r) content s.store)
    (opened : ¬ Copied site (fullPath site r) content) :
    FileServed z files serialize site r content (processRequest site routes r w s).1 := by
  obtain ⟨asked, served⟩ := processRequest_regular unrouted file.toUnchanging s
  obtain ⟨unixFile, header, keep, s', taken, named, measured, fresh, behind, made⟩ :=
    takeRegularFile_opened (ρ := ρ) (r := r) (s := ⟨asked, s.store⟩) file warm opened
  exact ⟨_, _, served _ _ taken, .descriptor named behind made keep,
    sends_descriptor z serialize site.platform site.config r made measured fresh behind keep⟩

/-- For an empty file the reply is that there is nothing. -/
theorem not_fileServed_nil (z : Zlib) (serialize : ρ → Bytes) {routes : List (Route ρ)}
    {s : Record Call Caches} (unrouted : getUserHandler r routes = .ok none)
    (file : Readable files (fullPath site r) [] w)
    (warm : Warm files (fullPath site r) [] s.store) :
    ¬ FileServed z files serialize site r [] (processRequest site routes r w s).1 := by
  rintro ⟨item, response, served, made, -⟩
  obtain ⟨asked, request⟩ := processRequest_run unrouted file.toUnchanging s
  obtain ⟨asked', entry⟩ := takeEntry_run (ρ := ρ) file.toUnchanging ⟨asked, s.store⟩
  obtain ⟨s', taken⟩ := takeRegularFile_empty (ρ := ρ)
    (s := ⟨asked', s.store⟩) file warm
  rw [bind_run_error taken] at entry
  -- the exception leads out of the `try`
  have caught : (catchAll (takeEntry site r) (return none) :
      Serving (Option (ScheduleItem ρ))) w ⟨asked, s.store⟩ = (.ok none, s') := by
    rw [catchAll, Asking.handle, entry]
    rfl
  rw [request, takeDiskResource, nothrow, Asking.through, bind_run_ok caught] at served
  have returned := noexcept_eq_ok.mp (noexcept_eq_ok.mp served)
  exact yields_notFound_unmade files site r _ [] w s' item returned response made

/-- A request that no route takes and that names a regular file, which can be read and does not
change, is answered with the file iff it is not empty and, when it is sent from memory, what
`compression.h` makes of it in the coding for the request is inflated to it again. -/
theorem regular_file_served_iff (z : Zlib) (files : Fd → Bytes) (serialize : ρ → Bytes)
    (site : Site) (routes : List (Route ρ)) (w : World Call.Answer) (r : Request) (content : Bytes)
    (unrouted : getUserHandler r routes = .ok none)
    (file : Readable files (fullPath site r) content w) (s : Record Call Caches)
    (reached : Reached (compressing site z) routes w s) :
    FileServed z files serialize (compressing site z) r content
        (processRequest (compressing site z) routes r w s).1 ↔
      content ≠ [] ∧ (Copied site (fullPath site r) content →
        Restored z content (Response.coding site.config r)) := by
  have warm := reached.warm file.toUnchanging
  by_cases nonempty : content = []
  · subst nonempty
    exact iff_of_false (not_fileServed_nil z serialize unrouted file warm) fun h => h.1 rfl
  by_cases copied : Copied site (fullPath site r) content
  · rw [fileServed_copied_iff z serialize unrouted file warm nonempty copied]
    exact ⟨fun restored => ⟨nonempty, fun _ => restored⟩, fun h => h.2 copied⟩
  · exact iff_of_true (fileServed_opened z serialize unrouted file warm copied)
      ⟨nonempty, fun h => absurd h copied⟩

/-- For a file that is sent as `gzip` this is a matter of its length and that of its stream. -/
theorem restored_gzip_iff {z : Zlib} (documents : z.Documents content)
    (short : content.length < 2 ^ 32) :
    Restored z content .gzip ↔
      (z.raw (-1) content).length + 18 ≤ compressBound content.length % 2 ^ 32 :=
  (Compression.lossless_iff z content documents short).2

theorem readable_oneFile {fd : Fd} (bound : content.length < 2 ^ 63) (behind : files fd = content)
    (path : Bytes) : Readable files path content (oneFile fd content bound) where
  toUnchanging := unchanging_oneFile bound behind path
  fileSize _ := rfl

/-- A file that is compressed to so little that there is room for its stream, before which nothing
was asked for. -/
theorem regular_file_served_repeated :
    let content := List.replicate 20 (ascii 'a')
    let z := Compression.ofStreams content [0x4b, 0x4c, 0xc4, 0x04, 0x00] [0x4f, 0xa6, 0x07, 0x95]
      [0xce, 0x8b, 0x6f, 0x26] [0x14, 0, 0, 0]
    let site : Site := { greeting.1 with config := ⟨bytes "/srv", 300, true⟩ }
    let r : Request :=
      ⟨.get, ⟨1, 1⟩, Finmap.singleton acceptEncodingField (bytes "gzip"), bytes "/a.txt", []⟩
    let w := oneFile 7 content (by decide)
    FileServed z (fun _ => content) (fun () => []) (compressing site z) r content
      (processRequest (compressing site z) [] r w ⟨[], .empty⟩).1 := by
  intro content z site r w
  have coding : Response.coding site.config r = .gzip := by decide +kernel
  have restored : Restored z content .gzip := by
    unfold Restored
    decide +kernel
  exact (regular_file_served_iff z (fun _ => content) (fun () => []) site [] _ r content rfl
    (readable_oneFile (by decide) rfl _) _ .start).mpr
    ⟨by decide, fun _ => coding ▸ restored⟩

/-- A request for an empty file. -/
theorem empty_file_not_found :
    ¬ ∀ (z : Zlib) (files : Fd → Bytes) (w : World Call.Answer) (r : Request) (content : Bytes),
      z.Documents content → r.method = .get →
      getUserHandler r ([] : List (Route Unit)) = .ok none →
      Readable files (fullPath greeting.1 r) content w →
      FileServed z files (fun () => []) (compressing greeting.1 z) r content
        (processRequest (compressing greeting.1 z) [] r w ⟨[], .empty⟩).1 := by
  intro all
  let r : Request := ⟨.get, ⟨1, 1⟩, ∅, bytes "/a.txt", []⟩
  let z := Compression.ofStreams [] [3, 0] [0, 0, 0, 1] [0, 0, 0, 0] [0, 0, 0, 0]
  have documents : z.Documents [] := Compression.documents_ofStreams rfl rfl (by decide)
  have file (path : Bytes) : Readable (fun _ => []) path [] (oneFile 7 [] (by decide)) :=
    readable_oneFile (by decide) rfl path
  have served := all z _ _ r [] documents rfl rfl (file (fullPath greeting.1 r))
  exact not_fileServed_nil z (fun () => []) rfl (file (fullPath (compressing greeting.1 z) r))
    warm_empty served

end Requests

end Viking.Server
