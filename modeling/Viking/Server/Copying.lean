/-
# Files from memory and files from their descriptor

`take_regular_file` sends a file either from a copy in memory, as one text with its header, or
from its descriptor, between a header and an ending of their own. For a file that stays as it
is both send the same, unless a copy in memory is sent compressed.
-/

import Viking.Http.Caching
import Viking.Server.Output
import Viking.Server.Persistence

namespace Viking.Server

open Http Io Cache Asking

variable {ρ κ ι : Type}

/-! ## The header -/

/-- The fields of a header, without what the clock says. -/
def undated (fields : List (Bytes × Bytes)) : List (Bytes × Bytes) :=
  fields.map fun field => if field.1 = dateField then (field.1, []) else field

/-- The line and the fields that a file is sent behind. -/
def head (fields : List (Bytes × Bytes)) : Bytes :=
  bytes "HTTP/1.1 200 OK\r\n" ++ fields.flatMap Serializer.fieldLine ++ Serializer.crlf

/-- What a file is sent as. -/
def reply (fields : List (Bytes × Bytes)) (content : Bytes) : Bytes :=
  head fields ++ content ++ Serializer.makeEnding

section Header

variable {fields fields' : Fields}

theorem mem_undated {traversal : Traversal} {name value : Bytes} :
    (name, value) ∈ undated (traversal.entries fields) ↔
      if name = dateField then value = [] ∧ ∃ date, fields.lookup dateField = some date
      else fields.lookup name = some value := by
  simp only [undated, List.mem_map, Prod.exists, traversal.mem_iff]
  constructor
  · rintro ⟨name', value', there, same⟩
    by_cases date : name' = dateField
    · rw [if_pos date] at same
      obtain ⟨rfl, rfl⟩ := Prod.mk.inj same
      rw [if_pos date]
      exact ⟨rfl, value', date ▸ there⟩
    · rw [if_neg date] at same
      obtain ⟨rfl, rfl⟩ := Prod.mk.inj same
      rwa [if_neg date]
  · intro there
    split_ifs at there with date
    · obtain ⟨rfl, now, there⟩ := there
      exact ⟨name, now, date ▸ there, if_pos date⟩
    · exact ⟨name, value, there, if_neg date⟩

theorem nodup_undated (traversal : Traversal) (fields : Fields) :
    (undated (traversal.entries fields)).Nodup := by
  apply List.Nodup.of_map Prod.fst
  have names : (undated (traversal.entries fields)).map Prod.fst =
      (traversal.entries fields).map Prod.fst := by
    rw [undated, List.map_map]
    apply List.map_congr_left
    intro field _
    simp only [Function.comp_apply]
    split_ifs <;> rfl
  exact names ▸ traversal.nodup fields

/-- Two maps that differ in the date at most are traversed alike, up to the order. -/
theorem undated_perm (traversal traversal' : Traversal)
    (same : ∀ name, name ≠ dateField → fields.lookup name = fields'.lookup name)
    (dated : ∃ date, fields.lookup dateField = some date)
    (dated' : ∃ date, fields'.lookup dateField = some date) :
    (undated (traversal.entries fields)).Perm (undated (traversal'.entries fields')) := by
  rw [List.perm_ext_iff_of_nodup (nodup_undated _ _) (nodup_undated _ _)]
  rintro ⟨name, value⟩
  rw [mem_undated, mem_undated]
  split_ifs with date
  · exact and_congr_right fun _ => iff_of_true dated dated'
  · rw [same name date]

/-- The header of a response with the code `OK`. -/
theorem makeHeader_ok (traversal : Traversal) (response : Response)
    (version : response.version = ⟨1, 1⟩)
    (code : response.code = .ok) :
    Serializer.makeHeader traversal response = .ok (head (traversal.entries response.fields)) := by
  have reason : statusCodes.lookup response.code = some (bytes "OK") := by
    rw [code]
    rfl
  have line : bytes "HTTP/" ++ toText response.version.major ++ bytes "." ++
      toText response.version.minor ++ bytes " " ++ toText response.code ++ bytes " " ++
      bytes "OK" ++ Serializer.crlf = bytes "HTTP/1.1 200 OK\r\n" := by
    rw [version, code]
    decide +kernel
  simp only [Serializer.makeHeader, reason, line]
  rfl

end Header

/-! ## The two responses -/

section Responses

variable {site : Site} {r : Request} {resource : Resource} {file : UnixFile}

/-- The request has no coding accepted that the server would use. -/
def Uncoded (config : Configuration) (r : Request) : Prop :=
  config.enableCompression = true → ∀ value, r.header.lookup acceptEncodingField = some value →
    ¬ Response.contains value (bytes "deflate") ∧ ¬ Response.contains value (bytes "gzip")

theorem canCompress_iff {type : Bytes} (nonempty : type ≠ []) :
    canCompress r type = true ↔
      ∃ value, r.header.lookup acceptEncodingField = some value ∧
        Response.contains value type = true := by
  simp only [canCompress, getContentEncText]
  cases r.header.lookup acceptEncodingField with
  | none =>
    -- the empty text holds no name of a coding
    cases type with
    | nil => exact absurd rfl nonempty
    | cons c type => simp
  | some value => simp [Response.contains]

theorem coding_of_uncoded {config : Configuration} (uncoded : Uncoded config r) :
    Response.coding config r = .none := by
  have refused {type : Bytes} (nonempty : type ≠ []) (enabled : config.enableCompression = true)
      (absent : ∀ value, r.header.lookup acceptEncodingField = some value →
        ¬ Response.contains value type) : ¬ canCompress r type = true := by
    rw [canCompress_iff nonempty]
    rintro ⟨value, accepted, there⟩
    exact absent value accepted there
  simp only [Response.coding]
  split_ifs with enabled deflate gzip
  · exact absurd deflate (refused (by decide) enabled fun v h => (uncoded enabled v h).1)
  · exact absurd gzip (refused (by decide) enabled fun v h => (uncoded enabled v h).2)
  · rfl
  · rfl

section Fields

variable {platform : Platform} {config : Configuration} {response : Response}

/-- The fields of a new response that is not compressed. -/
theorem get_init_fresh (same : response.prepared platform config = response)
    (fresh : response.fields = ∅) (name : Bytes) :
    (response.init platform config).get name true =
      if name = contentLengthField then
        response.body.toOption.map fun body => toText body.length
      else if name = connectionField then some (bytes "Close")
      else if name = transferEncodingField then some (bytes "binary")
      else if name = contentTypeField then some (bytes "text/plain; charset=utf-8")
      else if name = accessControlAllowOriginField then some (bytes "*")
      else if name = dateField then some platform.now
      else none := by
  have none (name : Bytes) : response.get name true = none := by
    simp only [Response.get, if_true, fresh, Finmap.lookup_empty]
  rw [Response.init_get]
  simp only [same, none, Option.or_none, Option.map_none, Option.getD_none]
  by_cases control : name = cacheControlField
  · subst control
    simp +decide
  · simp only [if_neg control]

theorem prepared_resource (uncoded : Uncoded config r) (resource : Resource) :
    (⟨∅, ⟨0, 0⟩, r, .ok, .resource, resource, [], .none, none⟩ : Response).prepared platform
      config = ⟨∅, ⟨0, 0⟩, r, .ok, .resource, resource, [], .none, none⟩ := by
  rw [Response.prepared_fresh rfl rfl, coding_of_uncoded uncoded]
  rfl

theorem prepared_file (file : UnixFile) :
    (⟨∅, ⟨0, 0⟩, r, .ok, .file, .empty, [], .none, some file⟩ : Response).prepared platform
      config = ⟨∅, ⟨0, 0⟩, r, .ok, .file, .empty, [], .none, some file⟩ :=
  Response.prepared_of_coded (.inl rfl)

theorem get_ofResource (uncoded : Uncoded config r) (name : Bytes) :
    (Response.ofResource platform config r resource).get name true =
      if name = contentLengthField then some (toText resource.raw.length)
      else if name = connectionField then some (bytes "Close")
      else if name = transferEncodingField then some (bytes "binary")
      else if name = contentTypeField then some (getMimetype platform resource.path)
      else if name = accessControlAllowOriginField then some (bytes "*")
      else if name = dateField then some platform.now
      else none := by
  rw [Response.ofResource, Response.get_set, Response.make,
    get_init_fresh (prepared_resource uncoded resource) rfl]
  by_cases type : name = contentTypeField
  · subst type
    simp +decide
  · simp only [if_neg type]
    rfl

theorem get_ofFile (file : UnixFile) (name : Bytes) :
    (Response.ofFile platform config r (some file)).get name true =
      if name = contentLengthField then some (toText file.size)
      else if name = connectionField then some (bytes "Close")
      else if name = transferEncodingField then some (bytes "binary")
      else if name = contentTypeField then some (getMimetype platform file.path)
      else if name = accessControlAllowOriginField then some (bytes "*")
      else if name = dateField then some platform.now
      else none := by
  simp only [Response.ofFile, Response.get_set, Response.make]
  rw [get_init_fresh (prepared_file file) rfl]
  -- the length that `init` could not find out is set last
  by_cases length : name = contentLengthField
  · simp only [if_pos length]
  · by_cases type : name = contentTypeField
    · subst type
      simp +decide
    · simp only [if_neg length, if_neg type]

/-- The two responses have the same fields, apart from the date. -/
theorem fields_agree {now : Bytes} {traversal : Traversal} (uncoded : Uncoded config r)
    (named : resource.path = file.path) (measured : resource.raw.length = file.size)
    {name : Bytes} (undated : name ≠ dateField) :
    (Response.ofResource platform config r resource).fields.lookup name =
      (Response.ofFile (platform.later now traversal) config r
        (some file)).fields.lookup name := by
  have copied : (Response.ofResource platform config r resource).get name true = _ :=
    get_ofResource uncoded name
  have opened : (Response.ofFile (platform.later now traversal) config r
    (some file)).get name true = _ := get_ofFile file name
  have mime : getMimetype platform resource.path =
      getMimetype (platform.later now traversal) file.path := by
    rw [named]
    rfl
  simp only [Response.get, if_true, undated, if_false] at copied opened
  rw [copied, opened, measured, mime]

/-- The line, the headers and the body of a file that is sent from memory. -/
theorem serialize_ofResource (uncoded : Uncoded config r) (resource : Resource) :
    Serializer.serialize platform.traversal (Response.ofResource platform config r resource) =
      .ok (reply (platform.traversal.entries
        (Response.ofResource platform config r resource).fields) resource.raw) := by
  obtain ⟨fields, made⟩ := Response.init_frame platform config
    ⟨∅, ⟨0, 0⟩, r, .ok, .resource, resource, [], .none, none⟩
  rw [prepared_resource uncoded resource] at made
  have header := makeHeader_ok platform.traversal (.ofResource platform config r resource)
    (by rw [Response.ofResource, Response.make, made]; rfl)
    (by rw [Response.ofResource, Response.make, made]; rfl)
  have body : Serializer.makeBody (Response.ofResource platform config r resource) =
      .ok resource.raw := by
    rw [Response.ofResource, Response.make, made]
    rfl
  rw [Serializer.serialize, header, body]
  rfl

theorem makeHeader_ofFile (traversal : Traversal) (file : UnixFile) :
    Serializer.makeHeader traversal (Response.ofFile platform config r (some file)) =
      .ok (head (traversal.entries
        (Response.ofFile platform config r (some file)).fields)) := by
  obtain ⟨fields, made⟩ := Response.init_frame platform config
    ⟨∅, ⟨0, 0⟩, r, .ok, .file, .empty, [], .none, some file⟩
  rw [prepared_file file] at made
  exact makeHeader_ok traversal _ (by rw [Response.ofFile, Response.make, made]; rfl)
    (by rw [Response.ofFile, Response.make, made]; rfl)

end Fields

end Responses

/-! ## The two calls -/

/-- In the surroundings `w` there is a regular file at the path, and it does not change. -/
structure Unchanging (files : Fd → Bytes) (path content : Bytes) (w : World Call.Answer) :
    Prop where
  status : ∀ asked, w asked (.status (cString path)) = FileStatus.found .regular
  time : ∃ time : Nat, ∀ asked, w asked (.lastWriteTime (cString path)) = some time
  read : ∀ asked, w asked (.read (cString path)) = some content
  opens : ∀ asked, ∃ fd : Fd, w asked (.openFile (cString path)) = some fd ∧ files fd = content
  size : ∃ bound : content.length < 2 ^ 63,
    ∀ asked, w asked (.stat (cString path)) = some ⟨content.length, bound⟩

/-- The cached copy, if there is one, is what the file holds. -/
def Current (path content : Bytes) (caches : Caches) : Prop :=
  ∀ resource, caches.findResource path = some resource → resource.raw = content

/-- The descriptor that is shared, if there is one, is one of the file. -/
def Opened (files : Fd → Bytes) (path content : Bytes) (caches : Caches) : Prop :=
  ∀ d, caches.findDescriptor path = some d → files d.handle = content

section Calls

variable {files : Fd → Bytes} {path content : Bytes} {w : World Call.Answer} {σ : Type}
  {s : Record Call Caches} {site : Site} {r : Request}

theorem Unchanging.exists (file : Unchanging files path content w) :
    Finds w (fsExists path : Asking Call.Answer σ Fault Bool) true :=
  Finds.bind (Finds.bind (.ask file.status) (.pure _)) (.pure _)

theorem Unchanging.lastWriteTime (file : Unchanging files path content w) :
    ∃ time, Finds w (fsLastWriteTime path : Asking Call.Answer σ Fault Nat) time := by
  obtain ⟨time, told⟩ := file.time
  exact ⟨time, Finds.bind (.ask told) (.pure _)⟩

theorem Unchanging.readFile (file : Unchanging files path content w) :
    Finds w (readFile path : Asking Call.Answer σ Fault Bytes) content :=
  Finds.bind (.ask file.read) (.pure _)

/-- A copy of the file, as the caches hold it. -/
def Copy (path content : Bytes) (resource : Resource) : Prop :=
  resource.path = path ∧ resource.raw = content

theorem Unchanging.load (file : Unchanging files path content w) (s : Record Call Caches) :
    ∃ resource s', ResourceCache.load path w s = (.ok resource, s') ∧
      Copy path content resource := by
  obtain ⟨time, told⟩ := file.lastWriteTime
  have found : Finds w (resource path)
      { Resource.empty with path := path, lastWrite := time, raw := content } :=
    told.bind (file.readFile.bind (.pure _))
  obtain ⟨asked, run⟩ := found s
  exact ⟨_, _, (bind_run_ok run).trans rfl, rfl, rfl⟩

/-- The cache gives out the copy it has, or reads the file. -/
theorem Unchanging.aquire (file : Unchanging files path content w) (keyed : Keyed s.store)
    (current : Current path content s.store) :
    ∃ resource s', ResourceCache.aquire path w s = (.ok resource, s') ∧
      Copy path content resource := by
  have look : (getStore : Serving Caches) w s = (.ok s.store, s) := rfl
  obtain ⟨asked, there⟩ := file.exists s
  rw [ResourceCache.aquire, bind_run_ok look, bind_run_ok there]
  cases found : s.store.findResource path with
  | none => exact file.load _
  | some resource =>
    obtain ⟨time, told⟩ := file.lastWriteTime
    obtain ⟨asked', told⟩ := told ⟨asked, s.store⟩
    simp only [Bool.not_true, Bool.false_eq_true, if_false]
    rw [bind_run_ok told]
    split_ifs
    · exact file.load _
    · exact ⟨resource, _, rfl, keyed.find found, current resource found⟩

/-- The file is sent from memory as one text. -/
theorem takeFileFromMemory_run (file : Unchanging files path content w) (keyed : Keyed s.store)
    (current : Current path content s.store) (nonempty : content ≠ [])
    (uncoded : Uncoded site.config r) :
    ∃ resource, Copy path content resource ∧
      (takeFileFromMemory site r path w s).1 =
        .ok (.ofData (reply (site.platform.traversal.entries
          (Response.ofResource site.platform site.config r resource).fields) content)
            (Response.ofResource site.platform site.config r resource).getKeepAlive :
          Reply ρ).item := by
  obtain ⟨resource, s', run, copy⟩ := file.aquire keyed current
  refine ⟨resource, copy, ?_⟩
  have some : resource.toBool = true := by simp [Resource.toBool, copy.2, nonempty]
  rw [takeFileFromMemory, bind_run_ok run, if_pos some, itemOf,
    serialize_ofResource uncoded resource, copy.2]
  rfl

/-- The descriptor that is given out is one of the file. -/
theorem Unchanging.aquire_descriptor (file : Unchanging files path content w)
    (opened : Opened files path content s.store) :
    ∃ fd s', FileDescriptor.aquire path w s = (.ok (some fd), s') ∧ files fd = content := by
  have look : (getStore : Serving Caches) w s = (.ok s.store, s) := rfl
  rw [FileDescriptor.aquire, bind_run_ok look]
  cases found : s.store.findDescriptor path with
  | some d => exact ⟨d.handle, _, rfl, opened d found⟩
  | none =>
    obtain ⟨fd, answered, same⟩ := file.opens s.asked
    have asked : (ask (Call.openFile (cString path)) : Serving (Option Fd)) w s =
        (.ok (some fd), ⟨s.asked ++ [.openFile (cString path)], s.store⟩) :=
      congrArg (fun answer => (Except.ok answer, _)) answered
    exact ⟨fd, _, (bind_run_ok asked).trans rfl, same⟩

/-- A header, the file, and the ending. -/
def fileReply (header : Bytes) (file : UnixFile) (keep : Bool) : Reply ρ where
  item := ⟨[.memory (.new header), .file file, .memory (.new Serializer.makeEnding)], keep⟩
  nonempty := List.cons_ne_nil _ _
  uniform := .inl (by simp [Buffer.isAsync])

/-- The file is sent from its descriptor, between its header and the ending. -/
theorem takeUnixFile_run (site : Site) (r : Request) (unchanging : Unchanging files path content w)
    (shared : Opened files path content s.store) :
    ∃ file : UnixFile, file.path = path ∧ file.size = content.length ∧ file.offset = 0 ∧
      files file.fd = content ∧
      (takeUnixFile site r path w s).1 =
        .ok (fileReply (head (site.platform.traversal.entries
          (Response.ofFile site.platform site.config r (some file)).fields)) file
            (Response.ofFile site.platform site.config r (some file)).getKeepAlive :
          Reply ρ).item := by
  obtain ⟨fd, s', run, same⟩ := unchanging.aquire_descriptor shared
  obtain ⟨bound, size⟩ := unchanging.size
  have asked : (ask (Call.stat (cString path)) :
      Serving (Option { size : Nat // size < 2 ^ 63 })) w s' =
        (.ok (some ⟨content.length, bound⟩), ⟨s'.asked ++ [.stat (cString path)], s'.store⟩) :=
    congrArg (fun answer => (Except.ok answer, _)) (size s'.asked)
  have opened : unixFile path w s = (.ok (.opened path fd content.length bound),
      ⟨s'.asked ++ [.stat (cString path)], s'.store⟩) := by
    rw [unixFile, bind_run_ok run]
    exact (bind_run_ok asked).trans rfl
  refine ⟨.opened path fd content.length bound, rfl, rfl, rfl, same, ?_⟩
  rw [takeUnixFile, bind_run_ok opened, makeHeader_ofFile]
  rfl

end Calls

/-! ## What is sent -/

/-- Two replies with the same content and the same fields, up to their order and the date. -/
def SameReply (platform platform' : Platform) (content sent sent' : Bytes) : Prop :=
  ∃ header header' : Fields,
    header.lookup dateField = some platform.now ∧ header'.lookup dateField = some platform'.now ∧
    (undated (platform.traversal.entries header)).Perm
      (undated (platform'.traversal.entries header')) ∧
    sent = reply (platform.traversal.entries header) content ∧
    sent' = reply (platform'.traversal.entries header') content

section Sent

variable {platform : Platform} {config : Configuration} {r : Request} {resource : Resource}
  {file : UnixFile} {content now : Bytes} {traversal : Traversal}

theorem sameReply_of_copy (uncoded : Uncoded config r) (named : resource.path = file.path)
    (measured : resource.raw.length = file.size) :
    SameReply platform (platform.later now traversal) content
      (reply (platform.traversal.entries
        (Response.ofResource platform config r resource).fields) content)
      (reply (traversal.entries
        (Response.ofFile (platform.later now traversal) config r (some file)).fields)
          content) := by
  have date : (Response.ofResource platform config r resource).fields.lookup dateField =
      some platform.now := (get_ofResource uncoded dateField).trans (by simp +decide)
  have date' : (Response.ofFile (platform.later now traversal) config r
      (some file)).fields.lookup dateField = some now :=
    (get_ofFile file dateField).trans (by simp +decide; rfl)
  refine ⟨_, _, date, date', ?_, rfl, rfl⟩
  apply undated_perm
  · intro name other
    exact fields_agree uncoded named measured other
  · exact ⟨_, date⟩
  · exact ⟨_, date'⟩

end Sent

section Transmission

variable {κ ι : Type} {env : Env ρ κ ι} {file : UnixFile} {content : Bytes}

theorem head_ne_nil (fields : List (Bytes × Bytes)) : head fields ≠ [] :=
  List.append_ne_nil_of_right_ne_nil _ (by decide)

theorem unsent_of_fresh (measured : file.size = content.length) (fresh : file.offset = 0)
    (behind : env.files file.fd = content) : file.unsent env.files = content := by
  rw [UnixFile.unsent, behind, fresh, List.drop_zero, UnixFile.sizeLeft, measured, fresh,
    Nat.sub_zero, List.take_length]

/-- A text is there as a whole. -/
theorem covered_ofData (text : Bytes) (keep : Bool) :
    ∀ b ∈ (Reply.ofData text keep : Reply ρ).item.buffers, b.Covered env.files := by
  simp [Reply.ofData, ScheduleItem.ofData, Buffer.Covered]

theorem full_ofData {text : Bytes} (nonempty : text ≠ []) (keep : Bool) :
    ∀ b ∈ (Reply.ofData text keep : Reply ρ).item.buffers, env.content b ≠ [] := by
  simpa [Reply.ofData, ScheduleItem.ofData, Env.content, Buffer.content, MemoryBuffer.new]
    using nonempty

theorem contents_ofData (text : Bytes) (keep : Bool) :
    env.contents (Reply.ofData text keep : Reply ρ).item.buffers = text :=
  List.append_nil text

/-- So is the file between its header and the ending. -/
theorem covered_fileReply (measured : file.size = content.length)
    (behind : env.files file.fd = content) (header : Bytes) (keep : Bool) :
    ∀ b ∈ (fileReply header file keep : Reply ρ).item.buffers, b.Covered env.files := by
  simp [fileReply, Buffer.Covered, UnixFile.Covered, measured, behind]

theorem full_fileReply (nonempty : content ≠ []) (unsent : file.unsent env.files = content)
    {header : Bytes} (some : header ≠ []) (keep : Bool) :
    ∀ b ∈ (fileReply header file keep : Reply ρ).item.buffers, env.content b ≠ [] := by
  have ending : Serializer.makeEnding ≠ [] := by decide
  simp [fileReply, Env.content, Buffer.content, MemoryBuffer.new, unsent, nonempty, some, ending]

theorem contents_fileReply (unsent : file.unsent env.files = content) (header : Bytes)
    (keep : Bool) : env.contents (fileReply header file keep : Reply ρ).item.buffers =
      header ++ content ++ Serializer.makeEnding := by
  simp [fileReply, Env.content, Buffer.content, MemoryBuffer.new, unsent]

end Transmission

/-- A file that does not change is sent alike from memory and from its descriptor, at whatever
time: the same line and fields up to the order and the date, the same content and ending; and
the channel stays open, or does not, alike. Both can be sent completely. -/
theorem copying_unobservable {traversal : Traversal} (files : Fd → Bytes) (page : PageSize)
    (onRead : ι → κ → κ × Except Fault (ScheduleItem (Serializable traversal)))
    (onRemove : κ → κ) (null : κ) (site : Site) (now : Bytes) (traversal' : Traversal)
    (r : Request) (path content : Bytes) (w w' : World Call.Answer) (s s' : Record Call Caches)
    (uncoded : Uncoded site.config r) (nonempty : content ≠ [])
    (file : Unchanging files path content w) (file' : Unchanging files path content w')
    (served : Served (Serializable traversal) s.store) (current : Current path content s.store)
    (opened : Opened files path content s'.store) :
    let env := env traversal files page onRead onRemove null
    let site' : Site := { site with platform := site.platform.later now traversal' }
    ∃ item item' : ScheduleItem (Serializable traversal),
      (takeFileFromMemory site r path w s).1 = .ok item ∧
      (takeUnixFile site' r path w' s').1 = .ok item' ∧
      ∀ c c' : Channel (Serializable traversal) κ,
        c.queue.buffers = [] → c'.queue.buffers = [] →
        (∃ turns t, Transmitted env c item turns t) ∧
        (∃ turns t, Transmitted env c' item' turns t) ∧
        ∀ turns t turns' t', Transmitted env c item turns t →
          Transmitted env c' item' turns' t' →
          SameReply site.platform site'.platform content
            (written env c item (turns ++ [t])).accepted
            (written env c' item' (turns' ++ [t'])).accepted ∧
          (written env c item (turns ++ [t])).alive =
            (written env c' item' (turns' ++ [t'])).alive := by
  intro env site'
  obtain ⟨resource, copy, taken⟩ := takeFileFromMemory_run (ρ := Serializable traversal)
    file served.keyed current nonempty uncoded
  obtain ⟨unixFile, named, measured, fresh, behind, taken'⟩ := takeUnixFile_run
    (ρ := Serializable traversal) site' r file' opened
  have values : ∀ v, env.onBarrier v ≠ [] := Serializable.text_ne_nil
  have unsent : unixFile.unsent env.files = content := unsent_of_fresh measured fresh behind
  have text_ne_nil (fields : List (Bytes × Bytes)) : reply fields content ≠ [] :=
    List.append_ne_nil_of_right_ne_nil _ (by decide)
  -- Neither response has a `Connection` field of its own.
  have closes : (Response.ofResource site.platform site.config r resource).getKeepAlive = false :=
    (unconnected_own (.resource resource)).getKeepAlive
  have closes' : (Response.ofFile site'.platform site.config r (some unixFile)).getKeepAlive =
      false := (unconnected_ofFile unixFile).getKeepAlive
  have same : SameReply site.platform site'.platform content _ _ :=
    sameReply_of_copy uncoded (copy.1.trans named.symm) (copy.2.symm ▸ measured.symm)
  refine ⟨_, _, taken, taken', fun c c' empty empty' => ⟨?_, ?_, ?_⟩⟩
  · exact exists_transmitted empty rfl (covered_ofData _ _) (full_ofData (text_ne_nil _) _)
  · exact exists_transmitted empty' rfl (covered_fileReply measured behind _ _)
      (full_fileReply nonempty unsent (head_ne_nil _) _)
  · intro turns t turns' t' sent sent'
    rw [sent.accepted values empty rfl (covered_ofData _ _),
      sent'.accepted values empty' rfl (covered_fileReply measured behind _ _),
      sent.keeps rfl, sent'.keeps rfl, contents_ofData, contents_fileReply unsent]
    exact ⟨same, closes.trans closes'.symm⟩

theorem unchanging_oneFile {files : Fd → Bytes} {fd : Fd} {content : Bytes}
    (bound : content.length < 2 ^ 63) (behind : files fd = content) (path : Bytes) :
    Unchanging files path content (oneFile fd content bound) where
  status _ := rfl
  time := ⟨0, fun _ => rfl⟩
  read _ := rfl
  opens _ := ⟨fd, rfl, behind⟩
  size := ⟨bound, fun _ => rfl⟩

/-- A short file, asked for twice. -/
theorem copying_unobservable_short :
    let content := bytes "hello"
    let env := env (κ := Unit) (ι := Unit) .byName (fun _ => content) ⟨12⟩
      (fun _ c => (c, .ok (.empty true))) id ()
    let r : Request := ⟨.get, ⟨1, 1⟩, ∅, bytes "/a", []⟩
    let platform' := greeting.1.platform.later (bytes "later") .byName
    let c : Channel (Serializable .byName) Unit := .new Epoll.read ()
    ∃ item item' turns t turns' t',
      (takeFileFromMemory greeting.1 r (bytes "/srv/a") (oneFile 7 content (by decide))
        ⟨[], .empty⟩).1 = .ok item ∧
      (takeUnixFile { greeting.1 with platform := platform' } r (bytes "/srv/a")
        (oneFile 7 content (by decide)) ⟨[], .empty⟩).1 = .ok item' ∧
      Transmitted env c item turns t ∧ Transmitted env c item' turns' t' ∧
      SameReply greeting.1.platform platform' content
        (written env c item (turns ++ [t])).accepted
        (written env c item' (turns' ++ [t'])).accepted := by
  intro content env r platform' c
  have file (path : Bytes) : Unchanging (fun _ => content) path content
      (oneFile 7 content (by decide)) := unchanging_oneFile _ rfl path
  have uncoded : Uncoded greeting.1.config r := fun enabled => by cases enabled
  have current : Current (bytes "/srv/a") content .empty := fun _ found => by cases found
  have opened : Opened (fun _ => content) (bytes "/srv/a") content .empty :=
    fun _ found => by cases found
  obtain ⟨item, item', taken, taken', all⟩ := copying_unobservable (ι := Unit) (fun _ => content)
    ⟨12⟩ (fun _ c => (c, .ok (.empty true))) id () greeting.1 (bytes "later") .byName r
    (bytes "/srv/a") content _ _ ⟨[], .empty⟩ ⟨[], .empty⟩ uncoded (by decide) (file _) (file _)
    .empty current opened
  obtain ⟨⟨turns, t, sent⟩, ⟨turns', t', sent'⟩, same⟩ := all c c rfl rfl
  exact ⟨item, item', turns, t, turns', t', taken, taken', sent, sent',
    (same turns t turns' t' sent sent').1⟩

end Viking.Server
