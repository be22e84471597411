/-
# Redirections to directories

A directory that is requested without a slash at the end is answered by a redirection whose
`Location` is the decoded URL with the slash. The URL is not encoded again, so a client that
requests the `Location` as it stands is understood as long as the URL has no byte that means
something in a header or in a target. `redirects_rightly_iff` says which URLs these are.
-/

import Viking.Http.Headers
import Viking.Http.Targets

namespace Viking.Http

variable (site : Site)

/-! ## What a redirection should do -/

/-- The redirection to the URL with a slash. -/
def redirection (req : Request) : Response :=
  ((Response.ofCode site.platform site.config req .found).set locationField
    (req.url ++ bytes "/")).set cacheControlField (bytes "no-cache")

/-- The header block is read back as just the fields of the response. -/
def ReadsBack (traversal : Traversal) (r : Response) : Prop :=
  ∃ text reason fields, Serializer.makeHeader traversal r = .ok text ∧
    readHeader text = some (r.version, r.code, reason, fields) ∧
      ∀ name value, (name, value) ∈ fields ↔ r.fields.lookup name = some value

/-- A request for the target, whatever its method and its fields, makes the server see the
URL. -/
def Sees (target url : Bytes) : Prop :=
  ∀ (heap : Indeterminate) (hm : HttpMethod) (fields : List (Bytes × Bytes)),
    (methodOf hm).isSome = true → Sendable fields [] →
      (requestHead hm target fields).length ≤ httpMaxHeaderSize →
        ∃ c, (Context.new heap).receive (requestHead hm target fields) = .ok c ∧
          c.request.url = url

/-- `list_directory` answers with a 302 whose `Location` is on one line, adds no other line to
the header, and leads back to the URL with a slash. -/
def RedirectsRightly (req : Request) : Prop :=
  ∃ r location, (∀ w s, listDirectory site req w s = (.ok r, s)) ∧ r.code = .found ∧
    r.fields.lookup locationField = some location ∧ (∀ c ∈ location, c ≠ cr ∧ c ≠ lf) ∧
      ReadsBack site.platform.traversal r ∧ urlDecode location = .ok (req.url ++ bytes "/") ∧
        Sees location (req.url ++ bytes "/")

/-! ## The fields of the redirection -/

section Fields

variable {site} {req : Request} {name value : Bytes}

/-- The names of the fields that a response to a redirection can have. -/
def redirectionNames : List Bytes :=
  [cacheControlField, locationField, contentLengthField, connectionField, transferEncodingField,
    contentTypeField, accessControlAllowOriginField, dateField, contentEncodingField]

theorem redirection_get (name : Bytes) : (redirection site req).get name true =
    if name = cacheControlField then some (bytes "no-cache")
    else if name = locationField then some (req.url ++ bytes "/")
    else (Response.ofCode site.platform site.config req .found).get name true := by
  rw [redirection, Response.get_set, Response.get_set]

theorem redirection_code : (redirection site req).code = .found := by
  let r : Response := ⟨∅, ⟨0, 0⟩, req, .found, .text, .empty, [], .none, none⟩
  obtain ⟨fields, same⟩ := Response.init_frame site.platform site.config r
  show (Response.init site.platform site.config r).code = .found
  rw [same]
  rcases r.prepared_cases site.platform site.config with ⟨available, fresh⟩ | ⟨kept, -⟩
  · rw [Response.prepared_fresh available fresh]
    show (r.announce _).code = .found
    cases Response.coding site.config r.req <;> rfl
  · rw [kept]

/-- A response to a code has no field that ends its line. -/
theorem ofCode_get_cases (dated : ∀ c ∈ site.platform.now, c ≠ cr ∧ c ≠ lf)
    (there : (Response.ofCode site.platform site.config req .found).get name true = some value) :
    name ∈ redirectionNames ∧ ∀ c ∈ value, c ≠ cr ∧ c ≠ lf := by
  let r : Response := ⟨∅, ⟨0, 0⟩, req, .found, .text, .empty, [], .none, none⟩
  have none (name : Bytes) (other : name ≠ contentEncodingField) :
      (r.prepared site.platform site.config).get name true = none := Response.prepared_get other
  rw [Response.ofCode, Response.make, Response.init_get] at there
  change (if name = contentLengthField then
    ((r.prepared site.platform site.config).body.toOption.map fun body => toText body.length).or
      ((r.prepared site.platform site.config).get name true) else _) = _ at there
  have constant {text : Bytes} (plain : ∀ c ∈ text, c ≠ cr ∧ c ≠ lf)
      (same : some text = some value) : ∀ c ∈ value, c ≠ cr ∧ c ≠ lf :=
    Option.some.inj same ▸ plain
  split_ifs at there with length control connection transfer type origin date
  · subst length
    rw [none _ (by decide), Option.or_none, Option.map_eq_some_iff] at there
    obtain ⟨body, -, rfl⟩ := there
    refine ⟨by decide, fun c mem => ⟨?_, ?_⟩⟩
    · rintro rfl
      exact notMem_toText (by decide) _ mem
    · rintro rfl
      exact notMem_toText (by decide) _ mem
  · subst control
    rw [none _ (by decide)] at there
    cases there
  · subst connection
    rw [none _ (by decide)] at there
    exact ⟨by decide, constant (by decide +kernel) there⟩
  · subst transfer
    exact ⟨by decide, constant (by decide +kernel) there⟩
  · subst type
    exact ⟨by decide, constant (by decide +kernel) there⟩
  · subst origin
    exact ⟨by decide, constant (by decide +kernel) there⟩
  · subst date
    exact ⟨by decide, constant dated there⟩
  · by_cases encoding : name = contentEncodingField
    · subst encoding
      refine ⟨by decide, ?_⟩
      rcases r.prepared_cases site.platform site.config with ⟨available, fresh⟩ | ⟨same, -⟩
      · rw [Response.prepared_fresh available fresh] at there
        change (r.announce _).get contentEncodingField true = _ at there
        rw [Response.get_announce, if_pos rfl] at there
        cases coding : Response.coding site.config r.req with
        | deflate =>
          rw [coding] at there
          have plain : ∀ c ∈ bytes "deflate", c ≠ cr ∧ c ≠ lf := by decide +kernel
          exact constant plain there
        | gzip =>
          rw [coding] at there
          have plain : ∀ c ∈ bytes "gzip", c ≠ cr ∧ c ≠ lf := by decide +kernel
          exact constant plain there
        | none =>
          rw [coding] at there
          cases there
      · rw [same] at there
        cases there
    · rw [none name encoding] at there
      cases there

/-- No name or value of the redirection holds a separator, if the URL does not. -/
theorem separable_redirection (dated : ∀ c ∈ site.platform.now, c ≠ cr ∧ c ≠ lf)
    (plain : ∀ c ∈ req.url, c ≠ cr ∧ c ≠ lf) : Separable (redirection site req) := by
  have all : ∀ name value, (redirection site req).fields.lookup name = some value →
      name ∈ redirectionNames ∧ ∀ c ∈ value, c ≠ cr ∧ c ≠ lf := by
    intro name value there
    have got : (redirection site req).get name true = some value := there
    rw [redirection_get] at got
    split_ifs at got with control location
    · obtain rfl := Option.some.inj got
      exact ⟨by rw [control]; decide, by decide +kernel⟩
    · obtain rfl := Option.some.inj got
      refine ⟨by rw [location]; decide, ?_⟩
      rw [List.forall_mem_append]
      exact ⟨plain, by decide +kernel⟩
    · exact ofCode_get_cases dated got
  refine ⟨by rw [redirection_code]; decide, fun name mem => ?_, fun name value there => ?_⟩
  · have known : ∀ name ∈ redirectionNames,
        name ≠ [] ∧ ascii ':' ∉ name ∧ ascii '\r' ∉ name ∧ ascii '\n' ∉ name := by
      decide +kernel
    obtain ⟨value, there⟩ := Finmap.mem_iff.mp mem
    exact known name (all name value there).1
  · have line := (all name value there).2
    exact ⟨fun mem => (line _ mem).1 rfl, fun mem => (line _ mem).2 rfl⟩

theorem readsBack_of_separable (traversal : Traversal) {r : Response} (separable : Separable r) :
    ReadsBack traversal r := by
  obtain ⟨reason, known, plain⟩ := exists_reason separable.code
  exact ⟨_, reason, traversal.entries r.fields, makeHeader_eq_lines known,
    readHeader_lines traversal separable plain, traversal.mem_iff r.fields⟩

end Fields

/-! ## Which URLs are redirected rightly -/

section Redirects

variable {site} {req : Request} {target : Bytes}

/-- Without a slash at the end the answer is the redirection, and nothing is asked. -/
theorem listDirectory_unslashed (nonempty : req.url ≠ [])
    (unslashed : req.url.getLast? ≠ some (ascii '/')) (w : World Io.Call.Answer)
    (s : Record Io.Call Cache.Caches) :
    listDirectory site req w s = (.ok (redirection site req), s) := by
  cases last : req.url.getLast? with
  | none => exact absurd (List.getLast?_eq_none_iff.mp last) nonempty
  | some back =>
    have slash : back ≠ ascii '/' := fun same => unslashed (last.trans (congrArg some same))
    simp only [listDirectory, listEntries, last, slash, ne_eq, not_false_eq_true, if_true]
    rfl

/-- A target that is accepted and has no escape is seen as it is. -/
theorem sees_of_accepted (accepted : AcceptedTarget target) (plain : ascii '%' ∉ target) :
    Sees target target := by
  intro heap hm fields known sendable room
  obtain ⟨m, method⟩ := Option.isSome_iff_exists.mp known
  have other : hm ≠ .connect := by
    rintro rfl
    cases known
  obtain ⟨c, received, -, -, url, -⟩ := receive_target heap method other
    (urlDecode_of_plain plain) accepted sendable (by decide) room
  rw [List.append_nil] at received
  exact ⟨c, received, url⟩

/-- A target that is not accepted is not seen, if a request for it can be made. -/
theorem accepted_of_sees (sees : Sees target target) (nonempty : target ≠ [])
    (line : ∀ c ∈ target, c ≠ cr ∧ c ≠ lf) (plain : ascii '%' ∉ target)
    (room : (requestHead .get target []).length ≤ httpMaxHeaderSize) : AcceptedTarget target := by
  have empty : Sendable [] [] := by constructor <;> simp
  obtain ⟨c, received, url⟩ := sees ⟨.get, ⟨1, 1⟩, ⟨false, false⟩⟩ .get [] rfl empty room
  rw [(Context.receive_receives received).request] at url
  have reported : (lastOf Callback.url (report (requestHead .get target []))).getD [] = target :=
    url
  obtain ⟨seen, last⟩ : ∃ seen, lastOf Callback.url (report (requestHead .get target [])) =
      some seen := by
    cases last : lastOf Callback.url (report (requestHead .get target [])) with
    | none =>
      rw [last] at reported
      exact absurd reported.symm nonempty
    | some seen => exact ⟨seen, rfl⟩
  rw [last] at reported
  obtain rfl : seen = target := reported
  obtain ⟨call, mem, wrote⟩ := List.mem_filterMap.mp (List.mem_of_getLast? last)
  cases call with
  | onUrl text =>
    obtain ⟨accepted, escapes⟩ :=
      acceptedUrls_report (by decide) (by decide) line plain room text mem
    have same : text = seen := by
      simpa [Callback.url, urlDecode_of_plain escapes, Except.toOption] using wrote
    exact same ▸ accepted
  | _ => cases wrote

/-- The shortest request for a target is without fields, and has the shortest method. -/
theorem length_requestHead_le {hm : HttpMethod} (target : Bytes)
    (known : (methodOf hm).isSome = true) (fields : List (Bytes × Bytes)) :
    (requestHead .get target []).length ≤ (requestHead hm target fields).length := by
  have method : (httpMethodStr .get).length ≤ (httpMethodStr hm).length := by
    revert known
    cases hm <;> decide
  simp only [requestHead, List.length_append, List.flatMap_nil, List.length_nil]
  omega

/-- What a URL must be like that is redirected rightly. -/
theorem of_redirectsRightly (rightly : RedirectsRightly site req)
    (unslashed : req.url.getLast? ≠ some (ascii '/')) :
    req.url ≠ [] ∧ (∀ c ∈ req.url, c ≠ cr ∧ c ≠ lf ∧ c ≠ ascii '%') ∧
      (AcceptedTarget (req.url ++ bytes "/") ∨
        httpMaxHeaderSize < (requestHead .get (req.url ++ bytes "/") []).length) := by
  obtain ⟨r, location, answers, -, there, line, -, decoded, sees⟩ := rightly
  let w : World Io.Call.Answer := Io.unreadable .notFound
  let s : Record Io.Call Cache.Caches := ⟨[], .empty⟩
  have nonempty : req.url ≠ [] := by
    intro empty
    have failed := answers w s
    simp [listDirectory, listEntries, empty, catchAll, Asking.handle, Asking.fail] at failed
  -- The `Location` is the URL with a slash, so all that is said of it is said of that.
  have same : r = redirection site req := by
    have answered := (answers w s).symm.trans (listDirectory_unslashed nonempty unslashed w s)
    exact Except.ok.inj (congrArg Prod.fst answered)
  have value : (redirection site req).get locationField true = some location := same ▸ there
  rw [redirection_get, if_neg (by decide), if_pos rfl] at value
  obtain rfl := Option.some.inj value
  have escapes := plain_of_urlDecode_self decoded
  refine ⟨nonempty, fun c mem => ?_, ?_⟩
  · obtain ⟨cr, lf⟩ := line c (List.mem_append_left _ mem)
    refine ⟨cr, lf, ?_⟩
    rintro rfl
    exact escapes (List.mem_append_left _ mem)
  · by_cases room : (requestHead .get (req.url ++ bytes "/") []).length ≤ httpMaxHeaderSize
    · exact .inl (accepted_of_sees sees (by simp [nonempty]) line escapes room)
    · exact .inr (not_le.mp room)

/-- The redirection leads back to the URL with a slash iff the URL has no byte that ends a
line and no escape, and with the slash is a target that the parser accepts, unless it is too
long for any request. -/
theorem redirects_rightly_iff (dated : ∀ c ∈ site.platform.now, c ≠ cr ∧ c ≠ lf)
    (unslashed : req.url.getLast? ≠ some (ascii '/')) :
    RedirectsRightly site req ↔
      req.url ≠ [] ∧ (∀ c ∈ req.url, c ≠ cr ∧ c ≠ lf ∧ c ≠ ascii '%') ∧
        (AcceptedTarget (req.url ++ bytes "/") ∨
          httpMaxHeaderSize < (requestHead .get (req.url ++ bytes "/") []).length) := by
  constructor
  · exact fun rightly => of_redirectsRightly rightly unslashed
  · rintro ⟨nonempty, plain, fits⟩
    have line : ∀ c ∈ req.url, c ≠ cr ∧ c ≠ lf := fun c mem => ⟨(plain c mem).1, (plain c mem).2.1⟩
    have escapes : ascii '%' ∉ req.url ++ bytes "/" := by
      rw [List.mem_append, not_or]
      exact ⟨fun mem => (plain _ mem).2.2 rfl, by decide⟩
    have value : (redirection site req).get locationField true = some (req.url ++ bytes "/") := by
      rw [redirection_get, if_neg (by decide), if_pos rfl]
    refine ⟨redirection site req, req.url ++ bytes "/",
      listDirectory_unslashed nonempty unslashed, redirection_code, value, ?_,
      readsBack_of_separable _ (separable_redirection dated line), urlDecode_of_plain escapes, ?_⟩
    · rw [List.forall_mem_append]
      exact ⟨line, by decide +kernel⟩
    · rcases fits with accepted | long
      · exact sees_of_accepted accepted escapes
      · intro heap hm fields known _ room
        have shortest := length_requestHead_le (req.url ++ bytes "/") known fields
        omega

/-- A server that prints dates as they are printed on a Monday. -/
def mondaySite : Site :=
  ⟨⟨bytes "Mon, 01 Jan 2018 00:00:00 UTC", id, id, fun _ => none, fun _ => [], .byName⟩,
    ⟨bytes "/srv", 0, false⟩, ⟨12⟩⟩

theorem redirects_rightly_docs :
    RedirectsRightly mondaySite ⟨.get, ⟨1, 1⟩, ∅, bytes "/docs/v1", []⟩ :=
  (redirects_rightly_iff (by decide +kernel) (by decide +kernel)).mpr
    ⟨by decide, by decide +kernel, .inl (by decide +kernel)⟩

/-- The directory `100%` is redirected to `/100%/`, which cannot be decoded. -/
theorem redirects_wrongly :
    ¬ RedirectsRightly mondaySite ⟨.get, ⟨1, 1⟩, ∅, bytes "/100%", []⟩ := by
  intro rightly
  obtain ⟨-, plain, -⟩ := of_redirectsRightly rightly (by decide +kernel)
  exact (plain (ascii '%') (by decide +kernel)).2.2 rfl

end Redirects

end Viking.Http
