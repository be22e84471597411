/-
# What a reply takes from the header

A response holds the request that it answers, and `init` looks at its header to choose a coding.
Nothing else in a reply comes from the header: `processRequest_congr` has the same item for two
requests that differ in their headers, when these choose the same coding.
-/

import Viking.Http.Fields
import Viking.Http.Replies

namespace Viking.Http

open Io Cache Asking

/-- The requests are the same but for their headers, and the same coding is chosen for both. -/
structure Counterpart (config : Configuration) (r r' : Request) : Prop where
  method : r'.method = r.method
  version : r'.version = r.version
  url : r'.url = r.url
  body : r'.body = r.body
  coding : Response.coding config r' = Response.coding config r

/-! ## Responses -/

namespace Response

/-- `set_request` -/
def setRequest (r : Response) (value : Request) : Response := { r with req := value }

section Request

variable {platform : Platform} {config : Configuration} {r : Response} {req req' : Request}

theorem prepared_setRequest (same : coding config req = coding config r.req) :
    (r.setRequest req).prepared platform config =
      (r.prepared platform config).setRequest req := by
  rcases r.prepared_cases platform config with ⟨available, fresh⟩ | ⟨kept, coded⟩
  · have available' : (r.setRequest req).bodyAvailable = true := available
    have fresh' : (r.setRequest req).compressed = .none := fresh
    have same' : coding config (r.setRequest req).req = coding config r.req := same
    rw [prepared_fresh available fresh, prepared_fresh available' fresh', same']
    cases coding config r.req <;> rfl
  · have coded' : (r.setRequest req).bodyAvailable = false ∨
        (r.setRequest req).compressed ≠ .none := coded
    rw [kept, prepared_of_coded coded']

/-- Behind its first line `init` looks at the response alone. -/
theorem init_setRequest (same : coding config req = coding config r.req) :
    init platform config (r.setRequest req) = (init platform config r).setRequest req := by
  obtain ⟨fields, framed⟩ := init_frame platform config r
  obtain ⟨fields', framed'⟩ := init_frame platform config (r.setRequest req)
  have prepared : (r.setRequest req).prepared platform config = _ := prepared_setRequest same
  have fields_eq : fields' = fields := by
    apply Finmap.ext_lookup
    intro name
    have get := init_get platform config r name
    have get' := init_get platform config (r.setRequest req) name
    rw [prepared] at get'
    have agree : (init platform config (r.setRequest req)).get name true =
        (init platform config r).get name true := get'.trans get.symm
    rw [framed, framed'] at agree
    exact agree
  rw [framed, framed', prepared, fields_eq]
  rfl

theorem make_congr (same : Counterpart config req req') (code : StatusCode) (type : ResponseType)
    (res : Resource) (text : Bytes) (file : Option UnixFile) :
    make platform config req' code type res text file =
      (make platform config req code type res text file).setRequest req' :=
  init_setRequest (r := ⟨∅, ⟨0, 0⟩, req, code, type, res, text, .none, file⟩) same.coding

theorem ofFile_congr (same : Counterpart config req req') (file : Option UnixFile) :
    ofFile platform config req' file = (ofFile platform config req file).setRequest req' := by
  unfold ofFile
  rw [make_congr same]
  cases file <;> rfl

theorem ofCode_congr (same : Counterpart config req req') (code : StatusCode) :
    ofCode platform config req' code = (ofCode platform config req code).setRequest req' :=
  make_congr same ..

theorem ofText_congr (same : Counterpart config req req') (text : Bytes) :
    ofText platform config req' text = (ofText platform config req text).setRequest req' :=
  make_congr same ..

theorem ofResource_congr (same : Counterpart config req req') (resource : Resource) :
    ofResource platform config req' resource =
      (ofResource platform config req resource).setRequest req' := by
  unfold ofResource
  rw [make_congr same]
  rfl

end Request

end Response

/-! ## Replies -/

namespace Resolution

variable {ρ : Type}

/-- A response that is there at once holds another request. -/
def setRequest (resolution : Resolution ρ) (value : Request) : Resolution ρ :=
  match resolution with
  | .sync response => .sync (response.setRequest value)
  | .async future keep => .async future keep

end Resolution

/-- The handler looks at the header only to choose a coding, as the constructors of responses
do. -/
def Oblivious {ρ : Type} (config : Configuration) (h : Handler ρ) : Prop :=
  ∀ r r', Counterpart config r r' →
    (h r').map (Resolution.setRequest · r) = (h r).map (Resolution.setRequest · r)

/-- A handler that answers the URL with a text is one. -/
theorem oblivious_ofText {ρ : Type} (platform : Platform) (config : Configuration)
    (text : Bytes → Bytes) :
    Oblivious config
      (fun r => .ok (.sync (.ofText platform config r (text r.url))) : Handler ρ) := by
  intro r r' same
  dsimp only
  rw [same.url, Response.ofText_congr same]
  rfl

section Replies

variable {ρ : Type} {site : Site} {routes : List (Route ρ)} {r r' : Request}

theorem fullPath_congr (same : Counterpart site.config r r') :
    fullPath site r' = fullPath site r := by
  rw [fullPath, fullPath, same.url]

/-- What is sent of a response does not show the request. -/
theorem itemOf_setRequest (response : Response) (value : Request) :
    (itemOf site (response.setRequest value) : Serving (ScheduleItem ρ)) = itemOf site response :=
  rfl

theorem notFound_congr (same : Counterpart site.config r r') :
    (notFound site r' : Serving (ScheduleItem ρ)) = notFound site r := by
  unfold notFound
  rw [Response.ofCode_congr same]
  rfl

theorem listEntries_mirrors (same : Counterpart site.config r r') :
    Mirrors (Response.setRequest · r') (listEntries site r) (listEntries site r') := by
  unfold listEntries
  rw [same.url, fullPath_congr same]
  cases r.url.getLast? with
  | none => exact .fail _
  | some back =>
    dsimp only
    split_ifs
    · -- the redirection
      rw [Response.ofCode_congr same]
      exact .pure _
    · refine .bind fun listing => .bind fun lines => ?_
      split_ifs
      · exact .fail _
      · rw [Response.ofText_congr same]
        exact .pure _

theorem listDirectory_mirrors (same : Counterpart site.config r r') :
    Mirrors (Response.setRequest · r') (listDirectory site r) (listDirectory site r') := by
  apply (listEntries_mirrors same).handle
  intro fault
  cases fault with
  | thrown exception =>
    dsimp only
    rw [Response.ofCode_congr same]
    exact .pure _
  | _ => exact .fail _

theorem takeFolder_congr (same : Counterpart site.config r r') :
    (takeFolder site r' : Serving (ScheduleItem ρ)) = takeFolder site r :=
  (listDirectory_mirrors same).bind_eq fun response => itemOf_setRequest response r'

theorem takeRegularFile_congr (same : Counterpart site.config r r') (path : Bytes) :
    (takeRegularFile site r' path : Serving (ScheduleItem ρ)) = takeRegularFile site r path := by
  have memory : (takeFileFromMemory site r' path : Serving (ScheduleItem ρ)) =
      takeFileFromMemory site r path := by
    simp only [takeFileFromMemory, Response.ofResource_congr same, itemOf_setRequest]
  have file : (takeUnixFile site r' path : Serving (ScheduleItem ρ)) =
      takeUnixFile site r path := by
    unfold takeUnixFile
    simp only [Response.ofFile_congr same]
    rfl
  rw [takeRegularFile, memory, file]
  rfl

theorem takeDiskResource_congr (same : Counterpart site.config r r') :
    (takeDiskResource site r' : Serving (ScheduleItem ρ)) = takeDiskResource site r := by
  have entry : (takeEntry site r' : Serving (Option (ScheduleItem ρ))) = takeEntry site r := by
    simp only [takeEntry, fullPath_congr same, takeFolder_congr same, takeRegularFile_congr same]
  rw [takeDiskResource, entry, notFound_congr same]
  rfl

theorem passRequest_congr (same : Counterpart site.config r r') {h : Handler ρ}
    (oblivious : Oblivious site.config h) :
    passRequest site r' h = passRequest site r h := by
  have resolved := oblivious r r' same
  unfold passRequest
  cases here : h r with
  | error fault =>
    rw [here] at resolved
    rw [Machine.eq_error_of_map resolved]
  | ok resolution =>
    rw [here] at resolved
    obtain ⟨resolution', there, set⟩ := Machine.exists_ok_of_map resolved
    rw [there]
    cases resolution with
    | sync response =>
      cases resolution' with
      | sync response' =>
        -- the two responses hold different requests, at most
        have set : response'.setRequest r = response.setRequest r := Resolution.sync.inj set
        show nothrow (itemOf site response') = nothrow (itemOf site response)
        rw [← itemOf_setRequest response' r, set, itemOf_setRequest]
      | async future keep => cases set
    | async future keep =>
      cases resolution' with
      | sync response' => cases set
      | async future' keep' =>
        cases set
        rfl

/-- For requests that differ in their headers the reply is the same, if the same coding is
chosen. -/
theorem processRequest_congr (same : Counterpart site.config r r')
    (oblivious : ∀ route ∈ routes, ∀ h ∈ route.handler, Oblivious site.config h) :
    processRequest site routes r' = processRequest site routes r := by
  have found : handlerFor routes r' = handlerFor routes r := by
    simp only [handlerFor, isPassable, same.method, same.url]
    rfl
  have passable : isPassable r' = isPassable r := by
    rw [isPassable, isPassable, same.method]
  unfold processRequest processHandled
  rw [getUserHandler_eq, getUserHandler_eq, found, passable, same.url]
  split_ifs
  · rfl
  · cases route : handlerFor routes r with
    | some h =>
      obtain ⟨_, mem, is⟩ := mem_of_handlerFor route
      show nothrow (passRequest site r' h) = nothrow (passRequest site r h)
      rw [passRequest_congr same (oblivious _ mem h is)]
    | none =>
      have disk : isDiskResource site r' = isDiskResource site r := by
        rw [isDiskResource, isDiskResource, fullPath_congr same]
      rw [disk, takeDiskResource_congr same, notFound_congr same]
      rfl

end Replies

end Viking.Http
