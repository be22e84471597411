/-
# Assigning to a response

A response may be assigned a text, a resource or a code after it was constructed, and may
have its text or its resource replaced. `Assigned` follows it through any sequence of these
together with the contents that were assigned, before any coding, and `Consistent` says that
the header describes the body.

An assignment compresses only what was not compressed before, and the setters leave the
header alone: `consistent_iff` says which assignments keep a response consistent.
-/

import Viking.Http.Fields
import Viking.Lib.Machine

namespace Viking.Http

namespace Response

variable (platform : Platform) (config : Configuration)

/-- `response(request)` -/
def ofRequest (req : Request) : Response := make platform config req .ok .text .empty [] none

/-- `operator=(const std::string &)` -/
def assignText (r : Response) (str : Bytes) : Response :=
  init platform config { r with type := .text, text := str }

/-- `operator=(const resource &)` -/
def assignResource (r : Response) (resource : Resource) : Response :=
  init platform config { r with type := .resource, res := resource }

/-- `operator=(status_code)` -/
def assignCode (r : Response) (s : StatusCode) : Response :=
  init platform config { r with type := .text, code := s }

/-- `set_text` -/
def setText (r : Response) (text : Bytes) : Response := { r with text := text, type := .text }

/-- `set_resource` -/
def setResource (r : Response) (resource : Resource) : Response := { r with res := resource }

end Response

/-- The constructors that are defined. -/
inductive Construction
  | request
  | file (file : Option Io.UnixFile)
  | code (code : StatusCode)
  | text (text : Bytes)
  | resource (resource : Resource)

/-- What can be assigned. The assignments that call `init` read the clock. -/
inductive Assignment
  | text (now str : Bytes)
  | resource (now : Bytes) (resource : Resource)
  | code (now : Bytes) (s : StatusCode)
  | setText (text : Bytes)
  | setResource (resource : Resource)

/-- A response with the text and the content of the resource that it was last assigned. -/
structure Assigned where
  response : Response
  text : Bytes
  raw : Bytes

namespace Assigned

variable (platform : Platform) (config : Configuration)

/-- The response as it is constructed. -/
def start (req : Request) : Construction → Assigned
  | .request => ⟨.ofRequest platform config req, [], []⟩
  | .file file => ⟨.ofFile platform config req file, [], []⟩
  | .code code => ⟨.ofCode platform config req code, [], []⟩
  | .text text => ⟨.ofText platform config req text, text, []⟩
  | .resource resource => ⟨.ofResource platform config req resource, [], resource.raw⟩

def step (s : Assigned) : Assignment → Assigned
  | .text now str =>
    { s with response := s.response.assignText { platform with now } config str, text := str }
  | .resource now resource =>
    { s with
      response := s.response.assignResource { platform with now } config resource
      raw := resource.raw }
  | .code now code => { s with response := s.response.assignCode { platform with now } config code }
  | .setText text => { s with response := s.response.setText text, text := text }
  | .setResource resource =>
    { s with response := s.response.setResource resource, raw := resource.raw }

/-- The content that was last assigned for the type the response has. -/
def content (s : Assigned) : Bytes :=
  match s.response.type with
  | .text => s.text
  | .resource => s.raw
  | .file => []

/-- Where there is a body, the header gives its length, and the coding that the content was
assigned in makes the body of it. -/
def Consistent (s : Assigned) : Prop :=
  ∀ body, s.response.body = .ok body →
    s.response.get contentLengthField true = some (toText body.length) ∧
      ∃ coding : CompressionType, s.response.get contentEncodingField true = coding.name ∧
        body = platform.coding coding s.content

/-- What a resource has in a coding is its content in that coding. -/
def Coded (coding : CompressionType) (resource : Resource) : Prop :=
  resource.form coding = platform.coding coding resource.raw

/-- A resource that is to be compressed is not coded, or rightly so. -/
def Codable (coding : CompressionType) (resource : Resource) : Prop :=
  resource.form coding = [] ∨ Coded platform coding resource

/-- A resource for a new response. -/
def StartGuard (req : Request) : Construction → Prop
  | .resource resource => Codable platform (Response.coding config req) resource
  | _ => True

/-- When the assignment leaves the response consistent. -/
def Guard (s : Assigned) : Assignment → Prop
  | .text _ str => platform.coding s.response.compressed str = str
  | .resource _ resource =>
    if s.response.compressed = .none then
      Codable platform (Response.coding config s.response.req) resource
    else Coded platform s.response.compressed resource
  | .code _ _ => s.response.text = platform.coding s.response.compressed s.text
  | .setText text =>
    s.response.get contentLengthField true = some (toText text.length) ∧
      platform.coding s.response.compressed text = text
  | .setResource resource =>
    s.response.type = .resource →
      s.response.get contentLengthField true =
          some (toText (resource.form s.response.compressed).length) ∧
        Coded platform s.response.compressed resource

/-- What holds of the response whatever was assigned. -/
structure Sound (s : Assigned) : Prop where
  encoding : s.response.get contentEncodingField true = s.response.compressed.name
  raw : s.response.res.raw = s.raw
  text : s.response.compressed = .none → s.response.text = s.text

variable {platform config} {s : Assigned}

/-! ## What holds whatever is assigned -/

/-- `init` keeps a sound response sound. -/
theorem sound_init {r : Response} (now text raw : Bytes)
    (encoding : r.get contentEncodingField true = r.compressed.name) (same : r.res.raw = raw)
    (plain : r.compressed = .none → r.text = text) :
    (⟨Response.init { platform with now } config r, text, raw⟩ : Assigned).Sound where
  encoding := Response.init_encoding encoding
  raw := Response.init_raw.trans same
  text uncoded := by
    obtain ⟨fresh, kept⟩ := Response.init_plain uncoded
    exact kept.trans (plain fresh)

/-- Two responses that differ in fields which do not concern the body. -/
theorem Sound.set (sound : s.Sound) {field value : Bytes} (other : field ≠ contentEncodingField) :
    (⟨s.response.set field value, s.text, s.raw⟩ : Assigned).Sound where
  encoding := by
    rw [Response.get_set, if_neg other.symm]
    exact sound.encoding
  raw := sound.raw
  text := sound.text

/-- What the constructors have in common. -/
theorem sound_make (platform : Platform) (config : Configuration) (req : Request)
    (code : StatusCode) (type : ResponseType) (res : Resource) (text : Bytes)
    (file : Option Io.UnixFile) :
    (⟨.make platform config req code type res text file, text, res.raw⟩ : Assigned).Sound := by
  refine sound_init platform.now text res.raw ?_ rfl fun _ => rfl
  simp [Response.get, CompressionType.name]

theorem sound_start (platform : Platform) (config : Configuration) (req : Request)
    (construction : Construction) : (start platform config req construction).Sound := by
  cases construction with
  | request | code | text => exact sound_make ..
  | resource resource =>
    have made := sound_make platform config req .ok .resource resource [] none
    exact made.set (by decide)
  | file file =>
    have made := sound_make platform config req .ok .file .empty [] file
    cases file with
    | none => exact made
    | some file => exact (made.set (by decide)).set (by decide)

theorem sound_step (platform : Platform) (config : Configuration) (sound : s.Sound)
    (assignment : Assignment) : (s.step platform config assignment).Sound := by
  cases assignment with
  | text now str => exact sound_init now _ _ sound.encoding sound.raw fun _ => rfl
  | resource now resource => exact sound_init now _ _ sound.encoding rfl sound.text
  | code now code => exact sound_init now _ _ sound.encoding sound.raw sound.text
  | setText text => exact ⟨sound.encoding, sound.raw, fun _ => rfl⟩
  | setResource resource => exact ⟨sound.encoding, rfl, sound.text⟩

/-! ## Consistency of one response -/

theorem name_injective {coding coding' : CompressionType} (h : coding.name = coding'.name) :
    coding = coding' := by
  revert h
  cases coding <;> cases coding' <;> decide

/-- The coding in the header is the one the response has noted. -/
theorem consistent_of_sound (sound : s.Sound) :
    s.Consistent platform ↔ ∀ body, s.response.body = .ok body →
      s.response.get contentLengthField true = some (toText body.length) ∧
        body = platform.coding s.response.compressed s.content := by
  refine forall₂_congr fun body _ => and_congr_right fun _ => ?_
  rw [sound.encoding]
  constructor
  · rintro ⟨coding, same, coded⟩
    rw [name_injective same]
    exact coded
  · intro coded
    exact ⟨_, rfl, coded⟩

/-- After `init` the length is right, and the coding is what is left to see. -/
theorem consistent_init (now : Bytes) {r : Response} {text raw : Bytes}
    (sound : (⟨Response.init { platform with now } config r, text, raw⟩ : Assigned).Sound) :
    (⟨Response.init { platform with now } config r, text, raw⟩ : Assigned).Consistent platform ↔
      ∀ body, (Response.init { platform with now } config r).body = .ok body →
        body = platform.coding (Response.init { platform with now } config r).compressed
          (⟨Response.init { platform with now } config r, text, raw⟩ : Assigned).content := by
  rw [consistent_of_sound sound]
  refine forall₂_congr fun body there => ?_
  exact and_iff_right (Response.init_contentLength there)

theorem consistent_init_text (now : Bytes) {r : Response} {text raw : Bytes} (type : r.type = .text)
    (plain : r.compressed = .none → r.text = text)
    (sound : (⟨Response.init { platform with now } config r, text, raw⟩ : Assigned).Sound) :
    (⟨Response.init { platform with now } config r, text, raw⟩ : Assigned).Consistent platform ↔
      r.text = platform.coding r.compressed text := by
  have kept : (Response.init { platform with now } config r).type = .text :=
    Response.sameKind_init.2.trans type
  rw [consistent_init now sound, Response.body_text kept]
  simp only [Except.ok.injEq, forall_eq', content, kept, Response.init_text,
    Response.init_compressed]
  rcases r.prepared_cases { platform with now } config with ⟨available, fresh⟩ | ⟨same, -⟩
  · -- a text that was not compressed is compressed now
    rw [Response.prepared_fresh available fresh, plain fresh, fresh]
    simp only [type, if_true]
    exact iff_of_true rfl rfl
  · rw [same]

theorem form_fill (resource : Resource) (coding : CompressionType) :
    (resource.fill platform coding).form coding = platform.coding coding resource.raw ↔
      Codable platform coding resource := by
  cases coding with
  | none => exact iff_of_true rfl (.inr rfl)
  | deflate | gzip =>
    simp only [Resource.fill, Resource.form, Codable, Coded]
    split_ifs with empty <;> simp [empty, Platform.coding]

theorem consistent_init_resource (now : Bytes) {r : Response} {text : Bytes}
    (type : r.type = .resource)
    (sound : (⟨Response.init { platform with now } config r, text, r.res.raw⟩ : Assigned).Sound) :
    (⟨Response.init { platform with now } config r, text, r.res.raw⟩ : Assigned).Consistent
        platform ↔
      if r.compressed = .none then Codable platform (Response.coding config r.req) r.res
      else Coded platform r.compressed r.res := by
  have kept : (Response.init { platform with now } config r).type = .resource :=
    Response.sameKind_init.2.trans type
  rw [consistent_init now sound, Response.body_resource kept]
  simp only [Except.ok.injEq, forall_eq', content, kept, Response.init_res,
    Response.init_compressed]
  rcases r.prepared_cases { platform with now } config with ⟨available, fresh⟩ | ⟨same, coded⟩
  · rw [Response.prepared_fresh available fresh, if_pos fresh]
    simp only [type, if_true]
    exact form_fill r.res _
  · -- the member for the coding is sent as it is
    have coded : r.compressed ≠ .none := by
      rcases coded with file | coded
      · simp [Response.bodyAvailable, type] at file
      · exact coded
    rw [same, if_neg coded]
    exact Iff.rfl

/-! ## Consistency through assignments -/

theorem consistent_set {r : Response} {text raw field value : Bytes}
    (length : field ≠ contentLengthField) (encoding : field ≠ contentEncodingField) :
    (⟨r.set field value, text, raw⟩ : Assigned).Consistent platform ↔
      (⟨r, text, raw⟩ : Assigned).Consistent platform := by
  simp only [Consistent, Response.get_set, if_neg length.symm, if_neg encoding.symm]
  exact Iff.rfl

theorem consistent_start (platform : Platform) (config : Configuration) (req : Request)
    (construction : Construction) :
    (start platform config req construction).Consistent platform ↔
      StartGuard platform config req construction := by
  have sound := sound_start platform config req construction
  cases construction with
  | request | code | text =>
    exact (consistent_init_text platform.now rfl (fun _ => rfl) sound).trans
      (iff_of_true rfl trivial)
  | resource resource =>
    have made := sound_make platform config req .ok .resource resource [] none
    refine (consistent_set (by decide) (by decide)).trans ?_
    exact (consistent_init_resource platform.now rfl made)
  | file file =>
    refine iff_of_true ?_ trivial
    -- a file has no body to be consistent with
    have type : (start platform config req (.file file)).response.type = .file := by
      cases file with
      | none => exact Response.sameKind_init.2
      | some file => exact Response.sameKind_init.2
    intro body there
    rw [Response.body_file type] at there
    cases there

theorem consistent_step (sound : s.Sound) (consistent : s.Consistent platform)
    (assignment : Assignment) :
    (s.step platform config assignment).Consistent platform ↔
      s.Guard platform config assignment := by
  have after := sound_step platform config sound assignment
  cases assignment with
  | text now str =>
    exact (consistent_init_text now rfl (fun _ => rfl) after).trans eq_comm
  | resource now resource => exact consistent_init_resource now rfl after
  | code now code => exact consistent_init_text now rfl sound.text after
  | setText text =>
    have text_body : (s.response.setText text).body = .ok text := Response.body_text rfl
    rw [consistent_of_sound after]
    simp only [step, text_body, Except.ok.injEq, forall_eq']
    exact and_congr_right fun _ => eq_comm
  | setResource resource =>
    rw [consistent_of_sound after]
    cases type : s.response.type with
    | file =>
      have fileless : (s.response.setResource resource).body = .error (.thrown .bodyUnavailable) :=
        Response.body_file type
      simp [step, fileless, Guard, type]
    | text =>
      -- the text is what it was, and so is the header
      have same : (s.response.setResource resource).body = s.response.body := by
        rw [Response.body_text type]
        exact Response.body_text type
      refine iff_of_true ?_ (by simp [Guard, type])
      have before := (consistent_of_sound sound).mp consistent
      simp only [step, same]
      intro body there
      obtain ⟨length, coded⟩ := before body there
      refine ⟨length, coded.trans ?_⟩
      simp only [content, type, Response.setResource]
    | resource =>
      have body : (s.response.setResource resource).body =
          .ok (resource.form s.response.compressed) := Response.body_resource type
      have kept : (s.response.setResource resource).type = .resource := type
      simp only [step, body, Except.ok.injEq, forall_eq', Guard, type, forall_const, content, kept]
      exact Iff.rfl

end Assigned

/-- A response is consistent after its construction and after each of the assignments that
follow iff the resource it is constructed from can be coded and each assignment meets its
guard. -/
theorem consistent_iff (platform : Platform) (config : Configuration) (req : Request)
    (construction : Construction) (assignments : List Assignment) :
    let start := Assigned.start platform config req construction
    let step := Assigned.step platform config
    (∀ as, as <+: assignments → (as.foldl step start).Consistent platform) ↔
      Assigned.StartGuard platform config req construction ∧
        ∀ as a, as ++ [a] <+: assignments → (as.foldl step start).Guard platform config a := by
  intro start step
  have sound : start.Sound := Assigned.sound_start ..
  have keeps : ∀ s a, s.Sound ∧ s.Consistent platform →
      ((step s a).Sound ∧ (step s a).Consistent platform ↔ s.Guard platform config a) := by
    rintro s a ⟨sound, consistent⟩
    rw [and_iff_right (Assigned.sound_step platform config sound a)]
    exact Assigned.consistent_step sound consistent a
  rw [← Assigned.consistent_start]
  constructor
  · intro all
    have first : start.Consistent platform := all [] List.nil_prefix
    refine ⟨first, (Machine.foldl_invariant_iff ⟨sound, first⟩ keeps).mp fun as h => ?_⟩
    refine ⟨?_, all as h⟩
    exact List.foldlRecOn as step sound fun s sound a _ =>
      Assigned.sound_step platform config sound a
  · rintro ⟨first, guards⟩ as h
    exact ((Machine.foldl_invariant_iff ⟨sound, first⟩ keeps).mpr guards as h).2

/-- Another text has another length, and the header keeps the old one. -/
theorem set_text_keeps_length :
    ¬ ∀ (platform : Platform) (config : Configuration) (req : Request)
      (construction : Construction) (assignments : List Assignment),
      (assignments.foldl (Assigned.step platform config)
        (Assigned.start platform config req construction)).Consistent platform := by
  intro all
  let platform : Platform := ⟨bytes "now", id, id, fun _ => none, fun _ => [], .byName⟩
  let config : Configuration := ⟨bytes "/srv", 300, false⟩
  let req : Request := ⟨.get, ⟨1, 1⟩, ∅, bytes "/", []⟩
  have length := (all platform config req (.text (bytes "hello")) [.setText (bytes "bye")] _ rfl).1
  exact absurd length (by decide +kernel)

end Viking.Http
