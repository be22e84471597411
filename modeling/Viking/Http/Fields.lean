/-
# The fields of a response

What `init` makes of a response: `prepared` is the response after its first line, which
compresses the body, and `init_get` says what each field holds in the end. The rest of a
response is the one that was prepared.
-/

import Viking.Http.Response

namespace Viking.Http

/-- Decimal digits, one at least. -/
def Numeral (value : Bytes) : Prop := value ≠ [] ∧ ∀ c ∈ value, isNum c = true

instance : DecidablePred Numeral := fun value =>
  inferInstanceAs (Decidable (value ≠ [] ∧ ∀ c ∈ value, isNum c = true))

theorem toText_eq (n : Nat) : toText n = (Nat.toDigits 10 n).map fun c => c.toUInt8 := by
  show (Nat.repr n).toList.map _ = _
  rw [Nat.toList_repr]

/-- A printed number is made of digits. -/
theorem numeral_toText (n : Nat) : Numeral (toText n) := by
  have digit {c : Char} (isDigit : c.isDigit = true) : isNum c.toUInt8 = true := by
    simp only [Char.isDigit, ge_iff_le, Bool.and_eq_true, decide_eq_true_eq,
      UInt32.le_iff_toNat_le] at isDigit
    have below : c.toUInt8.toNat = c.val.toNat := by
      show c.val.toNat % 256 = _
      exact Nat.mod_eq_of_lt (isDigit.2.trans_lt (by decide))
    rw [isNum_iff, below]
    exact isDigit
  rw [toText_eq]
  refine ⟨by simp [Nat.toDigits_ne_nil], fun c mem => ?_⟩
  obtain ⟨d, there, rfl⟩ := List.mem_map.mp mem
  exact digit (Nat.isDigit_of_mem_toDigits (by decide) (by decide) there)

/-- The number that a printed number spells. -/
theorem decimalNumber_toText (n : Nat) : decimalNumber (toText n) = n := by
  have last : ∀ d < 10, digit (d.digitChar).toUInt8 = d := by decide
  induction n using Nat.strongRecOn with
  | ind n ih =>
    by_cases small : n < 10
    · rw [toText_eq, Nat.toDigits_of_lt_base small]
      simp [decimalNumber, last n small]
    · -- all digits but the last one spell `n / 10`
      have rest := ih (n / 10) (by omega)
      have snoc : toText n = toText (n / 10) ++ [((n % 10).digitChar).toUInt8] := by
        rw [toText_eq, toText_eq, Nat.toDigits_of_base_le (by decide) (by omega), List.map_append]
        rfl
      rw [decimalNumber] at rest ⊢
      rw [snoc, List.foldl_append, rest, List.foldl_cons, List.foldl_nil,
        last _ (Nat.mod_lt n (by decide))]
      omega

/-- What a coding makes of a content. -/
def Platform.coding (platform : Platform) : CompressionType → Bytes → Bytes
  | .deflate => platform.deflate
  | .gzip => platform.gzip
  | .none => id

/-- The platform at another time, at which maps may be traversed in another order. -/
def Platform.later (platform : Platform) (now : Bytes) (traversal : Traversal) : Platform :=
  { platform with now := now, traversal := traversal }

/-- The member of a resource that holds it in a coding. -/
def Resource.form (resource : Resource) : CompressionType → Bytes
  | .deflate => resource.deflated
  | .gzip => resource.gzipped
  | .none => resource.raw

/-- The resource with the member for a coding, computed unless it is there. -/
def Resource.fill (platform : Platform) (resource : Resource) : CompressionType → Resource
  | .deflate => { resource with
      deflated :=
        if resource.deflated = [] then platform.deflate resource.raw else resource.deflated }
  | .gzip => { resource with
      gzipped := if resource.gzipped = [] then platform.gzip resource.raw else resource.gzipped }
  | .none => resource

/-- The value of `Content-Encoding` for a coding. -/
def CompressionType.name : CompressionType → Option Bytes
  | .deflate => some (bytes "deflate")
  | .gzip => some (bytes "gzip")
  | .none => Option.none

namespace Response

variable {platform : Platform} {config : Configuration} {r : Response}

theorem get_set (r : Response) (field value name : Bytes) :
    (r.set field value).get name true = if name = field then some value else r.get name true := by
  simp only [get, set, if_true]
  split_ifs with same
  · rw [same, Finmap.lookup_insert]
  · exact Finmap.lookup_insert_of_ne _ same

/-- The first line of `init`. -/
def prepared (platform : Platform) (config : Configuration) (r : Response) : Response :=
  if config.enableCompression then r.tryToCompress platform else r

/-- The coding that `try_to_compress` comes to for a request. -/
def coding (config : Configuration) (req : Request) : CompressionType :=
  if config.enableCompression then
    if canCompress req (bytes "deflate") then .deflate
    else if canCompress req (bytes "gzip") then .gzip else .none
  else .none

/-- The response with the coding in its header. -/
def announce (r : Response) (coding : CompressionType) : Response :=
  match coding.name with
  | some name => r.set contentEncodingField name
  | none => r

/-- A response is compressed once, and a file is not. -/
theorem prepared_of_coded (coded : r.bodyAvailable = false ∨ r.compressed ≠ .none) :
    r.prepared platform config = r := by
  have skipped : (r.bodyAvailable && r.compressed = .none) = false := by
    rcases coded with file | coded
    · rw [file]
      rfl
    · simp [coded]
  simp only [prepared, tryToCompress, skipped, Bool.false_eq_true, if_false, ite_self]

/-- Otherwise the body is coded as the request accepts it. -/
theorem prepared_fresh (available : r.bodyAvailable = true) (fresh : r.compressed = .none) :
    r.prepared platform config =
      { r.announce (coding config r.req) with
        text :=
          if r.type = .text then platform.coding (coding config r.req) r.text else r.text
        res := if r.type = .resource then r.res.fill platform (coding config r.req) else r.res
        compressed := coding config r.req } := by
  -- when nothing is coded the response is the one it was
  have plain : r = { r with compressed := .none } := by rw [← fresh]
  have goes : (r.bodyAvailable && r.compressed = .none) = true := by simp [available, fresh]
  by_cases enabled : config.enableCompression = true
  · simp only [prepared, tryToCompress, coding, enabled, goes, if_true]
    cases type : r.type with
    | file => simp [bodyAvailable, type] at available
    | resource | text =>
      simp only [reduceCtorEq, if_true, if_false]
      by_cases deflate : canCompress r.req (bytes "deflate") = true
      · simp only [deflate, if_true]
        rfl
      · by_cases gzip : canCompress r.req (bytes "gzip") = true
        · simp only [deflate, gzip, if_true, if_false, Bool.false_eq_true]
          rfl
        · simp only [deflate, gzip, if_false, Bool.false_eq_true]
          exact plain
  · simp only [prepared, coding, enabled, if_false, Bool.false_eq_true]
    split_ifs <;> exact plain

/-- What `init` leaves apart from the fields. -/
theorem init_frame (platform : Platform) (config : Configuration) (r : Response) :
    ∃ fields, init platform config r =
      { r.prepared platform config with version := ⟨1, 1⟩, fields := fields } := by
  unfold init
  extract_lets r₁ r₂ r₃ r₄ r₅ r₆ r₇ r₈
  have connected : ∃ fields, r₇ = { r₁ with version := ⟨1, 1⟩, fields := fields } := by
    simp only [r₇]
    split <;> exact ⟨_, rfl⟩
  have cached : ∃ fields, r₈ = { r₁ with version := ⟨1, 1⟩, fields := fields } := by
    obtain ⟨fields, same⟩ := connected
    simp only [r₈]
    split
    · split_ifs
      · exact ⟨fields, same⟩
      · exact ⟨_, by rw [same]; rfl⟩
    · exact ⟨fields, same⟩
  obtain ⟨fields, same⟩ := cached
  split
  · exact ⟨_, by rw [same]; rfl⟩
  · exact ⟨fields, same⟩

/-- What each field holds after `init`. -/
theorem init_get (platform : Platform) (config : Configuration) (r : Response) (name : Bytes) :
    (init platform config r).get name true =
      let r := r.prepared platform config
      if name = contentLengthField then
        (r.body.toOption.map fun body => toText body.length).or (r.get name true)
      else if name = cacheControlField then
        (r.get name true).map fun control =>
          if contains control (bytes "no-cache") then control
          else bytes "max-age=" ++ toText config.defaultMaxAge
      else if name = connectionField then some ((r.get name true).getD (bytes "Close"))
      else if name = transferEncodingField then some (bytes "binary")
      else if name = contentTypeField then some (bytes "text/plain; charset=utf-8")
      else if name = accessControlAllowOriginField then some (bytes "*")
      else if name = dateField then some platform.now
      else r.get name true := by
  unfold init
  extract_lets r₁ r₂ r₃ r₄ r₅ r₆ r₇ r₈ r
  have plain (name : Bytes) : r₆.get name true =
      if name = transferEncodingField then some (bytes "binary")
      else if name = contentTypeField then some (bytes "text/plain; charset=utf-8")
      else if name = accessControlAllowOriginField then some (bytes "*")
      else if name = dateField then some platform.now
      else r.get name true := by
    simp only [r₆, r₅, r₄, r₃, get_set]
    rfl
  have connected (name : Bytes) : r₇.get name true =
      if name = connectionField then some ((r.get name true).getD (bytes "Close"))
      else r₆.get name true := by
    have own : r₆.get connectionField true = r.get connectionField true := by
      rw [plain]
      simp +decide
    have always : r₇ = r₆.set connectionField
        ((r.get connectionField true).getD (bytes "Close")) := by
      rw [← own]
      simp only [r₇]
      cases r₆.get connectionField true <;> rfl
    rw [always, get_set]
    split_ifs with same
    · rw [same]
    · rfl
  have cached (name : Bytes) : r₈.get name true =
      if name = cacheControlField then
        (r.get name true).map fun control =>
          if contains control (bytes "no-cache") then control
          else bytes "max-age=" ++ toText config.defaultMaxAge
      else r₇.get name true := by
    have own : r₇.get cacheControlField true = r.get cacheControlField true := by
      rw [connected, plain]
      simp +decide
    simp only [r₈]
    split
    · rename_i control there
      have now := there
      rw [own] at there
      split_ifs with fresh same same
      · rw [same, there, Option.map_some, if_pos fresh, now]
      · rfl
      · rw [same, there, Option.map_some, if_neg fresh, get_set, if_pos rfl]
      · rw [get_set, if_neg same]
    · rename_i absent
      split_ifs with same
      · rw [same, absent, ← own, absent]
        rfl
      · rfl
  have body₇ : r₇.body = r.body := by
    simp only [r₇]
    split <;> rfl
  have body : r₈.body = r.body := by
    simp only [r₈]
    split
    · split_ifs
      · exact body₇
      · exact body₇
    · exact body₇
  have length : r₈.get contentLengthField true = r.get contentLengthField true := by
    rw [cached, connected, plain]
    simp +decide
  -- The last stage sets the length, if there is a body to measure.
  by_cases same : name = contentLengthField
  · rw [if_pos same, same]
    split
    · rename_i measured
      rw [get_set, if_pos rfl, ← body, measured]
      rfl
    · rename_i fault
      rw [length, ← body, fault]
      rfl
  · rw [if_neg same, ← plain, ← connected, ← cached]
    split
    · rw [get_set, if_neg same]
    · rfl

section Init

variable (platform config r)

theorem init_res : (init platform config r).res = (r.prepared platform config).res := by
  obtain ⟨fields, same⟩ := init_frame platform config r
  rw [same]

theorem init_text : (init platform config r).text = (r.prepared platform config).text := by
  obtain ⟨fields, same⟩ := init_frame platform config r
  rw [same]

theorem init_compressed :
    (init platform config r).compressed = (r.prepared platform config).compressed := by
  obtain ⟨fields, same⟩ := init_frame platform config r
  rw [same]

theorem init_body : (init platform config r).body = (r.prepared platform config).body := by
  obtain ⟨fields, same⟩ := init_frame platform config r
  rw [same]
  rfl

end Init

/-- The length field is the length of the body, when there is one. -/
theorem init_contentLength {body : Bytes} (h : (init platform config r).body = .ok body) :
    (init platform config r).get contentLengthField true = some (toText body.length) := by
  rw [init_body] at h
  simp [init_get, h, Except.toOption]

theorem init_contentEncoding : (init platform config r).get contentEncodingField true =
    (r.prepared platform config).get contentEncodingField true := by
  rw [init_get]
  simp +decide

theorem get_announce (coding : CompressionType) (name : Bytes) :
    (r.announce coding).get name true =
      if name = contentEncodingField then coding.name.or (r.get name true)
      else r.get name true := by
  cases coding <;> simp [announce, CompressionType.name, get_set]

/-- Whether a response is compressed now, was compressed before, or cannot be. -/
theorem prepared_cases (platform : Platform) (config : Configuration) (r : Response) :
    (r.bodyAvailable = true ∧ r.compressed = .none) ∨
      r.prepared platform config = r ∧ (r.bodyAvailable = false ∨ r.compressed ≠ .none) := by
  cases available : r.bodyAvailable with
  | false => exact .inr ⟨prepared_of_coded (.inl available), .inl rfl⟩
  | true =>
    by_cases fresh : r.compressed = .none
    · exact .inl ⟨rfl, fresh⟩
    · exact .inr ⟨prepared_of_coded (.inr fresh), .inr fresh⟩

/-- Compressing touches one field. -/
theorem prepared_get {name : Bytes} (other : name ≠ contentEncodingField) :
    (r.prepared platform config).get name true = r.get name true := by
  rcases r.prepared_cases platform config with ⟨available, fresh⟩ | ⟨same, -⟩
  · rw [prepared_fresh available fresh]
    have announced := get_announce (r := r) (coding config r.req) name
    rw [if_neg other] at announced
    exact announced
  · rw [same]

/-- The response is its own source for the `Connection` field. -/
theorem init_connection : (init platform config r).get connectionField true =
    some ((r.get connectionField true).getD (bytes "Close")) := by
  have same : (r.prepared platform config).get connectionField true =
      r.get connectionField true := prepared_get (by decide)
  rw [init_get]
  simp only [same]
  simp +decide

/-- The header names the coding that the body has been given. -/
theorem init_encoding (named : r.get contentEncodingField true = r.compressed.name) :
    (init platform config r).get contentEncodingField true =
      (init platform config r).compressed.name := by
  rw [init_contentEncoding, init_compressed]
  rcases r.prepared_cases platform config with ⟨available, fresh⟩ | ⟨same, -⟩
  · rw [prepared_fresh available fresh]
    have announced := get_announce (r := r) (coding config r.req) contentEncodingField
    rw [if_pos rfl, named, fresh, CompressionType.name, Option.or_none] at announced
    exact announced
  · rw [same]
    exact named

theorem raw_fill (resource : Resource) (coding : CompressionType) :
    (resource.fill platform coding).raw = resource.raw := by
  cases coding <;> rfl

/-- Compressing a resource leaves its content. -/
theorem init_raw : (init platform config r).res.raw = r.res.raw := by
  rw [init_res]
  rcases r.prepared_cases platform config with ⟨available, fresh⟩ | ⟨same, -⟩
  · rw [prepared_fresh available fresh]
    dsimp only
    split_ifs
    · exact raw_fill _ _
    · rfl
  · rw [same]

/-- What is not compressed in the end is the text it was. -/
theorem init_plain (plain : (init platform config r).compressed = .none) :
    r.compressed = .none ∧ (init platform config r).text = r.text := by
  rw [init_compressed] at plain
  rw [init_text]
  rcases r.prepared_cases platform config with ⟨available, fresh⟩ | ⟨same, -⟩
  · rw [prepared_fresh available fresh] at plain ⊢
    refine ⟨fresh, ?_⟩
    dsimp only at plain ⊢
    rw [plain]
    exact ite_self _
  · rw [same] at plain ⊢
    exact ⟨plain, rfl⟩

theorem body_text (type : r.type = .text) : r.body = .ok r.text := by
  rw [body, type]

theorem body_resource (type : r.type = .resource) : r.body = .ok (r.res.form r.compressed) := by
  rw [body, type]
  cases r.compressed <;> rfl

theorem body_file (type : r.type = .file) : r.body = .error (.thrown .bodyUnavailable) := by
  rw [body, type]

end Response

end Viking.Http
