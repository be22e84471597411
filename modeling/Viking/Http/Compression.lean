/-
# Compression

`deflate` and `gzip` give zlib a buffer of `compressBound` bytes and do not look at what it
returns. The bound is one for the wrapper that `deflate` asks for, and its value goes through a
`uInt`. `Zlib` is what the program uses of zlib, and `Documents` what it may rely on;
`lossless_iff` says for which inputs the buffers are large enough.
-/

import Viking.Http.Fields

namespace Viking.Http

/-- What is put around a raw stream. -/
inductive Wrapper
  | zlib
  | gzip
  deriving DecidableEq

namespace Wrapper

/-- `windowBits`, to which 16 is added for a gzip header -/
def ofWindowBits (bits : Nat) : Wrapper := if bits &&& 16 = 0 then .zlib else .gzip

/-- How much longer than the raw stream the wrapped one is. -/
def overhead : Wrapper → Nat
  | .zlib => 6
  | .gzip => 18

end Wrapper

/-- The raw stream of an input at a level, the complete stream in a wrapper, what `deflate` writes
with `Z_FINISH` into so many bytes, and what an inflater makes of a stream if it comes to its
end. -/
structure Zlib where
  raw : Int → Bytes → Bytes
  stream : Wrapper → Int → Bytes → Bytes
  finish : Wrapper → Int → Bytes → Nat → Bytes
  inflate : Wrapper → Bytes → Option Bytes

def compressBound (n : Nat) : Nat := n + n / 2 ^ 12 + n / 2 ^ 14 + n / 2 ^ 25 + 13

/-- What zlib documents, of the input `data`. -/
structure Zlib.Documents (z : Zlib) (data : Bytes) : Prop where
  length : ∀ wrapper level,
    (z.stream wrapper level data).length = (z.raw level data).length + wrapper.overhead
  bound : ∀ level, (z.stream .zlib level data).length ≤ compressBound data.length
  part : ∀ wrapper level room, z.finish wrapper level data room <+: z.stream wrapper level data
  room : ∀ wrapper level room, (z.finish wrapper level data room).length ≤ room
  whole : ∀ wrapper level room, (z.stream wrapper level data).length ≤ room →
    z.finish wrapper level data room = z.stream wrapper level data
  inflates : ∀ wrapper level, z.inflate wrapper (z.stream wrapper level data) = some data
  /-- an inflater does not come to the end of what is cut off -/
  cut : ∀ wrapper level part, part <+: z.stream wrapper level data →
    part ≠ z.stream wrapper level data → z.inflate wrapper part = none

namespace Compression

/-- What `deflate` and `gzip` share. `total_out` is the length of what was written. -/
def compress (z : Zlib) (level : Int) (bits : Nat) (data : Bytes) : Bytes :=
  -- `avail_in` and `avail_out` are both cast to `uInt`
  z.finish (.ofWindowBits bits) level (data.take (data.length % 2 ^ 32))
    (compressBound data.length % 2 ^ 32)

/-- `compression::deflate`, with `Z_BEST_COMPRESSION` and the window of `deflateInit` -/
def deflate (z : Zlib) (data : Bytes) : Bytes := compress z 9 15 data

/-- `compression::gzip`, with `Z_DEFAULT_COMPRESSION` -/
def gzip (z : Zlib) (data : Bytes) : Bytes := compress z (-1) (15 ||| 16) data

/-- The buffer is large enough for the complete stream. -/
def Fits (z : Zlib) (level : Int) (bits : Nat) (data : Bytes) : Prop :=
  (z.raw level data).length + (Wrapper.ofWindowBits bits).overhead ≤
    compressBound data.length % 2 ^ 32

section Lossless

variable {z : Zlib} {data : Bytes}

/-- A stream is inflated to its input iff the buffer was large enough for it. -/
theorem inflate_compress_iff (documents : z.Documents data) (short : data.length < 2 ^ 32)
    (level : Int) (bits : Nat) :
    z.inflate (.ofWindowBits bits) (compress z level bits data) = some data ↔
      Fits z level bits data := by
  have whole : data.take (data.length % 2 ^ 32) = data := by
    rw [Nat.mod_eq_of_lt short, List.take_length]
  rw [compress, whole, Fits, ← documents.length]
  constructor
  · intro inflated
    -- what does not fit is cut off
    by_contra long
    have different : z.finish (.ofWindowBits bits) level data (compressBound data.length % 2 ^ 32) ≠
        z.stream (.ofWindowBits bits) level data := by
      intro same
      have room := documents.room (.ofWindowBits bits) level (compressBound data.length % 2 ^ 32)
      rw [same] at room
      exact long room
    rw [documents.cut _ _ _ (documents.part _ _ _) different] at inflated
    cases inflated
  · intro fits
    rw [documents.whole _ _ _ fits, documents.inflates]

/-- What `compressBound` promises is enough for `deflate`, as long as it is less than 2^32. -/
theorem fits_deflate (documents : z.Documents data) (small : compressBound data.length < 2 ^ 32)
    (level : Int) : Fits z level 15 data := by
  have bound := documents.bound level
  rw [documents.length] at bound
  rw [Fits, Nat.mod_eq_of_lt small]
  exact bound

theorem inflate_gzip_iff (documents : z.Documents data) (short : data.length < 2 ^ 32) :
    z.inflate .gzip (gzip z data) = some data ↔ Fits z (-1) (15 ||| 16) data := by
  have wrapper : Wrapper.ofWindowBits (15 ||| 16) = .gzip := by decide
  rw [gzip, ← inflate_compress_iff documents short, wrapper]

/-- A gzip stream has 18 bytes more than its input of none, where the bound has 13. -/
theorem not_inflate_gzip_nil (documents : z.Documents []) (two : (z.raw (-1) []).length = 2) :
    z.inflate .gzip (gzip z []) ≠ some [] := by
  intro inflated
  have fits := (inflate_gzip_iff documents (by decide)).mp inflated
  rw [Fits, two] at fits
  exact absurd fits (by decide)

end Lossless

/-- What `deflate` and `gzip` make of an input that is shorter than 2^32 is inflated to it again iff
both streams fit into what `uInt` leaves of `compressBound`. -/
theorem lossless_iff (z : Zlib) (data : Bytes) (documents : z.Documents data)
    (short : data.length < 2 ^ 32) :
    (z.inflate .zlib (deflate z data) = some data ↔
      (z.raw 9 data).length + 6 ≤ compressBound data.length % 2 ^ 32) ∧
    (z.inflate .gzip (gzip z data) = some data ↔
      (z.raw (-1) data).length + 18 ≤ compressBound data.length % 2 ^ 32) :=
  ⟨inflate_compress_iff documents short 9 15, inflate_gzip_iff documents short⟩

/-! ## Streams of one input -/

/-- The stream that zlib makes of a raw one, with the sums that belong to its input. -/
def wrapped (raw adler crc size : Bytes) (wrapper : Wrapper) (level : Int) : Bytes :=
  match wrapper with
  | .zlib => [0x78, if level = 9 then 0xda else 0x9c] ++ raw ++ adler
  | .gzip => [0x1f, 0x8b, 8, 0, 0, 0, 0, 0, if level = 9 then 2 else 0, 3] ++ raw ++ (crc ++ size)

/-- zlib on the input `data` alone. -/
def ofStreams (data raw adler crc size : Bytes) : Zlib where
  raw _ _ := raw
  stream wrapper level _ := wrapped raw adler crc size wrapper level
  finish wrapper level _ room := (wrapped raw adler crc size wrapper level).take room
  inflate wrapper part :=
    if part = wrapped raw adler crc size wrapper 9 ∨ part = wrapped raw adler crc size wrapper (-1)
    then some data else none

section Streams

variable {data raw adler crc size : Bytes}

theorem length_wrapped (sum : adler.length = 4) (sums : (crc ++ size).length = 8)
    (wrapper : Wrapper) (level : Int) :
    (wrapped raw adler crc size wrapper level).length = raw.length + wrapper.overhead := by
  cases wrapper with
  | zlib =>
    simp only [wrapped, List.length_append, List.length_cons, List.length_nil, sum,
      Wrapper.overhead]
    omega
  | gzip =>
    rw [wrapped, List.length_append, List.length_append, sums, Wrapper.overhead]
    simp only [List.length_cons, List.length_nil]
    omega

/-- The streams differ by a byte that tells the level. -/
theorem wrapped_cases (raw adler crc size : Bytes) (wrapper : Wrapper) (level : Int) :
    wrapped raw adler crc size wrapper level = wrapped raw adler crc size wrapper 9 ∨
      wrapped raw adler crc size wrapper level = wrapped raw adler crc size wrapper (-1) := by
  by_cases best : level = 9
  · exact .inl (best ▸ rfl)
  · right
    cases wrapper with
    | zlib | gzip => simp [wrapped, best]

theorem documents_ofStreams (sum : adler.length = 4) (sums : (crc ++ size).length = 8)
    (bound : raw.length + 6 ≤ compressBound data.length) :
    (ofStreams data raw adler crc size).Documents data where
  length := length_wrapped sum sums
  bound level := (length_wrapped sum sums .zlib level).trans_le bound
  part _ _ room := List.take_prefix room _
  room _ _ room := List.length_take_le room _
  whole _ _ _ fits := List.take_of_length_le fits
  inflates wrapper level := if_pos (wrapped_cases raw adler crc size wrapper level)
  cut wrapper level part before different := by
    have shorter : part.length < raw.length + wrapper.overhead := by
      rw [← length_wrapped sum sums wrapper level]
      exact lt_of_le_of_ne before.length_le fun same => different (before.eq_of_length same)
    refine if_neg ?_
    rintro (rfl | rfl) <;> exact shorter.ne (length_wrapped sum sums wrapper _)

end Streams

/-- Twenty times the same letter are compressed to so few bytes that there is room for them. -/
theorem lossless_repeated :
    let data := List.replicate 20 (ascii 'a')
    let z := ofStreams data [0x4b, 0x4c, 0xc4, 0x04, 0x00] [0x4f, 0xa6, 0x07, 0x95]
      [0xce, 0x8b, 0x6f, 0x26] [0x14, 0, 0, 0]
    z.inflate .zlib (deflate z data) = some data ∧ z.inflate .gzip (gzip z data) = some data := by
  intro data z
  have documents : z.Documents data := documents_ofStreams rfl rfl (by decide)
  obtain ⟨deflates, gzips⟩ := lossless_iff z data documents (by decide)
  exact ⟨deflates.mpr (by decide), gzips.mpr (by decide)⟩

/-- An input of no bytes is not inflated again. -/
theorem gzip_truncated :
    ¬ ∀ (z : Zlib) (data : Bytes), z.Documents data → (z.raw (-1) []).length = 2 →
      data.length < 2 ^ 32 →
        z.inflate .zlib (deflate z data) = some data ∧
          z.inflate .gzip (gzip z data) = some data := by
  intro all
  let z := ofStreams [] [3, 0] [0, 0, 0, 1] [0, 0, 0, 0] [0, 0, 0, 0]
  have documents : z.Documents [] := documents_ofStreams rfl rfl (by decide)
  exact not_inflate_gzip_nil documents rfl (all z [] documents rfl (by decide)).2

end Compression

/-- The platform whose compression is that of zlib. -/
def Platform.compressing (platform : Platform) (z : Zlib) : Platform :=
  { platform with deflate := Compression.deflate z, gzip := Compression.gzip z }

theorem body_compressing (platform : Platform) (config : Configuration) (req : Request) (z : Zlib)
    (code : StatusCode) (text : Bytes) :
    (Response.make (platform.compressing z) config req code .text .empty text none).body =
      .ok ((platform.compressing z).coding (Response.coding config req) text) := by
  rw [Response.make, Response.init_body, Response.body_text]
  · rw [Response.prepared_fresh rfl rfl]
    rfl
  · rw [Response.prepared_fresh rfl rfl]
    cases Response.coding config req <;> rfl

/-- A text that a response sends as `gzip` is inflated to what it was iff its stream fits. -/
theorem inflate_body_iff {platform : Platform} {config : Configuration} {req : Request} {z : Zlib}
    {code : StatusCode} {text body : Bytes} (documents : z.Documents text)
    (short : text.length < 2 ^ 32) (coded : Response.coding config req = .gzip)
    (sent : (Response.make (platform.compressing z) config req code .text .empty text none).body =
      .ok body) :
    z.inflate .gzip body = some text ↔ Compression.Fits z (-1) (15 ||| 16) text := by
  rw [body_compressing, coded] at sent
  obtain rfl := Except.ok.inj sent
  exact Compression.inflate_gzip_iff documents short

end Viking.Http
