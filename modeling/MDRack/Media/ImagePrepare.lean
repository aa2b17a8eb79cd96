import MDRack.Lib.Checks
import MDRack.Lib.JsonAscii
import MDRack.Media.ImageCache
import MDRack.Media.Orientation

/-!
# Preparing a picture (`image_preprocessing`)

* `ImageProcessPolicy`, `ImageProcessRecipe` — budgets and processor identity, each with the
  fingerprint of all its fields.
* `ImagePreprocessor.cacheKey` — the key under which the cache keeps a result.
* `ImagePreprocessor.prepare` — the checks on the source, the lookup, and the preparation proper.

The decoder, the resizing kernels, `hashlib.sha256` and `zlib` are the fields of `Host`.
-/

namespace MDRack.Media.Image

open Binary64 (F64)
open Checks
open CodePoints (Text)
open Json (Value)
open Octets (Bytes ascii slice)

abbrev Pixels := List UInt32

/-! ## Budgets and recipe -/

structure ImageProcessPolicy where
  maxSourceBytes : Int
  maxPixels : Int
  maxDimension : Int
  maxDecodedBytes : Int
  maxPreparedBytes : Int
  maxPreparedWidth : Int
  maxPreparedHeight : Int
  maxPreparedRgbBytes : Int
  positive : ∀ value ∈ [maxSourceBytes, maxPixels, maxDimension, maxDecodedBytes, maxPreparedBytes,
    maxPreparedWidth, maxPreparedHeight, maxPreparedRgbBytes], 1 ≤ value

/-- `asdict`, with its keys in order. -/
def ImageProcessPolicy.json (policy : ImageProcessPolicy) : Value := .obj [
  ("max_decoded_bytes", .int policy.maxDecodedBytes),
  ("max_dimension", .int policy.maxDimension),
  ("max_pixels", .int policy.maxPixels),
  ("max_prepared_bytes", .int policy.maxPreparedBytes),
  ("max_prepared_height", .int policy.maxPreparedHeight),
  ("max_prepared_rgb_bytes", .int policy.maxPreparedRgbBytes),
  ("max_prepared_width", .int policy.maxPreparedWidth),
  ("max_source_bytes", .int policy.maxSourceBytes)]

structure RecipeFields where
  version : String
  width : Int
  height : Int
  colorModel : String
  geometry : String
  alphaPolicy : String
  orientationPolicy : String
  decoder : String
  modelProjector : String
  modelImageSize : Int
  modelPatchSize : Int
  modelImageMean : F64 × F64 × F64
  modelImageStd : F64 × F64 × F64
  processorArtifactSha256 : String
  nativeRuntimeSha256 : String
  modelMetadataSha256 : String
  padStyle : String
  padColor : String
  bicubicKernel : String
  geometryAuthority : String
  interpolationAuthority : String
  padAuthority : String
  padColorAuthority : String
  bicubicKernelAuthority : String
  alphaAuthority : String
  tensorOwner : String
  nativeTarget : String
  projectorPatchSize : Int
  projectorScaleFactor : Int
  nativeTargetFactor : Int
  imageMinTokens : Int
  imageMaxTokens : Int
  deriving DecidableEq

def isSha256Hex (value : String) : Bool :=
  value.toList.length == 64 && value.toList.all fun c => c ∈ "0123456789abcdef".toList

namespace RecipeFields

def legacy (fields : RecipeFields) : Bool :=
  fields.geometry == "full-frame-bilinear" && fields.padStyle == "none" &&
  fields.padColor == "black" && fields.bicubicKernel == "not-used" &&
  fields.geometryAuthority == "caller-policy-legacy-full-frame" &&
  fields.interpolationAuthority == "caller-policy-legacy-bilinear" &&
  fields.padAuthority == "caller-policy-legacy-no-pad" &&
  fields.padColorAuthority == "caller-policy-legacy" &&
  fields.bicubicKernelAuthority == "caller-policy-legacy"

def selected (fields : RecipeFields) : Bool :=
  fields.geometry == "fit-center-pad-bicubic" && fields.padStyle == "center" &&
  fields.padColor == "black" && fields.bicubicKernel == "keys-a-minus-0.5-antialiased-v1" &&
  fields.geometryAuthority == "selected-gemma4v-fixed-size-enum13" &&
  fields.interpolationAuthority == "selected-load-hparams-bicubic-enum1" &&
  fields.padAuthority == "selected-hparams-constructor-pad-slot1-center" &&
  fields.padColorAuthority == "selected-hparams-constructor-zero-black" &&
  fields.bicubicKernelAuthority == "caller-implementation-of-selected-bicubic-mode"

def nativeGeometry (fields : RecipeFields) : Bool :=
  fields.geometry == "native-dyn-size-source-rgb" && fields.padStyle == "native" &&
  fields.padColor == "native" && fields.bicubicKernel == "native-owned" &&
  fields.geometryAuthority == "selected-gemma4v-dyn-size-enum13" &&
  fields.interpolationAuthority == "native-mtmd-dyn-size-bicubic" &&
  fields.padAuthority == "native-mtmd-dyn-size-center-black" &&
  fields.padColorAuthority == "native-mtmd-dyn-size" &&
  fields.bicubicKernelAuthority == "native-mtmd-dyn-size" &&
  fields.tensorOwner == "pinned-mtmd-dyn-size" && fields.nativeTarget == "dyn_size" &&
  fields.projectorPatchSize == 16 && fields.projectorScaleFactor == 3 &&
  fields.nativeTargetFactor == 48 && fields.imageMinTokens == 70 && fields.imageMaxTokens == 1120

/-- What `__post_init__` lets through. -/
def admitted (fields : RecipeFields) : Bool :=
  fields.version != "" && fields.modelProjector != "" && fields.decoder != "" &&
  decide (1 ≤ fields.width) && decide (1 ≤ fields.height) && fields.colorModel == "rgb" &&
  fields.alphaPolicy == "composite-white" && fields.orientationPolicy == "exif-normalize" &&
  (fields.legacy || fields.selected || fields.nativeGeometry) &&
  fields.alphaAuthority == "caller-policy-no-selected-background-key" &&
  (fields.tensorOwner == "pinned-mtmd-fixed-size" || fields.tensorOwner == "pinned-mtmd-dyn-size") &&
  [fields.processorArtifactSha256, fields.nativeRuntimeSha256, fields.modelMetadataSha256].all
    fun digest => digest == "" || isSha256Hex digest

def floats (triple : F64 × F64 × F64) : Value :=
  .arr [.float triple.1, .float triple.2.1, .float triple.2.2]

/-- The fields by name, with the names in order. -/
def json (fields : RecipeFields) : Value := .obj [
  ("alpha_authority", .str fields.alphaAuthority),
  ("alpha_policy", .str fields.alphaPolicy),
  ("bicubic_kernel", .str fields.bicubicKernel),
  ("bicubic_kernel_authority", .str fields.bicubicKernelAuthority),
  ("color_model", .str fields.colorModel),
  ("decoder", .str fields.decoder),
  ("geometry", .str fields.geometry),
  ("geometry_authority", .str fields.geometryAuthority),
  ("height", .int fields.height),
  ("image_max_tokens", .int fields.imageMaxTokens),
  ("image_min_tokens", .int fields.imageMinTokens),
  ("interpolation_authority", .str fields.interpolationAuthority),
  ("model_image_mean", floats fields.modelImageMean),
  ("model_image_size", .int fields.modelImageSize),
  ("model_image_std", floats fields.modelImageStd),
  ("model_metadata_sha256", .str fields.modelMetadataSha256),
  ("model_patch_size", .int fields.modelPatchSize),
  ("model_projector", .str fields.modelProjector),
  ("native_runtime_sha256", .str fields.nativeRuntimeSha256),
  ("native_target", .str fields.nativeTarget),
  ("native_target_factor", .int fields.nativeTargetFactor),
  ("orientation_policy", .str fields.orientationPolicy),
  ("pad_authority", .str fields.padAuthority),
  ("pad_color", .str fields.padColor),
  ("pad_color_authority", .str fields.padColorAuthority),
  ("pad_style", .str fields.padStyle),
  ("processor_artifact_sha256", .str fields.processorArtifactSha256),
  ("projector_patch_size", .int fields.projectorPatchSize),
  ("projector_scale_factor", .int fields.projectorScaleFactor),
  ("tensor_owner", .str fields.tensorOwner),
  ("version", .str fields.version),
  ("width", .int fields.width)]

theorem floats_injective {a b : F64 × F64 × F64} (h : floats a = floats b) : a = b := by
  simp only [floats, Value.arr.injEq, List.cons.injEq, Value.float.injEq, and_true] at h
  exact Prod.ext h.1 (Prod.ext h.2.1 h.2.2)

theorem json_injective {a b : RecipeFields} (h : a.json = b.json) : a = b := by
  simp only [json, Value.obj.injEq, List.cons.injEq, Prod.mk.injEq, Value.str.injEq, Value.int.injEq,
    true_and, and_true] at h
  cases a
  cases b
  simp only [RecipeFields.mk.injEq]
  have hmean := floats_injective h.2.2.2.2.2.2.2.2.2.2.2.2.1
  have hstd := floats_injective h.2.2.2.2.2.2.2.2.2.2.2.2.2.2.1
  simp_all

end RecipeFields

/-- A recipe that `__post_init__` lets through. -/
abbrev ImageProcessRecipe := { fields : RecipeFields // fields.admitted = true }

theorem ImageProcessPolicy.json_injective {a b : ImageProcessPolicy} (h : a.json = b.json) : a = b := by
  simp only [ImageProcessPolicy.json, Value.obj.injEq, List.cons.injEq, Prod.mk.injEq, Value.int.injEq,
    true_and, and_true] at h
  cases a
  cases b
  simp_all

/-! ## Digests and keys -/

structure DecodedImage where
  width : Int
  height : Int
  pixels : Pixels
  orientation : Int
  sourceMediaType : String

/-- What the preparation takes from outside, and its kernels in floating point. -/
structure Host where
  sha256 : Bytes → String
  decode : Bytes → String → ImageProcessPolicy → Except Raised DecodedImage
  resizeLegacyBilinear : Pixels → Int → Int → Int → Int → Except Raised Bytes
  resizeSelected : Pixels → Int → Int → Int → Int → Except Raised Bytes
  compress : Bytes → Bytes
  crc32 : Bytes → UInt32

/-- `text.encode("utf-8")`. -/
def utf8 (text : List Char) : Bytes := text.flatMap String.utf8EncodeChar

namespace Host

variable (host : Host)

def sha256Text (text : List Char) : String := host.sha256 (utf8 text)

def sha256Digest (value : Bytes) : String := "sha256:" ++ host.sha256 value

def policyFingerprint (policy : ImageProcessPolicy) : String :=
  host.sha256Text (Json.asciiText policy.json)

def recipeFingerprint (recipe : ImageProcessRecipe) : String :=
  host.sha256Text (Json.asciiText recipe.val.json)

end Host

/-- A name and an ASCII string, as in the text of an object. -/
def keyField (name value : String) : List Char :=
  Json.quoteAscii name.toList ++ ':' :: Json.quoteAscii value.toList

/-- `_canonical_json` of the four parts of a key. -/
def keyText (contentIdentity policy recipe : String) (revision : Text) : List Char :=
  '\x7b' :: (keyField "content_identity" contentIdentity ++ ',' :: (keyField "policy" policy ++
    ',' :: (keyField "processor_recipe" recipe ++ ',' ::
      (Json.quoteAscii "source_revision".toList ++ ':' :: (Json.quotePoints revision ++ ['\x7d'])))))

structure ImagePreprocessor where
  recipe : ImageProcessRecipe
  policy : ImageProcessPolicy

/-- The arguments of `prepare`. -/
structure Request where
  content : Bytes
  mediaType : String
  sourceRevision : Text

def ImagePreprocessor.cacheKey (host : Host) (preprocessor : ImagePreprocessor) (content : Bytes)
    (sourceRevision : Text) : Except Raised String := do
  require (content ≠ []) (.value "image_source_revision_invalid")
  require (sourceRevision ≠ []) (.value "image_source_revision_invalid")
  .ok (host.sha256Text (keyText (host.sha256Digest content)
    (host.policyFingerprint preprocessor.policy) (host.recipeFingerprint preprocessor.recipe)
    sourceRevision))

/-! ## Pixels -/

/-- A pixel is `R | G<<8 | B<<16 | A<<24`. -/
def channel (value : UInt32) (shift : Nat) : Nat := value.toNat / 2 ^ shift % 256

def hasAlpha (pixels : Pixels) : Bool := pixels.any fun value => channel value 24 != 255

/-- One pixel of `_composite_white`. -/
def compositeWhite (value : UInt32) : UInt32 :=
  let a := channel value 24
  let blended := fun shift : Nat => (channel value shift * a + 255 * (255 - a) + 127) / 255
  if a = 255 then value
  else UInt32.ofNat (0xFF000000 + blended 16 * 2 ^ 16 + blended 8 * 2 ^ 8 + blended 0)

def pixelsToRgb (pixels : Pixels) : Bytes :=
  pixels.flatMap fun value =>
    [UInt8.ofNat (channel value 0), UInt8.ofNat (channel value 8), UInt8.ofNat (channel value 16)]

/-! ## The PNG text -/

def pngSignature : Bytes := [0x89, 0x50, 0x4E, 0x47, 0x0D, 0x0A, 0x1A, 0x0A]

/-- `struct.pack(">I", n)`. -/
def packBig (n : Int) : Except Raised Bytes :=
  if 0 ≤ n ∧ n < 0x100000000 then .ok (Octets.toBig 4 n.toNat) else .error .struct

def pngChunk (host : Host) (kind data : Bytes) : Except Raised Bytes := do
  let length ← packBig data.length
  let crc ← packBig (host.crc32 (kind ++ data)).toNat
  .ok (length ++ kind ++ data ++ crc)

def encodePng (host : Host) (rgb : Bytes) (width height : Int) : Except Raised Bytes := do
  let stride := width * 3
  require ((rgb.length : Int) = stride * height) (.preparation "image_prepared_invalid")
  let raw := ((List.range height.toNat).map fun y : Nat =>
    0 :: slice rgb (y * stride.toNat) ((y + 1) * stride.toNat)).flatten
  let packedWidth ← packBig width
  let packedHeight ← packBig height
  let header ← pngChunk host (ascii "IHDR") (packedWidth ++ packedHeight ++ [8, 2, 0, 0, 0])
  let data ← pngChunk host (ascii "IDAT") (host.compress raw)
  let trailer ← pngChunk host (ascii "IEND") []
  .ok (pngSignature ++ header ++ data ++ trailer)

def isPngRgb (content : Bytes) (width height : Int) : Bool :=
  decide (33 ≤ content.length) && slice content 0 8 == pngSignature &&
  slice content 8 16 == [0, 0, 0, 0x0D] ++ ascii "IHDR" &&
  decide ((Octets.big (slice content 16 20) : Int) = width) &&
  decide ((Octets.big (slice content 20 24) : Int) = height) && slice content 24 29 == [8, 2, 0, 0, 0]

/-! ## Preparing -/

def sourceMediaTypes : List String := ["image/jpeg", "image/png", "image/webp"]

/-- The constructor of `PreparedImage` with its checks. -/
def preparedImage (content : Bytes) (identity : String) (sourceRevision : Text)
    (recipeFingerprint cacheKey sourceMediaType : String) (decoded : DecodedImage)
    (alphaComposited : Bool) (contentIdentity : String) : Except Raised PreparedImage :=
  if h : content ≠ [] ∧ "sha256:".toList <+: identity.toList ∧ cacheKey ≠ "" then
    .ok { content, identity, sourceRevision, recipeFingerprint, cacheKey, sourceMediaType,
          sourceWidth := decoded.width, sourceHeight := decoded.height,
          orientation := decoded.orientation, alphaComposited, contentIdentity,
          content_ne := h.1, identity_tagged := h.2.1, key_ne := h.2.2 }
  else .error (.value "prepared_image_invalid")

/-- The decoder's own refusals pass, its failures become one. -/
def decodeSource (host : Host) (request : Request) (policy : ImageProcessPolicy) :
    Except Raised DecodedImage :=
  match host.decode request.content request.mediaType policy with
  | .ok decoded => .ok decoded
  | .error (.preparation code) => .error (.preparation code)
  | .error .os => .error (.preparation "image_decode_failed")
  | .error (.value _) => .error (.preparation "image_decode_failed")
  | .error .struct => .error (.preparation "image_decode_failed")
  | .error (.other name) => .error (.other name)

def checkDecoded (policy : ImageProcessPolicy) (decoded : DecodedImage) : Except Raised Unit := do
  let pixelCount := decoded.width * decoded.height
  require (1 ≤ decoded.orientation ∧ decoded.orientation ≤ 8) (.preparation "image_decode_failed")
  require (1 ≤ decoded.width ∧ 1 ≤ decoded.height ∧ decoded.width ≤ policy.maxDimension ∧
    decoded.height ≤ policy.maxDimension) (.preparation "image_dimensions_too_large")
  require (pixelCount ≤ policy.maxPixels) (.preparation "image_pixels_too_large")
  require (pixelCount * 4 ≤ policy.maxDecodedBytes) (.preparation "image_decoded_too_large")

namespace ImagePreprocessor

variable (host : Host) (preprocessor : ImagePreprocessor)

/-- The branch of the geometry: the RGB octets with their width and height. -/
def renderRgb (pixels : Pixels) (width height : Int) : Except Raised (Bytes × Int × Int) :=
  let recipe := preprocessor.recipe.val
  let policy := preprocessor.policy
  if recipe.geometry = "native-dyn-size-source-rgb" then do
    require (width ≤ policy.maxPreparedWidth ∧ height ≤ policy.maxPreparedHeight ∧
      width * height ≤ policy.maxPixels ∧ width * height * 3 ≤ policy.maxPreparedRgbBytes)
      (.preparation "image_prepared_too_large")
    .ok (pixelsToRgb pixels, width, height)
  else if recipe.geometry = "fit-center-pad-bicubic" then do
    let rgb ← host.resizeSelected pixels width height recipe.width recipe.height
    .ok (rgb, recipe.width, recipe.height)
  else do
    let rgb ← host.resizeLegacyBilinear pixels width height recipe.width recipe.height
    .ok (rgb, recipe.width, recipe.height)

/-- `prepare` up to the lookup: the key of the request. -/
def requestKey (request : Request) : Except Raised String := do
  require (request.content ≠ []) (.preparation "image_source_empty")
  require (request.mediaType ∈ sourceMediaTypes) (.preparation "image_format_unsupported")
  require (request.content.length ≤ preprocessor.policy.maxSourceBytes)
    (.preparation "image_source_too_large")
  preprocessor.cacheKey host request.content request.sourceRevision

/-- `prepare` from the lookup to the result. -/
def make (request : Request) (key : String) : Except Raised PreparedImage := do
  let decoded ← decodeSource host request preprocessor.policy
  checkDecoded preprocessor.policy decoded
  let (pixels, width, height) ←
    applyOrientation decoded.pixels decoded.width decoded.height decoded.orientation
  let alpha := hasAlpha pixels
  let solid := if alpha then pixels.map compositeWhite else pixels
  let (rgb, preparedWidth, preparedHeight) ← preprocessor.renderRgb host solid width height
  let encoded ← encodePng host rgb preparedWidth preparedHeight
  require (encoded.length ≤ preprocessor.policy.maxPreparedBytes)
    (.preparation "image_prepared_too_large")
  require (isPngRgb encoded preparedWidth preparedHeight) (.preparation "image_prepared_invalid")
  preparedImage encoded (host.sha256Digest encoded) request.sourceRevision
    (host.recipeFingerprint preprocessor.recipe) key request.mediaType decoded alpha
    (host.sha256Digest request.content)

/-- The result with the cache that is left. -/
def prepare (request : Request) (cache : ImagePreparationCache) :
    Except Raised PreparedImage × ImagePreparationCache :=
  match preprocessor.requestKey host request with
  | .error raised => (.error raised, cache)
  | .ok key =>
    match cache.get key with
    | (some cached, cache) => (.ok cached, cache)
    | (none, cache) =>
      match preprocessor.make host request key with
      | .error raised => (.error raised, cache)
      | .ok result =>
        match cache.put key result with
        | none => (.error (.other "KeyError"), cache)
        | some cache => (.ok result, cache)

end ImagePreprocessor

end MDRack.Media.Image
