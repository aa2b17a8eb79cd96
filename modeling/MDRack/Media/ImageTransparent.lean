import MDRack.Media.ImagePrepare

/-!
# What the cache of prepared images shows

* `serve` — a sequence of calls of `prepare` on one cache.
* `Call.alone` — the outcome of a call with an empty cache.
* `Agrees` — the entry under the key of a call, if there is one, was made for the same media type
  and revision.

Principal result: `cache_transparent_iff` — the calls of a sequence give what they give alone exactly
when each of them finds a cache that agrees with it.
-/

namespace MDRack.Media.Image

open Checks
open CodePoints (Text)
open Octets (Bytes)
open Recency

structure Call where
  preprocessor : ImagePreprocessor
  request : Request

variable (host : Host)

def Call.prepare (call : Call) (cache : ImagePreparationCache) :
    Except Raised PreparedImage × ImagePreparationCache :=
  call.preprocessor.prepare host call.request cache

/-- The outcomes of the calls, one after the other on one cache. -/
def serve (cache : ImagePreparationCache) : List Call → List (Except Raised PreparedImage)
  | [] => []
  | call :: rest => (call.prepare host cache).1 :: serve (call.prepare host cache).2 rest

def Call.alone (limits : CacheLimits) (call : Call) : Except Raised PreparedImage :=
  (call.prepare host (ImagePreparationCache.new limits)).1

/-- The entry under the key of the call is one for its media type and revision. -/
def Agrees (cache : ImagePreparationCache) (call : Call) : Prop :=
  ∀ key, call.preprocessor.requestKey host call.request = .ok key →
    ∀ image, find key cache.entries = some image →
      image.sourceMediaType = call.request.mediaType ∧
        image.sourceRevision = call.request.sourceRevision

/-- Every call of the sequence finds a cache that agrees with it. -/
def AgreesThroughout (cache : ImagePreparationCache) : List Call → Prop
  | [] => True
  | call :: rest => Agrees host cache call ∧ AgreesThroughout (call.prepare host cache).2 rest

/-! ## Keys -/

theorem utf8_injective {a b : List Char} (h : utf8 a = utf8 b) : a = b := by
  have hbytes : (String.ofList a).toByteArray = (String.ofList b).toByteArray :=
    congrArg List.toByteArray h
  exact String.ofList_injective (String.toByteArray_inj.mp hbytes)

section Keys

variable {host} (hsha : Function.Injective host.sha256)

include hsha

theorem sha256Text_injective {a b : List Char} (h : host.sha256Text a = host.sha256Text b) : a = b :=
  utf8_injective (hsha h)

theorem policyFingerprint_injective {a b : ImageProcessPolicy}
    (h : host.policyFingerprint a = host.policyFingerprint b) : a = b :=
  ImageProcessPolicy.json_injective (Json.asciiText_injective (sha256Text_injective hsha h))

theorem recipeFingerprint_injective {a b : ImageProcessRecipe}
    (h : host.recipeFingerprint a = host.recipeFingerprint b) : a = b :=
  Subtype.ext (RecipeFields.json_injective (Json.asciiText_injective (sha256Text_injective hsha h)))

theorem sha256Digest_injective {a b : Bytes} (h : host.sha256Digest a = host.sha256Digest b) : a = b := by
  have hchars := congrArg String.toList h
  simp only [Host.sha256Digest, String.toList_append] at hchars
  exact hsha (String.toList_injective (List.append_cancel_left hchars))

end Keys

/-- One field of the text of a key can be read off, whatever follows it. -/
theorem keyField_inj {name value value' : String} {rest rest' : List Char}
    (h : Json.plain (keyField name value ++ rest) = Json.plain (keyField name value' ++ rest')) :
    value = value' ∧ Json.plain rest = Json.plain rest' := by
  rw [keyField, keyField, List.append_assoc, List.append_assoc, Json.plain_quoteAscii,
    Json.plain_quoteAscii, List.append_cancel_left_eq, List.cons_append, List.cons_append,
    Json.plain_cons (by decide), Json.plain_cons (by decide), List.cons.injEq, Json.plain_quoteAscii,
    Json.plain_quoteAscii] at h
  obtain ⟨hvalue, hrest⟩ := Json.quoted_inj h.2
  exact ⟨String.toList_injective hvalue, hrest⟩

/-- The key text determines its first three parts, whatever the revisions are. -/
theorem keyText_inj {content content' policy policy' recipe recipe' : String} {revision revision' : Text}
    (h : keyText content policy recipe revision = keyText content' policy' recipe' revision') :
    content = content' ∧ policy = policy' ∧ recipe = recipe' := by
  have hplain := congrArg Json.plain (List.cons.inj h).2
  obtain ⟨hcontent, hrest⟩ := keyField_inj hplain
  rw [Json.plain_cons (by decide), Json.plain_cons (by decide), List.cons.injEq] at hrest
  obtain ⟨hpolicy, hrest⟩ := keyField_inj hrest.2
  rw [Json.plain_cons (by decide), Json.plain_cons (by decide), List.cons.injEq] at hrest
  obtain ⟨hrecipe, -⟩ := keyField_inj hrest.2
  exact ⟨hcontent, hpolicy, hrecipe⟩

theorem requestKey_ok {host : Host} {preprocessor : ImagePreprocessor} {request : Request} {key : String}
    (h : preprocessor.requestKey host request = .ok key) :
    key = host.sha256Text (keyText (host.sha256Digest request.content)
      (host.policyFingerprint preprocessor.policy) (host.recipeFingerprint preprocessor.recipe)
      request.sourceRevision) := by
  simp only [ImagePreprocessor.requestKey, ImagePreprocessor.cacheKey, bind_ok, require_ok] at h
  obtain ⟨_, -, _, -, _, -, _, -, _, -, hkey⟩ := h
  exact (Except.ok.inj hkey).symm

/-- Calls under one key differ in their media types and revisions only. -/
theorem requestKey_inj {host : Host} (hsha : Function.Injective host.sha256) {a b : Call} {key : String}
    (ha : a.preprocessor.requestKey host a.request = .ok key)
    (hb : b.preprocessor.requestKey host b.request = .ok key) :
    a.preprocessor = b.preprocessor ∧ a.request.content = b.request.content := by
  have hkeys := (requestKey_ok ha).symm.trans (requestKey_ok hb)
  obtain ⟨hcontent, hpolicy, hrecipe⟩ := keyText_inj (sha256Text_injective hsha hkeys)
  have hp := policyFingerprint_injective hsha hpolicy
  have hr := recipeFingerprint_injective hsha hrecipe
  refine ⟨?_, sha256Digest_injective hsha hcontent⟩
  cases hpa : a.preprocessor
  cases hpb : b.preprocessor
  simp_all

/-! ## What the cache holds -/

/-- The outcome of a call without a lookup. -/
def Call.outcome (call : Call) : Except Raised PreparedImage := do
  let key ← call.preprocessor.requestKey host call.request
  call.preprocessor.make host call.request key

/-- Every entry is the result of a call under its key. -/
def Genuine (cache : ImagePreparationCache) : Prop :=
  ∀ entry ∈ cache.entries, ∃ call : Call,
    call.preprocessor.requestKey host call.request = .ok entry.1 ∧
      call.preprocessor.make host call.request entry.1 = .ok entry.2

def Sound (limits : CacheLimits) (cache : ImagePreparationCache) : Prop :=
  Genuine host cache ∧ ∃ log, Lawful limits log cache

theorem sound_new (limits : CacheLimits) : Sound host limits (ImagePreparationCache.new limits) := by
  refine ⟨?_, [], lawful_new limits⟩
  intro entry hentry
  cases hentry

variable {host}

theorem preparedImage_ok {content : Bytes} {identity fingerprint key mediaType contentIdentity : String}
    {revision : Text} {decoded : DecodedImage} {alpha : Bool} {image : PreparedImage}
    (h : preparedImage content identity revision fingerprint key mediaType decoded alpha contentIdentity =
      .ok image) : image.sourceMediaType = mediaType ∧ image.sourceRevision = revision := by
  unfold preparedImage at h
  split at h
  · obtain rfl := Except.ok.inj h
    exact ⟨rfl, rfl⟩
  · cases h

/-- A result names the media type and the revision that it was made for. -/
theorem make_ok {preprocessor : ImagePreprocessor} {request : Request} {key : String}
    {image : PreparedImage} (h : preprocessor.make host request key = .ok image) :
    image.sourceMediaType = request.mediaType ∧ image.sourceRevision = request.sourceRevision := by
  unfold ImagePreprocessor.make at h
  simp only [bind_ok, require_ok] at h
  obtain ⟨_, -, _, -, _, -, _, -, _, -, _, -, _, -, himage⟩ := h
  exact preparedImage_ok himage

variable {limits : CacheLimits} {cache : ImagePreparationCache} {call : Call}

/-- What a call does: it is refused, it finds an entry, or it makes its own result. -/
theorem prepare_cases (h : Sound host limits cache) (call : Call) :
    (∃ raised, call.preprocessor.requestKey host call.request = .error raised ∧
      call.prepare host cache = (.error raised, cache)) ∨
    (∃ key image, call.preprocessor.requestKey host call.request = .ok key ∧
      find key cache.entries = some image ∧
      call.prepare host cache = (.ok image, (cache.get key).2)) ∨
    ∃ key, call.preprocessor.requestKey host call.request = .ok key ∧ find key cache.entries = none ∧
      (call.prepare host cache).1 = call.preprocessor.make host call.request key ∧
      Sound host limits (call.prepare host cache).2 := by
  obtain ⟨hgenuine, log, hlawful⟩ := h
  simp only [Call.prepare, ImagePreprocessor.prepare]
  cases hadmitted : call.preprocessor.requestKey host call.request with
  | error raised => exact .inl ⟨raised, rfl, rfl⟩
  | ok key =>
    have hnext := hlawful.get key
    cases hfind : find key cache.entries with
    | some image =>
      refine .inr (.inl ⟨key, image, rfl, hfind, ?_⟩)
      simp only [ImagePreparationCache.get, hfind]
    | none =>
      refine .inr (.inr ⟨key, rfl, hfind, ?_⟩)
      simp only [ImagePreparationCache.get, hfind] at hnext ⊢
      cases hmake : call.preprocessor.make host call.request key with
      | error raised => exact ⟨rfl, hgenuine, _, hnext⟩
      | ok image =>
        have hput := put_eq hnext key image
        simp only [hput]
        refine ⟨trivial, ?_, _, hnext.put hput⟩
        intro entry hentry
        rcases mem_store.mp ((shed_sublist _).subset hentry) with ⟨hold, -⟩ | rfl
        · exact hgenuine entry hold
        · exact ⟨call, hadmitted, hmake⟩

/-- One call keeps what holds of the cache. -/
theorem Sound.prepare (h : Sound host limits cache) (call : Call) :
    Sound host limits (call.prepare host cache).2 := by
  rcases prepare_cases h call with ⟨raised, -, heq⟩ | ⟨key, image, -, hfind, heq⟩ | ⟨key, -, -, -, hnext⟩
  · rw [heq]
    exact h
  · rw [heq]
    obtain ⟨hgenuine, log, hlawful⟩ := h
    refine ⟨?_, _, hlawful.get key⟩
    intro entry hentry
    simp only [ImagePreparationCache.get, hfind] at hentry
    rcases mem_store.mp hentry with ⟨hold, -⟩ | rfl
    · exact hgenuine entry hold
    · exact hgenuine _ (mem_of_find hfind)
  · exact hnext

/-- A call alone does what it does without a lookup. -/
theorem alone_eq (limits : CacheLimits) (call : Call) : call.alone host limits = call.outcome host := by
  rw [Call.alone, Call.outcome]
  rcases prepare_cases (sound_new host limits) call with
    ⟨raised, hadmitted, heq⟩ | ⟨key, image, -, hfind, -⟩ | ⟨key, hadmitted, -, heq, -⟩
  · rw [heq, hadmitted]
    rfl
  · cases hfind
  · rw [heq, hadmitted]
    rfl

/-- One call gives what it gives alone exactly when the cache agrees with it. -/
theorem prepare_transparent_iff (hsha : Function.Injective host.sha256) (h : Sound host limits cache)
    (call : Call) : (call.prepare host cache).1 = call.outcome host ↔ Agrees host cache call := by
  rw [Call.outcome, Agrees]
  rcases prepare_cases h call with
    ⟨raised, hadmitted, heq⟩ | ⟨key, image, hadmitted, hfind, heq⟩ | ⟨key, hadmitted, hfind, heq, -⟩
  · rw [heq, hadmitted]
    refine iff_of_true rfl ?_
    rintro key ⟨⟩
  · rw [heq, hadmitted]
    change Except.ok image = call.preprocessor.make host call.request key ↔ _
    constructor
    · intro hsame key' hkey image' himage
      obtain rfl := Except.ok.inj hkey
      obtain rfl := Option.some.inj (hfind.symm.trans himage)
      exact make_ok hsame.symm
    · intro hagrees
      obtain ⟨hmedia, hrevision⟩ := hagrees key rfl image hfind
      obtain ⟨maker, hkey, hmade⟩ := h.1 _ (mem_of_find hfind)
      obtain ⟨hpreprocessor, hcontent⟩ := requestKey_inj hsha hkey hadmitted
      obtain ⟨hmakerMedia, hmakerRevision⟩ := make_ok hmade
      have hrequest : maker.request = call.request := by
        cases hm : maker.request
        cases hc : call.request
        simp_all
      rw [← hmade, hpreprocessor, hrequest]
  · rw [heq, hadmitted]
    refine iff_of_true rfl ?_
    intro key' hkey image himage
    obtain rfl := Except.ok.inj hkey
    rw [hfind] at himage
    cases himage

/-! ## Every sequence of calls -/

theorem serve_transparent_iff (hsha : Function.Injective host.sha256) (calls : List Call)
    (h : Sound host limits cache) :
    serve host cache calls = calls.map (Call.outcome host) ↔ AgreesThroughout host cache calls := by
  induction calls generalizing cache with
  | nil => exact iff_of_true rfl trivial
  | cons call rest ih =>
    rw [serve, List.map_cons, List.cons.injEq, prepare_transparent_iff hsha h call,
      ih (h.prepare call), AgreesThroughout]

/-- What any sequence of `get`, `put` and `clear` leaves: no call raises, the laws of the cache hold,
and a further `put` evicts in the order of last use. -/
def CacheKept (limits : CacheLimits) (actions : List Action) : Prop :=
  ∃ cache, (ImagePreparationCache.new limits).run actions = some cache ∧
    Lawful limits (actions.map Action.used) cache ∧
    ∀ key value, EvictsInOrder limits (actions.map Action.used) cache key value

theorem cacheKept (limits : CacheLimits) (actions : List Action) : CacheKept limits actions := by
  obtain ⟨cache, hrun, hlawful⟩ := run_lawful limits actions
  exact ⟨cache, hrun, hlawful, fun key value => put_evicts hlawful key value⟩

/-- The cache keeps its laws and is transparent exactly when no call finds an entry that was made for
another media type or revision. -/
theorem cache_transparent_iff (hsha : Function.Injective host.sha256) (limits : CacheLimits)
    (calls : List Call) :
    (serve host (ImagePreparationCache.new limits) calls = calls.map (Call.alone host limits) ∧
        ∀ actions, CacheKept limits actions) ↔
      AgreesThroughout host (ImagePreparationCache.new limits) calls := by
  have halone : calls.map (Call.alone host limits) = calls.map (Call.outcome host) := by
    apply List.map_congr_left
    intro call _
    exact alone_eq limits call
  rw [halone, serve_transparent_iff hsha calls (sound_new host limits)]
  exact and_iff_left (cacheKept limits)

/-! ## One picture under two media types -/

section Sample

def crcStep (c : UInt32) : UInt32 := if c &&& 1 = 1 then (c >>> 1) ^^^ 0xEDB88320 else c >>> 1

def crcOf (bytes : Bytes) : UInt32 :=
  bytes.foldl (fun c byte => Nat.iterate crcStep 8 (c ^^^ byte.toUInt32)) 0xFFFFFFFF ^^^ 0xFFFFFFFF

/-- A digest that keeps every octet. -/
def spell (bytes : Bytes) : String := String.ofList (bytes.map fun byte => Char.ofNat byte.toNat)

theorem octet_char (byte : UInt8) : (Char.ofNat byte.toNat).toNat = byte.toNat := by
  have hall : ∀ n : Fin 256, (Char.ofNat n.val).toNat = n.val := by decide +kernel
  exact hall ⟨byte.toNat, byte.toNat_lt⟩

theorem spell_injective : Function.Injective spell := by
  intro a b h
  have hchars : a.map (fun byte => Char.ofNat byte.toNat) = b.map (fun byte => Char.ofNat byte.toNat) :=
    String.ofList_injective h
  apply List.map_injective_iff.mpr _ hchars
  intro x y hxy
  apply UInt8.toNat_inj.mp
  rw [← octet_char x, ← octet_char y]
  exact congrArg Char.toNat hxy

/-- One red pixel, and what the decoder of one PNG picture says. -/
def sampleHost : Host where
  sha256 := spell
  decode _ mediaType _ :=
    if mediaType = "image/png" then .ok ⟨1, 1, [0xFF0000FF], 1, mediaType⟩
    else .error (.preparation "image_decode_failed")
  resizeLegacyBilinear _ _ _ _ _ := .ok []
  resizeSelected _ _ _ _ _ := .ok []
  compress _ := [0x78, 0xDA, 0x63, 0xF8, 0xCF, 0xC0, 0x00, 0x00, 0x03, 0x01, 0x01, 0x00]
  crc32 := crcOf

def samplePng : Bytes := [
  0x89, 0x50, 0x4E, 0x47, 0x0D, 0x0A, 0x1A, 0x0A, 0x00, 0x00, 0x00, 0x0D, 0x49, 0x48, 0x44, 0x52, 0x00, 0x00,
  0x00, 0x01, 0x00, 0x00, 0x00, 0x01, 0x08, 0x02, 0x00, 0x00, 0x00, 0x90, 0x77, 0x53, 0xDE, 0x00, 0x00, 0x00,
  0x0C, 0x49, 0x44, 0x41, 0x54, 0x78, 0xDA, 0x63, 0xF8, 0xCF, 0xC0, 0x00, 0x00, 0x03, 0x01, 0x01, 0x00, 0xF7,
  0x03, 0x41, 0x43, 0x00, 0x00, 0x00, 0x00, 0x49, 0x45, 0x4E, 0x44, 0xAE, 0x42, 0x60, 0x82]

def zeros : Binary64.F64 × Binary64.F64 × Binary64.F64 :=
  (Binary64.F64.zero, Binary64.F64.zero, Binary64.F64.zero)

def sampleFields : RecipeFields where
  version := "mdrack-ordinary-image-gemma4v-native-geometry-v3"
  width := 224
  height := 224
  colorModel := "rgb"
  geometry := "native-dyn-size-source-rgb"
  alphaPolicy := "composite-white"
  orientationPolicy := "exif-normalize"
  decoder := "windows-wic-v1"
  modelProjector := "gemma4v"
  modelImageSize := 224
  modelPatchSize := 16
  modelImageMean := zeros
  modelImageStd := zeros
  processorArtifactSha256 := ""
  nativeRuntimeSha256 := ""
  modelMetadataSha256 := "1a1a3195cd31fb9df57ed387001bad4e22f97e098551149f4cf5448121fd4b68"
  padStyle := "native"
  padColor := "native"
  bicubicKernel := "native-owned"
  geometryAuthority := "selected-gemma4v-dyn-size-enum13"
  interpolationAuthority := "native-mtmd-dyn-size-bicubic"
  padAuthority := "native-mtmd-dyn-size-center-black"
  padColorAuthority := "native-mtmd-dyn-size"
  bicubicKernelAuthority := "native-mtmd-dyn-size"
  alphaAuthority := "caller-policy-no-selected-background-key"
  tensorOwner := "pinned-mtmd-dyn-size"
  nativeTarget := "dyn_size"
  projectorPatchSize := 16
  projectorScaleFactor := 3
  nativeTargetFactor := 48
  imageMinTokens := 70
  imageMaxTokens := 1120

theorem sampleFields_admitted : sampleFields.admitted = true := by decide +kernel

theorem samplePolicy_positive : ∀ value ∈ ([33554432, 16777216, 8192, 67108864, 67108864, 8192, 8192,
    50331648] : List Int), 1 ≤ value := by decide

def samplePreprocessor : ImagePreprocessor where
  recipe := ⟨sampleFields, sampleFields_admitted⟩
  policy := ⟨33554432, 16777216, 8192, 67108864, 67108864, 8192, 8192, 50331648, samplePolicy_positive⟩

def sampleLimits : CacheLimits where
  maxEntries := 8
  maxBytes := 8 * 1024 * 1024
  entries_pos := by decide
  bytes_pos := by decide

def sampleCall (mediaType : String) : Call :=
  ⟨samplePreprocessor, samplePng, mediaType, [.char 'r']⟩

end Sample

theorem cache_transparent_iff_sample :
    (serve sampleHost (ImagePreparationCache.new sampleLimits) [sampleCall "image/png"] =
          [sampleCall "image/png"].map (Call.alone sampleHost sampleLimits) ∧
        ∀ actions, CacheKept sampleLimits actions) ↔
      AgreesThroughout sampleHost (ImagePreparationCache.new sampleLimits) [sampleCall "image/png"] :=
  cache_transparent_iff spell_injective sampleLimits [sampleCall "image/png"]

/-- Two calls under one key, the first of which is served: the second gives the same picture. -/
theorem serve_twice {first second : Call} {key : String} {image : PreparedImage}
    (hfirst : first.preprocessor.requestKey host first.request = .ok key)
    (hsecond : second.preprocessor.requestKey host second.request = .ok key)
    (hmake : first.preprocessor.make host first.request key = .ok image)
    (hsize : image.size ≤ limits.maxBytes) :
    serve host (ImagePreparationCache.new limits) [first, second] = [.ok image, .ok image] := by
  have hfits : Fits limits [(key, image)] := ⟨limits.entries_pos, hsize⟩
  have hshed : shed (Fits limits) (store key image []) = [(key, image)] := if_pos hfits
  have hnext := (lawful_new limits).get key
  have hput := put_eq hnext key image
  have hmiss : ((ImagePreparationCache.new limits).get key).2.entries = [] := rfl
  rw [hmiss, hshed] at hput
  have hfirstServed : first.prepare host (ImagePreparationCache.new limits) = (.ok image,
      { ((ImagePreparationCache.new limits).get key).2 with
        entries := [(key, image)], bytes := held [(key, image)] }) := by
    have hfind : find key (ImagePreparationCache.new limits).entries = none := rfl
    simp only [ImagePreparationCache.get, hfind] at hput
    simp only [Call.prepare, ImagePreprocessor.prepare, hfirst, ImagePreparationCache.get, hfind, hmake,
      hput]
  have hfound : find key [(key, image)] = some image := by simp [find]
  rw [serve, serve, serve, hfirstServed]
  simp only [Call.prepare, ImagePreprocessor.prepare, hsecond, ImagePreparationCache.get, hfound]

theorem sample_requestKey {mediaType : String} (h : mediaType ∈ sourceMediaTypes) :
    samplePreprocessor.requestKey sampleHost (sampleCall mediaType).request =
      .ok (sampleHost.sha256Text (keyText (sampleHost.sha256Digest samplePng)
        (sampleHost.policyFingerprint samplePreprocessor.policy)
        (sampleHost.recipeFingerprint samplePreprocessor.recipe) [.char 'r'])) := by
  have hcontent : (sampleCall mediaType).request.content ≠ [] := List.cons_ne_nil _ _
  have hmedia : (sampleCall mediaType).request.mediaType ∈ sourceMediaTypes := h
  have hsize : ((sampleCall mediaType).request.content.length : Int) ≤
      samplePreprocessor.policy.maxSourceBytes := (by decide : (69 : Int) ≤ 33554432)
  simp only [ImagePreprocessor.requestKey, require, if_pos hcontent, if_pos hmedia, if_pos hsize]
  rfl

theorem sample_make {key : String} (hkey : key ≠ "") : ∃ image,
    samplePreprocessor.make sampleHost (sampleCall "image/png").request key = .ok image ∧
      image.content = samplePng := by
  have hdecoded : decodeSource sampleHost (sampleCall "image/png").request samplePreprocessor.policy =
      .ok ⟨1, 1, [0xFF0000FF], 1, "image/png"⟩ := rfl
  have hchecked : checkDecoded samplePreprocessor.policy ⟨1, 1, [0xFF0000FF], 1, "image/png"⟩ = .ok () := by
    decide +kernel
  have horiented : applyOrientation [0xFF0000FF] 1 1 1 = .ok (([0xFF0000FF] : Pixels), 1, 1) := by
    decide +kernel
  have hopaque : hasAlpha [0xFF0000FF] = false := by decide +kernel
  have hrendered : samplePreprocessor.renderRgb sampleHost [0xFF0000FF] 1 1 = .ok ([0xFF, 0, 0], 1, 1) := by
    decide +kernel
  have hencoded : encodePng sampleHost [0xFF, 0, 0] 1 1 = .ok samplePng := by decide +kernel
  have hsize : (samplePng.length : Int) ≤ samplePreprocessor.policy.maxPreparedBytes :=
    (by decide : (69 : Int) ≤ 67108864)
  have hpng : isPngRgb samplePng 1 1 = true := by decide +kernel
  have htagged : "sha256:".toList <+: (sampleHost.sha256Digest samplePng).toList := by
    rw [Host.sha256Digest, String.toList_append]
    exact List.prefix_append _ _
  have hfields : samplePng ≠ [] ∧ "sha256:".toList <+: (sampleHost.sha256Digest samplePng).toList ∧
      key ≠ "" := ⟨List.cons_ne_nil _ _, htagged, hkey⟩
  simp only [ImagePreprocessor.make, hdecoded, bind, Except.bind, hchecked, horiented, hopaque,
    Bool.false_eq_true, if_false, hrendered, hencoded, require, if_pos hsize, if_pos hpng,
    preparedImage, dif_pos hfields]
  exact ⟨_, rfl, rfl⟩

/-- A picture that was prepared as PNG is served where it is declared as JPEG, which the decoder
refuses. -/
theorem cache_serves_other_media_type :
    serve sampleHost (ImagePreparationCache.new sampleLimits)
        [sampleCall "image/png", sampleCall "image/jpeg"] ≠
      [sampleCall "image/png", sampleCall "image/jpeg"].map (Call.alone sampleHost sampleLimits) := by
  have hkey : sampleHost.sha256Text (keyText (sampleHost.sha256Digest samplePng)
      (sampleHost.policyFingerprint samplePreprocessor.policy)
      (sampleHost.recipeFingerprint samplePreprocessor.recipe) [.char 'r']) ≠ "" := by
    intro hempty
    have hchars := congrArg String.toList hempty
    simp [Host.sha256Text, sampleHost, spell, utf8, keyText] at hchars
  obtain ⟨image, hmake, hcontent⟩ := sample_make hkey
  have hsize : image.size ≤ sampleLimits.maxBytes := by
    rw [PreparedImage.size, hcontent]
    decide
  have hserved : serve sampleHost (ImagePreparationCache.new sampleLimits)
      [sampleCall "image/png", sampleCall "image/jpeg"] = [.ok image, .ok image] :=
    serve_twice (sample_requestKey (by decide)) (sample_requestKey (by decide)) hmake hsize
  rw [hserved]
  intro heq
  have hsecond := (List.cons.inj (List.cons.inj heq).2).1
  rw [alone_eq, Call.outcome] at hsecond
  have hjpeg : "image/jpeg" ∈ sourceMediaTypes := by decide
  have hadmitted := sample_requestKey hjpeg
  simp only [sampleCall] at hadmitted hsecond
  rw [hadmitted] at hsecond
  cases hsecond

end MDRack.Media.Image
