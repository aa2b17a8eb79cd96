import MDRack.Lib.Octets
import MDRack.Lib.Checks

/-!
# Finding the orientation of a picture (`image_preprocessing`)

* `jpegExif`, `pngExif`, `webpExif` — the walkers that find the EXIF block of a container.
* `tiffOrientation` — the orientation entry of the first directory of a block.
* `exifOrientation` — the orientation of a picture; `containerLooksComplete` — the gate before decoding.

Every read here is strict: one that reached outside the octets would be an error, where Python would
cut a slice short.

Principal results: `orientationOf_inRange`, `containerLooksComplete_inside` — no read reaches
outside; `exifOrientation_range`.
-/

namespace MDRack.Media.Exif

open Octets

def pngSignature : Bytes := [0x89, 0x50, 0x4E, 0x47, 0x0D, 0x0A, 0x1A, 0x0A]

/-- `b"Exif\x00\x00"`. -/
def exifHeader : Bytes := ascii "Exif" ++ [0, 0]

/-! ## Containers -/

/-- The loop of `_png_exif`. -/
def pngExifFrom (content : Bytes) (index : Nat) : Except Outside (Option Bytes) :=
  if index + 12 ≤ content.length then do
    let length ← Endian.big.readAt content index (index + 4)
    let kind ← within content (index + 4) (index + 8)
    let stop := index + 12 + length
    if stop > content.length then .ok none
    else if kind = ascii "eXIf" then do
      let payload ← within content (index + 8) (index + 8 + length)
      .ok (some payload)
    else if kind = ascii "IEND" then .ok none
    else pngExifFrom content stop
  else .ok none
termination_by content.length - index

def pngExif (content : Bytes) : Except Outside (Option Bytes) :=
  if pngSignature <+: content then pngExifFrom content 8 else .ok none

/-- The loop of `_webp_exif`. -/
def webpExifFrom (content : Bytes) (index : Nat) : Except Outside (Option Bytes) :=
  if index + 8 ≤ content.length then do
    let kind ← within content index (index + 4)
    let length ← Endian.little.readAt content (index + 4) (index + 8)
    let stop := index + 8 + length
    if stop > content.length then .ok none
    else if kind = ascii "EXIF" then do
      let payload ← within content (index + 8) stop
      .ok (some (if exifHeader <+: payload then payload.drop 6 else payload))
    else webpExifFrom content (stop + length % 2)
  else .ok none
termination_by content.length - index

def webpExif (content : Bytes) : Except Outside (Option Bytes) :=
  if content.length < 12 then .ok none
  else do
    let riff ← within content 0 4
    let webp ← within content 8 12
    if riff ≠ ascii "RIFF" ∨ webp ≠ ascii "WEBP" then .ok none else webpExifFrom content 12

/-- The first place from `index` on that holds no fill byte. -/
def skipFill (content : Bytes) (index : Nat) : Except Outside Nat :=
  if index < content.length then do
    let byte ← byteAt content index
    if byte = 0xFF then skipFill content (index + 1) else .ok index
  else .ok index
termination_by content.length - index

theorem skipFill_ge {content : Bytes} {index next : Nat} (h : skipFill content index = .ok next) :
    index ≤ next := by
  rw [skipFill] at h
  split at h
  · rw [Checks.bind_ok] at h
    obtain ⟨byte, -, h⟩ := h
    split at h
    · exact Nat.le_of_succ_le (skipFill_ge h)
    · exact Nat.le_of_eq (Except.ok.inj h)
  · exact Nat.le_of_eq (Except.ok.inj h)
termination_by content.length - index

/-- The loop of `_jpeg_exif`. -/
def jpegExifFrom (content : Bytes) (index : Nat) : Except Outside (Option Bytes) :=
  if index + 4 ≤ content.length then
    match byteAt content index with
    | .error e => .error e
    | .ok byte =>
      if byte ≠ 0xFF then jpegExifFrom content (index + 1)
      else
        match hfill : skipFill content index with
        | .error e => .error e
        | .ok next =>
          have _ := skipFill_ge hfill
          if next ≥ content.length then .ok none
          else do
            let marker ← byteAt content next
            let index := next + 1
            if marker = 0xD8 ∨ marker = 0xD9 then jpegExifFrom content index
            else if marker = 0xDA then .ok none
            else if index + 2 > content.length then .ok none
            else do
              let length ← Endian.big.readAt content index (index + 2)
              if length < 2 ∨ index + length > content.length then .ok none
              else do
                let payload ← within content (index + 2) (index + length)
                if marker = 0xE1 ∧ exifHeader <+: payload then .ok (some (payload.drop 6))
                else jpegExifFrom content (index + length)
  else .ok none
termination_by content.length - index

def jpegExif (content : Bytes) : Except Outside (Option Bytes) :=
  if content.length < 4 then .ok none
  else do
    let start ← within content 0 2
    if start ≠ [0xFF, 0xD8] then .ok none else jpegExifFrom content 2

/-! ## The block -/

/-- `value if 1 <= value <= 8 else 1`. -/
def admitted (value : Nat) : Nat := if 1 ≤ value ∧ value ≤ 8 then value else 1

/-- The loop over the entries of a directory, from a place on. -/
def tiffEntries (endian : Endian) (data : Bytes) (start : Nat) : Nat → Except Outside Nat
  | 0 => .ok 1
  | remaining + 1 => do
    let tag ← endian.readAt data start (start + 2)
    let kind ← endian.readAt data (start + 2) (start + 4)
    if tag ≠ 0x0112 then tiffEntries endian data (start + 12) remaining
    else do
      let amount ← endian.readAt data (start + 4) (start + 8)
      if amount ≠ 1 then .ok 1
      else if kind = 3 then do
        let value ← endian.readAt data (start + 8) (start + 10)
        .ok (admitted value)
      else if kind = 4 then do
        let value ← endian.readAt data (start + 8) (start + 12)
        .ok (admitted value)
      else .ok 1

def byteOrder (mark : Bytes) : Option Endian :=
  if mark = ascii "II" then some .little else if mark = ascii "MM" then some .big else none

def tiffOrientation (data : Bytes) : Except Outside Nat :=
  if data.length < 8 then .ok 1
  else do
    let mark ← within data 0 2
    match byteOrder mark with
    | none => .ok 1
    | some endian => do
      let magic ← endian.readAt data 2 4
      if magic ≠ 42 then .ok 1
      else do
        let offset ← endian.readAt data 4 8
        if offset + 2 > data.length then .ok 1
        else do
          let count ← endian.readAt data offset (offset + 2)
          if offset + 2 + count * 12 > data.length then .ok 1
          else tiffEntries endian data (offset + 2) count

/-- The body of the `try` in `_exif_orientation`. -/
def orientationOf (content : Bytes) (mediaType : String) : Except Outside Nat :=
  if mediaType = "image/jpeg" then do
    let payload ← jpegExif content
    payload.elim (.ok 1) tiffOrientation
  else if mediaType = "image/png" then do
    let payload ← pngExif content
    payload.elim (.ok 1) tiffOrientation
  else if mediaType = "image/webp" then do
    let payload ← webpExif content
    payload.elim (.ok 1) tiffOrientation
  else .ok 1

def exifOrientation (content : Bytes) (mediaType : String) : Nat :=
  match orientationOf content mediaType with
  | .ok orientation => orientation
  | .error _ => 1

/-! ## The gate -/

/-- `content.rfind(pattern)`. -/
def rfind (content pattern : Bytes) : Int :=
  match (List.range (content.length + 1)).reverse.find? fun i : Nat => pattern.isPrefixOf (content.drop i) with
  | some i => i
  | none => -1

def pngComplete (content : Bytes) (index : Nat) : Except Outside Bool :=
  if index + 12 ≤ content.length then do
    let length ← Endian.big.readAt content index (index + 4)
    let stop := index + 12 + length
    if stop > content.length then .ok false
    else do
      let kind ← within content (index + 4) (index + 8)
      if kind = ascii "IEND" then .ok true else pngComplete content stop
  else .ok false
termination_by content.length - index

def webpComplete (content : Bytes) (declared index : Nat) : Except Outside Bool :=
  if index + 8 ≤ declared then do
    let length ← Endian.little.readAt content (index + 4) (index + 8)
    let stop := index + 8 + length
    if stop > declared then .ok false else webpComplete content declared (stop + length % 2)
  else .ok (decide (declared ≤ index))
termination_by declared - index

def jpegComplete (content : Bytes) (index : Nat) : Except Outside Bool :=
  if index + 1 < content.length then
    match byteAt content index with
    | .error e => .error e
    | .ok byte =>
      if byte ≠ 0xFF then jpegComplete content (index + 1)
      else
        match hfill : skipFill content index with
        | .error e => .error e
        | .ok next =>
          have _ := skipFill_ge hfill
          if next ≥ content.length then .ok false
          else do
            let marker ← byteAt content next
            let index := next + 1
            -- the scan ends the loop
            if marker = 0xDA then .ok (decide ((index : Int) < rfind content [0xFF, 0xD9]))
            else if marker = 0xD8 ∨ marker = 0xD9 then jpegComplete content index
            else if index + 2 > content.length then .ok false
            else do
              let length ← Endian.big.readAt content index (index + 2)
              if length < 2 ∨ index + length > content.length then .ok false
              else jpegComplete content (index + length)
  else .ok false
termination_by content.length - index

def containerLooksComplete (content : Bytes) (mediaType : String) : Except Outside Bool :=
  if mediaType = "image/png" then
    if pngSignature <+: content then pngComplete content 8 else .ok false
  else if mediaType = "image/webp" then
    if content.length < 12 then .ok false
    else do
      let riff ← within content 0 4
      let webp ← within content 8 12
      if riff ≠ ascii "RIFF" ∨ webp ≠ ascii "WEBP" then .ok false
      else do
        let size ← Endian.little.readAt content 4 8
        let declared := size + 8
        if declared > content.length then .ok false else webpComplete content declared 12
  else if mediaType = "image/jpeg" then
    if content.length < 4 then .ok false
    else do
      let start ← within content 0 2
      if start ≠ [0xFF, 0xD8] then .ok false else jpegComplete content 2
  else .ok false

/-! ## No read reaches outside -/

theorem pngExifFrom_inside (content : Bytes) (index : Nat) : Inside (pngExifFrom content index) := by
  rw [pngExifFrom]
  split
  · rename_i hroom
    apply inside_bind (inside_readAt _ (by omega) (by omega))
    intro length _
    apply inside_bind (inside_within (by omega) (by omega))
    intro kind _
    dsimp only
    split
    · exact inside_ok none
    · rename_i hstop
      split
      · apply inside_bind (inside_within (by omega) (by omega))
        intro payload _
        exact inside_ok _
      · split
        · exact inside_ok none
        · exact pngExifFrom_inside content _
  · exact inside_ok none
termination_by content.length - index

theorem webpExifFrom_inside (content : Bytes) (index : Nat) : Inside (webpExifFrom content index) := by
  rw [webpExifFrom]
  split
  · rename_i hroom
    apply inside_bind (inside_within (by omega) (by omega))
    intro kind _
    apply inside_bind (inside_readAt _ (by omega) (by omega))
    intro length _
    dsimp only
    split
    · exact inside_ok none
    · rename_i hstop
      split
      · apply inside_bind (inside_within (by omega) (by omega))
        intro payload _
        exact inside_ok _
      · exact webpExifFrom_inside content _
  · exact inside_ok none
termination_by content.length - index

theorem skipFill_inside (content : Bytes) (index : Nat) : Inside (skipFill content index) := by
  rw [skipFill]
  split
  · rename_i hroom
    apply inside_bind (inside_byteAt hroom)
    intro byte _
    split
    · exact skipFill_inside content _
    · exact inside_ok index
  · exact inside_ok index
termination_by content.length - index

theorem jpegExifFrom_inside (content : Bytes) (index : Nat) : Inside (jpegExifFrom content index) := by
  rw [jpegExifFrom]
  split
  · rename_i hroom
    rw [byteAt_ok (by omega)]
    simp only
    split
    · exact jpegExifFrom_inside content _
    · split
      · rename_i hfill
        obtain ⟨next, hnext⟩ := skipFill_inside content index
        rw [hnext] at hfill
        cases hfill
      · rename_i next hfill
        have hge := skipFill_ge hfill
        split
        · exact inside_ok none
        · apply inside_bind (inside_byteAt (by omega))
          intro marker _
          split
          · exact jpegExifFrom_inside content _
          split
          · exact inside_ok none
          split
          · exact inside_ok none
          · apply inside_bind (inside_readAt _ (by omega) (by omega))
            intro length _
            split
            · exact inside_ok none
            · apply inside_bind (inside_within (by omega) (by omega))
              intro payload _
              split
              · exact inside_ok _
              · exact jpegExifFrom_inside content _
  · exact inside_ok none
termination_by content.length - index

theorem pngExif_inside (content : Bytes) : Inside (pngExif content) := by
  rw [pngExif]
  split
  · exact pngExifFrom_inside content 8
  · exact inside_ok none

theorem webpExif_inside (content : Bytes) : Inside (webpExif content) := by
  rw [webpExif]
  split
  · exact inside_ok none
  · apply inside_bind (inside_within (by omega) (by omega))
    intro riff _
    apply inside_bind (inside_within (by omega) (by omega))
    intro webp _
    split
    · exact inside_ok none
    · exact webpExifFrom_inside content 12

theorem jpegExif_inside (content : Bytes) : Inside (jpegExif content) := by
  rw [jpegExif]
  split
  · exact inside_ok none
  · apply inside_bind (inside_within (by omega) (by omega))
    intro start _
    split
    · exact inside_ok none
    · exact jpegExifFrom_inside content 2

theorem admitted_range (value : Nat) : 1 ≤ admitted value ∧ admitted value ≤ 8 := by
  rw [admitted]
  split
  · assumption
  · decide

/-- A result that is there and in the range of the orientations. -/
def InRange (result : Except Outside Nat) : Prop := ∃ n, result = .ok n ∧ 1 ≤ n ∧ n ≤ 8

theorem inRange_one : InRange (.ok 1) := ⟨1, rfl, by decide⟩

theorem inRange_admitted (value : Nat) : InRange (.ok (admitted value)) :=
  ⟨_, rfl, admitted_range value⟩

theorem inRange_bind {α : Type} {x : Except Outside α} {f : α → Except Outside Nat} (hx : Inside x)
    (hf : ∀ a, x = .ok a → InRange (f a)) : InRange (x >>= f) := by
  obtain ⟨a, ha⟩ := hx
  rw [ha]
  exact hf a ha

theorem tiffEntries_inRange (endian : Endian) (data : Bytes) (remaining start : Nat)
    (h : start + remaining * 12 ≤ data.length) : InRange (tiffEntries endian data start remaining) := by
  induction remaining generalizing start with
  | zero => exact inRange_one
  | succ remaining ih =>
    rw [tiffEntries]
    apply inRange_bind (inside_readAt _ (by omega) (by omega))
    intro tag _
    apply inRange_bind (inside_readAt _ (by omega) (by omega))
    intro kind _
    split
    · exact ih (start + 12) (by omega)
    · apply inRange_bind (inside_readAt _ (by omega) (by omega))
      intro amount _
      split
      · exact inRange_one
      split
      · apply inRange_bind (inside_readAt _ (by omega) (by omega))
        intro value _
        exact inRange_admitted value
      split
      · apply inRange_bind (inside_readAt _ (by omega) (by omega))
        intro value _
        exact inRange_admitted value
      · exact inRange_one

theorem tiffOrientation_inRange (data : Bytes) : InRange (tiffOrientation data) := by
  rw [tiffOrientation]
  split
  · exact inRange_one
  · apply inRange_bind (inside_within (by omega) (by omega))
    intro mark _
    split
    · exact inRange_one
    · apply inRange_bind (inside_readAt _ (by omega) (by omega))
      intro magic _
      split
      · exact inRange_one
      · apply inRange_bind (inside_readAt _ (by omega) (by omega))
        intro offset _
        split
        · exact inRange_one
        · apply inRange_bind (inside_readAt _ (by omega) (by omega))
          intro count _
          split
          · exact inRange_one
          · exact tiffEntries_inRange _ data count _ (by omega)

theorem payload_inRange (payload : Option Bytes) : InRange (payload.elim (.ok 1) tiffOrientation) := by
  cases payload with
  | none => exact inRange_one
  | some data => exact tiffOrientation_inRange data

/-- The search for the orientation reads nothing outside the octets, and finds one of the eight. -/
theorem orientationOf_inRange (content : Bytes) (mediaType : String) :
    InRange (orientationOf content mediaType) := by
  rw [orientationOf]
  split
  · exact inRange_bind (jpegExif_inside content) fun payload _ => payload_inRange payload
  split
  · exact inRange_bind (pngExif_inside content) fun payload _ => payload_inRange payload
  split
  · exact inRange_bind (webpExif_inside content) fun payload _ => payload_inRange payload
  · exact inRange_one

theorem exifOrientation_range (content : Bytes) (mediaType : String) :
    1 ≤ exifOrientation content mediaType ∧ exifOrientation content mediaType ≤ 8 := by
  obtain ⟨n, hn, hrange⟩ := orientationOf_inRange content mediaType
  rw [exifOrientation, hn]
  exact hrange

theorem pngComplete_inside (content : Bytes) (index : Nat) : Inside (pngComplete content index) := by
  rw [pngComplete]
  split
  · rename_i hroom
    apply inside_bind (inside_readAt _ (by omega) (by omega))
    intro length _
    dsimp only
    split
    · exact inside_ok false
    · rename_i hstop
      apply inside_bind (inside_within (by omega) (by omega))
      intro kind _
      split
      · exact inside_ok true
      · exact pngComplete_inside content _
  · exact inside_ok false
termination_by content.length - index

theorem webpComplete_inside (content : Bytes) (declared index : Nat) (h : declared ≤ content.length) :
    Inside (webpComplete content declared index) := by
  rw [webpComplete]
  split
  · rename_i hroom
    apply inside_bind (inside_readAt _ (by omega) (by omega))
    intro length _
    dsimp only
    split
    · exact inside_ok false
    · exact webpComplete_inside content declared _ h
  · exact inside_ok _
termination_by declared - index

theorem jpegComplete_inside (content : Bytes) (index : Nat) : Inside (jpegComplete content index) := by
  rw [jpegComplete]
  split
  · rename_i hroom
    rw [byteAt_ok (by omega)]
    simp only
    split
    · exact jpegComplete_inside content _
    · split
      · rename_i hfill
        obtain ⟨next, hnext⟩ := skipFill_inside content index
        rw [hnext] at hfill
        cases hfill
      · rename_i next hfill
        have hge := skipFill_ge hfill
        split
        · exact inside_ok false
        · apply inside_bind (inside_byteAt (by omega))
          intro marker _
          split
          · exact inside_ok _
          split
          · exact jpegComplete_inside content _
          split
          · exact inside_ok false
          · apply inside_bind (inside_readAt _ (by omega) (by omega))
            intro length _
            split
            · exact inside_ok false
            · exact jpegComplete_inside content _
  · exact inside_ok false
termination_by content.length - index

/-- The gate reads nothing outside the octets. -/
theorem containerLooksComplete_inside (content : Bytes) (mediaType : String) :
    Inside (containerLooksComplete content mediaType) := by
  rw [containerLooksComplete]
  split
  · split
    · exact pngComplete_inside content 8
    · exact inside_ok false
  split
  · split
    · exact inside_ok false
    · apply inside_bind (inside_within (by omega) (by omega))
      intro riff _
      apply inside_bind (inside_within (by omega) (by omega))
      intro webp _
      split
      · exact inside_ok false
      · apply inside_bind (inside_readAt _ (by omega) (by omega))
        intro size _
        dsimp only
        split
        · exact inside_ok false
        · exact webpComplete_inside content _ 12 (by omega)
  split
  · split
    · exact inside_ok false
    · apply inside_bind (inside_within (by omega) (by omega))
      intro start _
      split
      · exact inside_ok false
      · exact jpegComplete_inside content 2
  · exact inside_ok false

end MDRack.Media.Exif
