import MDRack.Media.Exif
import MDRack.Media.Orientation

/-!
# Containers with one EXIF block

Well-formed files, as their parts and the octets that these make.

* `TiffBlock` — the block: a header in either byte order and a first directory anywhere behind it.
* `PngFile`, `WebpFile`, `JpegFile` — any parts before the block and anything after it.

Principal results: `exifOrientation_container` — the orientation that is found is the valid entry of
the first directory, and one where there is none; `orientation_read_and_applied`.
-/

namespace MDRack.Media.Exif

open Octets

/-! ## The block -/

/-- An entry of a directory, with its four octets for a value. -/
structure TiffEntry where
  tag : Nat
  kind : Nat
  amount : Nat
  field : Bytes
  tag_lt : tag < 256 ^ 2
  kind_lt : kind < 256 ^ 2
  amount_lt : amount < 256 ^ 4
  field_length : field.length = 4

namespace TiffEntry

def bytes (endian : Endian) (entry : TiffEntry) : Bytes :=
  endian.write 2 entry.tag ++ (endian.write 2 entry.kind ++ (endian.write 4 entry.amount ++ entry.field))

/-- One value of the type SHORT or LONG. -/
def value? (endian : Endian) (entry : TiffEntry) : Option Nat :=
  if entry.amount ≠ 1 then none
  else if entry.kind = 3 then some (endian.read (entry.field.take 2))
  else if entry.kind = 4 then some (endian.read entry.field)
  else none

/-- The orientation that a valid entry states. -/
def orientation? (endian : Endian) (entry : TiffEntry) : Option Nat :=
  if entry.tag = 0x0112 then (entry.value? endian).filter fun v => 1 ≤ v && v ≤ 8 else none

theorem length_bytes (endian : Endian) (entry : TiffEntry) : (entry.bytes endian).length = 12 := by
  simp [bytes, endian.length_write, entry.field_length]

end TiffEntry

/-- The first directory stands behind `gap`; the tag of the orientation does not stand in it twice. -/
structure TiffBlock where
  endian : Endian
  gap : Bytes
  entries : List TiffEntry
  rest : Bytes
  offset_lt : 8 + gap.length < 256 ^ 4
  count_lt : entries.length < 256 ^ 2
  unique : entries.countP (fun entry => entry.tag = 0x0112) ≤ 1

namespace TiffBlock

def mark : Endian → Bytes
  | .little => ascii "II"
  | .big => ascii "MM"

def header (block : TiffBlock) : Bytes :=
  mark block.endian ++ (block.endian.write 2 42 ++ block.endian.write 4 (8 + block.gap.length))

def directory (block : TiffBlock) : Bytes :=
  block.endian.write 2 block.entries.length ++
    (block.entries.flatMap (TiffEntry.bytes block.endian) ++ block.rest)

def bytes (block : TiffBlock) : Bytes := block.header ++ (block.gap ++ block.directory)

/-- The orientation of the block: that of its valid entry, and one where there is none. -/
def orientation (block : TiffBlock) : Nat :=
  (block.entries.findSome? (TiffEntry.orientation? block.endian)).getD 1

theorem length_mark (endian : Endian) : (mark endian).length = 2 := by cases endian <;> rfl

theorem byteOrder_mark (endian : Endian) : byteOrder (mark endian) = some endian := by
  cases endian <;> decide

theorem length_header (block : TiffBlock) : block.header.length = 8 := by
  simp [header, length_mark, Endian.length_write]

end TiffBlock

theorem length_entries (endian : Endian) (entries : List TiffEntry) :
    (entries.flatMap (TiffEntry.bytes endian)).length = entries.length * 12 := by
  induction entries with
  | nil => rfl
  | cons entry entries ih =>
    rw [List.flatMap_cons, List.length_append, ih, TiffEntry.length_bytes, List.length_cons]
    omega

theorem orientation?_other {endian : Endian} {entry : TiffEntry} (h : entry.tag ≠ 0x0112) :
    entry.orientation? endian = none := if_neg h

/-- What the code makes of the value of an entry. -/
theorem orientation?_value {endian : Endian} {entry : TiffEntry} (h : entry.tag = 0x0112) :
    (entry.orientation? endian).getD 1 = ((entry.value? endian).map admitted).getD 1 := by
  rw [TiffEntry.orientation?, if_pos h]
  cases entry.value? endian with
  | none => rfl
  | some v =>
    by_cases hv : 1 ≤ v ∧ v ≤ 8
    · simp [Option.filter, admitted, hv]
    · have hno : (decide (1 ≤ v) && decide (v ≤ 8)) = false := by
        rw [Bool.and_eq_false_iff, decide_eq_false_iff_not, decide_eq_false_iff_not]
        omega
      simp only [Option.filter, hno, Option.map_some, Option.getD_some, admitted, if_neg hv]
      rfl

/-- The parts of an entry are read at their places. -/
theorem entry_reads {endian : Endian} {data before after : Bytes} {entry : TiffEntry}
    (hdata : data = before ++ (entry.bytes endian ++ after)) :
    endian.readAt data before.length (before.length + 2) = .ok entry.tag ∧
      endian.readAt data (before.length + 2) (before.length + 4) = .ok entry.kind ∧
      endian.readAt data (before.length + 4) (before.length + 8) = .ok entry.amount ∧
      endian.readAt data (before.length + 8) (before.length + 10) = .ok (endian.read (entry.field.take 2)) ∧
      endian.readAt data (before.length + 8) (before.length + 12) = .ok (endian.read entry.field) := by
  have htag := endian.length_write 2 entry.tag
  have hkind := endian.length_write 2 entry.kind
  have hamount := endian.length_write 4 entry.amount
  have hfield := entry.field_length
  have hhalf : (entry.field.take 2).length = 2 := by simp [hfield]
  rw [TiffEntry.bytes] at hdata
  simp only [List.append_assoc] at hdata
  have hbefore : data = (before ++ (endian.write 2 entry.tag ++ (endian.write 2 entry.kind ++
      endian.write 4 entry.amount))) ++ (entry.field ++ after) := by
    rw [hdata]
    simp only [List.append_assoc]
  have hlength : (before ++ (endian.write 2 entry.tag ++ (endian.write 2 entry.kind ++
      endian.write 4 entry.amount))).length = before.length + 8 := by
    simp only [List.length_append, htag, hkind, hamount]
  have hafterTag : data = (before ++ endian.write 2 entry.tag) ++ (endian.write 2 entry.kind ++
      (endian.write 4 entry.amount ++ (entry.field ++ after))) := by
    rw [hdata, List.append_assoc]
  have hafterKind : data = (before ++ (endian.write 2 entry.tag ++ endian.write 2 entry.kind)) ++
      (endian.write 4 entry.amount ++ (entry.field ++ after)) := by
    rw [hdata]
    simp only [List.append_assoc]
  have hhalves : data = (before ++ (endian.write 2 entry.tag ++ (endian.write 2 entry.kind ++
      endian.write 4 entry.amount))) ++ (entry.field.take 2 ++ (entry.field.drop 2 ++ after)) := by
    rw [hbefore, ← List.append_assoc (entry.field.take 2), List.take_append_drop]
  refine ⟨?_, ?_, ?_, ?_, ?_⟩
  · exact readAt_split endian entry.tag_lt hdata rfl rfl
  · exact readAt_split endian entry.kind_lt hafterTag (by rw [List.length_append, htag]) rfl
  · exact readAt_split endian entry.amount_lt hafterKind (by simp only [List.length_append, htag, hkind]) rfl
  · rw [Endian.readAt, within_split hhalves hlength.symm (by rw [hhalf])]
    rfl
  · rw [Endian.readAt, within_split hbefore hlength.symm (by rw [hfield])]
    rfl

/-- The loop finds the orientation entry of the directory. -/
theorem tiffEntries_read {endian : Endian} {data : Bytes} (entries : List TiffEntry)
    (hunique : entries.countP (fun entry => entry.tag = 0x0112) ≤ 1) {before after : Bytes}
    (hdata : data = before ++ (entries.flatMap (TiffEntry.bytes endian) ++ after)) :
    tiffEntries endian data before.length entries.length =
      .ok ((entries.findSome? (TiffEntry.orientation? endian)).getD 1) := by
  induction entries generalizing before with
  | nil => rfl
  | cons entry entries ih =>
    rw [List.flatMap_cons, List.append_assoc] at hdata
    obtain ⟨htag, hkind, hamount, hhalf, hfield⟩ := entry_reads hdata
    rw [List.length_cons, tiffEntries, htag, hkind]
    simp only [bind, Except.bind]
    by_cases horientation : entry.tag = 0x0112
    · -- no later entry states an orientation
      have hnone : entries.findSome? (TiffEntry.orientation? endian) = none := by
        rw [List.countP_cons_of_pos (by simpa using horientation)] at hunique
        rw [List.findSome?_eq_none_iff]
        intro other hother
        apply orientation?_other
        intro htag
        have hpos : 0 < entries.countP (fun entry => entry.tag = 0x0112) := by
          apply List.countP_pos_iff.mpr
          exact ⟨other, hother, decide_eq_true htag⟩
        omega
      have hfound : ((entry :: entries).findSome? (TiffEntry.orientation? endian)).getD 1 =
          ((entry.value? endian).map admitted).getD 1 := by
        rw [← orientation?_value horientation, List.findSome?_cons]
        cases entry.orientation? endian with
        | none => rw [hnone]
        | some v => rfl
      rw [if_neg (not_not.mpr horientation), hamount, hfound, TiffEntry.value?]
      simp only [hhalf, hfield]
      by_cases hone : entry.amount ≠ 1
      · rw [if_pos hone, if_pos hone]
        rfl
      · rw [if_neg hone, if_neg hone]
        by_cases hshort : entry.kind = 3
        · rw [if_pos hshort, if_pos hshort]
          rfl
        · rw [if_neg hshort, if_neg hshort]
          by_cases hlong : entry.kind = 4
          · rw [if_pos hlong, if_pos hlong]
            rfl
          · rw [if_neg hlong, if_neg hlong]
            rfl
    · have hsplit : data = (before ++ entry.bytes endian) ++
          (entries.flatMap (TiffEntry.bytes endian) ++ after) := by
        rw [hdata, List.append_assoc]
      rw [List.countP_cons_of_neg (by simpa using horientation)] at hunique
      have hrest := ih hunique hsplit
      rw [List.length_append, TiffEntry.length_bytes] at hrest
      rw [if_pos horientation, hrest, List.findSome?_cons, orientation?_other horientation]

theorem tiffOrientation_bytes (block : TiffBlock) : tiffOrientation block.bytes = .ok block.orientation := by
  have hmark := TiffBlock.length_mark block.endian
  have hheader := block.length_header
  have hsplit : block.bytes = TiffBlock.mark block.endian ++ (block.endian.write 2 42 ++
      (block.endian.write 4 (8 + block.gap.length) ++ (block.gap ++ block.directory))) := by
    simp only [TiffBlock.bytes, TiffBlock.header, List.append_assoc]
  have hgap : block.bytes = (block.header ++ block.gap) ++ (block.endian.write 2 block.entries.length ++
      (block.entries.flatMap (TiffEntry.bytes block.endian) ++ block.rest)) := by
    simp only [TiffBlock.bytes, TiffBlock.directory, List.append_assoc]
  have hlength : block.bytes.length = 8 + block.gap.length + 2 + block.entries.length * 12 +
      block.rest.length := by
    rw [hgap]
    simp only [List.length_append, hheader, block.endian.length_write, length_entries]
    omega
  have hplace : (block.header ++ block.gap).length = 8 + block.gap.length := by
    rw [List.length_append, hheader]
  have hstart : block.bytes = [] ++ (TiffBlock.mark block.endian ++ (block.endian.write 2 42 ++
      (block.endian.write 4 (8 + block.gap.length) ++ (block.gap ++ block.directory)))) := hsplit
  have hfirst : within block.bytes 0 2 = .ok (TiffBlock.mark block.endian) :=
    within_split hstart rfl (by rw [hmark])
  have hmagic : block.endian.readAt block.bytes 2 4 = .ok 42 :=
    readAt_split _ (by decide) hsplit hmark.symm rfl
  have hafterMagic : block.bytes = (TiffBlock.mark block.endian ++ block.endian.write 2 42) ++
      (block.endian.write 4 (8 + block.gap.length) ++ (block.gap ++ block.directory)) := by
    rw [hsplit, List.append_assoc]
  have hoffset : block.endian.readAt block.bytes 4 8 = .ok (8 + block.gap.length) :=
    readAt_split _ block.offset_lt hafterMagic
      (by rw [List.length_append, hmark, block.endian.length_write]) rfl
  have hcount : block.endian.readAt block.bytes (8 + block.gap.length) (8 + block.gap.length + 2) =
      .ok block.entries.length :=
    readAt_split _ block.count_lt hgap hplace.symm rfl
  have hentries : tiffEntries block.endian block.bytes (8 + block.gap.length + 2) block.entries.length =
      .ok block.orientation := by
    have hdirectory : block.bytes = ((block.header ++ block.gap) ++
        block.endian.write 2 block.entries.length) ++
          (block.entries.flatMap (TiffEntry.bytes block.endian) ++ block.rest) := by
      rw [hgap]
      simp only [List.append_assoc]
    have hread := tiffEntries_read block.entries block.unique hdirectory
    rw [List.length_append, hplace, block.endian.length_write] at hread
    exact hread
  have hroom : ¬ block.bytes.length < 8 := by omega
  have hin : ¬ (8 + block.gap.length + 2 > block.bytes.length) := by omega
  have hall : ¬ (8 + block.gap.length + 2 + block.entries.length * 12 > block.bytes.length) := by omega
  rw [tiffOrientation, if_neg hroom, hfirst]
  simp only [bind, Except.bind, TiffBlock.byteOrder_mark, hmagic, hoffset, hcount, if_neg hin, if_neg hall,
    hentries, ne_eq, not_true_eq_false, if_false]

/-! ## PNG -/

structure PngChunk where
  kind : Bytes
  data : Bytes
  crc : Bytes
  kind_length : kind.length = 4
  data_lt : data.length < 256 ^ 4
  crc_length : crc.length = 4

def PngChunk.bytes (chunk : PngChunk) : Bytes :=
  Endian.big.write 4 chunk.data.length ++ (chunk.kind ++ (chunk.data ++ chunk.crc))

theorem PngChunk.length_bytes (chunk : PngChunk) : chunk.bytes.length = 12 + chunk.data.length := by
  simp only [PngChunk.bytes, List.length_append, Endian.length_write, chunk.kind_length, chunk.crc_length]
  omega

/-- The parts of a chunk are read at their places. -/
theorem pngChunk_reads {content before after : Bytes} {chunk : PngChunk}
    (hcontent : content = before ++ (chunk.bytes ++ after)) :
    before.length + 12 + chunk.data.length ≤ content.length ∧
      Endian.big.readAt content before.length (before.length + 4) = .ok chunk.data.length ∧
      within content (before.length + 4) (before.length + 8) = .ok chunk.kind ∧
      within content (before.length + 8) (before.length + 8 + chunk.data.length) = .ok chunk.data := by
  have hsize := Endian.big.length_write 4 chunk.data.length
  have hkind := chunk.kind_length
  have hlength : content.length = before.length + (12 + chunk.data.length) + after.length := by
    rw [hcontent, List.length_append, List.length_append, chunk.length_bytes]
    omega
  rw [PngChunk.bytes] at hcontent
  simp only [List.append_assoc] at hcontent
  have hafterSize : content = (before ++ Endian.big.write 4 chunk.data.length) ++ (chunk.kind ++
      (chunk.data ++ (chunk.crc ++ after))) := by
    rw [hcontent, List.append_assoc]
  have hafterKind : content = (before ++ (Endian.big.write 4 chunk.data.length ++ chunk.kind)) ++
      (chunk.data ++ (chunk.crc ++ after)) := by
    rw [hcontent]
    simp only [List.append_assoc]
  refine ⟨by omega, ?_, ?_, ?_⟩
  · exact readAt_split _ chunk.data_lt hcontent rfl rfl
  · exact within_split hafterSize (by rw [List.length_append, hsize]) (by rw [hkind])
  · exact within_split hafterKind (by simp only [List.length_append, hsize, hkind]) rfl

/-- The block stands behind chunks of other kinds, and anything follows it. -/
structure PngFile where
  before : List PngChunk
  block : TiffBlock
  crc : Bytes
  after : Bytes
  before_kinds : ∀ chunk ∈ before, chunk.kind ≠ ascii "eXIf" ∧ chunk.kind ≠ ascii "IEND"
  block_lt : block.bytes.length < 256 ^ 4
  crc_length : crc.length = 4

namespace PngFile

def exif (file : PngFile) : PngChunk :=
  ⟨ascii "eXIf", file.block.bytes, file.crc, rfl, file.block_lt, file.crc_length⟩

def bytes (file : PngFile) : Bytes :=
  pngSignature ++ (file.before.flatMap PngChunk.bytes ++ (file.exif.bytes ++ file.after))

end PngFile

theorem pngExif_file (file : PngFile) : pngExif file.bytes = .ok (some file.block.bytes) := by
  have hfile : file.bytes = pngSignature ++ (file.before.flatMap PngChunk.bytes ++
      (file.exif.bytes ++ file.after)) := rfl
  have hwalk : pngExifFrom file.bytes pngSignature.length =
      pngExifFrom file.bytes (pngSignature.length + (file.before.flatMap PngChunk.bytes).length) := by
    refine walk_over (pngExifFrom file.bytes) PngChunk.bytes
      (fun chunk => chunk.kind ≠ ascii "eXIf" ∧ chunk.kind ≠ ascii "IEND") ?_ file.before
      file.before_kinds hfile
    rintro before chunk after hcontent ⟨hexif, hend⟩
    obtain ⟨hroom, hlength, hkind, -⟩ := pngChunk_reads hcontent
    have hin : ¬ (before.length + 12 + chunk.data.length > file.bytes.length) := by omega
    rw [pngExifFrom, if_pos (by omega), hlength, hkind]
    simp only [bind, Except.bind, if_neg hin, if_neg hexif, if_neg hend]
    rw [chunk.length_bytes, Nat.add_assoc]
  have hsplit : file.bytes = (pngSignature ++ file.before.flatMap PngChunk.bytes) ++
      (file.exif.bytes ++ file.after) := by
    rw [PngFile.bytes, List.append_assoc]
  obtain ⟨hroom, hlength, hkind, hdata⟩ := pngChunk_reads hsplit
  have hin : ¬ ((pngSignature ++ file.before.flatMap PngChunk.bytes).length + 12 +
      file.exif.data.length > file.bytes.length) := by omega
  have hexif : file.exif.kind = ascii "eXIf" := rfl
  have hsignature : pngSignature <+: file.bytes := List.prefix_append _ _
  rw [pngExif, if_pos hsignature]
  change pngExifFrom file.bytes pngSignature.length = _
  rw [hwalk, ← List.length_append, pngExifFrom, if_pos (by omega), hlength, hkind]
  simp only [bind, Except.bind, if_neg hin, if_pos hexif, hdata]
  rfl

/-! ## WebP -/

structure WebpChunk where
  kind : Bytes
  data : Bytes
  padding : Bytes
  kind_length : kind.length = 4
  data_lt : data.length < 256 ^ 4
  padding_length : padding.length = data.length % 2

def WebpChunk.bytes (chunk : WebpChunk) : Bytes :=
  chunk.kind ++ (Endian.little.write 4 chunk.data.length ++ (chunk.data ++ chunk.padding))

theorem WebpChunk.length_bytes (chunk : WebpChunk) :
    chunk.bytes.length = 8 + chunk.data.length + chunk.data.length % 2 := by
  simp only [WebpChunk.bytes, List.length_append, Endian.length_write, chunk.kind_length,
    chunk.padding_length]
  omega

theorem webpChunk_reads {content before after : Bytes} {chunk : WebpChunk}
    (hcontent : content = before ++ (chunk.bytes ++ after)) :
    before.length + 8 + chunk.data.length ≤ content.length ∧
      within content before.length (before.length + 4) = .ok chunk.kind ∧
      Endian.little.readAt content (before.length + 4) (before.length + 8) = .ok chunk.data.length ∧
      within content (before.length + 8) (before.length + 8 + chunk.data.length) = .ok chunk.data := by
  have hsize := Endian.little.length_write 4 chunk.data.length
  have hkind := chunk.kind_length
  have hlength : content.length = before.length + chunk.bytes.length + after.length := by
    rw [hcontent, List.length_append, List.length_append, Nat.add_assoc]
  rw [chunk.length_bytes] at hlength
  rw [WebpChunk.bytes] at hcontent
  simp only [List.append_assoc] at hcontent
  have hafterKind : content = (before ++ chunk.kind) ++ (Endian.little.write 4 chunk.data.length ++
      (chunk.data ++ (chunk.padding ++ after))) := by
    rw [hcontent, List.append_assoc]
  have hafterSize : content = (before ++ (chunk.kind ++ Endian.little.write 4 chunk.data.length)) ++
      (chunk.data ++ (chunk.padding ++ after)) := by
    rw [hcontent]
    simp only [List.append_assoc]
  refine ⟨by omega, ?_, ?_, ?_⟩
  · exact within_split hcontent rfl (by rw [hkind])
  · exact readAt_split _ chunk.data_lt hafterKind (by rw [List.length_append, hkind]) rfl
  · exact within_split hafterSize (by simp only [List.length_append, hsize, hkind]) rfl

/-- The block stands behind chunks of other kinds, with the name of EXIF in front or without it. -/
structure WebpFile where
  size : Bytes
  before : List WebpChunk
  named : Bool
  block : TiffBlock
  padding : Bytes
  after : Bytes
  size_length : size.length = 4
  before_kinds : ∀ chunk ∈ before, chunk.kind ≠ ascii "EXIF"
  block_lt : ((if named then exifHeader else []) ++ block.bytes).length < 256 ^ 4
  padding_length : padding.length = ((if named then exifHeader else []) ++ block.bytes).length % 2

namespace WebpFile

def exif (file : WebpFile) : WebpChunk :=
  ⟨ascii "EXIF", (if file.named then exifHeader else []) ++ file.block.bytes, file.padding, rfl,
    file.block_lt, file.padding_length⟩

def start (file : WebpFile) : Bytes := ascii "RIFF" ++ (file.size ++ ascii "WEBP")

def bytes (file : WebpFile) : Bytes :=
  file.start ++ (file.before.flatMap WebpChunk.bytes ++ (file.exif.bytes ++ file.after))

theorem length_start (file : WebpFile) : file.start.length = 12 := by
  simp only [start, List.length_append, file.size_length]
  rfl

end WebpFile

/-- A block does not begin with the name of EXIF. -/
theorem block_unnamed (block : TiffBlock) : ¬ exifHeader <+: block.bytes := by
  rintro ⟨rest, hrest⟩
  have hfirst := congrArg List.head? hrest
  rw [TiffBlock.bytes, TiffBlock.header] at hfirst
  cases hendian : block.endian with
  | little =>
    rw [hendian] at hfirst
    exact absurd hfirst (by simp [exifHeader, ascii, TiffBlock.mark])
  | big =>
    rw [hendian] at hfirst
    exact absurd hfirst (by simp [exifHeader, ascii, TiffBlock.mark])

theorem webpExif_file (file : WebpFile) : webpExif file.bytes = .ok (some file.block.bytes) := by
  have hstart := file.length_start
  have hfile : file.bytes = file.start ++ (file.before.flatMap WebpChunk.bytes ++
      (file.exif.bytes ++ file.after)) := rfl
  have hwalk : webpExifFrom file.bytes file.start.length =
      webpExifFrom file.bytes (file.start.length + (file.before.flatMap WebpChunk.bytes).length) := by
    refine walk_over (webpExifFrom file.bytes) WebpChunk.bytes
      (fun chunk => chunk.kind ≠ ascii "EXIF") ?_ file.before file.before_kinds hfile
    intro before chunk after hcontent hexif
    obtain ⟨hroom, hkind, hlength, -⟩ := webpChunk_reads hcontent
    have hin : ¬ (before.length + 8 + chunk.data.length > file.bytes.length) := by omega
    rw [webpExifFrom, if_pos (by omega), hkind, hlength]
    simp only [bind, Except.bind, if_neg hin, if_neg hexif]
    rw [chunk.length_bytes, Nat.add_assoc, Nat.add_assoc, Nat.add_assoc]
  have hsplit : file.bytes = (file.start ++ file.before.flatMap WebpChunk.bytes) ++
      (file.exif.bytes ++ file.after) := by
    rw [WebpFile.bytes, List.append_assoc]
  obtain ⟨hroom, hkind, hlength, hdata⟩ := webpChunk_reads hsplit
  have hin : ¬ ((file.start ++ file.before.flatMap WebpChunk.bytes).length + 8 +
      file.exif.data.length > file.bytes.length) := by omega
  have hexif : file.exif.kind = ascii "EXIF" := rfl
  have hpayload : (if exifHeader <+: file.exif.data then file.exif.data.drop 6 else file.exif.data) =
      file.block.bytes := by
    have hheader : exifHeader.length = 6 := rfl
    have hexifData : file.exif.data = (if file.named then exifHeader else []) ++ file.block.bytes := rfl
    rw [hexifData]
    cases file.named with
    | true => exact (if_pos (List.prefix_append _ _)).trans (List.drop_left' hheader)
    | false => exact if_neg (block_unnamed file.block)
  have hriff : within file.bytes 0 4 = .ok (ascii "RIFF") := by
    have hfile : file.bytes = [] ++ (ascii "RIFF" ++ ((file.size ++ ascii "WEBP") ++
        (file.before.flatMap WebpChunk.bytes ++ (file.exif.bytes ++ file.after)))) := by
      rw [WebpFile.bytes, WebpFile.start]
      simp only [List.append_assoc, List.nil_append]
    exact within_split hfile rfl rfl
  have hwebp : within file.bytes 8 12 = .ok (ascii "WEBP") := by
    have hfile : file.bytes = (ascii "RIFF" ++ file.size) ++ (ascii "WEBP" ++
        (file.before.flatMap WebpChunk.bytes ++ (file.exif.bytes ++ file.after))) := by
      rw [WebpFile.bytes, WebpFile.start]
      simp only [List.append_assoc]
    exact within_split hfile (by rw [List.length_append, file.size_length]; rfl) rfl
  have hlong : ¬ file.bytes.length < 12 := by
    rw [WebpFile.bytes, List.length_append, hstart]
    omega
  rw [webpExif, if_neg hlong, hriff, hwebp]
  simp only [bind, Except.bind, ne_eq, not_true_eq_false, or_self, if_false]
  rw [← hstart, hwalk, ← List.length_append, webpExifFrom, if_pos (by omega), hkind, hlength]
  simp only [bind, Except.bind, if_neg hin, if_pos hexif, hdata, hpayload]

/-! ## JPEG -/

/-- A segment with its length, behind `fill` optional fill bytes. -/
structure JpegSegment where
  fill : Nat
  marker : UInt8
  payload : Bytes
  marker_prefixed : marker ∉ ([0xFF, 0xD8, 0xD9, 0xDA] : Bytes)
  payload_lt : payload.length + 2 < 256 ^ 2

namespace JpegSegment

def bytes (segment : JpegSegment) : Bytes :=
  List.replicate (segment.fill + 1) 0xFF ++
    (segment.marker :: (Endian.big.write 2 (segment.payload.length + 2) ++ segment.payload))

/-- The segment that the walker looks for. -/
def IsExif (segment : JpegSegment) : Prop := segment.marker = 0xE1 ∧ exifHeader <+: segment.payload

instance (segment : JpegSegment) : Decidable segment.IsExif := inferInstanceAs (Decidable (_ ∧ _))

theorem length_bytes (segment : JpegSegment) :
    segment.bytes.length = segment.fill + 1 + (1 + (2 + segment.payload.length)) := by
  simp only [bytes, List.length_append, List.length_replicate, List.length_cons, Endian.length_write]
  omega

end JpegSegment

/-- Fill bytes are skipped up to the marker. -/
theorem skipFill_replicate {content before after : Bytes} {marker : UInt8} (hmarker : marker ≠ 0xFF)
    (count : Nat) (hcontent : content = before ++ (List.replicate count 0xFF ++ marker :: after)) :
    skipFill content before.length = .ok (before.length + count) := by
  induction count generalizing before with
  | zero =>
    have hsplit : content = before ++ marker :: after := hcontent
    have hlength := congrArg List.length hsplit
    rw [List.length_append, List.length_cons] at hlength
    rw [skipFill, if_pos (by omega), byteAt_split hsplit rfl]
    exact if_neg hmarker
  | succ count ih =>
    have hsplit : content = before ++ 0xFF :: (List.replicate count 0xFF ++ marker :: after) := by
      rw [hcontent, List.replicate_succ, List.cons_append]
    have hlength := congrArg List.length hsplit
    rw [List.length_append, List.length_cons] at hlength
    have hnext : content = (before ++ [0xFF]) ++ (List.replicate count 0xFF ++ marker :: after) := by
      rw [hsplit, List.append_assoc, List.singleton_append]
    have hrest := ih hnext
    rw [List.length_append, List.length_singleton] at hrest
    rw [skipFill, if_pos (by omega), byteAt_split hsplit rfl]
    simp only [bind, Except.bind, if_true]
    rw [hrest, Nat.add_assoc, Nat.add_comm 1 count]

/-- One segment: its payload where it is the one, else the rest of the walk. -/
theorem jpegExifFrom_segment {content before after : Bytes} {segment : JpegSegment}
    (hcontent : content = before ++ (segment.bytes ++ after)) :
    jpegExifFrom content before.length =
      if segment.IsExif then .ok (some (segment.payload.drop 6))
      else jpegExifFrom content (before.length + segment.bytes.length) := by
  obtain ⟨hff, hd8, hd9, hda⟩ : segment.marker ≠ 0xFF ∧ segment.marker ≠ 0xD8 ∧
      segment.marker ≠ 0xD9 ∧ segment.marker ≠ 0xDA := by
    simpa using segment.marker_prefixed
  have hsize := Endian.big.length_write 2 (segment.payload.length + 2)
  have hlength : content.length = before.length + segment.bytes.length + after.length := by
    rw [hcontent, List.length_append, List.length_append, Nat.add_assoc]
  rw [segment.length_bytes] at hlength
  rw [JpegSegment.bytes] at hcontent
  simp only [List.append_assoc, List.cons_append] at hcontent
  have hfirst : content = before ++ 0xFF :: (List.replicate segment.fill 0xFF ++ (segment.marker ::
      (Endian.big.write 2 (segment.payload.length + 2) ++ (segment.payload ++ after)))) := by
    rw [hcontent, List.replicate_succ, List.cons_append]
  have hfills : content = (before ++ List.replicate (segment.fill + 1) 0xFF) ++ segment.marker ::
      (Endian.big.write 2 (segment.payload.length + 2) ++ (segment.payload ++ after)) := by
    rw [hcontent, List.append_assoc]
  have hmarked : content = (before ++ (List.replicate (segment.fill + 1) 0xFF ++ [segment.marker])) ++
      (Endian.big.write 2 (segment.payload.length + 2) ++ (segment.payload ++ after)) := by
    rw [hcontent]
    simp only [List.append_assoc, List.singleton_append]
  have hsized : content = (before ++ (List.replicate (segment.fill + 1) 0xFF ++ (segment.marker ::
      Endian.big.write 2 (segment.payload.length + 2)))) ++ (segment.payload ++ after) := by
    rw [hcontent]
    simp only [List.append_assoc, List.cons_append]
  have hnext := skipFill_replicate hff (segment.fill + 1) hcontent
  have hmarker : byteAt content (before.length + (segment.fill + 1)) = .ok segment.marker :=
    byteAt_split hfills (by rw [List.length_append, List.length_replicate])
  have hread : Endian.big.readAt content (before.length + (segment.fill + 1) + 1)
      (before.length + (segment.fill + 1) + 1 + 2) = .ok (segment.payload.length + 2) :=
    readAt_split _ segment.payload_lt hmarked
      (by simp only [List.length_append, List.length_replicate, List.length_singleton, Nat.add_assoc]) rfl
  have hpayload : within content (before.length + (segment.fill + 1) + 1 + 2)
      (before.length + (segment.fill + 1) + 1 + (segment.payload.length + 2)) = .ok segment.payload := by
    apply within_split hsized
    · simp only [List.length_append, List.length_replicate, List.length_cons, hsize]
      omega
    · omega
  rw [jpegExifFrom, if_pos (by omega), byteAt_split hfirst rfl]
  simp only [ne_eq, not_true_eq_false, if_false]
  split
  · rename_i hfill
    rw [hnext] at hfill
    cases hfill
  · rename_i next hfill
    rw [hnext] at hfill
    obtain rfl := Except.ok.inj hfill
    have hin : ¬ (before.length + (segment.fill + 1) ≥ content.length) := by omega
    have hroom : ¬ (before.length + (segment.fill + 1) + 1 + 2 > content.length) := by omega
    have hwhole : ¬ (segment.payload.length + 2 < 2 ∨
        before.length + (segment.fill + 1) + 1 + (segment.payload.length + 2) > content.length) := by omega
    have hprefixed : ¬ (segment.marker = 0xD8 ∨ segment.marker = 0xD9) := by
      rintro (h | h)
      · exact hd8 h
      · exact hd9 h
    rw [if_neg hin, hmarker]
    simp only [bind, Except.bind, if_neg hprefixed, if_neg hda, if_neg hroom, hread, if_neg hwhole, hpayload]
    by_cases hexif : segment.IsExif
    · rw [if_pos hexif]
      exact if_pos hexif
    · have hplace : before.length + (segment.fill + 1) + 1 + (segment.payload.length + 2) =
          before.length + segment.bytes.length := by
        rw [segment.length_bytes]
        omega
      rw [if_neg hexif, ← hplace]
      exact if_neg hexif

/-- The block stands behind other segments and before the first scan, and anything follows it. -/
structure JpegFile where
  before : List JpegSegment
  fill : Nat
  block : TiffBlock
  after : Bytes
  before_others : ∀ segment ∈ before, ¬ segment.IsExif
  block_lt : (exifHeader ++ block.bytes).length + 2 < 256 ^ 2

namespace JpegFile

def exif (file : JpegFile) : JpegSegment :=
  ⟨file.fill, 0xE1, exifHeader ++ file.block.bytes, by decide, file.block_lt⟩

def bytes (file : JpegFile) : Bytes :=
  [0xFF, 0xD8] ++ (file.before.flatMap JpegSegment.bytes ++ (file.exif.bytes ++ file.after))

end JpegFile

theorem jpegExif_file (file : JpegFile) : jpegExif file.bytes = .ok (some file.block.bytes) := by
  have hfile : file.bytes = [0xFF, 0xD8] ++ (file.before.flatMap JpegSegment.bytes ++
      (file.exif.bytes ++ file.after)) := rfl
  have hwalk : jpegExifFrom file.bytes ([0xFF, 0xD8] : Bytes).length =
      jpegExifFrom file.bytes (([0xFF, 0xD8] : Bytes).length +
        (file.before.flatMap JpegSegment.bytes).length) := by
    refine walk_over (jpegExifFrom file.bytes) JpegSegment.bytes (fun segment => ¬ segment.IsExif) ?_
      file.before file.before_others hfile
    intro before segment after hcontent hother
    rw [jpegExifFrom_segment hcontent, if_neg hother]
  have hsplit : file.bytes = ([0xFF, 0xD8] ++ file.before.flatMap JpegSegment.bytes) ++
      (file.exif.bytes ++ file.after) := by
    rw [hfile, List.append_assoc]
  have hexif : file.exif.IsExif := ⟨rfl, List.prefix_append _ _⟩
  have hdrop : file.exif.payload.drop 6 = file.block.bytes := List.drop_left' rfl
  have hstart : within file.bytes 0 2 = .ok [0xFF, 0xD8] := by
    have hbegin : file.bytes = [] ++ ([0xFF, 0xD8] ++ (file.before.flatMap JpegSegment.bytes ++
        (file.exif.bytes ++ file.after))) := hfile
    exact within_split hbegin rfl rfl
  have hlong : ¬ file.bytes.length < 4 := by
    rw [hsplit, List.length_append, List.length_append, List.length_append, file.exif.length_bytes]
    have htwo : ([0xFF, 0xD8] : Bytes).length = 2 := rfl
    omega
  rw [jpegExif, if_neg hlong, hstart]
  simp only [bind, Except.bind, ne_eq, not_true_eq_false, if_false]
  change jpegExifFrom file.bytes ([0xFF, 0xD8] : Bytes).length = _
  rw [hwalk, ← List.length_append, jpegExifFrom_segment hsplit, if_pos hexif, hdrop]

/-! ## Every container -/

inductive Container
  | png (file : PngFile)
  | webp (file : WebpFile)
  | jpeg (file : JpegFile)

namespace Container

def bytes : Container → Bytes
  | .png file => file.bytes
  | .webp file => file.bytes
  | .jpeg file => file.bytes

def mediaType : Container → String
  | .png _ => "image/png"
  | .webp _ => "image/webp"
  | .jpeg _ => "image/jpeg"

def block : Container → TiffBlock
  | .png file => file.block
  | .webp file => file.block
  | .jpeg file => file.block

end Container

/-- The orientation of a container is the one that its block states. -/
theorem exifOrientation_container (container : Container) :
    exifOrientation container.bytes container.mediaType = container.block.orientation := by
  have hread : orientationOf container.bytes container.mediaType = .ok container.block.orientation := by
    cases container with
    | png file =>
      rw [orientationOf, Container.mediaType, if_neg (by decide), if_pos rfl, Container.bytes, pngExif_file]
      exact tiffOrientation_bytes file.block
    | webp file =>
      rw [orientationOf, Container.mediaType, if_neg (by decide), if_neg (by decide), if_pos rfl,
        Container.bytes, webpExif_file]
      exact tiffOrientation_bytes file.block
    | jpeg file =>
      rw [orientationOf, Container.mediaType, if_pos rfl, Container.bytes, jpegExif_file]
      exact tiffOrientation_bytes file.block
  rw [exifOrientation, hread]

/-- A valid entry is the orientation of its block, wherever it stands. -/
theorem orientation_valid (block : TiffBlock) {entry : TiffEntry} (hentry : entry ∈ block.entries) {n : Nat}
    (hn : entry.orientation? block.endian = some n) : block.orientation = n := by
  have htag : ∀ {e : TiffEntry} {m : Nat}, e.orientation? block.endian = some m → e.tag = 0x0112 := by
    intro e m hm
    by_contra hother
    rw [orientation?_other hother] at hm
    cases hm
  have hunique := block.unique
  obtain ⟨before, after, hsplit⟩ := List.append_of_mem hentry
  rw [hsplit, List.countP_append, List.countP_cons_of_pos (by simpa using htag hn)] at hunique
  have hbefore : before.findSome? (TiffEntry.orientation? block.endian) = none := by
    rw [List.findSome?_eq_none_iff]
    intro other hother
    apply orientation?_other
    intro h
    have hpos : 0 < before.countP (fun entry => entry.tag = 0x0112) := by
      apply List.countP_pos_iff.mpr
      exact ⟨other, hother, decide_eq_true h⟩
    omega
  rw [TiffBlock.orientation, hsplit, List.findSome?_append, hbefore, List.findSome?_cons, hn]
  rfl

theorem orientation_none (block : TiffBlock)
    (h : ∀ entry ∈ block.entries, entry.orientation? block.endian = none) : block.orientation = 1 := by
  rw [TiffBlock.orientation, List.findSome?_eq_none_iff.mpr h]
  rfl

/-! ## Pictures -/

open Image (applyOrientation Orientation)

structure Picture where
  width : Nat
  height : Nat
  pixels : List UInt32
  width_pos : 1 ≤ width
  height_pos : 1 ≤ height
  length_eq : pixels.length = height * width

/-- Each pixel is moved to the place at which EXIF has it seen, one to one, and the inverse orientation
gives the picture back. -/
def Picture.MovedBy (picture : Picture) (o : Orientation) : Prop :=
  ∃ out, applyOrientation picture.pixels picture.width picture.height o.number =
      .ok (out, (o.seenWidth picture.width picture.height : Int),
        (o.seenHeight picture.width picture.height : Int)) ∧
    out.length = o.seenHeight picture.width picture.height * o.seenWidth picture.width picture.height ∧
    (∀ x < picture.width, ∀ y < picture.height,
      out[(o.displayed picture.width picture.height x y).2 * o.seenWidth picture.width picture.height +
        (o.displayed picture.width picture.height x y).1]? = picture.pixels[y * picture.width + x]?) ∧
    (∀ vx < o.seenWidth picture.width picture.height, ∀ vy < o.seenHeight picture.width picture.height,
      ∃! p : Nat × Nat, (p.1 < picture.width ∧ p.2 < picture.height) ∧
        o.displayed picture.width picture.height p.1 p.2 = (vx, vy)) ∧
    applyOrientation out (o.seenWidth picture.width picture.height)
        (o.seenHeight picture.width picture.height) o.inverse.number =
      .ok (picture.pixels, (picture.width : Int), (picture.height : Int))

theorem Picture.movedBy (picture : Picture) (o : Orientation) : picture.MovedBy o := by
  obtain ⟨out, hout, hlength, hmoves⟩ := Image.applyOrientation_moves o picture.width_pos
    picture.height_pos picture.length_eq
  refine ⟨out, hout, hlength, hmoves, ?_, ?_⟩
  · intro vx hvx vy hvy
    exact o.displayed_bijective picture.width picture.height hvx hvy
  · exact Image.applyOrientation_inverse o picture.width_pos picture.height_pos picture.length_eq hout

/-- The gate and the search read only inside the octets and find one of the eight orientations; in a
well-formed container this is the valid entry of the block; and every picture is moved by it. -/
theorem orientation_read_and_applied :
    (∀ content mediaType, Inside (containerLooksComplete content mediaType) ∧
      Inside (orientationOf content mediaType) ∧
      1 ≤ exifOrientation content mediaType ∧ exifOrientation content mediaType ≤ 8) ∧
    (∀ container : Container,
      (∀ entry ∈ container.block.entries, ∀ n,
        entry.orientation? container.block.endian = some n →
          exifOrientation container.bytes container.mediaType = n) ∧
      ((∀ entry ∈ container.block.entries, entry.orientation? container.block.endian = none) →
        exifOrientation container.bytes container.mediaType = 1)) ∧
    ∀ (picture : Picture) (n : Int), 1 ≤ n ∧ n ≤ 8 →
      ∃ o : Orientation, o.number = n ∧ picture.MovedBy o := by
  refine ⟨?_, ?_, ?_⟩
  · intro content mediaType
    obtain ⟨n, hn, -⟩ := orientationOf_inRange content mediaType
    exact ⟨containerLooksComplete_inside content mediaType, ⟨n, hn⟩, exifOrientation_range content mediaType⟩
  · intro container
    rw [exifOrientation_container]
    refine ⟨?_, orientation_none container.block⟩
    intro entry hentry n hn
    exact orientation_valid container.block hentry hn
  · intro picture n hn
    obtain ⟨o, ho⟩ := Orientation.exists_number hn
    exact ⟨o, ho, picture.movedBy o⟩

end MDRack.Media.Exif
