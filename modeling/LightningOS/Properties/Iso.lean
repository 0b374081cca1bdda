import LightningOS.Tools.MakeIso
import Mathlib.Data.Set.Lattice
import Mathlib.Order.CompletePartialOrder
import Mathlib.Order.Interval.Set.Basic

/-!
# The ISO image is consistent

What is read from an image that `build` makes: the size in the volume descriptor, the records of
the root directory, the bytes at their extents, and the boot catalog. The loops over the files
are followed by induction, with the cursor as the place in the image.
-/

namespace LightningOS.MakeIso

open CString Layout Numeral

/-! ## Reading an image -/

/-- What a directory record says. -/
structure Entry where
  identifier : List UInt8
  extent : Nat
  length : Nat

def entryOf (record : List UInt8) : Entry where
  identifier := slice 33 (ofLe (slice 32 1 record)) record
  extent := ofLe (slice 2 4 record)
  length := ofLe (slice 10 4 record)

/-- The records of a directory, by their lengths. A length of zero ends it. -/
def parse (data : List UInt8) : List Entry :=
  match data with
  | [] => []
  | len :: rest =>
    if len = 0 then []
    else entryOf ((len :: rest).take len.toNat) :: parse ((len :: rest).drop len.toNat)
termination_by data.length
decreasing_by
  rename_i hlen
  have hpos : 0 < len.toNat := Nat.pos_of_ne_zero fun h => hlen (UInt8.toNat_inj.mp h)
  rw [List.length_drop, List.length_cons]
  omega

/-- `n` bytes from the start of a sector on. -/
def readAt (image : List UInt8) (extent n : Nat) : List UInt8 := slice (extent * sector) n image

/-- The volume space size, as it stands in the volume descriptor. -/
def volumeSize (image : List UInt8) : Nat := ofLe (slice (pvdSector * sector + 80) 4 image)

/-- The record of the root directory in the volume descriptor. -/
def rootEntry (image : List UInt8) : Entry := entryOf (slice (pvdSector * sector + 156) 34 image)

def directory (image : List UInt8) : List Entry :=
  parse (readAt image (rootEntry image).extent (rootEntry image).length)

/-- The sector of the boot catalog, from the boot record. -/
def catalogExtent (image : List UInt8) : Nat := ofLe (slice ((pvdSector + 1) * sector + 71) 4 image)

/-- The sector of the boot image, from the default entry of the boot catalog. -/
def bootExtent (image : List UInt8) : Nat :=
  ofLe (slice 40 4 (readAt image (catalogExtent image) sector))

/-- The sectors of an extent. -/
def Entry.sectors (e : Entry) : Set Nat := Set.Ico e.extent (e.extent + sectorsFor e.length)

/-- An image that holds the files. -/
structure Consistent (files : List (String × List UInt8)) (image : List UInt8) : Prop where
  size : image.length = volumeSize image * sector
  /-- The directory has two records for itself, and one for each file. -/
  records : ∃ dots listed, directory image = dots ++ listed ∧
    dots.map Entry.identifier = [[0], [1]] ∧
    listed.map Entry.identifier = files.map (fun file => ofString (file.1 ++ ";1")) ∧
    listed.map Entry.length = files.map (fun file => file.2.length) ∧
    listed.map (fun e => readAt image e.extent e.length) = files.map Prod.snd ∧
    listed.Pairwise (fun a b => Disjoint a.sectors b.sectors) ∧
    (∀ e ∈ listed, (rootEntry image).extent < e.extent) ∧
    listed.getLast?.map Entry.extent = some (bootExtent image)
  /-- The validation entry. -/
  validation : wordSum (readAt image (catalogExtent image) 32) % 65536 = 0

/-! ## Steps that do not raise -/

variable {α β : Type}

theorem bind_ok {x : Except Error α} {f : α → Except Error β} {b : β} (h : x >>= f = .ok b) :
    ∃ a, x = .ok a ∧ f a = .ok b := by
  cases x with
  | error e => cases h
  | ok a => exact ⟨a, rfl, h⟩

theorem pad_ok {data out : List UInt8} {size : Nat} (h : pad data size = .ok out) :
    out = data ++ List.replicate (size - data.length) 0 ∧ out.length = size := by
  unfold pad at h
  split at h
  · cases h
  next hle =>
    cases h
    refine ⟨rfl, ?_⟩
    rw [List.length_append, List.length_replicate]
    omega

theorem structPack_ok {little : Bool} {width : Nat} {value : Int} {bytes : List UInt8}
    (h : structPack little width value = .ok bytes) : ∃ n : Nat, value = n ∧ n < 256 ^ width ∧
      bytes = if little then leBytes width n else (leBytes width n).reverse := by
  unfold structPack at h
  split at h
  next hfits =>
    cases h
    obtain ⟨n, rfl⟩ := Int.eq_ofNat_of_zero_le hfits.1
    exact ⟨n, rfl, by exact_mod_cast hfits.2, rfl⟩
  · cases h

theorem structPack_length {little : Bool} {width : Nat} {value : Int} {bytes : List UInt8}
    (h : structPack little width value = .ok bytes) : bytes.length = width := by
  obtain ⟨n, -, -, rfl⟩ := structPack_ok h
  cases little with
  | true => exact length_leBytes width n
  | false => exact List.length_reverse.trans (length_leBytes width n)

theorem structPack_value {width n : Nat} {bytes : List UInt8}
    (h : structPack true width n = .ok bytes) : bytes = leBytes width n ∧ ofLe bytes = n := by
  obtain ⟨m, hm, hlt, rfl⟩ := structPack_ok h
  cases Int.ofNat.inj hm
  exact ⟨rfl, ofLe_leBytes width hlt⟩

theorem bothEndian16_length {value : Int} {bytes : List UInt8}
    (h : bothEndian16 value = .ok bytes) : bytes.length = 4 := by
  obtain ⟨little, hlittle, h⟩ := bind_ok h
  obtain ⟨big, hbig, h⟩ := bind_ok h
  cases h
  rw [List.length_append, structPack_length hlittle, structPack_length hbig]

theorem bothEndian32_length {value : Int} {bytes : List UInt8}
    (h : bothEndian32 value = .ok bytes) : bytes.length = 8 := by
  obtain ⟨little, hlittle, h⟩ := bind_ok h
  obtain ⟨big, hbig, h⟩ := bind_ok h
  cases h
  rw [List.length_append, structPack_length hlittle, structPack_length hbig]

theorem bothEndian32_value {n : Nat} {bytes : List UInt8} (h : bothEndian32 n = .ok bytes) :
    ofLe (slice 0 4 bytes) = n := by
  obtain ⟨little, hlittle, h⟩ := bind_ok h
  obtain ⟨big, hbig, h⟩ := bind_ok h
  cases h
  rw [slice_append_left (Nat.le_of_eq (structPack_length hlittle).symm), slice_zero,
    ← structPack_length hlittle, List.take_length]
  exact (structPack_value hlittle).2

theorem byte_ok {n : Nat} {b : UInt8} (h : byte n = .ok b) : n < 256 ∧ b = UInt8.ofNat n := by
  unfold byte at h
  split at h
  next hlt =>
    cases h
    exact ⟨hlt, rfl⟩
  · cases h

theorem dirDatetime_length {date : When} {bytes : List UInt8} (h : dirDatetime date = .ok bytes) :
    bytes.length = 7 := by
  obtain ⟨year, hyear, h⟩ := bind_ok h
  obtain ⟨month, hmonth, h⟩ := bind_ok h
  obtain ⟨day, hday, h⟩ := bind_ok h
  obtain ⟨hour, hhour, h⟩ := bind_ok h
  obtain ⟨minute, hminute, h⟩ := bind_ok h
  obtain ⟨second, hsecond, h⟩ := bind_ok h
  cases h
  simp only [List.length_append, structPack_length hyear, structPack_length hmonth,
    structPack_length hday, structPack_length hhour, structPack_length hminute,
    structPack_length hsecond, List.length_singleton]

/-! ## Directory records -/

/-- A record that can be taken off a directory by its length. -/
structure IsRecord (record : List UInt8) (e : Entry) : Prop where
  lead : ∃ rest, record = UInt8.ofNat record.length :: rest
  short : record.length < 256
  entry : entryOf record = e

/-- What is read from the parts of a record. -/
theorem entryOf_parts {record extents lengths datetime volume identifier tail : List UInt8}
    {len flags : UInt8} (he : extents.length = 8) (hl : lengths.length = 8)
    (hd : datetime.length = 7) (hv : volume.length = 4) (hid : identifier.length < 256)
    (hrecord : record = List.flatten [[len], [0], extents, lengths, datetime, [flags], [0], [0],
      volume, [UInt8.ofNat identifier.length], identifier] ++ tail) :
    entryOf record = ⟨identifier, ofLe (slice 0 4 extents), ofLe (slice 0 4 lengths)⟩ := by
  have hextents : slice 2 8 record = extents := by
    rw [hrecord]
    exact slice_flatten (p := [[len], [0]]) rfl he
  have hlengths : slice 10 8 record = lengths := by
    rw [hrecord]
    exact slice_flatten (p := [[len], [0], extents]) (by simp [he]) hl
  have hidLength : slice 32 1 record = [UInt8.ofNat identifier.length] := by
    rw [hrecord]
    exact slice_flatten (p := [[len], [0], extents, lengths, datetime, [flags], [0], [0], volume])
      (by simp [he, hl, hd, hv]) rfl
  have hidentifier : slice 33 identifier.length record = identifier := by
    rw [hrecord]
    exact slice_flatten (p := [[len], [0], extents, lengths, datetime, [flags], [0], [0], volume,
      [UInt8.ofNat identifier.length]]) (by simp [he, hl, hd, hv]) rfl
  have hvalue : ofLe [UInt8.ofNat identifier.length] = identifier.length := by
    rw [ofLe, ofLe, UInt8.toNat_ofNat']
    omega
  have hextent : slice 2 4 record = slice 0 4 extents := by
    rw [← hextents, slice_slice (by decide)]
  have hlength : slice 10 4 record = slice 0 4 lengths := by
    rw [← hlengths, slice_slice (by decide)]
  rw [entryOf, hidLength, hvalue, hidentifier, hextent, hlength]

theorem even_append (body : List UInt8) :
    ∃ tail, (if body.length % 2 = 1 then body ++ [0] else body) = body ++ tail := by
  by_cases h : body.length % 2 = 1
  · exact ⟨[0], if_pos h⟩
  · exact ⟨[], (if_neg h).trans (List.append_nil _).symm⟩

theorem directoryRecord_ok {name : String} {extent length : Nat} {date : When} {isDir : Bool}
    {special : Option UInt8} {record : List UInt8}
    (h : directoryRecord name extent length date isDir special = .ok record) :
    ∃ identifier, identifierOf name special = .ok identifier ∧
      IsRecord record ⟨identifier, extent, length⟩ := by
  obtain ⟨identifier, hid, h⟩ := bind_ok h
  obtain ⟨extents, hextents, h⟩ := bind_ok h
  obtain ⟨lengths, hlengths, h⟩ := bind_ok h
  obtain ⟨datetime, hdatetime, h⟩ := bind_ok h
  obtain ⟨volume, hvolume, h⟩ := bind_ok h
  obtain ⟨idLength, hidLength, h⟩ := bind_ok h
  obtain ⟨recordLength, hlen, h⟩ := bind_ok h
  obtain ⟨hshort, rfl⟩ := byte_ok hidLength
  obtain ⟨hrecord, rfl⟩ := byte_ok hlen
  have he := bothEndian32_length hextents
  have hl := bothEndian32_length hlengths
  have hd := dirDatetime_length hdatetime
  have hv := bothEndian16_length hvolume
  refine ⟨identifier, hid, ?_⟩
  obtain ⟨tail, htail⟩ := even_append (List.flatten [[0], [0], extents, lengths, datetime,
    [if isDir then 0x02 else 0x00], [0], [0], volume, [UInt8.ofNat identifier.length], identifier])
  rw [htail] at hrecord h
  cases h
  -- the record with its length in front
  have hset : ∀ len : UInt8, (List.flatten [[0], [0], extents, lengths, datetime,
      [if isDir then 0x02 else 0x00], [0], [0], volume, [UInt8.ofNat identifier.length],
      identifier] ++ tail).set 0 len = List.flatten [[len], [0], extents, lengths, datetime,
      [if isDir then 0x02 else 0x00], [0], [0], volume, [UInt8.ofNat identifier.length],
      identifier] ++ tail := fun _ => rfl
  rw [hset]
  refine ⟨?_, ?_, ?_⟩
  · rw [← hset, List.length_set]
    exact ⟨_, rfl⟩
  · rw [← hset, List.length_set]
    exact hrecord
  · rw [entryOf_parts he hl hd hv hshort rfl, bothEndian32_value hextents,
      bothEndian32_value hlengths]

/-- **One record of a directory.** -/
theorem parse_record {record : List UInt8} {e : Entry} (h : IsRecord record e)
    (rest : List UInt8) : parse (record ++ rest) = e :: parse rest := by
  obtain ⟨more, hlead⟩ := h.lead
  have hshort := h.short
  have hlen : (UInt8.ofNat record.length).toNat = record.length := by
    rw [UInt8.toNat_ofNat']
    omega
  have hpos : 0 < record.length := by
    rw [hlead]
    exact Nat.succ_pos _
  have hne : UInt8.ofNat record.length ≠ 0 := by
    intro hzero
    rw [hzero] at hlen
    exact absurd hlen.symm (Nat.ne_of_gt hpos)
  have hdata : record ++ rest = UInt8.ofNat record.length :: (more ++ rest) :=
    congrArg (· ++ rest) hlead
  rw [hdata, parse, if_neg hne, ← hdata, hlen, List.take_left, List.drop_left, h.entry]

theorem parse_zeros (n : Nat) : parse (List.replicate n 0) = [] := by
  cases n with
  | zero => rw [List.replicate_zero, parse]
  | succ n => rw [List.replicate_succ, parse, if_pos rfl]

/-- What the record of a file should say. -/
def Placed.entry (p : Placed) : Entry := ⟨ofString (p.name ++ ";1"), p.extent, p.length⟩

theorem encodeAscii_ok {text : String} {bytes : List UInt8} (h : encodeAscii text = .ok bytes) :
    bytes = ofString text := by
  unfold encodeAscii at h
  split at h
  · cases h
    rfl
  · cases h

theorem parse_fileRecords {date : When} {rest : List UInt8} (placed : List Placed) :
    ∀ {records : List UInt8}, fileRecords date placed = .ok records →
      parse (records ++ rest) = placed.map Placed.entry ++ parse rest := by
  induction placed with
  | nil =>
    intro records h
    cases h
    rfl
  | cons p placed ih =>
    intro records h
    obtain ⟨record, hrecord, h⟩ := bind_ok h
    obtain ⟨more, hmore, h⟩ := bind_ok h
    cases h
    obtain ⟨identifier, hid, his⟩ := directoryRecord_ok hrecord
    cases encodeAscii_ok hid
    rw [List.append_assoc, parse_record his, ih hmore]
    rfl

/-- The two records of a directory for itself. -/
def dots : List Entry := [⟨[0], rootSector, sector⟩, ⟨[1], rootSector, sector⟩]

/-- **The root directory.** -/
theorem parse_rootDirectory {date : When} {placed : List Placed} {root : List UInt8}
    (h : rootDirectory date placed = .ok root) (n : Nat) :
    parse (root ++ List.replicate n 0) = dots ++ placed.map Placed.entry := by
  obtain ⟨dot, hdot, h⟩ := bind_ok h
  obtain ⟨dotdot, hdotdot, h⟩ := bind_ok h
  obtain ⟨records, hrecords, h⟩ := bind_ok h
  cases h
  obtain ⟨_, hid, his⟩ := directoryRecord_ok hdot
  cases hid
  obtain ⟨_, hid', his'⟩ := directoryRecord_ok hdotdot
  cases hid'
  rw [List.append_assoc, List.append_assoc, parse_record his, parse_record his',
    parse_fileRecords placed hrecords, parse_zeros, List.append_nil]
  rfl

/-! ## The files -/

variable {cursor : Nat}

theorem place_cons (name : String) (content : List UInt8) (es : List (String × List UInt8)) :
    place cursor ((name, content) :: es) =
      (⟨name, cursor, content.length, content⟩ ::
        (place (cursor + sectorsFor content.length) es).1,
      (place (cursor + sectorsFor content.length) es).2) := rfl

theorem place_files (es : List (String × List UInt8)) : ∀ cursor : Nat,
    (place cursor es).1.map Placed.name = es.map Prod.fst ∧
      (place cursor es).1.map Placed.length = es.map fun file => file.2.length := by
  induction es with
  | nil => exact fun _ => ⟨rfl, rfl⟩
  | cons file es ih =>
    intro cursor
    obtain ⟨name, content⟩ := file
    obtain ⟨hnames, hlengths⟩ := ih (cursor + sectorsFor content.length)
    rw [place_cons]
    simp only [List.map_cons, hnames, hlengths, and_self]

theorem place_above (es : List (String × List UInt8)) : ∀ {cursor : Nat},
    ∀ p ∈ (place cursor es).1, cursor ≤ p.extent := by
  induction es with
  | nil => exact fun p hp => absurd hp List.not_mem_nil
  | cons file es ih =>
    intro cursor p hp
    obtain ⟨name, content⟩ := file
    rw [place_cons] at hp
    rcases List.mem_cons.mp hp with rfl | hp
    · exact Nat.le_refl _
    · exact (Nat.le_add_right _ _).trans (ih p hp)

/-- **The extents do not overlap.** -/
theorem place_disjoint (es : List (String × List UInt8)) : ∀ {cursor : Nat},
    (place cursor es).1.Pairwise fun a b => a.extent + sectorsFor a.length ≤ b.extent := by
  induction es with
  | nil => exact List.Pairwise.nil
  | cons file es ih =>
    intro cursor
    obtain ⟨name, content⟩ := file
    rw [place_cons]
    exact List.Pairwise.cons (fun p hp => place_above es p hp) ih

/-- **The data of the files stands at their extents.** -/
theorem place_data (es : List (String × List UInt8)) : ∀ {cursor : Nat} {front data : List UInt8},
    front.length = cursor * sector → fileData (place cursor es).1 = .ok data →
      (front ++ data).length = (place cursor es).2 * sector ∧
        (place cursor es).1.map (fun p => readAt (front ++ data) p.extent p.length) =
          es.map Prod.snd := by
  induction es with
  | nil =>
    intro cursor front data hfront h
    cases h
    exact ⟨by rwa [List.append_nil], rfl⟩
  | cons file es ih =>
    intro cursor front data hfront h
    obtain ⟨name, content⟩ := file
    rw [place_cons] at h ⊢
    obtain ⟨padded, hpad, h⟩ := bind_ok h
    obtain ⟨rest, hrest, h⟩ := bind_ok h
    cases h
    obtain ⟨hpadded, hlen⟩ := pad_ok hpad
    have hfront' : (front ++ padded).length = (cursor + sectorsFor content.length) * sector := by
      rw [List.length_append, hfront, hlen, Nat.add_mul]
    obtain ⟨hsize, hread⟩ := ih hfront' hrest
    have hcontent : readAt (front ++ (padded ++ rest)) cursor content.length = content := by
      rw [readAt, hpadded, List.append_assoc]
      exact slice_mid hfront rfl
    rw [List.append_assoc] at hsize hread
    refine ⟨hsize, ?_⟩
    rw [List.map_cons, List.map_cons, hread]
    exact congrArg (· :: es.map Prod.snd) hcontent

/-! ## Descriptors and boot catalog -/

theorem length_cd001 : (ofString "CD001").length = 5 := rfl

/-- **The volume descriptor.** -/
theorem primaryVolumeDescriptor_ok {volumeId : String} {total table le be : Nat}
    {rootRecord pvd : List UInt8} {date : When} (hroot : rootRecord.length = 34)
    (h : primaryVolumeDescriptor volumeId total table le be rootRecord date = .ok pvd) :
    pvd.length = sector ∧ ofLe (slice 80 4 pvd) = total ∧ slice 156 34 pvd = rootRecord := by
  obtain ⟨system, hsystem, h⟩ := bind_ok h
  obtain ⟨encoded, -, h⟩ := bind_ok h
  obtain ⟨volume, hvolume, h⟩ := bind_ok h
  obtain ⟨totals, htotals, h⟩ := bind_ok h
  obtain ⟨setSize, hsetSize, h⟩ := bind_ok h
  obtain ⟨sequence, hsequence, h⟩ := bind_ok h
  obtain ⟨sectorSize, hsectorSize, h⟩ := bind_ok h
  obtain ⟨tableSize, htableSize, h⟩ := bind_ok h
  obtain ⟨typeL, htypeL, h⟩ := bind_ok h
  obtain ⟨optionalL, hoptionalL, h⟩ := bind_ok h
  obtain ⟨typeM, htypeM, h⟩ := bind_ok h
  obtain ⟨optionalM, hoptionalM, h⟩ := bind_ok h
  obtain ⟨volumeSet, -, h⟩ := bind_ok h
  obtain ⟨publisher, -, h⟩ := bind_ok h
  obtain ⟨preparer, -, h⟩ := bind_ok h
  obtain ⟨application, -, h⟩ := bind_ok h
  obtain ⟨biblio, -, h⟩ := bind_ok h
  obtain ⟨hpvd, hlen⟩ := pad_ok h
  have htotal8 := bothEndian32_length htotals
  have hsize : slice 80 8 pvd = totals := by
    rw [hpvd]
    exact slice_flatten (p := [[1], ofString "CD001", [1], [0], system, volume, List.replicate 8 0])
      (by simp [length_cd001, (pad_ok hsystem).2, (pad_ok hvolume).2]) htotal8
  refine ⟨hlen, ?_, ?_⟩
  · have hvalue := bothEndian32_value htotals
    rwa [← hsize, slice_slice (by decide)] at hvalue
  · rw [hpvd]
    exact slice_flatten (p := [[1], ofString "CD001", [1], [0], system, volume, List.replicate 8 0,
      totals, List.replicate 32 0, setSize, sequence, sectorSize, tableSize, typeL, optionalL,
      typeM, optionalM])
      (by simp [length_cd001, (pad_ok hsystem).2, (pad_ok hvolume).2, htotal8,
        bothEndian16_length hsetSize, bothEndian16_length hsequence,
        bothEndian16_length hsectorSize, bothEndian32_length htableSize, structPack_length htypeL,
        structPack_length hoptionalL,
        structPack_length htypeM, structPack_length hoptionalM]) hroot

theorem bootRecordDescriptor_ok {catalogAt : Nat} {brvd : List UInt8}
    (h : bootRecordDescriptor catalogAt = .ok brvd) :
    brvd.length = sector ∧ ofLe (slice 71 4 brvd) = catalogAt := by
  obtain ⟨specification, hspecification, h⟩ := bind_ok h
  obtain ⟨catalog, hcatalog, h⟩ := bind_ok h
  obtain ⟨hbrvd, hlen⟩ := pad_ok h
  have hat : slice 71 4 brvd = catalog := by
    rw [hbrvd]
    exact slice_flatten (p := [[0], ofString "CD001", [1], specification, List.replicate 32 0])
      (by simp [length_cd001, (pad_ok hspecification).2]) (structPack_length hcatalog)
  rw [hat]
  exact ⟨hlen, (structPack_value hcatalog).2⟩

/-- **The boot catalog**: the checksum of its first entry, and the sector in its second. -/
theorem bootCatalog_ok {imageSector : Nat} {loadSegment sectorCount : Int} {catalog : List UInt8}
    (h : bootCatalog imageSector loadSegment sectorCount = .ok catalog) :
    catalog.length = sector ∧ wordSum (slice 0 32 catalog) % 65536 = 0 ∧
      ofLe (slice 40 4 catalog) = imageSector := by
  obtain ⟨manufacturer, hmanufacturer, h⟩ := bind_ok h
  obtain ⟨checksum, hchecksum, h⟩ := bind_ok h
  obtain ⟨segment, hsegment, h⟩ := bind_ok h
  obtain ⟨count, hcount, h⟩ := bind_ok h
  obtain ⟨image, himage, h⟩ := bind_ok h
  obtain ⟨hcatalog, hlen⟩ := pad_ok h
  -- the entry in front of its checksum
  have hhead : (List.flatten [[1], [0], [0, 0], manufacturer]).length = 2 * 14 := by
    simp [(pad_ok hmanufacturer).2]
  have hvalidation : List.flatten [[1], [0], [0, 0], manufacturer, [0, 0], [0x55, 0xAA]] =
      List.flatten [[1], [0], [0, 0], manufacturer] ++ ([0, 0] ++ [0x55, 0xAA]) := by
    simp
  rw [hvalidation] at hchecksum hcatalog
  generalize List.flatten [[1], [0], [0, 0], manufacturer] = front at hhead hchecksum hcatalog
  obtain ⟨check, hcheck, hlt, rfl⟩ := structPack_ok hchecksum
  have htake : (front ++ ([0, 0] ++ [0x55, 0xAA])).take 28 = front := List.take_left' hhead
  have hdrop : (front ++ ([0, 0] ++ [0x55, 0xAA])).drop 30 = [0x55, 0xAA] := by
    rw [← List.append_assoc]
    exact List.drop_left' (by rw [List.length_append, hhead]; rfl)
  rw [htake, hdrop, if_pos rfl, List.append_assoc front, List.append_assoc] at hcatalog
  have hentry : (front ++ (leBytes 2 check ++ [0x55, 0xAA])).length = 32 := by
    rw [List.length_append, List.length_append, hhead, length_leBytes]
    rfl
  refine ⟨hlen, ?_, ?_⟩
  · have hfirst : slice 0 32 catalog = front ++ (leBytes 2 check ++ [0x55, 0xAA]) := by
      rw [hcatalog, slice_zero]
      exact List.take_left' hentry
    rw [hfirst]
    exact wordSum_checksum hhead hlt (by omega)
  · have hat : slice 40 4 catalog = image := by
      rw [hcatalog, slice_append_right (by rw [hentry]; decide), hentry]
      exact slice_flatten (p := [[0x88], [0x00], segment, [0], [0], count])
        (by simp [structPack_length hsegment, structPack_length hcount]) (structPack_length himage)
    rw [hat]
    exact (structPack_value himage).2

/-! ## The image -/

theorem placed_ne_nil (files : List (String × List UInt8)) (bootImage : List UInt8) :
    (place dataSector (entries files bootImage)).1 ≠ [] := by
  intro hnil
  have hnames := (place_files (entries files bootImage) dataSector).1
  rw [hnil, entries, List.map_append] at hnames
  exact List.append_ne_nil_of_right_ne_nil _ (List.cons_ne_nil _ _) hnames.symm

theorem disjoint_sectors {a b : Placed} (h : a.extent + sectorsFor a.length ≤ b.extent) :
    Disjoint a.entry.sectors b.entry.sectors := by
  rw [Set.disjoint_left]
  intro x ha hb
  have hlt := (Set.mem_Ico.mp ha).2
  have hle := (Set.mem_Ico.mp hb).1
  have hlt' : x < a.extent + sectorsFor a.length := hlt
  have hle' : b.extent ≤ x := hle
  omega

theorem entry_identifiers {placed : List Placed} {files : List (String × List UInt8)}
    (h : placed.map Placed.name = files.map Prod.fst) :
    (placed.map Placed.entry).map Entry.identifier =
      files.map fun file => ofString (file.1 ++ ";1") := by
  have hmap := congrArg (List.map fun name => ofString (name ++ ";1")) h
  rw [List.map_map, List.map_map] at hmap
  rw [List.map_map]
  exact hmap

/-- What stands in front of the data, and what is read there. -/
structure Header (placed : List Placed) (total : Nat) (front data : List UInt8) : Prop where
  length : front.length = dataSector * sector
  volumeSize : volumeSize (front ++ data) = total
  rootEntry : rootEntry (front ++ data) = ⟨[0], rootSector, sector⟩
  directory : directory (front ++ data) = dots ++ placed.map Placed.entry
  bootExtent : bootExtent (front ++ data) = (placed.getLast?.map Placed.extent).getD 0
  validation : wordSum (readAt (front ++ data) (catalogExtent (front ++ data)) 32) % 65536 = 0

/-- The header, from its sectors. -/
theorem header_of_sectors {placed : List Placed} {total : Nat}
    {blank pvd brvd terminator catalog leTable beTable rootData data rootRecord root : List UInt8}
    {zeros : Nat} {date : When} (hblank : blank.length = pvdSector * sector)
    (hpvd : pvd.length = sector) (hbrvd : brvd.length = sector)
    (hterminator : terminator.length = sector) (hcatalog : catalog.length = sector)
    (hle : leTable.length = sector) (hbe : beTable.length = sector)
    (hrootData : rootData.length = sector) (htotal : ofLe (slice 80 4 pvd) = total)
    (hrecord : slice 156 34 pvd = rootRecord)
    (his : IsRecord rootRecord ⟨[0], rootSector, sector⟩)
    (hroot : rootDirectory date placed = .ok root)
    (hpadded : rootData = root ++ List.replicate zeros 0)
    (hcatalogAt : ofLe (slice 71 4 brvd) = catalogSector)
    (hsum : wordSum (slice 0 32 catalog) % 65536 = 0)
    (himage : ofLe (slice 40 4 catalog) = (placed.getLast?.map Placed.extent).getD 0) :
    Header placed total
      (List.flatten [blank, pvd, brvd, terminator, catalog, leTable, beTable, rootData]) data := by
  generalize hwhole : List.flatten [blank, pvd, brvd, terminator, catalog, leTable, beTable,
    rootData] ++ data = image
  have hpvdAt : slice (pvdSector * sector) sector image = pvd := by
    rw [← hwhole]
    exact slice_flatten (p := [blank]) (by simp [hblank]) hpvd
  have hbrvdAt : slice ((pvdSector + 1) * sector) sector image = brvd := by
    rw [← hwhole]
    exact slice_flatten (p := [blank, pvd]) (by simp [hblank, hpvd, Nat.add_mul]) hbrvd
  have hcatalogOf : slice (catalogSector * sector) sector image = catalog := by
    rw [← hwhole]
    exact slice_flatten (p := [blank, pvd, brvd, terminator])
      (by simp [hblank, hpvd, hbrvd, hterminator, pvdSector, catalogSector, sector]) hcatalog
  have hrootAt : slice (rootSector * sector) sector image = rootData := by
    rw [← hwhole]
    exact slice_flatten (p := [blank, pvd, brvd, terminator, catalog, leTable, beTable])
      (by simp [hblank, hpvd, hbrvd, hterminator, hcatalog, hle, hbe, pvdSector, rootSector,
        sector])
      hrootData
  have hentry : rootEntry image = ⟨[0], rootSector, sector⟩ := by
    rw [rootEntry, ← slice_slice (n := sector) (by decide), hpvdAt, hrecord]
    exact his.entry
  have hextent : catalogExtent image = catalogSector := by
    rw [catalogExtent, ← slice_slice (n := sector) (by decide), hbrvdAt, hcatalogAt]
  refine ⟨?_, ?_, ?_, ?_, ?_, ?_⟩
  · simp [hblank, hpvd, hbrvd, hterminator, hcatalog, hle, hbe, hrootData, pvdSector, dataSector,
      sector]
  · rw [hwhole, volumeSize, ← slice_slice (n := sector) (by decide), hpvdAt, htotal]
  · rw [hwhole, hentry]
  · rw [hwhole, directory, hentry, readAt, hrootAt, hpadded]
    exact parse_rootDirectory hroot zeros
  · rw [hwhole, bootExtent, hextent, readAt, hcatalogOf, himage]
  · rw [hwhole, hextent, readAt]
    have hpart : slice (catalogSector * sector) 32 image = slice 0 32 catalog := by
      rw [← hcatalogOf, slice_slice (by decide), Nat.add_zero]
    rw [hpart]
    exact hsum

theorem build_header {volumeId : String} {bootImage : List UInt8}
    {files : List (String × List UInt8)} {loadSegment bootLoadSectors : Int} {date : When}
    {image : List UInt8} {summary : Summary} {placed : List Placed} {total : Nat}
    (hplace : place dataSector (entries files bootImage) = (placed, total))
    (h : build volumeId bootImage files loadSegment bootLoadSectors date = .ok (image, summary)) :
    ∃ front data, image = front ++ data ∧ fileData placed = .ok data ∧
      Header placed total front data ∧ summary.sectors = total ∧ summary.bytes = image.length ∧
      summary.bootImageSector = (placed.getLast?.map Placed.extent).getD 0 := by
  unfold build at h
  rw [hplace] at h
  obtain ⟨root, hroot, h⟩ := bind_ok h
  split at h
  · cases h
  obtain ⟨rootData, hrootData, h⟩ := bind_ok h
  obtain ⟨lePath, -, h⟩ := bind_ok h
  obtain ⟨bePath, -, h⟩ := bind_ok h
  obtain ⟨rootRecord, hrootRecord, h⟩ := bind_ok h
  split at h
  · cases h
  next hlen =>
  obtain ⟨pvd, hpvd, h⟩ := bind_ok h
  obtain ⟨brvd, hbrvd, h⟩ := bind_ok h
  obtain ⟨terminator, hterminator, h⟩ := bind_ok h
  obtain ⟨catalog, hcatalog, h⟩ := bind_ok h
  obtain ⟨leTable, hleTable, h⟩ := bind_ok h
  obtain ⟨beTable, hbeTable, h⟩ := bind_ok h
  obtain ⟨data, hfileData, h⟩ := bind_ok h
  cases h
  obtain ⟨_, hid, his⟩ := directoryRecord_ok hrootRecord
  cases hid
  obtain ⟨hpvdLength, htotal, hrecord⟩ := primaryVolumeDescriptor_ok (not_not.mp hlen) hpvd
  obtain ⟨hbrvdLength, hcatalogAt⟩ := bootRecordDescriptor_ok hbrvd
  obtain ⟨hcatalogLength, hsum, himage⟩ := bootCatalog_ok hcatalog
  obtain ⟨hpadded, hrootLength⟩ := pad_ok hrootData
  exact ⟨_, data, rfl, hfileData,
    header_of_sectors List.length_replicate hpvdLength hbrvdLength (pad_ok hterminator).2
      hcatalogLength (pad_ok hleTable).2 (pad_ok hbeTable).2 hrootLength htotal hrecord his hroot
      hpadded hcatalogAt hsum himage, rfl, rfl, rfl⟩

/-- **An image that is made without an exception is consistent.** -/
theorem build_consistent {volumeId : String} {bootImage : List UInt8}
    {files : List (String × List UInt8)} {loadSegment bootLoadSectors : Int} {date : When}
    {image : List UInt8} {summary : Summary}
    (h : build volumeId bootImage files loadSegment bootLoadSectors date = .ok (image, summary)) :
    Consistent (entries files bootImage) image ∧ summary.sectors = volumeSize image ∧
      summary.bytes = image.length ∧ summary.bootImageSector = bootExtent image := by
  obtain ⟨front, data, rfl, hdata, header, hsectors, hbytes, hboot⟩ := build_header rfl h
  obtain ⟨hnames, hlengths⟩ := place_files (entries files bootImage) dataSector
  obtain ⟨hsize, hread⟩ := place_data (entries files bootImage) header.length hdata
  have hlast : ((place dataSector (entries files bootImage)).1.getLast?.map Placed.extent) =
      some (bootExtent (front ++ data)) := by
    rw [header.bootExtent, List.getLast?_eq_some_getLast (placed_ne_nil files bootImage)]
    rfl
  refine ⟨⟨?_, ⟨dots, _, header.directory, rfl, entry_identifiers hnames, ?_, ?_, ?_, ?_, ?_⟩,
    header.validation⟩, ?_, hbytes, ?_⟩
  · rw [hsize, header.volumeSize]
  · rw [List.map_map]
    exact hlengths
  · rw [List.map_map]
    exact hread
  · rw [List.pairwise_map]
    exact (place_disjoint (entries files bootImage)).imp disjoint_sectors
  · intro e he
    obtain ⟨p, hp, rfl⟩ := List.mem_map.mp he
    rw [header.rootEntry]
    exact place_above (entries files bootImage) p hp
  · rw [List.getLast?_map, Option.map_map]
    exact hlast
  · rw [hsectors, header.volumeSize]
  · rw [hboot, header.bootExtent]

theorem build_consistent_two_files : ∃ image summary,
    build "LIGHTNINGOS" [0xEB, 0xFE] [("README.TXT", [72, 105]), ("EMPTY.TXT", [])] 0 4
        defaultWhen =
      .ok (image, summary) ∧
    Consistent (entries [("README.TXT", [72, 105]), ("EMPTY.TXT", [])] [0xEB, 0xFE]) image := by
  have hok : (build "LIGHTNINGOS" [0xEB, 0xFE] [("README.TXT", [72, 105]), ("EMPTY.TXT", [])] 0 4
      defaultWhen).isOk = true := by
    decide +kernel
  cases hbuild : build "LIGHTNINGOS" [0xEB, 0xFE] [("README.TXT", [72, 105]), ("EMPTY.TXT", [])] 0 4
      defaultWhen with
  | error e =>
    rw [hbuild] at hok
    cases hok
  | ok result => exact ⟨result.1, result.2, rfl, (build_consistent hbuild).1⟩

end LightningOS.MakeIso
