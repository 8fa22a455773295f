import Zus.Lib.Bytes
import Zus.Lib.Mask

/-!
# Device tables

A device starts with a table that says what it is part of: the uuid of the file system,
the devices it consists of and which of them this one is. `md_zus.c` sums the fields that
never change and checks a table before a mount.

The structure of the table is in the headers of the kernel module, which come from
elsewhere; `Api` is what the code uses of them. The little-endian conversions are the
identity on the machines the code runs on.
-/

namespace Zus.Md

open Zus.Lib

/-- `struct md_dev_id`. -/
structure MdDevId where
  /-- the 16 bytes of `uuid` -/
  uuid : List UInt8 := List.replicate 16 0
  blocks : UInt64 := 0
  deriving DecidableEq

/-- `struct md_dev_list`. -/
structure MdDevList where
  idIndex : ℤ := 0
  t1Count : ℤ := 0
  t2Count : ℤ := 0
  rmemCount : ℤ := 0
  devIds : ℕ → MdDevId := fun _ => {}

/-- `struct md_dev_table`. The default value is a zeroed table. -/
structure MdDevTable where
  sSum : UInt16 := 0
  sVersion : UInt16 := 0
  sMagic : UInt32 := 0
  sUuid : List UInt8 := List.replicate 16 0
  sFlags : UInt64 := 0
  sT1Blocks : UInt64 := 0
  sDevList : MdDevList := {}
  sWtime : UInt64 := 0

/-- What the headers of the kernel module say about a table. -/
structure Api where
  /-- `ZUFS_MINORS_PER_MAJOR` -/
  minorsPerMajor : UInt16
  /-- `mdt_major_version` -/
  mdtMajorVersion : MdDevTable → ℕ
  /-- `mdt_minor_version` -/
  mdtMinorVersion : MdDevTable → ℕ
  /-- `__dev_id_blocks` -/
  devIdBlocks : MdDevId → UInt64
  /-- the bytes from `s_version` on, `MDT_STATIC_SIZE` less the size of `s_sum` -/
  staticBytes : MdDevTable → List UInt8
  /-- the sum comes before them -/
  staticBytes_sSum : ∀ t x, staticBytes { t with sSum := x } = staticBytes t

/-- The headers, with `1024` minor versions to a major one and the fields one after the
other. -/
def Api.packed : Api where
  minorsPerMajor := 1024
  mdtMajorVersion t := t.sVersion.toNat / 1024
  mdtMinorVersion t := t.sVersion.toNat % 1024
  devIdBlocks id := id.blocks
  staticBytes t :=
    leBytes 2 t.sVersion.toNat ++ leBytes 4 t.sMagic.toNat ++ t.sUuid ++
      leBytes 8 t.sFlags.toNat ++ leBytes 8 t.sT1Blocks.toNat ++
      leBytes 2 t.sDevList.idIndex.toNat ++ leBytes 2 t.sDevList.t1Count.toNat ++
      leBytes 2 t.sDevList.t2Count.toNat ++ leBytes 2 t.sDevList.rmemCount.toNat ++
      (List.range 64).flatMap fun i =>
        (t.sDevList.devIds i).uuid ++ leBytes 8 (t.sDevList.devIds i).blocks.toNat
  staticBytes_sSum _ _ := rfl

/-- `md_o2p`. -/
def o2p (x : UInt64) : UInt64 := x >>> 12

/-- `md_p2o`. -/
def p2o (x : UInt64) : UInt64 := x <<< 12

/-! ## The checksum -/

/-- `crc_table`. -/
def crcTable : Array UInt16 :=
  #[
    0x0000, 0xc0c1, 0xc181, 0x0140, 0xc301, 0x03c0, 0x0280, 0xc241,
    0xc601, 0x06c0, 0x0780, 0xc741, 0x0500, 0xc5c1, 0xc481, 0x0440,
    0xcc01, 0x0cc0, 0x0d80, 0xcd41, 0x0f00, 0xcfc1, 0xce81, 0x0e40,
    0x0a00, 0xcac1, 0xcb81, 0x0b40, 0xc901, 0x09c0, 0x0880, 0xc841,
    0xd801, 0x18c0, 0x1980, 0xd941, 0x1b00, 0xdbc1, 0xda81, 0x1a40,
    0x1e00, 0xdec1, 0xdf81, 0x1f40, 0xdd01, 0x1dc0, 0x1c80, 0xdc41,
    0x1400, 0xd4c1, 0xd581, 0x1540, 0xd701, 0x17c0, 0x1680, 0xd641,
    0xd201, 0x12c0, 0x1380, 0xd341, 0x1100, 0xd1c1, 0xd081, 0x1040,
    0xf001, 0x30c0, 0x3180, 0xf141, 0x3300, 0xf3c1, 0xf281, 0x3240,
    0x3600, 0xf6c1, 0xf781, 0x3740, 0xf501, 0x35c0, 0x3480, 0xf441,
    0x3c00, 0xfcc1, 0xfd81, 0x3d40, 0xff01, 0x3fc0, 0x3e80, 0xfe41,
    0xfa01, 0x3ac0, 0x3b80, 0xfb41, 0x3900, 0xf9c1, 0xf881, 0x3840,
    0x2800, 0xe8c1, 0xe981, 0x2940, 0xeb01, 0x2bc0, 0x2a80, 0xea41,
    0xee01, 0x2ec0, 0x2f80, 0xef41, 0x2d00, 0xedc1, 0xec81, 0x2c40,
    0xe401, 0x24c0, 0x2580, 0xe541, 0x2700, 0xe7c1, 0xe681, 0x2640,
    0x2200, 0xe2c1, 0xe381, 0x2340, 0xe101, 0x21c0, 0x2080, 0xe041,
    0xa001, 0x60c0, 0x6180, 0xa141, 0x6300, 0xa3c1, 0xa281, 0x6240,
    0x6600, 0xa6c1, 0xa781, 0x6740, 0xa501, 0x65c0, 0x6480, 0xa441,
    0x6c00, 0xacc1, 0xad81, 0x6d40, 0xaf01, 0x6fc0, 0x6e80, 0xae41,
    0xaa01, 0x6ac0, 0x6b80, 0xab41, 0x6900, 0xa9c1, 0xa881, 0x6840,
    0x7800, 0xb8c1, 0xb981, 0x7940, 0xbb01, 0x7bc0, 0x7a80, 0xba41,
    0xbe01, 0x7ec0, 0x7f80, 0xbf41, 0x7d00, 0xbdc1, 0xbc81, 0x7c40,
    0xb401, 0x74c0, 0x7580, 0xb541, 0x7700, 0xb7c1, 0xb681, 0x7640,
    0x7200, 0xb2c1, 0xb381, 0x7340, 0xb101, 0x71c0, 0x7080, 0xb041,
    0x5000, 0x90c1, 0x9181, 0x5140, 0x9301, 0x53c0, 0x5280, 0x9241,
    0x9601, 0x56c0, 0x5780, 0x9741, 0x5500, 0x95c1, 0x9481, 0x5440,
    0x9c01, 0x5cc0, 0x5d80, 0x9d41, 0x5f00, 0x9fc1, 0x9e81, 0x5e40,
    0x5a00, 0x9ac1, 0x9b81, 0x5b40, 0x9901, 0x59c0, 0x5880, 0x9841,
    0x8801, 0x48c0, 0x4980, 0x8941, 0x4b00, 0x8bc1, 0x8a81, 0x4a40,
    0x4e00, 0x8ec1, 0x8f81, 0x4f40, 0x8d01, 0x4dc0, 0x4c80, 0x8c41,
    0x4400, 0x84c1, 0x8581, 0x4540, 0x8701, 0x47c0, 0x4680, 0x8641,
    0x8201, 0x42c0, 0x4380, 0x8341, 0x4100, 0x81c1, 0x8081, 0x4040
  ]

/-- `crc16`. -/
def crc16 (crc : UInt16) (data : List UInt8) : UInt16 :=
  data.foldl (fun crc d => crcTable.getD ((crc ^^^ d.toUInt16) &&& 0xff).toNat 0 ^^^ (crc >>> 8)) crc

variable (api : Api)

/-- `md_calc_csum`. -/
def calcCsum (mdt : MdDevTable) : UInt16 := crc16 0xffff (api.staticBytes mdt)

/-- The sum may be set without a change of what is summed. -/
theorem calcCsum_sSum (mdt : MdDevTable) (x : UInt16) :
    calcCsum api { mdt with sSum := x } = calcCsum api mdt := by
  rw [calcCsum, api.staticBytes_sSum, calcCsum]

/-- `_csum_mismatch`. -/
def csumMismatch (mdt : MdDevTable) : Bool := mdt.sSum != calcCsum api mdt

/-! ## The check -/

/-- `struct mdt_check`, without `silent`, which only keeps the messages back. -/
structure MdtCheck where
  allocMask : UInt64
  majorVer : ℕ
  minorVer : ℕ
  magic : UInt32

/-- `_mdt_compare_uuids`. -/
def mdtCompareUuids (mdt mainMdt : MdDevTable) : Bool :=
  let devCount := mdt.sDevList.t1Count + mdt.sDevList.t2Count + mdt.sDevList.rmemCount
  mdt.sUuid == mainMdt.sUuid &&
    (List.range devCount.toNat).all fun i =>
      (mdt.sDevList.devIds i).uuid == (mainMdt.sDevList.devIds i).uuid &&
        (mdt.sDevList.devIds i).blocks == (mainMdt.sDevList.devIds i).blocks

/-- The part of `md_mdt_check` about the main table. -/
def mdtCompareMain (mdt mainMdt : MdDevTable) : Bool :=
  mdt.sDevList.t1Count == mainMdt.sDevList.t1Count &&
    mdt.sDevList.t2Count == mainMdt.sDevList.t2Count &&
    mdt.sDevList.rmemCount == mainMdt.sDevList.rmemCount && mdtCompareUuids mdt mainMdt

/-- `md_mdt_check`. -/
def mdtCheck (mdt : MdDevTable) (mainMdt : Option MdDevTable) (mc : MdtCheck) : Bool :=
  if mdt.sMagic ≠ mc.magic then false
  else if mc.majorVer ≠ api.mdtMajorVersion mdt ∨ mc.minorVer < api.mdtMinorVersion mdt then false
  else if csumMismatch api mdt then false
  else if mainMdt.any (fun m => !mdtCompareMain mdt m) then false
  else
    let idIndex := mdt.sDevList.idIndex
    if idIndex < 0 ∨ mdt.sDevList.t1Count + mdt.sDevList.t2Count < idIndex then false
    else
      let superSize := p2o (api.devIdBlocks (mdt.sDevList.devIds idIndex.toNat))
      if superSize = 0 ∨ superSize &&& mc.allocMask ≠ 0 then false
      else true

/-! ## What the check accepts -/

section

variable {api}

/-- The table belongs with the main one. -/
structure MatchesMain (mdt mainMdt : MdDevTable) : Prop where
  t1Count : mdt.sDevList.t1Count = mainMdt.sDevList.t1Count
  t2Count : mdt.sDevList.t2Count = mainMdt.sDevList.t2Count
  rmemCount : mdt.sDevList.rmemCount = mainMdt.sDevList.rmemCount
  sUuid : mdt.sUuid = mainMdt.sUuid
  devIds : ∀ i : ℕ,
    (i : ℤ) < mdt.sDevList.t1Count + mdt.sDevList.t2Count + mdt.sDevList.rmemCount →
    (mdt.sDevList.devIds i).uuid = (mainMdt.sDevList.devIds i).uuid ∧
      (mdt.sDevList.devIds i).blocks = (mainMdt.sDevList.devIds i).blocks

theorem mdtCompareMain_iff {mdt mainMdt : MdDevTable} :
    mdtCompareMain mdt mainMdt = true ↔ MatchesMain mdt mainMdt := by
  have hrange : ∀ i : ℕ,
      i ∈ List.range (mdt.sDevList.t1Count + mdt.sDevList.t2Count + mdt.sDevList.rmemCount).toNat ↔
        (i : ℤ) < mdt.sDevList.t1Count + mdt.sDevList.t2Count + mdt.sDevList.rmemCount := by
    intro i
    rw [List.mem_range, Int.lt_toNat]
  simp only [mdtCompareMain, mdtCompareUuids, Bool.and_eq_true, beq_iff_eq, List.all_eq_true, hrange]
  constructor
  · rintro ⟨⟨⟨h₁, h₂⟩, h₃⟩, h₄, h₅⟩
    exact ⟨h₁, h₂, h₃, h₄, h₅⟩
  · rintro ⟨h₁, h₂, h₃, h₄, h₅⟩
    exact ⟨⟨⟨h₁, h₂⟩, h₃⟩, h₄, h₅⟩

/-- The checks that are not about `id_index`. -/
structure SoundTable (api : Api) (mdt : MdDevTable) (mainMdt : Option MdDevTable) (mc : MdtCheck) :
    Prop where
  magic : mdt.sMagic = mc.magic
  major : api.mdtMajorVersion mdt = mc.majorVer
  minor : api.mdtMinorVersion mdt ≤ mc.minorVer
  sSum : mdt.sSum = calcCsum api mdt
  main : ∀ m ∈ mainMdt, MatchesMain mdt m

/-- The size of the device that `id_index` names. -/
def superSize (api : Api) (mdt : MdDevTable) : UInt64 :=
  p2o (api.devIdBlocks (mdt.sDevList.devIds mdt.sDevList.idIndex.toNat))

/-- A table to accept. -/
structure Acceptable (api : Api) (mdt : MdDevTable) (mainMdt : Option MdDevTable) (mc : MdtCheck) :
    Prop where
  sound : SoundTable api mdt mainMdt mc
  nonneg : 0 ≤ mdt.sDevList.idIndex
  listed : mdt.sDevList.idIndex < mdt.sDevList.t1Count + mdt.sDevList.t2Count
  size : superSize api mdt ≠ 0
  aligned : superSize api mdt &&& mc.allocMask = 0

/-- **What the check accepts**: `id_index` may also be the number of the devices. -/
theorem mdtCheck_eq_true_iff {mdt : MdDevTable} {mainMdt : Option MdDevTable} {mc : MdtCheck} :
    mdtCheck api mdt mainMdt mc = true ↔ SoundTable api mdt mainMdt mc ∧
      0 ≤ mdt.sDevList.idIndex ∧
      mdt.sDevList.idIndex ≤ mdt.sDevList.t1Count + mdt.sDevList.t2Count ∧
      superSize api mdt ≠ 0 ∧ superSize api mdt &&& mc.allocMask = 0 := by
  have hmain : mainMdt.any (fun m => !mdtCompareMain mdt m) = true ↔
      ¬ ∀ m ∈ mainMdt, MatchesMain mdt m := by
    cases mainMdt <;> simp [mdtCompareMain_iff.symm]
  unfold mdtCheck
  constructor
  · intro h
    split at h
    · cases h
    split at h
    · cases h
    split at h
    · cases h
    split at h
    · cases h
    next hmagic hversion hsum hmatch =>
    simp only at h
    split at h
    · cases h
    split at h
    · cases h
    next hindex hsize =>
    rw [not_or] at hversion hindex hsize
    simp only [csumMismatch, bne_iff_ne, ne_eq, not_not] at hsum
    rw [hmain, not_not] at hmatch
    refine ⟨⟨not_not.mp hmagic, (not_not.mp hversion.1).symm, Nat.not_lt.mp hversion.2, hsum, hmatch⟩,
      Int.not_lt.mp hindex.1, Int.not_lt.mp hindex.2, hsize.1, not_not.mp hsize.2⟩
  · rintro ⟨⟨hmagic, hmajor, hminor, hsum, hmatch⟩, hnonneg, hle, hsize, haligned⟩
    have hversion : ¬ (mc.majorVer ≠ api.mdtMajorVersion mdt ∨
        mc.minorVer < api.mdtMinorVersion mdt) :=
      not_or.mpr ⟨not_not.mpr hmajor.symm, Nat.not_lt.mpr hminor⟩
    have hsum' : ¬ csumMismatch api mdt = true := by
      simp [csumMismatch, hsum.symm]
    rw [if_neg (not_not.mpr hmagic), if_neg hversion, if_neg hsum',
      if_neg (fun h => hmain.mp h hmatch)]
    simp only
    rw [if_neg (not_or.mpr ⟨Int.not_lt.mpr hnonneg, Int.not_lt.mpr hle⟩)]
    exact if_neg (not_or.mpr ⟨hsize, not_not.mpr haligned⟩)

end

/-- **The check accepts what it should**, but for a table that names the place after its last
device, where there is the block count of a device. -/
theorem mdtCheck_iff (mdt : MdDevTable) (mainMdt : Option MdDevTable) (mc : MdtCheck) :
    (mdtCheck api mdt mainMdt mc = true ↔ Acceptable api mdt mainMdt mc) ↔
      ¬ (mdt.sDevList.idIndex = mdt.sDevList.t1Count + mdt.sDevList.t2Count ∧
        0 ≤ mdt.sDevList.idIndex ∧ SoundTable api mdt mainMdt mc ∧ superSize api mdt ≠ 0 ∧
        superSize api mdt &&& mc.allocMask = 0) := by
  rw [mdtCheck_eq_true_iff]
  constructor
  · rintro h ⟨hlast, hnonneg, hsound, hsize, haligned⟩
    have hacc := h.mp ⟨hsound, hnonneg, hlast.le, hsize, haligned⟩
    exact hacc.listed.ne hlast
  · intro hlast
    constructor
    · rintro ⟨hsound, hnonneg, hle, hsize, haligned⟩
      refine ⟨hsound, hnonneg, lt_of_le_of_ne hle fun heq => ?_, hsize, haligned⟩
      exact hlast ⟨heq, hnonneg, hsound, hsize, haligned⟩
    · rintro ⟨hsound, hnonneg, hlt, hsize, haligned⟩
      exact ⟨hsound, hnonneg, hlt.le, hsize, haligned⟩

/-- Any table can be given a sum that is right. -/
theorem exists_stamp (mdt : MdDevTable) : ∃ x, x = calcCsum api { mdt with sSum := x } :=
  ⟨calcCsum api mdt, (calcCsum_sSum api mdt _).symm⟩

/-- One device of 512 blocks, with 512 blocks also in the unused place that `id_index` names. -/
theorem mdtCheck_accepts_past_last : ¬ ∀ (api : Api) (mdt : MdDevTable)
    (mainMdt : Option MdDevTable) (mc : MdtCheck),
    mdtCheck api mdt mainMdt mc = true ↔ Acceptable api mdt mainMdt mc := by
  intro hall
  obtain ⟨x, hx⟩ := exists_stamp .packed
    { sDevList := { idIndex := 1, t1Count := 1, devIds := fun _ => { blocks := 512 } } }
  have hsound : SoundTable .packed
      { sDevList := { idIndex := 1, t1Count := 1, devIds := fun _ => { blocks := 512 } }, sSum := x }
      none ⟨0x1fffff, 0, 0, 0⟩ :=
    ⟨rfl, (by decide : 0 / 1024 = 0), (by decide : 0 % 1024 ≤ 0), hx, fun m hm => by cases hm⟩
  have hcheck := mdtCheck_eq_true_iff.mpr ⟨hsound, Int.one_nonneg, Int.le_refl 1,
    (by decide : p2o 512 ≠ 0), (by decide : p2o 512 &&& 0x1fffff = 0)⟩
  have hlisted : (1 : ℤ) < 1 + 0 := ((hall _ _ _ _).mp hcheck).listed
  exact absurd hlisted (by decide)

end Zus.Md
