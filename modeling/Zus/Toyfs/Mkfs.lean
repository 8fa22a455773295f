import Zus.Lib.Bytes
import Zus.Lib.Loff
import Zus.Md

/-!
# mkfs

`mkfs.c` writes the table of the one device of a toyfs. It rounds the size of the device
down to whole allocation units; a mount asks for at least one.
-/

namespace Zus.Toyfs.Mkfs

open Zus.Lib Zus.Md

/-- `TOYFS_MAJOR_VERSION`. -/
def majorVersion : UInt16 := 14

/-- `TOYFS_MINOR_VERSION`. -/
def minorVersion : UInt16 := 1

/-- `TOYFS_SUPER_MAGIC`. -/
def superMagic : UInt32 := 0x5346314d

/-- `ZUFS_ALLOC_MASK`. -/
def allocMask : UInt64 := 0x1fffff

/-- `min_size` of `toyfs_open_blkdev`. -/
def minSize : UInt64 := (1 : UInt64) <<< 20

/-- The size `toyfs_open_blkdev` accepts, of a block device or of a regular file. -/
def openBlkdev (isBlk : Bool) (size : UInt64) : Option UInt64 :=
  if isBlk then if size < minSize then none else some size
  else if toLoff size < toLoff minSize then none
  else some size

/-- `toyfs_fill_dev_table`, with the uuids and the time it reads. -/
def fillDevTable (api : Api) (devSize : UInt64) (superUuid devUuid : List UInt8) (now : UInt64) :
    MdDevTable :=
  let t1Blocks := o2p (devSize &&& ~~~allocMask)
  let t : MdDevTable :=
    { sUuid := superUuid
      sVersion := majorVersion * api.minorsPerMajor + minorVersion
      sMagic := superMagic
      sFlags := 0
      sT1Blocks := t1Blocks
      sDevList :=
        { idIndex := 0
          t1Count := 1
          devIds := Function.update (fun _ => {}) 0 { uuid := devUuid, blocks := t1Blocks } }
      sWtime := now }
  { t with sSum := calcCsum api t }

/-- What a mount of toyfs checks a table against. -/
def toyfsCheck : MdtCheck where
  allocMask := allocMask
  majorVer := majorVersion.toNat
  minorVer := minorVersion.toNat
  magic := superMagic

/-- The accessors of the headers read back the fields mkfs writes: the version it packs, and
the number of blocks of a device (below `2 ^ 52`, since a size has 64 bits). -/
structure ReadsBack (api : Api) : Prop where
  major : ∀ t : MdDevTable, t.sVersion = majorVersion * api.minorsPerMajor + minorVersion →
    api.mdtMajorVersion t = majorVersion.toNat
  minor : ∀ t : MdDevTable, t.sVersion = majorVersion * api.minorsPerMajor + minorVersion →
    api.mdtMinorVersion t = minorVersion.toNat
  blocks : ∀ id : MdDevId, id.blocks.toNat < 2 ^ 52 → api.devIdBlocks id = id.blocks

section

variable {api : Api} {devSize : UInt64} {superUuid devUuid : List UInt8} {now : UInt64}

theorem openBlkdev_eq {isBlk : Bool} {size : UInt64} (h : openBlkdev isBlk size = some devSize) :
    devSize = size := by
  unfold openBlkdev at h
  split_ifs at h <;> exact (Option.some.inj h).symm

/-- The size that is kept: whole allocation units. -/
theorem toNat_alignedSize (devSize : UInt64) :
    (devSize &&& ~~~allocMask).toNat = devSize.toNat - devSize.toNat % 2 ^ 21 :=
  toNat_and_not_low (by decide) devSize

/-- The number of blocks in the table. -/
theorem toNat_t1Blocks :
    (fillDevTable api devSize superUuid devUuid now).sT1Blocks.toNat =
      (devSize.toNat - devSize.toNat % 2 ^ 21) / 2 ^ 12 := by
  change (o2p (devSize &&& ~~~allocMask)).toNat = _
  rw [o2p, UInt64.toNat_shiftRight, toNat_alignedSize]
  exact Nat.shiftRight_eq_div_pow _ _

/-- The size a mount computes from the number of blocks. -/
theorem toNat_superSize :
    (p2o (fillDevTable api devSize superUuid devUuid now).sT1Blocks).toNat =
      devSize.toNat - devSize.toNat % 2 ^ 21 := by
  have hlt := devSize.toNat_lt
  rw [p2o, UInt64.toNat_shiftLeft, toNat_t1Blocks]
  change _ <<< 12 % 2 ^ 64 = _
  rw [Nat.shiftLeft_eq]
  omega

/-- The sum in the table is that of the table. -/
theorem csumMismatch_fillDevTable :
    csumMismatch api (fillDevTable api devSize superUuid devUuid now) = false := by
  rw [csumMismatch, fillDevTable, calcCsum_sSum]
  exact bne_self_eq_false' _

/-- **The check looks at the size alone**: it accepts a table that mkfs made exactly when
one allocation unit fits the device. -/
theorem mdtCheck_fillDevTable (hapi : ReadsBack api) :
    mdtCheck api (fillDevTable api devSize superUuid devUuid now) none toyfsCheck = true ↔
      2 ^ 21 ≤ devSize.toNat := by
  set t := fillDevTable api devSize superUuid devUuid now with ht
  have hblocks : api.devIdBlocks (t.sDevList.devIds 0) = t.sT1Blocks := by
    have hlt : t.sT1Blocks.toNat < 2 ^ 52 := by
      have := devSize.toNat_lt
      rw [ht, toNat_t1Blocks]
      omega
    rw [hapi.blocks]
    · rfl
    · exact hlt
  have hsize : (p2o t.sT1Blocks).toNat = devSize.toNat - devSize.toNat % 2 ^ 21 := toNat_superSize
  have haligned : p2o t.sT1Blocks &&& allocMask = 0 := by
    rw [and_low_eq_zero_iff (k := 21) (by decide), hsize]
    omega
  have hzero : p2o t.sT1Blocks = 0 ↔ devSize.toNat < 2 ^ 21 := by
    rw [← UInt64.toNat_inj, hsize]
    have : (0 : UInt64).toNat = 0 := rfl
    omega
  have hindex : ¬ ((0 : ℤ) < 0 ∨ (1 : ℤ) + 0 < 0) := by decide
  have hversion : ¬ (toyfsCheck.majorVer ≠ api.mdtMajorVersion t ∨
      toyfsCheck.minorVer < api.mdtMinorVersion t) := by
    rw [hapi.major t rfl, hapi.minor t rfl]
    exact fun h => h.elim (fun h => h rfl) fun h => absurd h (lt_irrefl _)
  have hsum : ¬ csumMismatch api t = true := by
    rw [csumMismatch_fillDevTable]
    exact fun h => by cases h
  unfold mdtCheck
  rw [if_neg fun h => h rfl, if_neg hversion, if_neg hsum, if_neg fun h => by cases h]
  change (if (0 : ℤ) < 0 ∨ (1 : ℤ) + 0 < 0 then false
    else if p2o (api.devIdBlocks (t.sDevList.devIds 0)) = 0 ∨
      p2o (api.devIdBlocks (t.sDevList.devIds 0)) &&& allocMask ≠ 0 then false else true) = true ↔ _
  rw [if_neg hindex, hblocks, haligned]
  simp only [ne_eq, not_true_eq_false, or_false, hzero]
  split <;> simp <;> omega

end

/-- **A volume can be checked in exactly when it holds one allocation unit.** Of the sizes
mkfs accepts, from 1 MiB on, those below 2 MiB give a table without blocks, which the check
rejects. -/
theorem mkfs_checks_in_iff (api : Api) (hapi : ReadsBack api) (isBlk : Bool) (size devSize : UInt64)
    (superUuid devUuid : List UInt8) (now : UInt64) (hopen : openBlkdev isBlk size = some devSize) :
    (mdtCheck api (fillDevTable api devSize superUuid devUuid now) none toyfsCheck = true ∧
      (fillDevTable api devSize superUuid devUuid now).sT1Blocks.toNat * 4096 ≤ size.toNat) ↔
      2 ^ 21 ≤ size.toNat := by
  obtain rfl := openBlkdev_eq hopen
  rw [mdtCheck_fillDevTable hapi, toNat_t1Blocks]
  refine ⟨fun h => h.1, fun h => ⟨h, ?_⟩⟩
  omega

theorem readsBack_packed : ReadsBack .packed where
  major t h := by
    change t.sVersion.toNat / 1024 = _
    rw [h]
    decide
  minor t h := by
    change t.sVersion.toNat % 1024 = _
    rw [h]
    decide
  blocks _ _ := rfl

/-- A device of 4 MiB. -/
theorem mkfs_checks_in_four_mib :
    mdtCheck .packed (fillDevTable .packed 0x400000 (List.replicate 16 1) (List.replicate 16 2) 7)
      none toyfsCheck = true :=
  ((mkfs_checks_in_iff .packed readsBack_packed true 0x400000 0x400000 (List.replicate 16 1)
    (List.replicate 16 2) 7 (by decide)).mpr (by decide)).1

/-- A device of 1 MiB is accepted by mkfs, and its table is not by the check. -/
theorem mkfs_rejected_one_mib :
    openBlkdev true 0x100000 = some 0x100000 ∧
    mdtCheck .packed (fillDevTable .packed 0x100000 (List.replicate 16 1) (List.replicate 16 2) 7)
      none toyfsCheck = false := by
  refine ⟨by decide, ?_⟩
  rw [Bool.eq_false_iff, ne_eq, mdtCheck_fillDevTable readsBack_packed]
  decide

end Zus.Toyfs.Mkfs
