import Zus.Lib.Crc
import Zus.Md

/-!
# The sum of a device table

`crc16` reads a byte at a time with a table. It is the division bit by bit that the table was made
for, and so a table of which a few bits are wrong does not pass the check.
-/

namespace Zus.Md

open Zus.Lib

/-- The polynomial `x^16 + x^15 + x^2 + 1`, the lowest bit first. -/
def crcPoly : BitVec 16 := 0xa001#16

/-- The bits of a byte, the lowest first. -/
def bitsOf (d : UInt8) : List Bool := (List.range 8).map d.toBitVec.getLsbD

/-- The bits of some bytes. -/
def bits (data : List UInt8) : List Bool := data.flatMap bitsOf

variable {api : Api} {crc : UInt16} {d : UInt8} {data : List UInt8} {mdt mdt' : MdDevTable}
  {mainMdt mainMdt' : Option MdDevTable} {mc mc' : MdtCheck}

/-- An entry of the table is what eight steps make of its index. -/
theorem crcTable_eq (i : Fin 256) :
    (crcTable.getD i 0).toBitVec = (Crc.shift crcPoly)^[8] (BitVec.ofNat 16 i) := by
  revert i
  decide +kernel

theorem low_bitsOf (d : UInt8) : Crc.low 16 (bitsOf d) = d.toBitVec.setWidth 16 := by
  refine BitVec.eq_of_getLsbD_eq fun i hi => ?_
  rw [Crc.getLsbD_low hi, BitVec.getLsbD_setWidth, bitsOf]
  by_cases hlow : i < 8
  · simp [hi, hlow]
  · simp [hlow, BitVec.getLsbD_of_ge d.toBitVec i (by omega)]

/-- A word is its low byte and what is above it. -/
theorem split_low (c : BitVec 16) (d : UInt8) : c ^^^ d.toBitVec.setWidth 16 =
    ((c ^^^ d.toBitVec.setWidth 16) &&& 0xff#16) ^^^ c >>> 8 <<< 8 := by
  have hmask : ∀ i < 16, (0xff#16).getLsbD i = decide (i < 8) := by decide
  refine BitVec.eq_of_getLsbD_eq fun i hi => ?_
  simp only [BitVec.getLsbD_xor, BitVec.getLsbD_and, BitVec.getLsbD_setWidth, hmask i hi,
    BitVec.getLsbD_shiftLeft, BitVec.getLsbD_ushiftRight, hi]
  by_cases hlow : i < 8
  · simp [hlow]
  · have hback : 8 + (i - 8) = i := by omega
    simp [hlow, hback, BitVec.getLsbD_of_ge d.toBitVec i (by omega)]

/-- **A byte from the table** is its eight bits one after the other. -/
theorem crc_bitsOf (c : BitVec 16) (d : UInt8) : Crc.crc crcPoly c (bitsOf d) =
    (crcTable.getD ((c ^^^ d.toBitVec.setWidth 16) &&& 0xff#16).toNat 0).toBitVec ^^^ c >>> 8 := by
  have hlen : (bitsOf d).length = 8 := by simp [bitsOf]
  have hhigh : (Crc.shift crcPoly)^[8] (c >>> 8 <<< 8) = c >>> 8 :=
    Crc.iterate_shift_shiftLeft fun i hi => by
      rw [BitVec.getLsbD_ushiftRight, BitVec.getLsbD_of_ge c _ (by omega)]
  have hlt : ((c ^^^ d.toBitVec.setWidth 16) &&& 0xff#16).toNat < 256 := by
    rw [BitVec.toNat_and]
    exact Nat.lt_of_le_of_lt Nat.and_le_right (by decide)
  have hentry := crcTable_eq ⟨_, hlt⟩
  rw [BitVec.ofNat_toNat, BitVec.setWidth_eq] at hentry
  calc Crc.crc crcPoly c (bitsOf d)
      = (Crc.shift crcPoly)^[8] (c ^^^ d.toBitVec.setWidth 16) := by
        rw [Crc.crc_eq_iterate_xor, Crc.crc_low (by omega), hlen, ← Crc.iterate_shift_xor,
          low_bitsOf]
    _ = (Crc.shift crcPoly)^[8] ((c ^^^ d.toBitVec.setWidth 16) &&& 0xff#16) ^^^ c >>> 8 := by
        conv_lhs => rw [split_low]
        rw [Crc.iterate_shift_xor, hhigh]
    _ = _ := by rw [hentry]

/-- **`crc16` is the division bit by bit**, for all data. -/
theorem crc16_eq (crc : UInt16) (data : List UInt8) :
    (crc16 crc data).toBitVec = Crc.crc crcPoly crc.toBitVec (bits data) := by
  induction data generalizing crc with
  | nil => rfl
  | cons d data ih =>
    have hbits : bits (d :: data) = bitsOf d ++ bits data := rfl
    have hcons : crc16 crc (d :: data) =
        crc16 (crcTable.getD ((crc ^^^ d.toUInt16) &&& 0xff).toNat 0 ^^^ crc >>> 8) data := rfl
    rw [hcons, ih, hbits, Crc.crc_append, crc_bitsOf]
    rfl

/-- What a check does not find is right in the sum. -/
theorem sSum_of_mdtCheck (h : mdtCheck api mdt mainMdt mc = true) : mdt.sSum = calcCsum api mdt :=
  (mdtCheck_eq_true_iff.mp h).1.sSum

/-- **A table that was hit does not pass**: when of a table that passes up to 16 bits in a row, or
an odd number of bits anywhere, are turned over in what is summed, it does not pass any check. -/
theorem mdtCheck_of_hit (hpass : mdtCheck api mdt mainMdt mc = true) (hsum : mdt'.sSum = mdt.sSum)
    (hlen : (bits (api.staticBytes mdt)).length = (bits (api.staticBytes mdt')).length)
    (hhit : Crc.Burst 16 (bits (api.staticBytes mdt)) (bits (api.staticBytes mdt')) ∨
      (Crc.diff (bits (api.staticBytes mdt)) (bits (api.staticBytes mdt'))).count true % 2 = 1) :
    mdtCheck api mdt' mainMdt' mc' = false := by
  rw [← Bool.not_eq_true]
  intro hpass'
  have hcrc : Crc.crc crcPoly 0xffff#16 (bits (api.staticBytes mdt)) =
      Crc.crc crcPoly 0xffff#16 (bits (api.staticBytes mdt')) := by
    have hsums : calcCsum api mdt = calcCsum api mdt' := by
      rw [← sSum_of_mdtCheck hpass, ← sSum_of_mdtCheck hpass', hsum]
    have hwords := congrArg UInt16.toBitVec hsums
    rw [calcCsum, calcCsum, crc16_eq, crc16_eq] at hwords
    exact hwords
  rcases hhit with hburst | hodd
  · exact Crc.crc_burst_ne (by decide) hburst hcrc
  · exact Crc.crc_odd_ne (by decide) (by decide) hlen hodd hcrc

theorem bits_append (a b : List UInt8) : bits (a ++ b) = bits a ++ bits b := List.flatMap_append

/-- A table of one device. -/
def oneDevice (sSum : UInt16) (sFlags : UInt64) : MdDevTable :=
  { sDevList := { t1Count := 1, devIds := fun _ => { blocks := 512 } }, sSum, sFlags }

/-- The bits of it, around those of the flags. -/
theorem bits_oneDevice (sSum : UInt16) : ∃ before after, ∀ sFlags,
    bits (Api.packed.staticBytes (oneDevice sSum sFlags)) =
      before ++ (bits (leBytes 8 sFlags.toNat) ++ after) := by
  refine ⟨bits (leBytes 2 0 ++ leBytes 4 0 ++ List.replicate 16 0),
    bits (leBytes 8 0 ++ leBytes 2 0 ++ leBytes 2 1 ++ leBytes 2 0 ++ leBytes 2 0 ++
      (List.range 64).flatMap fun _ => List.replicate 16 0 ++ leBytes 8 512), fun sFlags => ?_⟩
  rw [← bits_append, ← bits_append]
  refine congrArg bits ?_
  simp only [Api.packed, oneDevice, List.append_assoc]
  rfl

/-- A table with a right sum, and the same with a flag that was not there. -/
theorem mdtCheck_of_hit_flag : ∃ x,
    mdtCheck .packed (oneDevice x 0) none ⟨0x1fffff, 0, 0, 0⟩ = true ∧
    mdtCheck .packed (oneDevice x 1) none ⟨0x1fffff, 0, 0, 0⟩ = false := by
  obtain ⟨x, hx⟩ := exists_stamp .packed (oneDevice 0 0)
  have hsound : SoundTable .packed (oneDevice x 0) none ⟨0x1fffff, 0, 0, 0⟩ :=
    ⟨rfl, (by decide : 0 / 1024 = 0), (by decide : 0 % 1024 ≤ 0), hx, fun m hm => by cases hm⟩
  have hpass := mdtCheck_eq_true_iff.mpr ⟨hsound, Int.le_refl 0, Int.one_nonneg,
    (by decide : p2o 512 ≠ 0), (by decide : p2o 512 &&& 0x1fffff = 0)⟩
  obtain ⟨before, after, hbits⟩ := bits_oneDevice x
  have hzero : bits (leBytes 8 (0 : UInt64).toNat) = [false] ++ List.replicate 63 false := by decide
  have hone : bits (leBytes 8 (1 : UInt64).toNat) = [true] ++ List.replicate 63 false := by decide
  have hburst : Crc.Burst 16 (bits (Api.packed.staticBytes (oneDevice x 0)))
      (bits (Api.packed.staticBytes (oneDevice x 1))) := by
    refine ⟨before, [false], [true], List.replicate 63 false ++ after, ?_, ?_, rfl, by decide,
      by decide⟩
    · rw [hbits, hzero, List.append_assoc, List.append_assoc]
    · rw [hbits, hone, List.append_assoc, List.append_assoc]
  have hlen : (bits (Api.packed.staticBytes (oneDevice x 0))).length =
      (bits (Api.packed.staticBytes (oneDevice x 1))).length := by
    rw [hbits, hbits, hzero, hone]
    simp
  exact ⟨x, hpass, mdtCheck_of_hit hpass rfl hlen (.inl hburst)⟩

end Zus.Md
