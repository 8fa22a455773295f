import Mathlib.Logic.Function.Basic
import Zus.Iom
import Zus.Md

/-!
# Tables on T2 devices

Every T2 device has a copy of the table at its start, with its own index. `md_zus.c` writes
the copies one by one through an iomap, and reads one back through another. The kernel
performs the reads and writes of an iomap on one linear space of T2 blocks; a page, there
and in the memory of the server, is a table.
-/

namespace Zus.Md

open Zus.Iom Zus.Lib

/-! ## Devices -/

/-- `struct md_dev_info`. -/
structure MdDevInfo where
  offset : UInt64 := 0
  size : UInt64 := 0
  index : ℕ := 0

/-- `struct multi_devices`. -/
structure MultiDevices where
  t1Count : ℕ
  t2Count : ℕ
  devs : List MdDevInfo

/-- `md_t2_dev`. -/
def MultiDevices.t2Dev (md : MultiDevices) (i : ℕ) : MdDevInfo := md.devs.getD (md.t1Count + i) {}

variable (api : Api)

/-- `_init_dev_info`. -/
def initDevInfo (id : MdDevId) (index : ℕ) (offset : UInt64) : MdDevInfo where
  offset := offset
  index := index
  size := p2o (api.devIdBlocks id)

/-- A loop of `md_init_from_pmem_info`: `n` devices from index `i` on, one after the other. -/
def initDevInfos (ids : ℕ → MdDevId) (i : ℕ) (offset : UInt64) : ℕ → List MdDevInfo
  | 0 => []
  | n + 1 =>
    let mdi := initDevInfo api (ids i) i offset
    mdi :: initDevInfos ids (i + 1) (offset + mdi.size) n

/-- `md_init_from_pmem_info`: the T1 devices and the T2 devices at their cumulative
offsets. -/
def initFromPmemInfo (devList : MdDevList) : MultiDevices where
  t1Count := devList.t1Count.toNat
  t2Count := devList.t2Count.toNat
  devs := initDevInfos api devList.devIds 0 0 devList.t1Count.toNat ++
    initDevInfos api devList.devIds devList.t1Count.toNat 0 devList.t2Count.toNat

/-! ## Reads and writes -/

/-- The way of an iomap to the kernel: the bit fields of the API, and the bytes a page has
for elements behind the header of the request. -/
structure Channel where
  fw : FirstWord
  room : ℕ
  /-- the page has room for one element -/
  room_le : 24 ≤ room
  /-- a block number fits the first word -/
  bn_fits : ∀ bn : UInt64, bn.toNat < 2 ^ 52 → bn &&& ~~~fw.firstValMask = 0

/-- The pages of the server, by their addresses, and the blocks of the T2 space. -/
structure Pages where
  mem : UInt64 → MdDevTable
  t2 : UInt64 → MdDevTable

/-- What the kernel does for an element; the code below sends no other ones. -/
def Pages.perform (x : Pages) : Call → Pages
  | .t2ZusmemWrite bn ptr _ => { x with t2 := Function.update x.t2 bn (x.mem ptr) }
  | .t2ZusmemRead bn ptr _ => { x with mem := Function.update x.mem ptr (x.t2 bn) }
  | _ => x

variable (ch : Channel)

/-- `_iomb_start`. -/
def iombStart : Iomb := Iomb.iomStart ⟨fun _ => 0, 0, ch.room, 0⟩

/-- `_zus_iom_ioc_exec_submit`; `err` is what the kernel answers. -/
def iocExecSubmit (b : Iomb) (err : Option ℤ) (x : Pages) : Option ℤ × Pages :=
  match err, decode ch.fw (b.iomEnd ch.fw).elems with
  | none, some cs => (none, cs.foldl Pages.perform x)
  | err, _ => (err, x)

/-- `md_t2_mdt_read` into the page at `mdt`. -/
def t2MdtRead (_md : MultiDevices) (_devIndex : ℕ) (mdt : UInt64) (err : Option ℤ) (x : Pages) :
    Option ℤ × Pages :=
  let b := ((iombStart ch).encT2ZusmemRead ch.fw 0 mdt 4096).2
  iocExecSubmit ch b err x

/-- The table of device `i`: its index and its sum are stamped. -/
def stamp (mdt : MdDevTable) (i : ℕ) : MdDevTable :=
  let t := { mdt with sDevList := { mdt.sDevList with idIndex := mdt.sDevList.t1Count + i } }
  { t with sSum := calcCsum api t }

/-- The loop of `md_t2_mdt_write` over `n` devices from `i` on; `errs i` is what the kernel
answers for device `i`. -/
def t2MdtWriteLoop (md : MultiDevices) (mdt : UInt64) (errs : ℕ → Option ℤ) (i : ℕ) :
    ℕ → Pages → Option ℤ × Pages
  | 0, x => (none, x)
  | n + 1, x =>
    let bn := o2p (md.t2Dev i).offset
    let x₁ := { x with mem := Function.update x.mem mdt (stamp api (x.mem mdt) i) }
    let b := ((iombStart ch).encT2ZusmemWrite ch.fw bn mdt 4096).2
    match iocExecSubmit ch b (errs i) x₁ with
    | (none, x₂) => t2MdtWriteLoop md mdt errs (i + 1) n x₂
    | (some err, x₂) => (some err, x₂)

/-- `md_t2_mdt_write` of the page at `mdt`. -/
def t2MdtWrite (md : MultiDevices) (mdt : UInt64) (errs : ℕ → Option ℤ) (x : Pages) :
    Option ℤ × Pages := t2MdtWriteLoop api ch md mdt errs 0 md.t2Count x

/-! ## The round trip -/

/-- The table written for device `i`: its own index, all other fields but the sum as in
`mdt`, and the sum of its own. -/
structure WrittenFor (mdt : MdDevTable) (i : ℕ) (out : MdDevTable) : Prop where
  idIndex : out.sDevList.idIndex = mdt.sDevList.t1Count + i
  others : out = { mdt with
    sDevList := { mdt.sDevList with idIndex := out.sDevList.idIndex }, sSum := out.sSum }
  sSum : out.sSum = calcCsum api out

/-- What was written for a device is read for it, for every device. -/
def RoundTrip (md : MultiDevices) : Prop :=
  ∀ x mdt errs x', t2MdtWrite api ch md mdt errs x = (none, x') →
    ∀ i < md.t2Count, ∀ out err x'', t2MdtRead ch md i out err x' = (none, x'') →
      WrittenFor api (x.mem mdt) i (x''.mem out)

section

variable {api : Api} {ch : Channel}

theorem writtenFor_stamp (mdt : MdDevTable) (i : ℕ) : WrittenFor api mdt i (stamp api mdt i) :=
  ⟨rfl, rfl, (calcCsum_sSum api _ _).symm⟩

/-- **An iomap of one element is performed.** -/
theorem iocExecSubmit_enc {c : Call} {x : Pages} (hfit : c.Fits ch.fw) :
    iocExecSubmit ch (c.enc ch.fw (iombStart ch)).2 none x = (none, x.perform c) := by
  have hroom : ¬ (iombStart ch).endIomE < 8 * ((iombStart ch).curIomE + c.type.words) := by
    have hle := ch.room_le
    change ¬ ch.room < 8 * (0 + c.type.words)
    cases c <;> simp only [Call.type, IomType.words] <;> omega
  have henc : c.enc ch.fw (iombStart ch) = _ := Call.enc_eq c
  rw [if_neg hroom] at henc
  obtain ⟨hholds, -⟩ := (holds_start ch.fw _).enc henc
  obtain ⟨-, helems⟩ := hholds.elems_iomEnd
  rw [List.nil_append] at helems
  have hall : ∀ y ∈ [c], y.Fits ch.fw := fun y hy => by
    rw [List.mem_singleton] at hy
    exact hy ▸ hfit
  have hdecode := decode_flatMap hall
  rw [← helems] at hdecode
  rw [henc]
  simp only [iocExecSubmit, hdecode, List.foldl_cons, List.foldl_nil]

theorem fits_bn {bn ptr : UInt64} (h : bn.toNat < 2 ^ 52) :
    (Call.t2ZusmemWrite bn ptr 4096).Fits ch.fw ∧ (Call.t2ZusmemRead bn ptr 4096).Fits ch.fw :=
  ⟨ch.bn_fits bn h, ch.bn_fits bn h⟩

theorem toNat_o2p_lt (off : UInt64) : (o2p off).toNat < 2 ^ 52 := by
  have hlt := off.toNat_lt
  rw [o2p, UInt64.toNat_shiftRight]
  change off.toNat >>> 12 < 2 ^ 52
  rw [Nat.shiftRight_eq_div_pow]
  omega

/-- **A read takes the first block**, whatever the device. -/
theorem t2MdtRead_eq (md : MultiDevices) (i : ℕ) (out : UInt64) (x : Pages) :
    t2MdtRead ch md i out none x =
      (none, { x with mem := Function.update x.mem out (x.t2 0) }) :=
  iocExecSubmit_enc (c := .t2ZusmemRead 0 out 4096) (fits_bn (by decide)).2

theorem t2MdtRead_none {md : MultiDevices} {i : ℕ} {out : UInt64} {err : Option ℤ} {x x' : Pages}
    (h : t2MdtRead ch md i out err x = (none, x')) : x'.mem out = x.t2 0 := by
  cases err with
  | some e => cases h
  | none =>
    rw [t2MdtRead_eq] at h
    obtain ⟨-, rfl⟩ := Prod.mk.inj h
    exact Function.update_self ..

/-- **One turn of the write loop** stamps the table and stores it at the block of the
device. -/
theorem t2MdtWriteLoop_succ {md : MultiDevices} {mdt : UInt64} {errs : ℕ → Option ℤ} {i n : ℕ}
    {x : Pages} (h : errs i = none) :
    t2MdtWriteLoop api ch md mdt errs i (n + 1) x =
      t2MdtWriteLoop api ch md mdt errs (i + 1) n
        { mem := Function.update x.mem mdt (stamp api (x.mem mdt) i)
          t2 := Function.update x.t2 (o2p (md.t2Dev i).offset) (stamp api (x.mem mdt) i) } := by
  have hfits : (Call.t2ZusmemWrite (o2p (md.t2Dev i).offset) mdt 4096).Fits ch.fw :=
    (fits_bn (toNat_o2p_lt _)).1
  have hsubmit := iocExecSubmit_enc (c := .t2ZusmemWrite (o2p (md.t2Dev i).offset) mdt 4096)
    (x := { x with mem := Function.update x.mem mdt (stamp api (x.mem mdt) i) }) hfits
  simp only [Call.enc] at hsubmit
  rw [t2MdtWriteLoop]
  simp only [h, hsubmit, Pages.perform, Function.update_self]

/-- A kernel without errors lets every write succeed. -/
theorem t2MdtWriteLoop_ok (md : MultiDevices) (mdt : UInt64) (i n : ℕ) (x : Pages) :
    (t2MdtWriteLoop api ch md mdt (fun _ => none) i n x).1 = none := by
  induction n generalizing i x with
  | zero => rfl
  | succ n ih =>
    rw [t2MdtWriteLoop_succ rfl]
    exact ih (i + 1) _

/-- The first T2 device is at the start of the space. -/
theorem t2Dev_zero_offset (devList : MdDevList) :
    ((initFromPmemInfo api devList).t2Dev 0).offset = 0 := by
  have hlen : ∀ (n i : ℕ) (off : UInt64), (initDevInfos api devList.devIds i off n).length = n := by
    intro n
    induction n with
    | zero => exact fun _ _ => rfl
    | succ n ih => exact fun i off => congrArg (· + 1) (ih (i + 1) _)
  change ((initDevInfos api devList.devIds 0 0 devList.t1Count.toNat ++
    initDevInfos api devList.devIds devList.t1Count.toNat 0 devList.t2Count.toNat).getD
    (devList.t1Count.toNat + 0) {}).offset = 0
  rw [List.getD_append_right _ _ _ _ (by rw [hlen]; exact Nat.le_add_right _ _), hlen]
  rw [Nat.add_zero, Nat.sub_self]
  cases devList.t2Count.toNat <;> rfl

/-- **Two devices, one answer**: every read takes the first block, so the tables of the first
two devices are read as one. -/
theorem not_roundTrip {md : MultiDevices} (hmany : 1 < md.t2Count) : ¬ RoundTrip api ch md := by
  intro hrt
  let x : Pages := ⟨fun _ => {}, fun _ => {}⟩
  rcases hw : t2MdtWrite api ch md 0 (fun _ => none) x with ⟨res, x'⟩
  have hok : res = none := by
    have h₁ : (t2MdtWriteLoop api ch md 0 (fun _ => none) 0 md.t2Count x).1 = none :=
      t2MdtWriteLoop_ok ..
    rw [t2MdtWrite] at hw
    rwa [hw] at h₁
  subst hok
  have h₀ := hrt x 0 _ x' hw 0 (by omega) 1 none _ (t2MdtRead_eq md 0 1 x')
  have h₁ := hrt x 0 _ x' hw 1 hmany 1 none _ (t2MdtRead_eq md 1 1 x')
  have heq := h₀.idIndex.symm.trans h₁.idIndex
  simp only [Nat.cast_zero, Nat.cast_one] at heq
  omega

end

/-- **The round trip holds with at most one T2 device**: a read takes the first block of the
space and not the one of the device it is asked for. -/
theorem t2_mdt_roundTrip_iff (api : Api) (ch : Channel) (devList : MdDevList) :
    RoundTrip api ch (initFromPmemInfo api devList) ↔
      (initFromPmemInfo api devList).t2Count ≤ 1 := by
  set md := initFromPmemInfo api devList with hmd
  constructor
  · intro hrt
    by_contra hmany
    exact not_roundTrip (Nat.not_le.mp hmany) hrt
  · intro hle x mdt errs x' hw i hi out err x'' hr
    obtain rfl : i = 0 := by omega
    have hone : md.t2Count = 1 := by omega
    rw [t2MdtRead_none hr]
    rw [t2MdtWrite, hone] at hw
    cases herr : errs 0 with
    | some e =>
      simp only [t2MdtWriteLoop, herr, iocExecSubmit] at hw
      cases (Prod.mk.inj hw).1
    | none =>
      rw [t2MdtWriteLoop_succ herr] at hw
      obtain ⟨-, rfl⟩ := Prod.mk.inj hw
      have hoff : o2p (md.t2Dev 0).offset = 0 := by
        rw [hmd, t2Dev_zero_offset]
        rfl
      rw [hoff]
      simp only [Function.update_self]
      exact writtenFor_stamp _ _

/-- A channel with the packed first words and a page less its header. -/
def Channel.packed : Channel where
  fw := .packed
  room := 4064
  room_le := by decide
  bn_fits bn h := by
    have hsub := toNat_and_not_low (k := 56) (m := 0x00FFFFFFFFFFFFFF) rfl bn
    rw [Nat.mod_eq_of_lt (by omega), Nat.sub_self] at hsub
    exact UInt64.toNat_inj.mp hsub

/-- Two T2 devices of 512 blocks, behind one T1 device. -/
theorem roundTrip_two_devices_fails :
    let devList : MdDevList := { t1Count := 1, t2Count := 2, devIds := fun _ => { blocks := 512 } }
    let md := initFromPmemInfo .packed devList
    (md.devs.map fun mdi => (mdi.index, mdi.offset)) = [(0, 0), (1, 0), (2, 0x200000)] ∧
      ¬ RoundTrip .packed .packed md :=
  ⟨by decide, not_roundTrip (by decide)⟩

end Zus.Md
