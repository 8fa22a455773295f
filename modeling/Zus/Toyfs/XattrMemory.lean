import Zus.Toyfs.SystemStorage
import Zus.Toyfs.XattrCalls

/-!
# Attributes in the memory of the device

`toyfs_setxattr` does not check that it stays in its page. `toyfs` is the system of the requests
that do: a call that leaves its page has no step there. Here the call works on the memory of the
device, and what it stores behind its page is stored in the pages that lie there.

The state keeps the bytes of some pages only. The memory `mem` of the device is part of the label:
it has the bytes of every page whose bytes the state keeps, and in a page of `dblkref` records the
two fields of each record; anything else in it is arbitrary. A store into a place whose meaning the
state does not keep, such as the links of a free record or a record of an inode, is not followed:
the run ends there.

Runs in which no `toyfs_setxattr` leaves its page are the runs of `toyfs`, so pages keep one use. A
call that leaves its page can give a second record the block of another one.
-/

namespace Zus.Toyfs

open Zus.Lib Xattr

/-! ## The memory of the device -/

/-- The record is one of the `dblkref` records that pages were cut into. -/
def IsDblkref (s : Sbi) (d : RecPtr) : Prop :=
  d ∈ s.pool.free .dblkref ∨ 0 < (s.dblkrefs d).refcnt

instance (s : Sbi) (d : RecPtr) : Decidable (IsDblkref s d) := inferInstanceAs (Decidable (_ ∨ _))

/-- `sizeof(struct toyfs_dblkref)`: the links, `refcnt` and `bn`. -/
def dblkrefSize : ℕ := 32

/-- The record in its page. -/
def dblkrefAt (pg : Bytes) (idx : ℕ) : Dblkref :=
  ⟨leNat (pg.slice (dblkrefSize * idx + 16) 8), leNat (pg.slice (dblkrefSize * idx + 24) 8)⟩

/-- The uses of a page whose bytes the state keeps. -/
def Owner.Plain : Owner → Prop
  | .data _ => True
  | .inode .xattr _ | .inode .symlink _ => True
  | _ => False

/-- What the memory of the device has in a state. -/
structure MemoryOf (s : Sbi) (mem : ℕ → Bytes) : Prop where
  plain : ∀ bn o, Owns s bn o → o.Plain → ∀ i < pageSize, mem bn i = s.mem bn i
  dblkref : ∀ d, IsDblkref s d → dblkrefAt (mem d.bn) d.idx =
    ⟨(s.dblkrefs d).refcnt % 2 ^ 64, (s.dblkrefs d).bn % 2 ^ 64⟩

/-- The memory behind a page. -/
def behind (mem : ℕ → Bytes) (bn : ℕ) : Bytes := fun j => mem (bn + 1 + j / pageSize) (j % pageSize)

/-- Where a byte of a later page is in the memory behind a page. -/
def behindAt (bn bn' i : ℕ) : ℕ := (bn' - bn - 1) * pageSize + i

namespace Sbi

variable (s : Sbi)

/-- Where the memory of the device ends, from a page on: `f_blocks` leaves out the first two. -/
def memEnd (bn : ℕ) : ℕ := xeEnd + (s.fBlocks + 1 - bn) * pageSize

/-- What is stored behind a page is stored in the pages and records that lie there. -/
def spill (bn : ℕ) (rest rest' : Bytes) : Sbi :=
  { s with
    mem := fun bn' i =>
      if bn < bn' ∧ i < pageSize ∧ rest' (behindAt bn bn' i) ≠ rest (behindAt bn bn' i) then
        rest' (behindAt bn bn' i)
      else s.mem bn' i
    dblkrefs := fun d =>
      if bn < d.bn ∧ IsDblkref s d ∧ rest'.slice (behindAt bn d.bn (dblkrefSize * d.idx)) dblkrefSize ≠
          rest.slice (behindAt bn d.bn (dblkrefSize * d.idx)) dblkrefSize then
        dblkrefAt (fun i => rest' (behindAt bn d.bn i)) d.idx
      else s.dblkrefs d }

/-- The page of attributes that `toyfs_setxattr` works on. -/
def xattrPage (n : RecPtr) : ℕ := (((s.requireXattr n).getD s).inodes n).iXattr

/-- `toyfs_setxattr` in the memory of the device: the state after the call, and what lies behind the
page then. -/
def setxattrMem (mem : ℕ → Bytes) (n : RecPtr) (ioc : IocXattr) : Option (Sbi × Bytes) :=
  let bn := s.xattrPage n
  let rest := behind mem bn
  (s.setxattrIn rest (s.memEnd bn) n ioc).map fun r => (r.2.1.spill bn rest r.2.2, r.2.2)

end Sbi

/-- The bytes stored behind the page are in records of `dblkref` (of a free one, not in its links)
or in pages whose bytes the state keeps. -/
def Followed (s : Sbi) (bn : ℕ) (rest rest' : Bytes) : Prop :=
  ∀ j, rest' j ≠ rest j →
    0 < (s.dblkrefs ⟨bn + 1 + j / pageSize, j % pageSize / dblkrefSize⟩).refcnt ∨
    (IsDblkref s ⟨bn + 1 + j / pageSize, j % pageSize / dblkrefSize⟩ ∧
      16 ≤ j % pageSize % dblkrefSize) ∨
    ∃ o, Owns s (bn + 1 + j / pageSize) o ∧ o.Plain

/-! ## The system -/

/-- `toyfs_setxattr` as a step. -/
structure SetsXattr (x : Sys) (mem : ℕ → Bytes) (n : RecPtr) (ioc : IocXattr) (x' : Sys) : Prop where
  sends : x.Sends (.setxattr n ioc)
  memory : MemoryOf x.sbi mem
  stored : ∃ rest', x.sbi.setxattrMem mem n ioc = some (x'.sbi, rest') ∧
    Followed x.sbi (x.sbi.xattrPage n) (behind mem (x.sbi.xattrPage n)) rest'
  panicked : x'.sbi.panicked = false
  live : x'.live = x.live

/-- One request; `mem` is the memory of the device before it. -/
def Sys.StepInMemory (apiMapMaxSize : ℕ) (x : Sys) (l : Act × (ℕ → Bytes)) (x' : Sys) : Prop :=
  match l.1 with
  | .setxattr n ioc => SetsXattr x l.2 n ioc x'
  | a => x.next apiMapMaxSize a = some x'

/-- toyfs under any sequence of requests, in the memory of its device. -/
def toyfsInMemory (apiMapMaxSize : ℕ) : Lts Sys (Act × (ℕ → Bytes)) where
  init x := ∃ nblocks addr, 1024 ≤ nblocks ∧ mounted nblocks addr = some x
  step := Sys.StepInMemory apiMapMaxSize

/-- A `toyfs_setxattr` stays in its page. -/
def StaysInPage (x : Sys) (l : Act × (ℕ → Bytes)) : Prop :=
  match l.1 with
  | .setxattr n ioc => (x.sbi.setxattr n ioc).isSome
  | _ => True

variable {s s' : Sbi} {n d : RecPtr} {bn apiMapMaxSize : ℕ} {ioc : IocXattr} {x x' : Sys}
  {mem : ℕ → Bytes}

/-! ## A call that stays in its page -/

/-- Nothing stored behind the page leaves everything as it is. -/
theorem spill_self (rest : Bytes) : s.spill bn rest rest = s := by
  simp [Sbi.spill]

/-- **A `toyfs_setxattr` that stays in its page** does in the memory what it does to the page, and
leaves what lies behind. -/
theorem setxattrIn_of_setxattr {res : Except Errno Unit} (h : s.setxattr n ioc = some (res, s'))
    (rest : Bytes) {lim : ℕ} (hlim : xeEnd ≤ lim) :
    s.setxattrIn rest lim n ioc = some (res, s', rest) := by
  rw [Sbi.setxattr] at h
  rw [Sbi.setxattrIn]
  rcases hreq : s.requireXattr n with _ | s₁
  · rw [hreq] at h
    cases h
    rfl
  · simp only [hreq] at h ⊢
    rcases hpg : setxattrPage (s₁.mem (s₁.inodes n).iXattr) xeEnd ioc with _ | ⟨res₁, pg⟩
    · simp [hpg] at h
    · simp only [hpg, Option.some.injEq, Prod.mk.injEq] at h
      obtain ⟨rfl, rfl⟩ := h
      -- behind the end of the page the call leaves the bytes as they are
      obtain ⟨pg₁, hpg₁, -, hkeep⟩ := setxattrPage_onPage (fun _ _ => rfl) le_rfl hpg
      rw [hpg] at hpg₁
      cases hpg₁
      obtain ⟨m, hm, hpage, hout⟩ := setxattrPage_onPage (onPage_memFrom s₁ rest _) hlim hpg
      rw [hm]
      have hmem : (fun i => if i < xeEnd then m i else s₁.mem (s₁.inodes n).iXattr i) = pg := by
        funext i
        split_ifs with hi
        · exact hpage i hi
        · exact (hkeep i (Nat.not_lt.mp hi)).symm
      have hrest : (fun i => m (xeEnd + i)) = rest := by
        funext i
        rw [hout _ (Nat.le_add_right ..), Sbi.memFrom, if_neg (by omega), Nat.add_sub_cancel_left]
      simp only [hmem, hrest]

/-- So the step is that of the system of pages. -/
theorem setxattrMem_of_setxattr {res : Except Errno Unit} (h : s.setxattr n ioc = some (res, s')) :
    s.setxattrMem mem n ioc = some (s', behind mem (s.xattrPage n)) := by
  have hlim : xeEnd ≤ s.memEnd (s.xattrPage n) := Nat.le_add_right ..
  rw [Sbi.setxattrMem, setxattrIn_of_setxattr h _ hlim]
  simp only [Option.map_some, spill_self]

theorem next_of_setsXattr (h : SetsXattr x mem n ioc x') (hstays : (x.sbi.setxattr n ioc).isSome) :
    x.next apiMapMaxSize (.setxattr n ioc) = some x' := by
  obtain ⟨⟨res, s'⟩, hs⟩ := Option.isSome_iff_exists.mp hstays
  obtain ⟨rest', hstored, -⟩ := h.stored
  rw [setxattrMem_of_setxattr hs] at hstored
  obtain rfl : s' = x'.sbi := (Prod.mk.inj (Option.some.inj hstored)).1
  rw [Sys.next, if_pos h.sends, Sys.serve, hs]
  simp only [Option.map_some, h.panicked]
  obtain ⟨sbi, live⟩ := x'
  obtain rfl : live = x.live := h.live
  rfl

/-- A step in which no `toyfs_setxattr` leaves its page is a step of `toyfs`. -/
theorem next_of_staysInPage {l : Act × (ℕ → Bytes)} (hstays : StaysInPage x l)
    (h : x.StepInMemory apiMapMaxSize l x') : x.next apiMapMaxSize l.1 = some x' := by
  obtain ⟨a, mem⟩ := l
  cases a with
  | setxattr n ioc => exact next_of_setsXattr h hstays
  | _ => exact h

theorem reachable_of_staysInPage
    (h : ((toyfsInMemory apiMapMaxSize).restrict StaysInPage).Reachable x) :
    (toyfs apiMapMaxSize).Reachable x := by
  refine h.map (M := toyfs apiMapMaxSize) (f := id) ?_ ?_
  · exact fun _ h₀ => h₀
  · rintro x l x' - ⟨hstays, hs⟩
    exact ⟨l.1, next_of_staysInPage hstays hs⟩

/-! ## A memory for a state -/

/-- The bytes of a `dblkref` record, behind its links. -/
def Dblkref.bytes (r : Dblkref) : List UInt8 := leBytes 8 r.refcnt ++ leBytes 8 r.bn

/-- A memory of the device: the links of the records are left as they are. -/
def Sbi.layout (s : Sbi) (bn : ℕ) : Bytes := fun i =>
  if IsDblkref s ⟨bn, i / dblkrefSize⟩ ∧ 16 ≤ i % dblkrefSize then
    Bytes.ofList (s.dblkrefs ⟨bn, i / dblkrefSize⟩).bytes (i % dblkrefSize - 16)
  else s.mem bn i

/-- The fields of a record read back. -/
theorem dblkrefAt_layout (hd : IsDblkref s d) : dblkrefAt (s.layout d.bn) d.idx =
    ⟨(s.dblkrefs d).refcnt % 2 ^ 64, (s.dblkrefs d).bn % 2 ^ 64⟩ := by
  have hbyte : ∀ k < 16, s.layout d.bn (dblkrefSize * d.idx + 16 + k) =
      Bytes.ofList (s.dblkrefs d).bytes k := by
    intro k hk
    have hdiv : (dblkrefSize * d.idx + 16 + k) / dblkrefSize = d.idx := by
      unfold dblkrefSize
      omega
    have hmod : (dblkrefSize * d.idx + 16 + k) % dblkrefSize = 16 + k := by
      unfold dblkrefSize
      omega
    rw [Sbi.layout, hdiv, hmod, if_pos ⟨hd, Nat.le_add_right ..⟩, Nat.add_sub_cancel_left]
  have hslice : ∀ off, off + 8 ≤ 16 → (s.layout d.bn).slice (dblkrefSize * d.idx + 16 + off) 8 =
      (Bytes.ofList (s.dblkrefs d).bytes).slice off 8 := by
    intro off hoff
    refine List.map_congr_left fun k hk => ?_
    rw [List.mem_range] at hk
    rw [Nat.add_assoc _ off k, hbyte _ (by omega)]
  have hrefcnt : (Bytes.ofList (s.dblkrefs d).bytes).slice 0 8 = leBytes 8 (s.dblkrefs d).refcnt := by
    simp [Bytes.slice, Bytes.ofList, Dblkref.bytes, leBytes, List.range_succ]
  have hbn : (Bytes.ofList (s.dblkrefs d).bytes).slice 8 8 = leBytes 8 (s.dblkrefs d).bn := by
    simp [Bytes.slice, Bytes.ofList, Dblkref.bytes, leBytes, List.range_succ]
  rw [dblkrefAt, ← Nat.add_zero (dblkrefSize * d.idx + 16), hslice 0 (by omega),
    show dblkrefSize * d.idx + 24 = dblkrefSize * d.idx + 16 + 8 by omega, hslice 8 (by omega),
    hrefcnt, hbn, leNat_leBytes_mod, leNat_leBytes_mod]
  norm_num

/-- **A state in order has a memory.** -/
theorem memoryOf_layout (h : StoreOk s) : MemoryOf s s.layout := by
  refine ⟨fun bn o ho hplain i _ => if_neg fun hi => ?_, fun d hd => dblkrefAt_layout hd⟩
  -- a page whose bytes are kept was not cut into records
  obtain ⟨held, hinv⟩ := h.store
  have hrecs : Owns s bn (.recs .dblkref) := ⟨_, rfl, hi.1⟩
  rw [hinv.exclusive bn _ _ ho hrecs] at hplain
  exact hplain

/-- Any run of `toyfs` is a run in the memory in which no `toyfs_setxattr` leaves its page. -/
theorem staysInPage_of_reachable (h : (toyfs apiMapMaxSize).Reachable x) :
    ((toyfsInMemory apiMapMaxSize).restrict StaysInPage).Reachable x := by
  induction h with
  | init h₀ => exact .init h₀
  | @step x x' a hreach hn ih =>
    refine ih.step (a := (a, x.sbi.layout)) ?_
    cases a with
    | setxattr n ioc =>
      obtain ⟨hsend, hserve, hp, hlive⟩ := Sys.next_cases hn
      obtain ⟨⟨res, s'⟩, hs, rfl⟩ := Option.map_eq_some_iff.mp hserve
      refine ⟨Option.isSome_iff_exists.mpr ⟨_, hs⟩, hsend, memoryOf_layout (toyfs_storeOk hreach),
        ⟨_, setxattrMem_of_setxattr hs, fun j hj => absurd rfl hj⟩, hp, hlive⟩
    | _ => exact ⟨trivial, hn⟩

/-! ## Exclusive pages -/

/-- **Exclusive page ownership**: in every run in which no `toyfs_setxattr` leaves its page, each page
has at most one use, and a page that was cut into records has no other use ever after. -/
theorem toyfs_pagesExclusive (apiMapMaxSize : ℕ) (x : Sys)
    (h : ((toyfsInMemory apiMapMaxSize).restrict StaysInPage).Reachable x) :
    PagesExclusive x.sbi ∧
      ∀ x', (((toyfsInMemory apiMapMaxSize).restrict StaysInPage).startAt x).Reachable x' →
        ∀ bn kind, Owns x.sbi bn (.recs kind) → ∀ o, Owns x'.sbi bn o →
          ∃ kind', o = .recs kind' := by
  have hreach := reachable_of_staysInPage h
  have hok := toyfs_storeOk hreach
  refine ⟨hok.pagesExclusive, fun x' hx' bn kind hcut o ho => ?_⟩
  have hrun : ((toyfs apiMapMaxSize).startAt x).Reachable x' := by
    refine hx'.map (M := (toyfs apiMapMaxSize).startAt x) (f := id) ?_ ?_
    · exact fun _ h₀ => h₀
    · rintro x l x' - ⟨hstays, hs⟩
      exact ⟨l.1, next_of_staysInPage hstays hs⟩
  have hwithin := hok.within_cut (toyfs_within hreach) hcut
  exact (within_startAt hwithin hok hrun).owner ho

/-- A file with one block and an attribute: the block and the attribute have a page each. -/
theorem toyfs_pagesExclusive_write : ∃ x,
    ((toyfsInMemory 65536).restrict StaysInPage).Reachable x ∧
      ((x.sbi.blocksOf ⟨1023, 1⟩).length = 1 ∧ (x.sbi.inodes ⟨1023, 1⟩).iXattr = 1019) ∧
      PagesExclusive x.sbi := by
  obtain ⟨x, hx, hp⟩ := exists_reachable_of_mounted 65536
    [.newInode ⟨1023, 0⟩ ⟨.reg, 0, 0, [], fun _ => 0, false⟩ (some 2),
      .write ⟨1023, 1⟩ (fun _ => 7) 0 5,
      .setxattr ⟨1023, 1⟩ ⟨[97], [118], false, false, false⟩]
    (p := fun x => (x.sbi.blocksOf ⟨1023, 1⟩).length == 1 &&
      (x.sbi.inodes ⟨1023, 1⟩).iXattr == 1019) (by decide +kernel)
  simp only [Bool.and_eq_true, beq_iff_eq] at hp
  have hx' := staysInPage_of_reachable hx
  exact ⟨x, hx', hp, (toyfs_pagesExclusive 65536 x hx').1⟩

/-! ## A call that leaves its page -/

/-- Where `_append_xattr` stores. -/
theorem writeEntry_ne {m : Bytes} {p j : ℕ} {name value : List UInt8}
    (hne : writeEntry m p name value j ≠ m j) :
    p ≤ j ∧ j < p + xeData + name.length + value.length := by
  have hdata : xeData = 3 := rfl
  constructor
  · by_contra hlt
    exact hne (writeEntry_of_lt (by omega))
  · by_contra hge
    apply hne
    rw [writeEntry, Bytes.store_of_ge _ _ (by omega), Bytes.store_of_ge _ _ (by omega),
      Bytes.store_of_ge _ _ (by omega), Bytes.store_of_ge _ _ (by omega)]

/-- A new name that is stored at `p`, in the page or behind. -/
theorem setxattrMem_new {value : List UInt8} {p : ℕ} (hpage : (s.inodes n).iXattr = bn)
    (hbn : bn ≠ 0) (hval : ioc.value = some value) (hreplace : ioc.replace = false)
    (hfind : findXe (s.memFrom (behind mem bn) bn) (s.memEnd bn) ioc.name = some none)
    (hend : endFrom (s.memFrom (behind mem bn) bn) (s.memEnd bn) 0 = some p)
    (hroom : ioc.name.length + value.length ≤ nbytesDistance p xeEnd)
    (hlim : p + xeData + ioc.name.length + value.length ≤ s.memEnd bn) :
    s.xattrPage n = bn ∧ ∃ s', s.setxattrMem mem n ioc = some (s', fun i =>
      writeEntry (s.memFrom (behind mem bn) bn) p ioc.name value (xeEnd + i)) := by
  subst hpage
  have hat : s.xattrPage n = (s.inodes n).iXattr := by
    rw [Sbi.xattrPage, Sbi.requireXattr, if_pos hbn]
    rfl
  refine ⟨hat, ?_⟩
  have hset : setxattrPage (s.memFrom (behind mem (s.inodes n).iXattr) (s.inodes n).iXattr)
      (s.memEnd (s.inodes n).iXattr) ioc = some (.ok (), writeEntry
        (s.memFrom (behind mem (s.inodes n).iXattr) (s.inodes n).iXattr) p ioc.name value) := by
    simp only [setxattrPage, hval, doSetxattr, hfind, hreplace, doRemovexattr, appendXattr, hend,
      if_neg (Nat.not_lt.mpr hroom), if_pos hlim]
    simp
  rw [Sbi.setxattrMem, hat, setxattrIn_eq hbn, hset]
  exact ⟨_, rfl⟩

/-- The bytes of the second attribute. -/
def strayXattr : IocXattr := ⟨[98], [1, 0, 0, 0, 0, 0, 0, 0, 254], false, false, false⟩

/-- A file of two blocks gets an attribute whose value is taken for a header: the next entry is
stored in the page of the `dblkref` records, over the record of the second block, which is given the
page of the first. -/
theorem toyfs_shares_page : ¬ ∀ x, (toyfsInMemory 65536).Reachable x → PagesExclusive x.sbi := by
  intro hall
  obtain ⟨x, hx, hp⟩ := exists_reachable_of_mounted 65536
    [.newInode ⟨1023, 0⟩ ⟨.reg, 0, 0, [], fun _ => 0, false⟩ (some 2),
      .write ⟨1023, 1⟩ (fun _ => 7) 0 5, .write ⟨1023, 1⟩ (fun _ => 7) 4096 5,
      .setxattr ⟨1023, 1⟩ ⟨[97], [39, 48, 1], false, false, false⟩]
    (p := fun x => (x.sbi.inodes ⟨1023, 1⟩).iXattr == 1018 &&
      findXe (x.sbi.memFrom (behind x.sbi.layout 1018) 1018) (x.sbi.memEnd 1018) [98] == some none &&
      endFrom (x.sbi.memFrom (behind x.sbi.layout 1018) 1018) (x.sbi.memEnd 1018) 0 == some 12332 &&
      decide (12400 ≤ x.sbi.memEnd 1018) && (x.sbi.inodes ⟨1023, 1⟩).iMode == .reg &&
      (x.sbi.dblkrefs ⟨1021, 1⟩).refcnt == 1 &&
      (x.sbi.setxattrMem x.sbi.layout ⟨1023, 1⟩ strayXattr).any fun r =>
        r.1.dblkrefs ⟨1021, 0⟩ == ⟨1, 1022⟩ && r.1.dblkrefs ⟨1021, 1⟩ == ⟨1, 1022⟩ &&
          !r.1.panicked) (by decide +kernel)
  simp only [Bool.and_eq_true, beq_iff_eq, decide_eq_true_eq] at hp
  obtain ⟨⟨⟨⟨⟨⟨hpage, hfind⟩, hend⟩, hlim⟩, hmode⟩, href⟩, hafter⟩ := hp
  have hval : strayXattr.value = some strayXattr.userBuf := rfl
  obtain ⟨hat, s', hset⟩ := setxattrMem_new hpage (by decide) hval rfl hfind hend (by decide)
    (Nat.le_trans (by decide) hlim)
  rw [hset, Option.any_some] at hafter
  simp only [Bool.and_eq_true, beq_iff_eq, Bool.not_eq_true'] at hafter
  obtain ⟨⟨hfirst, hsecond⟩, hpanicked⟩ := hafter
  have hstep : (toyfsInMemory 65536).step x (.setxattr ⟨1023, 1⟩ strayXattr, x.sbi.layout)
      ⟨s', x.live⟩ := by
    refine ⟨⟨by rw [hmode]; decide, by decide⟩, memoryOf_layout (toyfs_storeOk hx),
      ⟨_, hset, ?_⟩, hpanicked, rfl⟩
    rw [hat]
    intro j hj
    -- all stored bytes are in the record of the second block
    have hm : (x.sbi.memFrom (behind x.sbi.layout 1018) 1018) (xeEnd + j) =
        behind x.sbi.layout 1018 j := by
      rw [Sbi.memFrom, if_neg (by omega), Nat.add_sub_cancel_left]
    rw [← hm] at hj
    have hin := writeEntry_ne hj
    have hlen : strayXattr.name.length = 1 ∧ strayXattr.userBuf.length = 9 := ⟨rfl, rfl⟩
    unfold xeEnd xeData at hin
    have hbn : 1018 + 1 + j / pageSize = 1021 := by
      unfold pageSize
      omega
    have hidx : j % pageSize / dblkrefSize = 1 := by
      unfold pageSize dblkrefSize
      omega
    rw [hbn, hidx]
    exact .inl (by rw [href]; decide)
  have howner := (hall _ ((staysInPage_of_reachable hx).of_restrict.step hstep)).owner 1022
    (.data ⟨1021, 0⟩) (.data ⟨1021, 1⟩)
  have hsame := howner ⟨by rw [hfirst]; decide, by rw [Sbi.pageOf, hfirst]⟩
    ⟨by rw [hsecond]; decide, by rw [Sbi.pageOf, hsecond]⟩
  exact absurd hsame (by decide)

end Zus.Toyfs
