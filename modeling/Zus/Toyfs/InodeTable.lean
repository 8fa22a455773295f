import Zus.Lib.Chains
import Zus.Toyfs.SystemStorage

/-!
# The inode table

The table leads from an inode number to the info of the inode. An info that is evicted while
its inode has links leaves the entry of the inode without one, and `toyfs_iget` puts a new info
there that it never binds to the inode. The info of the root inode is not marked as mapped, so
its eviction leaves the entry as it was.

The table is right as long as each `toyfs_iget` of a live inode comes while an info of the inode
is in memory, and the root inode is not freed.
-/

namespace Zus.Toyfs

open Zus.Lib

variable {s s' s₁ : Sbi} {held : RecPtr → ℕ} {n m : RecPtr} {a : ℕ} {info : InodeInfo}
  {e : InodeRef} {ino : UInt64} {live : List (UInt64 × RecPtr)} {apiMapMaxSize : ℕ}

/-- The entry is in the table. -/
def Sbi.Tracks (s : Sbi) (e : InodeRef) : Prop := Holds InodeRef.ino slotOf s.imap e

/-! ## Requests that are not about the table -/

/-- No inode number changes, no parent of a directory, and no table. -/
structure KeepsIds (s s' : Sbi) : Prop where
  tables : s'.tables = s.tables
  ids : ∀ m, (s'.inodes m).iIno = (s.inodes m).iIno
  parents : ∀ m, (s'.inodes m).iDirParent = (s.inodes m).iDirParent

namespace KeepsIds

theorem refl (s : Sbi) : KeepsIds s s := ⟨rfl, fun _ => rfl, fun _ => rfl⟩

theorem trans (h : KeepsIds s s₁) (h₁ : KeepsIds s₁ s') : KeepsIds s s' :=
  ⟨h₁.tables.trans h.tables, fun m => (h₁.ids m).trans (h.ids m),
    fun m => (h₁.parents m).trans (h.parents m)⟩

theorem of_metaStep (h : MetaStep s s') : KeepsIds s s' :=
  ⟨h.tables, fun m => (h.inodes m).ino, fun m => (h.inodes m).parent⟩

theorem of_setInode {i : Inode} (hi : i.iIno = (s.inodes n).iIno)
    (hp : i.iDirParent = (s.inodes n).iDirParent) : KeepsIds s (s.setInode n i) :=
  ⟨rfl, apply_setInode Inode.iIno hi, apply_setInode Inode.iDirParent hp⟩

theorem of_fileStep (h : FileStep n s s') : KeepsIds s s' := by
  obtain ⟨l, size, blocks, hself⟩ := h.self
  refine ⟨h.tables, fun m => ?_, fun m => ?_⟩
  · obtain rfl | hm := eq_or_ne m n
    · rw [hself]
    · rw [h.others m hm]
  · obtain rfl | hm := eq_or_ne m n
    · rw [hself]
    · rw [h.others m hm]

theorem acquirePmemb {bn : ℕ} (h : Inv held s) (ha : s.acquirePmemb = some (bn, s')) :
    KeepsIds s s' := by
  obtain ⟨-, -, hq, -⟩ := acquirePmemb_spec h ha
  exact ⟨hq.tables, fun m => by rw [hq.inodes], fun m => by rw [hq.inodes]⟩

theorem acquireDirent {dir : RecPtr} {nlen : ℕ} {place : ℕ × ℕ × ℕ} (h : Inv held s)
    (ha : s.acquireDirent dir nlen = some (place, s')) : KeepsIds s s' := by
  rcases acquireDirent_cases ha with ⟨-, rfl⟩ | ⟨s₁, -, hb, -, rfl⟩
  · exact .refl _
  · exact (acquirePmemb h hb).trans (.of_setInode rfl rfl)

theorem addDirent {dir : RecPtr} {name : List UInt8} (h : Inv held s)
    (hd : (s.inodes dir).iMode = .dir) (hn : (s.inodes n).iMode ≠ .unset) :
    KeepsIds s (s.addDirent dir n name).2 := by
  rcases @addDirent_cases s held n dir name h hd hn with heq | ⟨b, j, off, s₁, ha, -, hs, -⟩
  · rw [heq]
    exact .refl s
  · exact (acquireDirent h ha).trans (.of_metaStep hs)

theorem rename {oldDir newDir old : RecPtr} {oldName newName : List UInt8} {time : UInt64}
    {flags : UInt32} (h : Inv held s) (ho : (s.inodes oldDir).iMode = .dir)
    (hw : (s.inodes newDir).iMode = .dir) (hn : (s.inodes old).iMode ≠ .unset) :
    KeepsIds s (s.rename oldDir newDir old oldName newName time flags).2 := by
  refine (Sbi.rename_rule (P := fun t => KeepsIds s t ∧ ∀ m, (t.inodes m).iMode = (s.inodes m).iMode)
    flags ⟨.refl s, fun _ => rfl⟩ ⟨addDirent h hw hn, (h.addDirent hw hn).2⟩ ?_).1
  rintro s₁ bn j - ⟨h₁, hmode⟩
  have hstep : MetaStep s₁ (s₁.renameRest oldDir newDir old time bn j) :=
    metaStep_renameRest ((hmode oldDir).trans ho) ((hmode newDir).trans hw) (by rwa [hmode old])
  exact ⟨h₁.trans (.of_metaStep hstep), fun m => hstep.mode.trans (hmode m)⟩

theorem setxattr {ioc : IocXattr} {res : Except Errno Unit} (h : Inv held s)
    (hr : s.setxattr n ioc = some (res, s')) : KeepsIds s s' := by
  rcases Sbi.setxattr_some hr with rfl | ⟨s₁, pg, hx, rfl⟩
  · exact .refl _
  · have h₁ : KeepsIds s s₁ := by
      rcases Sbi.requireXattr_some hx with ⟨-, rfl⟩ | ⟨-, b, s₂, ha, rfl⟩
      · exact .refl _
      · exact (acquirePmemb h ha).trans (.of_setInode rfl rfl)
    exact h₁.trans ⟨rfl, fun _ => rfl, fun _ => rfl⟩

end KeepsIds

/-- Only creation, `toyfs_iget` and eviction are about the table. -/
theorem Sys.keepsIds {x : Sys} {act : Act} (hinv : Inv held x.sbi) (hsend : x.Sends act)
    (hs : x.serve apiMapMaxSize act = some s') :
    (∃ dir ioc addr, act = .newInode dir ioc addr) ∨ (∃ ino addr, act = .iget ino addr) ∨
      (∃ a, act = .evict a) ∨ (KeepsIds x.sbi s' ∧ x.liveAfter s' act = x.live) := by
  have hfile : ∀ n, act.target = some n → KeepsIds x.sbi s' := by
    intro n ht
    obtain ⟨s₁, hs₁, hserve⟩ := @Sys.serves held n apiMapMaxSize x act hinv hsend ht
    obtain rfl := Option.some.inj (hs₁.symm.trans hs)
    exact .of_fileStep hserve.op.step
  cases act with
  | newInode dir ioc addr => exact .inl ⟨dir, ioc, addr, rfl⟩
  | iget ino addr => exact .inr (.inl ⟨ino, addr, rfl⟩)
  | evict a => exact .inr (.inr (.inl ⟨a, rfl⟩))
  | addDentry dir n name =>
    obtain rfl := Option.some.inj hs
    exact .inr (.inr (.inr ⟨.addDirent hinv hsend.1 hsend.2.1, rfl⟩))
  | removeDentry dir n name =>
    obtain rfl := Option.some.inj hs
    exact .inr (.inr (.inr ⟨.of_metaStep (metaStep_removeDentry hsend.1 hsend.2.1), rfl⟩))
  | rename oldDir newDir old oldName newName time flags =>
    obtain rfl := Option.some.inj hs
    exact .inr (.inr (.inr ⟨.rename hinv hsend.1 hsend.2.1 hsend.2.2.1, rfl⟩))
  | setxattr n ioc =>
    obtain ⟨⟨res, s₁⟩, hr, rfl⟩ := Option.map_eq_some_iff.mp hs
    exact .inr (.inr (.inr ⟨.setxattr hinv hr, rfl⟩))
  | write n buf filepos len => exact .inr (.inr (.inr ⟨hfile n rfl, rfl⟩))
  | fallocate n mode filepos lastPos => exact .inr (.inr (.inr ⟨hfile n rfl, rfl⟩))
  | truncate n size => exact .inr (.inr (.inr ⟨hfile n rfl, rfl⟩))
  | clone src dst posIn posOut len => exact .inr (.inr (.inr ⟨hfile dst rfl, rfl⟩))
  | mmapStore n filepos poff len data => exact .inr (.inr (.inr ⟨hfile n rfl, rfl⟩))

/-! ## The table -/

/-- The table has one entry for each live inode, and each info in memory is bound to a live
inode and known to its entry. The entry of the root inode is the oldest of its chain. -/
structure TableOk (s : Sbi) (live : List (UInt64 × RecPtr)) : Prop where
  chained : Chained InodeRef.ino slotOf s.imap
  entry : ∀ e, s.Tracks e → ∃ n, e.ti = some n ∧ (e.ino, n) ∈ live
  tracked : ∀ ino n, (ino, n) ∈ live → ∃ e, s.Tracks e ∧ e.ino = ino ∧ e.ti = some n
  number : ∀ ino n, (ino, n) ∈ live →
    (s.inodes n).iIno = ino ∧ ino ≠ 0 ∧ (s.sTopIno = 0 ∨ ino < s.sTopIno)
  info : ∀ a info, s.tiis a = some info → ∃ n, info.ti = some n ∧ info.zi = some n ∧
    s.Tracks ⟨some a, some n, info.ino⟩ ∧ (info.mapped = true ↔ info.ino ≠ rootIno)
  used : ∀ e a, s.Tracks e → e.tii = some a → e.ino ≠ rootIno →
    ∃ info, s.tiis a = some info ∧ info.ino = e.ino
  root : ∃ l e a, s.imap (slotOf rootIno) = l ++ [e] ∧ e.ino = rootIno ∧ e.tii = some a

namespace TableOk

/-- An inode has one number. -/
theorem ino_eq (h : TableOk s live) {ino' : UInt64} (hn : (ino, n) ∈ live)
    (hn' : (ino', n) ∈ live) : ino = ino' :=
  (h.number ino n hn).1.symm.trans (h.number ino' n hn').1

/-- A number has one inode. -/
theorem eq_of_number (h : TableOk s live) (hn : (ino, n) ∈ live) (hm : (ino, m) ∈ live) :
    m = n := by
  obtain ⟨e, he, hino, hti⟩ := h.tracked ino n hn
  obtain ⟨e', he', hino', hti'⟩ := h.tracked ino m hm
  rw [h.chained.eq_of_key he he' (hino.trans hino'.symm)] at hti
  exact Option.some.inj (hti'.symm.trans hti)

theorem itableFind_eq_some_iff (h : TableOk s live) :
    s.itableFind ino = some e ↔ s.Tracks e ∧ e.ino = ino :=
  h.chained.find?_eq_some_iff

theorem itableFind_eq_none_iff (h : TableOk s live) :
    s.itableFind ino = none ↔ ∀ n, (ino, n) ∉ live := by
  refine h.chained.find?_eq_none_iff.trans ⟨fun hnone n hn => ?_, ?_⟩
  · obtain ⟨e, he, heq, -⟩ := h.tracked ino n hn
    exact hnone e he heq
  · rintro hall e he rfl
    obtain ⟨n, -, hn⟩ := h.entry e he
    exact hall n hn

/-- A number and its inode have one entry. -/
theorem eq_of_live (h : TableOk s live) {e' : InodeRef} (he : s.Tracks e) (he' : s.Tracks e')
    (hti : e.ti = some n) (hti' : e'.ti = some n) : e = e' := by
  obtain ⟨m, hm, hlive⟩ := h.entry e he
  obtain ⟨m', hm', hlive'⟩ := h.entry e' he'
  obtain rfl := Option.some.inj (hm.symm.trans hti)
  obtain rfl := Option.some.inj (hm'.symm.trans hti')
  exact h.chained.eq_of_key he he' (h.ino_eq hlive hlive')

/-- The entry of the root inode, whatever has become of its info. -/
theorem root_entry (h : TableOk s live) : ∃ e a, s.Tracks e ∧ e.ino = rootIno ∧ e.tii = some a := by
  obtain ⟨l, e, a, hl, hino, htii⟩ := h.root
  exact ⟨e, a, h.chained.holds_of_mem (j := slotOf rootIno) (by simp [hl]), hino, htii⟩

theorem keeps (h : TableOk s live) (hk : KeepsIds s s') : TableOk s' live := by
  obtain ⟨htab, hids, -⟩ := hk
  simp only [Sbi.tables, Prod.mk.injEq] at htab
  obtain ⟨himap, -, htiis, htop, -⟩ := htab
  have htracks : s'.Tracks = s.Tracks := by
    funext e
    rw [Sbi.Tracks, himap, Sbi.Tracks]
  refine ⟨by rw [himap]; exact h.chained, ?_, ?_, ?_, ?_, ?_, by rw [himap]; exact h.root⟩
  · rw [htracks]
    exact h.entry
  · rw [htracks]
    exact h.tracked
  · intro ino n hn
    rw [hids, htop]
    exact h.number ino n hn
  · rw [htracks, htiis]
    exact h.info
  · rw [htracks, htiis]
    exact h.used

/-! ## The infos -/

/-- An info that keeps its binding may be replaced. -/
theorem setTii (h : TableOk s live) {info' : InodeInfo} (ha : s.tiis a = some info)
    (hti : info'.ti = info.ti) (hzi : info'.zi = info.zi) (hino : info'.ino = info.ino)
    (hmapped : info'.mapped = info.mapped) : TableOk (s.setTii a info') live where
  chained := h.chained
  entry := h.entry
  tracked := h.tracked
  number := h.number
  root := h.root
  info b i hb := by
    obtain rfl | hne := eq_or_ne b a
    · have hi : some info' = some i := by
        rw [← hb]
        simp [Sbi.setTii]
      obtain rfl := Option.some.inj hi
      rw [hti, hzi, hino, hmapped]
      exact h.info b info ha
    · exact h.info b i (by simpa [Sbi.setTii, hne] using hb)
  used e b he hb hroot := by
    obtain ⟨i, hi, heq⟩ := h.used e b he hb hroot
    obtain rfl | hne := eq_or_ne b a
    · obtain rfl := Option.some.inj (hi.symm.trans ha)
      exact ⟨info', by simp [Sbi.setTii], hino.trans heq⟩
    · exact ⟨i, by simpa [Sbi.setTii, hne] using hi, heq⟩

/-- An inode in memory has the info its entry leads to. -/
theorem entry_of_inMemory (h : TableOk s live) (he : s.Tracks e) (hti : e.ti = some n)
    (ha : s.tiis a = some info) (hinfo : info.ti = some n) :
    e.tii = some a ∧ info.ino = e.ino ∧ info.zi = some n := by
  obtain ⟨m, hm, hzi, htrack, -⟩ := h.info a info ha
  obtain rfl := Option.some.inj (hm.symm.trans hinfo)
  obtain rfl := h.eq_of_live he htrack hti rfl
  exact ⟨rfl, rfl, hzi⟩

end TableOk

/-! ## Getting an inode -/

namespace Sys

variable (x : Sys) (addr : Option ℕ)

/-- An info of the inode is in memory. -/
def InMemory (n : RecPtr) : Prop := ∃ a info, x.sbi.tiis a = some info ∧ info.ti = some n

/-- `toyfs_iget` finds a live inode, or makes out that there is none, and the info it returns
is that of the inode. -/
def IgetRight (ino : UInt64) : Prop :=
  ((∀ n, (ino, n) ∉ x.live) → (x.sbi.iget ino addr).1 = .error .enoent) ∧
  (∀ n, (ino, n) ∈ x.live → x.InMemory n ∨ (x.sbi.allocIi addr).isSome →
    ∃ a, (x.sbi.iget ino addr).1 = .ok a) ∧
  ∀ a, (x.sbi.iget ino addr).1 = .ok a → ∃ n info, (ino, n) ∈ x.live ∧
    (x.sbi.iget ino addr).2.tiis a = some info ∧ info.ino = ino ∧ info.ti = some n ∧
    info.zi = some n ∧ ((x.sbi.iget ino addr).2.inodes n).iIno = ino

/-- If the inode is live, an info of it is in memory, or else there is no room for one (of the
root inode the entry still leads to where the info was). -/
def GetsBound (ino : UInt64) : Prop :=
  ∀ n, (ino, n) ∈ x.live → x.InMemory n ∨ (ino ≠ rootIno ∧ x.sbi.allocIi addr = none)

end Sys

section Get

variable {x : Sys} {addr : Option ℕ}

/-- **What `toyfs_iget` does** with a table in order. -/
theorem TableOk.iget_cases (h : TableOk x.sbi x.live) (ino : UInt64) (addr : Option ℕ) :
    ((∀ n, (ino, n) ∉ x.live) ∧ x.sbi.iget ino addr = (.error .enoent, x.sbi)) ∨
    ∃ n, (ino, n) ∈ x.live ∧
      ((∃ a info, x.sbi.tiis a = some info ∧ info.ti = some n ∧ info.zi = some n ∧
          info.ino = ino ∧
          x.sbi.iget ino addr = (.ok a, x.sbi.setTii a { info with ref := info.ref + 1 })) ∨
        (¬ x.InMemory n ∧ ino ≠ rootIno ∧ x.sbi.allocIi addr = none ∧
          x.sbi.iget ino addr = (.error .enomem, x.sbi)) ∨
        (¬ x.InMemory n ∧ (ino ≠ rootIno → x.sbi.allocIi addr ≠ none) ∧
          ∃ a, (x.sbi.iget ino addr).1 = .ok a ∧
            ∀ info, (x.sbi.iget ino addr).2.tiis a = some info → info.ti ≠ some n)) := by
  rcases hf : x.sbi.itableFind ino with _ | e
  · exact .inl ⟨h.itableFind_eq_none_iff.mp hf, by simp [Sbi.iget, hf]⟩
  · obtain ⟨he, rfl⟩ := h.itableFind_eq_some_iff.mp hf
    obtain ⟨n, hti, hlive⟩ := h.entry e he
    refine .inr ⟨n, hlive, ?_⟩
    by_cases hmem : x.InMemory n
    · obtain ⟨a, info, ha, hinfo⟩ := hmem
      obtain ⟨htii, hino, hzi⟩ := h.entry_of_inMemory he hti ha hinfo
      exact .inl ⟨a, info, ha, hinfo, hzi, hino, by simp [Sbi.iget, hf, htii, ha]⟩
    · refine .inr ?_
      rcases htii : e.tii with _ | a
      · -- the info was evicted; a new one is not bound to the inode
        have hroot : e.ino ≠ rootIno := by
          intro heq
          obtain ⟨r, a, hr, hrino, hrtii⟩ := h.root_entry
          rw [← heq] at hrino
          rw [h.chained.eq_of_key hr he hrino, htii] at hrtii
          cases hrtii
        rcases halloc : x.sbi.allocIi addr with _ | ⟨a, s₁⟩
        · exact .inl ⟨hmem, hroot, rfl, by simp [Sbi.iget, hf, htii, halloc]⟩
        · refine .inr ⟨hmem, fun _ => by simp, a, by simp [Sbi.iget, hf, htii, halloc], ?_⟩
          intro info hinfo
          have hnew : info = { ref := 1, mapped := true } := by
            simpa [Sbi.iget, hf, htii, halloc, Sbi.setTii, eq_comm] using hinfo
          simp [hnew]
      · -- only the entry of the root inode leads to an info that is gone
        have hroot : e.ino = rootIno := by
          by_contra hne
          obtain ⟨info, hinfo, hino⟩ := h.used e a he htii hne
          obtain ⟨m, hm, -, htrack, -⟩ := h.info a info hinfo
          have heq : e = ⟨some a, some m, info.ino⟩ := h.chained.eq_of_key he htrack hino.symm
          rw [heq] at hti
          exact hmem ⟨a, info, hinfo, hm.trans hti⟩
        refine .inr ⟨hmem, fun hne => absurd hroot hne, a, ?_, fun info hinfo hbound => ?_⟩
        · unfold Sbi.iget
          rw [hf]
          simp only [htii]
          split <;> rfl
        · rcases ha : x.sbi.tiis a with _ | i
          · simp [Sbi.iget, hf, htii, ha] at hinfo
          · have hi : { i with ref := i.ref + 1 } = info := by
              simpa [Sbi.iget, hf, htii, ha, Sbi.setTii] using hinfo
            subst hi
            exact hmem ⟨a, i, ha, hbound⟩

/-- **When `toyfs_iget` is right.** -/
theorem TableOk.igetRight_iff (h : TableOk x.sbi x.live) :
    x.IgetRight addr ino ↔ x.GetsBound addr ino := by
  rcases h.iget_cases ino addr with ⟨hnone, heq⟩ | ⟨n, hlive, hcases⟩
  · refine iff_of_true ⟨fun _ => by rw [heq], fun n hn => absurd hn (hnone n), fun a ha => ?_⟩
      fun n hn => absurd hn (hnone n)
    rw [heq] at ha
    cases ha
  · have honly : ∀ m, (ino, m) ∈ x.live → m = n := fun m hm => h.eq_of_number hlive hm
    rcases hcases with ⟨a, info, ha, hti, hzi, hino, heq⟩ | ⟨hmem, hroot, halloc, heq⟩ |
      ⟨hmem, halloc, a, hok, hnot⟩
    · refine iff_of_true ⟨fun hnone => absurd hlive (hnone n), fun _ _ _ => ⟨a, by rw [heq]⟩,
        fun b hb => ?_⟩ fun m hm => ?_
      · rw [heq] at hb
        obtain rfl : a = b := by simpa using hb
        refine ⟨n, { info with ref := info.ref + 1 }, hlive, ?_, hino, hti, hzi, ?_⟩
        · simp [heq, Sbi.setTii]
        · rw [heq]
          exact (h.number ino n hlive).1
      · obtain rfl := honly m hm
        exact .inl ⟨a, info, ha, hti⟩
    · refine iff_of_true ⟨fun hnone => absurd hlive (hnone n), fun m hm hroom => ?_,
        fun b hb => ?_⟩ fun m hm => .inr ⟨hroot, halloc⟩
      · obtain rfl := honly m hm
        rcases hroom with hin | hsome
        · exact absurd hin hmem
        · rw [halloc] at hsome
          cases hsome
      · rw [heq] at hb
        cases hb
    · refine iff_of_false ?_ fun hget => ?_
      · rintro ⟨-, -, hbound⟩
        obtain ⟨m, info, hm, hinfo, -, hti, -⟩ := hbound a hok
        obtain rfl := honly m hm
        exact hnot info hinfo hti
      · rcases hget n hlive with hin | ⟨hroot, hnone⟩
        · exact hmem hin
        · exact halloc hroot hnone

/-- A right `toyfs_iget` keeps the table. -/
theorem TableOk.iget (h : TableOk x.sbi x.live) (hget : x.GetsBound addr ino) :
    TableOk (x.sbi.iget ino addr).2 x.live := by
  rcases h.iget_cases ino addr with ⟨-, heq⟩ | ⟨n, hlive, hcases⟩
  · rw [heq]
    exact h
  · rcases hcases with ⟨a, info, ha, -, -, -, heq⟩ | ⟨-, -, -, heq⟩ | ⟨hmem, halloc, -⟩
    · rw [heq]
      exact h.setTii ha rfl rfl rfl rfl
    · rw [heq]
      exact h
    · rcases hget n hlive with hin | ⟨hroot, hnone⟩
      · exact absurd hin hmem
      · exact absurd hnone (halloc hroot)

end Get

/-! ## Creation -/

theorem lt_add_one_or_eq_zero {i k : UInt64} (h : i ≤ k) : k + 1 = 0 ∨ i < k + 1 := by
  rw [← UInt64.toNat_inj, UInt64.lt_iff_toNat_lt, UInt64.toNat_add]
  rw [UInt64.le_iff_toNat_le] at h
  have hk : k.toNat < 2 ^ 64 := k.toNat_lt
  have hone : (1 : UInt64).toNat = 1 := rfl
  have hzero : (0 : UInt64).toNat = 0 := rfl
  omega

/-- The inode that was made is live. -/
theorem Sys.liveAfter_newInode {x : Sys} {dir : RecPtr} {ioc : IocNewInode} {addr : Option ℕ}
    {ft : FileType} (hr : x.sbi.newInode dir ioc addr = (some a, s'))
    (hmade : Made held a n ft x.sbi s') :
    x.liveAfter s' (.newInode dir ioc addr) = (x.sbi.sTopIno, n) :: x.live := by
  have hinfo : s'.tiis a = some
      { ti := some n, zi := some n, ino := x.sbi.sTopIno, ref := 1, mapped := true } := by
    rw [hmade.tiis, Function.update_self]
  simp only [Sys.liveAfter, hr, Option.bind_some, hinfo]

theorem TableOk.notMade (h : TableOk s live) (htop : s.sTopIno ≠ 0) (hnot : NotMade held s s') :
    TableOk s' live := by
  have htracks : s'.Tracks = s.Tracks := by
    funext e
    rw [Sbi.Tracks, hnot.imap, Sbi.Tracks]
  refine ⟨by rw [hnot.imap]; exact h.chained, ?_, ?_, ?_, ?_, ?_, by rw [hnot.imap]; exact h.root⟩
  · rw [htracks]
    exact h.entry
  · rw [htracks]
    exact h.tracked
  · intro ino n hn
    obtain ⟨hino, hne, hlt⟩ := h.number ino n hn
    refine ⟨by rw [hnot.inodes, hino], hne, ?_⟩
    rcases hnot.top with heq | heq
    · rwa [heq]
    · rw [heq]
      exact lt_add_one_or_eq_zero (UInt64.le_of_lt (hlt.resolve_left htop))
  · rw [htracks, hnot.tiis]
    exact h.info
  · rw [htracks, hnot.tiis]
    exact h.used

/-- **A new inode** comes with an entry and a bound info. -/
theorem TableOk.made {ft : FileType} (h : TableOk s live) (htop : s.sTopIno ≠ 0)
    (hfresh : s.tiis a = none) (hmade : Made held a n ft s s') :
    TableOk s' ((s.sTopIno, n) :: live) := by
  set new : InodeRef := ⟨some a, some n, s.sTopIno⟩ with hnew
  have hlt : ∀ ino m, (ino, m) ∈ live → ino < s.sTopIno := fun ino m hm =>
    (h.number ino m hm).2.2.resolve_left htop
  have hother : ∀ ino m, (ino, m) ∈ live → m ≠ n := by
    rintro ino m hm rfl
    obtain ⟨hino, hne, -⟩ := h.number ino m hm
    rw [hmade.fresh] at hino
    exact hne hino.symm
  have hnewKey : ∀ e, s.Tracks e → e.ino ≠ new.ino := by
    intro e he heq
    obtain ⟨m, -, hm⟩ := h.entry e he
    exact absurd (hlt e.ino m hm) (by rw [heq]; exact UInt64.lt_irrefl _)
  obtain ⟨hchained, hholds⟩ := h.chained.insert hnewKey
  have htracks : ∀ e, s'.Tracks e ↔ e = new ∨ s.Tracks e := by
    intro e
    rw [Sbi.Tracks, hmade.imap]
    exact hholds e
  refine ⟨by rw [hmade.imap]; exact hchained, ?_, ?_, ?_, ?_, ?_, ?_⟩
  · intro e he
    rcases (htracks e).mp he with rfl | he
    · exact ⟨n, rfl, List.mem_cons_self⟩
    · obtain ⟨m, hm, hlive⟩ := h.entry e he
      exact ⟨m, hm, List.mem_cons_of_mem _ hlive⟩
  · intro ino m hm
    rcases List.mem_cons.mp hm with heq | hm
    · obtain ⟨rfl, rfl⟩ := Prod.mk.inj heq
      exact ⟨new, (htracks new).mpr (.inl rfl), rfl, rfl⟩
    · obtain ⟨e, he, hino, hti⟩ := h.tracked ino m hm
      exact ⟨e, (htracks e).mpr (.inr he), hino, hti⟩
  · intro ino m hm
    rw [hmade.top]
    rcases List.mem_cons.mp hm with heq | hm
    · obtain ⟨rfl, rfl⟩ := Prod.mk.inj heq
      exact ⟨hmade.ino, htop, lt_add_one_or_eq_zero (UInt64.le_refl _)⟩
    · obtain ⟨hino, hne, -⟩ := h.number ino m hm
      refine ⟨?_, hne, lt_add_one_or_eq_zero (UInt64.le_of_lt (hlt ino m hm))⟩
      rw [hmade.others m (hother ino m hm), hino]
  · intro b i hb
    rw [hmade.tiis] at hb
    obtain rfl | hne := eq_or_ne b a
    · rw [Function.update_self] at hb
      obtain rfl := Option.some.inj hb
      refine ⟨n, rfl, rfl, (htracks _).mpr (.inl rfl), iff_of_true rfl ?_⟩
      -- the number of the root inode is in use
      obtain ⟨r, -, hr, hrino, -⟩ := h.root_entry
      exact fun heq => hnewKey r hr (hrino.trans heq.symm)
    · rw [Function.update_of_ne hne] at hb
      obtain ⟨m, hm, hzi, htrack, hmapped⟩ := h.info b i hb
      exact ⟨m, hm, hzi, (htracks _).mpr (.inr htrack), hmapped⟩
  · intro e b he hb hroot
    rw [hmade.tiis]
    rcases (htracks e).mp he with rfl | he
    · obtain rfl := Option.some.inj hb
      exact ⟨_, Function.update_self .., rfl⟩
    · obtain ⟨i, hi, hino⟩ := h.used e b he hb hroot
      have hne : b ≠ a := by
        rintro rfl
        rw [hfresh] at hi
        cases hi
      exact ⟨i, by rw [Function.update_of_ne hne, hi], hino⟩
  · obtain ⟨l, e, b, hl, hino, htii⟩ := h.root
    rw [hmade.imap]
    by_cases hslot : slotOf rootIno = slotOf s.sTopIno
    · exact ⟨new :: l, e, b, by rw [hslot, Function.update_self, ← hslot, hl]; rfl, hino, htii⟩
    · exact ⟨l, e, b, by rw [Function.update_of_ne hslot, hl], hino, htii⟩

/-! ## Eviction -/

theorem setFirstTii_eq_map {tii : Option ℕ} : ∀ {l : List InodeRef}, (l.map InodeRef.ino).Nodup →
    setFirstTii ino tii l = l.map fun e => if e.ino = ino then { e with tii := tii } else e
  | [], _ => rfl
  | e :: l, hnd => by
    rw [List.map_cons, List.nodup_cons] at hnd
    obtain ⟨hnot, hnd⟩ := hnd
    rw [setFirstTii, List.map_cons, setFirstTii_eq_map hnd]
    split
    · next heq =>
      have htail : ∀ e' ∈ l, (if e'.ino = ino then { e' with tii := tii } else e') = e' := by
        intro e' he'
        refine if_neg fun heq' => hnot ?_
        rw [heq, ← heq']
        exact List.mem_map_of_mem he'
      rw [List.map_congr_left htail, List.map_id']
    · rfl

theorem iUntrack_table {remove : Bool} : (s.iUntrack a info remove).sTopIno = s.sTopIno ∧
    (s.iUntrack a info remove).imap = Function.update s.imap (slotOf info.ino)
      (if remove then (s.imap (slotOf info.ino)).eraseP (·.tii == some a)
        else setFirstTii info.ino none (s.imap (slotOf info.ino))) := by
  unfold Sbi.iUntrack
  cases remove with
  | true =>
    rw [if_pos rfl, if_pos rfl]
    simp only [Sbi.itableRemove, Sbi.setSlot, Sbi.setTii, Sbi.assert, and_self]
  | false =>
    rw [if_neg Bool.false_ne_true, if_neg Bool.false_ne_true]
    simp only [Sbi.setEntryTii, Sbi.setSlot, Sbi.setTii, Sbi.assert, and_self]

/-- What the last eviction of an info does to the chains. -/
theorem evict_table (hinv : Inv held s) (ha : s.tiis a = some info) (hone : info.ref = 1)
    (hti : info.ti = some n) (he : s.evict a = some s') :
    s'.sTopIno = s.sTopIno ∧ s'.imap = if info.mapped then
      Function.update s.imap (slotOf info.ino) (if (s.inodes n).iNlink == 0
        then (s.imap (slotOf info.ino)).eraseP (·.tii == some a)
        else setFirstTii info.ino none (s.imap (slotOf info.ino)))
      else s.imap := by
  have hzero : info.ref - 1 = 0 := by omega
  unfold Sbi.evict at he
  simp only [ha, hti, hzero, ne_eq, not_true_eq_false, if_false, Option.some.injEq] at he
  set info' : InodeInfo := { ti := some n, zi := info.zi, ino := info.ino, mapped := info.mapped }
  have hinv₁ : Inv held (s.setTii a info') := hinv.congr rfl rfl rfl
  have htab : (if ((s.setTii a info').inodes n).iNlink = 0 then (s.setTii a info').freeInode n
      else s.setTii a info').tables = (s.setTii a info').tables := by
    split
    · exact (inodeStep_freeInode hinv₁).tables
    · rfl
  have hnlink : ((s.setTii a info').inodes n).iNlink = (s.inodes n).iNlink := rfl
  rw [hnlink] at he htab
  generalize (if (s.inodes n).iNlink = 0 then (s.setTii a info').freeInode n
    else s.setTii a info') = s₂ at he htab
  simp only [Sbi.tables, Prod.mk.injEq] at htab
  obtain ⟨himap, -, -, htop, -⟩ := htab
  have himap' : s₂.imap = s.imap := himap
  have htop' : s₂.sTopIno = s.sTopIno := htop
  rw [← he]
  split
  · obtain ⟨htop₃, himap₃⟩ := @iUntrack_table s₂ a info' ((s.inodes n).iNlink == 0)
    exact ⟨htop₃.trans htop', by simp only [Sbi.tiiFree, himap₃, himap', info']⟩
  · exact ⟨htop', himap'⟩

namespace TableOk

/-- The infos other than the evicted one. -/
theorem tiis_evicted (htiis : ∀ b, s'.tiis b = if b = a then none else s.tiis b) {b : ℕ}
    {i : InodeInfo} : s'.tiis b = some i ↔ b ≠ a ∧ s.tiis b = some i := by
  rw [htiis]
  obtain rfl | hne := eq_or_ne b a
  · simp
  · simp [hne]

/-- The entry that leads to an info of an inode other than the root is found first, though an
older entry may lead to the same address. -/
theorem find?_tii (h : TableOk s live) (ha : s.tiis a = some info) (hti : info.ti = some n)
    (hroot : info.ino ≠ rootIno) :
    (s.imap (slotOf info.ino)).find? (·.tii == some a) = some ⟨some a, some n, info.ino⟩ := by
  obtain ⟨m, hm, -, htrack, -⟩ := h.info a info ha
  obtain rfl := Option.some.inj (hm.symm.trans hti)
  have htrack' : ⟨some a, some m, info.ino⟩ ∈ s.imap (slotOf info.ino) := htrack
  -- of the entries that lead to the address one is that of the inode, one may be that of the root
  have honly : ∀ e ∈ s.imap (slotOf info.ino), e.tii = some a → e.ino ≠ rootIno →
      e = ⟨some a, some m, info.ino⟩ := by
    intro e he htii hne
    have he' : s.Tracks e := h.chained.holds_of_mem he
    obtain ⟨i, hi, hino⟩ := h.used e a he' htii hne
    obtain rfl := Option.some.inj (hi.symm.trans ha)
    exact h.chained.eq_of_key he' htrack hino.symm
  obtain ⟨l, r, c, hl, hrino, -⟩ := h.root
  by_cases hslot : slotOf info.ino = slotOf rootIno
  · rw [hslot, hl] at htrack' honly ⊢
    have hmem : (⟨some a, some m, info.ino⟩ : InodeRef) ∈ l := by
      rcases List.mem_append.mp htrack' with hin | hin
      · exact hin
      · rw [List.mem_singleton] at hin
        exact absurd (congrArg InodeRef.ino hin) (by rw [hrino]; exact hroot)
    have hnot : ∀ e ∈ l, e.ino ≠ rootIno := by
      intro e he heq
      have hnd := h.chained.nodup (slotOf rootIno)
      rw [hl, List.map_append, List.nodup_append] at hnd
      exact hnd.2.2 e.ino (List.mem_map_of_mem he) r.ino (by simp) (heq.trans hrino.symm)
    rcases hf : l.find? (·.tii == some a) with _ | e
    · exact absurd (beq_self_eq_true _) (List.find?_eq_none.mp hf _ hmem)
    · have he : e ∈ l := List.mem_of_find?_eq_some hf
      have htii : e.tii = some a := by simpa using List.find?_some hf
      rw [List.find?_append, hf, honly e (List.mem_append_left _ he) htii (hnot e he)]
      rfl
  · rcases hf : (s.imap (slotOf info.ino)).find? (·.tii == some a) with _ | e
    · exact absurd (beq_self_eq_true _) (List.find?_eq_none.mp hf _ htrack')
    · have he : e ∈ s.imap (slotOf info.ino) := List.mem_of_find?_eq_some hf
      have htii : e.tii = some a := by simpa using List.find?_some hf
      rw [hf, honly e he htii]
      intro heq
      exact hslot (by rw [← h.chained.placed _ e he, heq])

/-- **The inode is freed**: its entry goes with the info. -/
theorem evict_freed (h : TableOk s live) (ha : s.tiis a = some info) (hti : info.ti = some n)
    (hroot : info.ino ≠ rootIno) (htop : s'.sTopIno = s.sTopIno)
    (himap : s'.imap = Function.update s.imap (slotOf info.ino)
      ((s.imap (slotOf info.ino)).eraseP (·.tii == some a)))
    (htiis : ∀ b, s'.tiis b = if b = a then none else s.tiis b)
    (hothers : ∀ m, m ≠ n → s'.inodes m = s.inodes m) :
    TableOk s' (live.filter (·.2 ≠ n)) := by
  obtain ⟨m, hm, -, htrack, -⟩ := h.info a info ha
  obtain rfl := Option.some.inj (hm.symm.trans hti)
  have hfind := h.find?_tii ha hti hroot
  obtain ⟨hchained, hholds⟩ := h.chained.erase hfind
  have htracks : ∀ e, s'.Tracks e ↔ s.Tracks e ∧ e ≠ ⟨some a, some m, info.ino⟩ := by
    intro e
    rw [Sbi.Tracks, himap]
    exact hholds e
  have hmem : ∀ ino k, (ino, k) ∈ live.filter (·.2 ≠ m) ↔ (ino, k) ∈ live ∧ k ≠ m := by
    intro ino k
    simp
  refine ⟨by rw [himap]; exact hchained, ?_, ?_, ?_, ?_, ?_, ?_⟩
  · intro e he
    obtain ⟨he, hne⟩ := (htracks e).mp he
    obtain ⟨k, hk, hlive⟩ := h.entry e he
    refine ⟨k, hk, (hmem _ _).mpr ⟨hlive, ?_⟩⟩
    rintro rfl
    exact hne (h.eq_of_live he htrack hk rfl)
  · intro ino k hk
    obtain ⟨hlive, hne⟩ := (hmem _ _).mp hk
    obtain ⟨e, he, hino, hti'⟩ := h.tracked ino k hlive
    refine ⟨e, (htracks e).mpr ⟨he, ?_⟩, hino, hti'⟩
    rintro rfl
    exact hne (Option.some.inj hti').symm
  · intro ino k hk
    obtain ⟨hlive, hne⟩ := (hmem _ _).mp hk
    rw [hothers k hne, htop]
    exact h.number ino k hlive
  · intro b i hb
    obtain ⟨hne, hb⟩ := (tiis_evicted htiis).mp hb
    obtain ⟨k, hk, hzi, htrack', hmapped⟩ := h.info b i hb
    refine ⟨k, hk, hzi, (htracks _).mpr ⟨htrack', fun heq => hne ?_⟩, hmapped⟩
    exact Option.some.inj (congrArg InodeRef.tii heq)
  · intro e b he hb hne
    obtain ⟨he, hnot⟩ := (htracks e).mp he
    obtain ⟨i, hi, hino⟩ := h.used e b he hb hne
    refine ⟨i, (tiis_evicted htiis).mpr ⟨?_, hi⟩, hino⟩
    rintro rfl
    obtain rfl := Option.some.inj (hi.symm.trans ha)
    exact hnot (h.chained.eq_of_key he htrack hino.symm)
  · obtain ⟨l, e, b, hl, hino, htii⟩ := h.root
    rw [himap]
    by_cases hslot : slotOf rootIno = slotOf info.ino
    · -- what is found is not the last entry, that of the root inode
      refine ⟨l.eraseP (·.tii == some a), e, b, ?_, hino, htii⟩
      rw [hslot, Function.update_self]
      rw [← hslot, hl] at hfind ⊢
      rw [List.find?_append] at hfind
      rcases hf : l.find? (·.tii == some a) with _ | e'
      · rw [hf, Option.none_or] at hfind
        have heq : ⟨some a, some m, info.ino⟩ = e := by
          simpa using List.mem_of_find?_eq_some hfind
        exact absurd (by rw [← hino, ← heq]) hroot
      · exact List.eraseP_append_left (List.find?_some hf) [e] (List.mem_of_find?_eq_some hf)
    · exact ⟨l, e, b, by rw [Function.update_of_ne hslot, hl], hino, htii⟩

/-- **The inode stays**: its entry stays too, without an info. -/
theorem evict_linked (h : TableOk s live) (ha : s.tiis a = some info) (hroot : info.ino ≠ rootIno)
    (htop : s'.sTopIno = s.sTopIno)
    (himap : s'.imap = Function.update s.imap (slotOf info.ino)
      (setFirstTii info.ino none (s.imap (slotOf info.ino))))
    (htiis : ∀ b, s'.tiis b = if b = a then none else s.tiis b) (hinodes : s'.inodes = s.inodes) :
    TableOk s' live := by
  obtain ⟨m, -, -, htrack, -⟩ := h.info a info ha
  rw [setFirstTii_eq_map (h.chained.nodup _)] at himap
  obtain ⟨hchained, hholds⟩ :=
    h.chained.modify (k := info.ino) (f := fun e => { e with tii := none }) fun _ => rfl
  have htracks : ∀ e', s'.Tracks e' ↔
      ∃ e, s.Tracks e ∧ e' = if e.ino = info.ino then { e with tii := none } else e := by
    intro e'
    rw [Sbi.Tracks, himap]
    exact hholds e'
  have hkeep : ∀ e, s.Tracks e → e.ino ≠ info.ino → s'.Tracks e := fun e he hne =>
    (htracks e).mpr ⟨e, he, (if_neg hne).symm⟩
  refine ⟨by rw [himap]; exact hchained, ?_, ?_, ?_, ?_, ?_, ?_⟩
  · intro e' he'
    obtain ⟨e, he, rfl⟩ := (htracks e').mp he'
    split
    · exact h.entry e he
    · exact h.entry e he
  · intro ino k hk
    obtain ⟨e, he, hino, hti⟩ := h.tracked ino k hk
    refine ⟨_, (htracks _).mpr ⟨e, he, rfl⟩, ?_, ?_⟩
    · split
      · exact hino
      · exact hino
    · split
      · exact hti
      · exact hti
  · rw [hinodes, htop]
    exact h.number
  · intro b i hb
    obtain ⟨hne, hb⟩ := (tiis_evicted htiis).mp hb
    obtain ⟨k, hk, hzi, htrack', hmapped⟩ := h.info b i hb
    refine ⟨k, hk, hzi, hkeep _ htrack' fun heq => hne ?_, hmapped⟩
    exact Option.some.inj (congrArg InodeRef.tii (h.chained.eq_of_key htrack' htrack heq))
  · intro e' b he' hb hne
    obtain ⟨e, he, rfl⟩ := (htracks e').mp he'
    split at hb
    · cases hb
    · next hino =>
      rw [if_neg hino] at hne ⊢
      obtain ⟨i, hi, hieq⟩ := h.used e b he hb hne
      refine ⟨i, (tiis_evicted htiis).mpr ⟨?_, hi⟩, hieq⟩
      rintro rfl
      obtain rfl := Option.some.inj (hi.symm.trans ha)
      exact hino hieq.symm
  · obtain ⟨l, e, b, hl, hino, htii⟩ := h.root
    rw [himap]
    by_cases hslot : slotOf rootIno = slotOf info.ino
    · have hne : ¬ e.ino = info.ino := by
        rw [hino]
        exact Ne.symm hroot
      refine ⟨l.map fun e => if e.ino = info.ino then { e with tii := none } else e, e, b, ?_, hino,
        htii⟩
      rw [hslot, Function.update_self, ← hslot, hl, List.map_append, List.map_singleton, if_neg hne]
    · exact ⟨l, e, b, by rw [Function.update_of_ne hslot, hl], hino, htii⟩

/-- **The root inode stays**, and so does its entry, which leads to where its info was. -/
theorem evict_root (h : TableOk s live) (ha : s.tiis a = some info) (hroot : info.ino = rootIno)
    (htop : s'.sTopIno = s.sTopIno) (himap : s'.imap = s.imap)
    (htiis : ∀ b, s'.tiis b = if b = a then none else s.tiis b) (hinodes : s'.inodes = s.inodes) :
    TableOk s' live := by
  have htracks : s'.Tracks = s.Tracks := by
    funext e
    rw [Sbi.Tracks, himap, Sbi.Tracks]
  refine ⟨by rw [himap]; exact h.chained, ?_, ?_, ?_, ?_, ?_, by rw [himap]; exact h.root⟩
  · rw [htracks]
    exact h.entry
  · rw [htracks]
    exact h.tracked
  · rw [hinodes, htop]
    exact h.number
  · intro b i hb
    rw [htracks]
    exact h.info b i ((tiis_evicted htiis).mp hb).2
  · intro e b he hb hne
    rw [htracks] at he
    obtain ⟨i, hi, hino⟩ := h.used e b he hb hne
    refine ⟨i, (tiis_evicted htiis).mpr ⟨?_, hi⟩, hino⟩
    rintro rfl
    obtain rfl := Option.some.inj (hi.symm.trans ha)
    exact hne (hino.symm.trans hroot)

end TableOk

/-! ## Runs -/

/-- The requests the table stands: `toyfs_iget` of a live inode comes while an info of it is in
memory, and the inode of an info that is not mapped, that of the root, is not freed. -/
def Sys.KeepsTable (x : Sys) : Act → Prop
  | .iget ino addr => x.GetsBound addr ino
  | .evict a => (x.evicted a).isSome → ∀ info ∈ x.sbi.tiis a, info.mapped = true
  | _ => True

theorem TableOk.evict {x : Sys} (h : TableOk x.sbi x.live) (hinv : Inv held x.sbi)
    (hkeep : x.KeepsTable (.evict a)) (he : x.sbi.evict a = some s') :
    TableOk s' (x.liveAfter s' (.evict a)) := by
  obtain ⟨info, ha, ⟨hone, rfl⟩ | ⟨hone, n, s₂, hti, hs₂, hstep, htiis⟩⟩ := evict_cases he
  · have hnone : x.evicted a = none := Sys.evicted_of_ref_ne ha hone
    simp only [Sys.liveAfter, hnone]
    exact h.setTii ha rfl rfl rfl rfl
  · obtain ⟨htop, himap⟩ := evict_table hinv ha hone hti he
    have hinv₁ : Inv held (x.sbi.setTii a { info with ref := info.ref - 1 }) :=
      hinv.congr rfl rfl rfl
    have hevicted := Sys.evicted_of_last ha hone hti
    have hinfos : ∀ b, s'.tiis b = if b = a then none else x.sbi.tiis b := by
      intro b
      have hs₂tiis : s₂.tiis = (x.sbi.setTii a { info with ref := info.ref - 1 }).tiis := by
        rw [hs₂]
        split
        · exact tables_tiis (inodeStep_freeInode hinv₁).tables
        · rfl
      rw [htiis, hs₂tiis]
      obtain rfl | hne := eq_or_ne b a
      · simp
      · simp [hne, Sbi.setTii]
    obtain ⟨m, hm, -, -, hmapped⟩ := h.info a info ha
    by_cases hnlink : (x.sbi.inodes n).iNlink = 0
    · rw [if_pos hnlink] at hevicted hs₂
      have hmap : info.mapped = true := hkeep (by rw [hevicted]; rfl) info ha
      simp only [Sys.liveAfter, hevicted]
      rw [if_pos hmap, hnlink] at himap
      refine h.evict_freed ha hti (hmapped.mp hmap) htop himap hinfos fun k hk => ?_
      rw [hstep.inodes, hs₂, (inodeStep_freeInode hinv₁).others k hk]
      rfl
    · rw [if_neg hnlink] at hevicted hs₂
      have hinodes : s'.inodes = x.sbi.inodes := by
        rw [hstep.inodes, hs₂]
        rfl
      simp only [Sys.liveAfter, hevicted]
      rcases hmap : info.mapped with _ | _
      · have hroot : info.ino = rootIno := by
          by_contra hne
          rw [hmapped.mpr hne] at hmap
          cases hmap
        rw [hmap, if_neg Bool.false_ne_true] at himap
        exact h.evict_root ha hroot htop himap hinfos hinodes
      · rw [hmap, if_pos rfl, if_neg (by simpa using hnlink)] at himap
        exact h.evict_linked ha (hmapped.mp hmap) htop himap hinfos hinodes

theorem mounted_table {nblocks addr : ℕ} {x : Sys} (h : mounted nblocks addr = some x) :
    TableOk x.sbi x.live := by
  unfold mounted at h
  obtain ⟨⟨n, s⟩, hroot, rfl⟩ := Option.map_eq_some_iff.mp h
  unfold Sbi.newRootInode at hroot
  split at hroot
  · cases hroot
  · next a s₁ ha =>
    obtain ⟨-, rfl⟩ := Sbi.allocIi_some ha
    split at hroot
    · cases hroot
    · next r s₂ hr =>
      obtain ⟨p, hpop, rfl⟩ := Sbi.acquireInode_some hr
      obtain ⟨rfl, hs⟩ := Prod.mk.inj (Option.some.inj hroot)
      set new : InodeRef := ⟨some a, some r, rootIno⟩ with hnew
      have himap : s.imap = Function.update (fun _ => []) (slotOf rootIno) [new] := by
        rw [← hs]
        rfl
      have htop : s.sTopIno = rootIno + 1 := by
        rw [← hs]
        rfl
      have hself : (s.inodes r).iIno = rootIno := by
        rw [← hs]
        simp [Sbi.itableInsert, Sbi.setSlot, Sbi.setInode]
      have htiis : ∀ b i, s.tiis b = some i →
          b = a ∧ i = { ti := some r, zi := some r, ino := rootIno } := by
        intro b i hb
        rw [← hs] at hb
        obtain rfl | hne := eq_or_ne b a
        · refine ⟨rfl, ?_⟩
          simpa [Sbi.itableInsert, Sbi.setSlot, Sbi.setInode, Sbi.setTii, eq_comm] using hb
        · simp [Sbi.itableInsert, Sbi.setSlot, Sbi.setInode, Sbi.setTii, Sbi.setup, hne] at hb
      have hempty : Chained InodeRef.ino slotOf fun _ => ([] : List InodeRef) :=
        ⟨fun _ _ he => absurd he List.not_mem_nil, fun _ => List.nodup_nil⟩
      obtain ⟨hchained, hholds⟩ := hempty.insert (e := new)
        fun e' he' => absurd he' List.not_mem_nil
      have htracks : ∀ e, s.Tracks e ↔ e = new := by
        intro e
        rw [Sbi.Tracks, himap]
        exact (hholds e).trans (or_iff_left List.not_mem_nil)
      refine ⟨by rw [himap]; exact hchained, ?_, ?_, ?_, ?_, ?_, ⟨[], new, a, ?_, rfl, rfl⟩⟩
      · intro e he
        obtain rfl := (htracks e).mp he
        exact ⟨r, rfl, List.mem_singleton.mpr rfl⟩
      · intro ino m hm
        obtain ⟨rfl, rfl⟩ := Prod.mk.inj (List.mem_singleton.mp hm)
        exact ⟨new, (htracks new).mpr rfl, rfl, rfl⟩
      · intro ino m hm
        obtain ⟨rfl, rfl⟩ := Prod.mk.inj (List.mem_singleton.mp hm)
        rw [htop]
        exact ⟨hself, by decide, .inr (by decide)⟩
      · intro b i hb
        obtain ⟨rfl, rfl⟩ := htiis b i hb
        exact ⟨r, rfl, rfl, (htracks _).mpr rfl, by simp⟩
      · intro e b he hb hne
        obtain rfl := (htracks e).mp he
        exact absurd rfl hne
      · rw [himap, Function.update_self]
        rfl

/-- **One request that the table stands keeps it in order.** -/
theorem TableOk.next {x x' : Sys} {act : Act} (h : TableOk x.sbi x.live) (hinv : Inv held x.sbi)
    (hkeep : x.KeepsTable act) (hn : x.next apiMapMaxSize act = some x') :
    TableOk x'.sbi x'.live := by
  obtain ⟨hsend, hs, -, hlive⟩ := Sys.next_cases hn
  rw [hlive]
  rcases Sys.keepsIds hinv hsend hs with ⟨dir, ioc, addr, rfl⟩ | ⟨ino, addr, rfl⟩ | ⟨a, rfl⟩ |
    ⟨hids, hsame⟩
  · obtain hs' : (x.sbi.newInode dir ioc addr).2 = x'.sbi := Option.some.inj hs
    rcases hr : x.sbi.newInode dir ioc addr with ⟨res, s'⟩
    rw [hr] at hs'
    obtain rfl : s' = x'.sbi := hs'
    rcases newInode_cases hinv hsend.2.1 hr with ⟨rfl, hnot⟩ | ⟨a, n, rfl, haddr, hmade⟩
    · simp only [Sys.liveAfter, hr, Option.bind_none]
      exact h.notMade hsend.2.2 hnot
    · rw [Sys.liveAfter_newInode hr hmade]
      exact h.made hsend.2.2 (hsend.2.1 a haddr) hmade
  · have hs' : (x.sbi.iget ino addr).2 = x'.sbi := Option.some.inj hs
    rw [← hs']
    exact h.iget hkeep
  · exact h.evict hinv hkeep hs
  · rw [hsame]
    exact h.keeps hids

/-- The table is in order in a run whose requests it stands. -/
theorem toyfs_tableOk {x : Sys}
    (h : ((toyfs apiMapMaxSize).restrict fun x act => x.KeepsTable act).Reachable x) :
    TableOk x.sbi x.live := by
  refine (h.invariant (I := fun x => StoreOk x.sbi ∧ TableOk x.sbi x.live) ?_ ?_).2
  · rintro x ⟨nblocks, addr, -, hm⟩
    exact ⟨mounted_storeOk hm, mounted_table hm⟩
  · rintro x act x' ⟨hok, htable⟩ ⟨hkeep, hn⟩
    obtain ⟨hsend, hs, -, -⟩ := Sys.next_cases hn
    obtain ⟨held, hinv⟩ := hok.store
    exact ⟨hok.serve hsend hs, htable.next hinv hkeep hn⟩

/-- Once the root inode is freed its entry is still there. -/
theorem TableOk.root_freed {x x' : Sys} (h : TableOk x.sbi x.live) (hinv : Inv held x.sbi)
    (hn : x.next apiMapMaxSize (.evict a) = some x') (hlost : ¬ x.KeepsTable (.evict a))
    (addr : Option ℕ) : ¬ x'.IgetRight addr rootIno := by
  simp only [Sys.KeepsTable, Classical.not_imp, not_forall] at hlost
  obtain ⟨hfree, info, ha, hmap⟩ := hlost
  obtain ⟨-, hs, -, hlive⟩ := Sys.next_cases hn
  obtain ⟨n, -, -, htrack, hmapped⟩ := h.info a info ha
  obtain ⟨info', ha', ⟨hne, -⟩ | ⟨hone, m, s₂, hti, -⟩⟩ := evict_cases hs
  · obtain rfl := Option.some.inj (ha'.symm.trans ha)
    rw [Sys.evicted_of_ref_ne ha hne] at hfree
    cases hfree
  · obtain rfl := Option.some.inj (ha'.symm.trans ha)
    have hroot : info'.ino = rootIno := by
      by_contra hne
      exact hmap (hmapped.mpr hne)
    have hevicted := Sys.evicted_of_last ha hone hti
    rw [hevicted] at hfree
    split at hevicted
    · have himap := (evict_table hinv ha hone hti hs).2
      rw [if_neg hmap] at himap
      obtain ⟨r, c, hr, hrino, hrtii⟩ := h.root_entry
      have hfind : x'.sbi.itableFind rootIno = some r := by
        unfold Sbi.itableFind
        rw [himap]
        exact h.itableFind_eq_some_iff.mpr ⟨hr, hrino⟩
      have hgone : ∀ k, (rootIno, k) ∉ x'.live := by
        intro k hk
        rw [hlive] at hk
        simp only [Sys.liveAfter, hevicted, List.mem_filter] at hk
        obtain ⟨e, he, hino, hek⟩ := h.tracked rootIno k hk.1
        obtain ⟨j, hj, -, htrack', -⟩ := h.info a info' ha
        obtain rfl := Option.some.inj (hj.symm.trans hti)
        rw [h.chained.eq_of_key he htrack' (hino.trans hroot.symm)] at hek
        obtain rfl := Option.some.inj hek
        simp at hk
      intro hright
      have henoent := hright.1 hgone
      unfold Sbi.iget at henoent
      rw [hfind] at henoent
      simp only [hrtii] at henoent
      split at henoent <;> cases henoent
    · next hnlink =>
      rw [if_neg hnlink] at hfree
      cases hfree

/-- **`toyfs_iget` is right** in every run whose requests the table stands, just when the
request is one of these; and an eviction that is none makes it wrong. -/
theorem iget_right_iff (apiMapMaxSize : ℕ) (x : Sys)
    (h : ((toyfs apiMapMaxSize).restrict fun x act => x.KeepsTable act).Reachable x) :
    (∀ ino addr, x.IgetRight addr ino ↔ x.KeepsTable (.iget ino addr)) ∧
    ∀ a x', x.next apiMapMaxSize (.evict a) = some x' → ¬ x.KeepsTable (.evict a) →
      ∀ addr, ¬ x'.IgetRight addr rootIno := by
  have htable := toyfs_tableOk h
  obtain ⟨held, hinv⟩ := (toyfs_storeOk h.of_restrict).store
  exact ⟨fun ino addr => htable.igetRight_iff,
    fun a x' hn hlost addr => htable.root_freed hinv hn hlost addr⟩

/-- One file is linked and its info evicted, another one is in memory. -/
theorem iget_right_iff_two : ∃ x,
    ((toyfs 65536).restrict fun x act => x.KeepsTable act).Reachable x ∧
      x.IgetRight (some 9) 3 ∧ ¬ x.IgetRight (some 9) 2 := by
  obtain ⟨x, hx, hp⟩ := exists_restrict_of_mounted 65536
    (fun x act => (match act with
      | .newInode .. => true
      | .addDentry .. => true
      | .evict a => (x.evicted a).isNone
      | _ => false) = true)
    [.newInode ⟨1023, 0⟩ ⟨.reg, 0, 0, [], fun _ => 0, false⟩ (some 2),
      .newInode ⟨1023, 0⟩ ⟨.reg, 0, 0, [], fun _ => 0, false⟩ (some 3),
      .addDentry ⟨1023, 0⟩ ⟨1023, 1⟩ [97], .evict 2]
    (p := fun x => x.live == [(3, ⟨1023, 2⟩), (2, ⟨1023, 1⟩), (1, ⟨1023, 0⟩)] &&
      (x.sbi.tiis 3).any (fun info => info.ti == some ⟨1023, 2⟩) &&
      (x.sbi.itableFind 2).any (fun e => e.tii == none) && (x.sbi.allocIi (some 9)).isSome)
    (by decide +kernel)
  have hx' : ((toyfs 65536).restrict fun x act => x.KeepsTable act).Reachable x := by
    refine hx.restrict_mono fun y act hact => ?_
    cases act with
    | iget ino addr => cases hact
    | evict a => exact fun hsome => by simp [Option.isNone_iff_eq_none.mp hact] at hsome
    | _ => trivial
  simp only [Bool.and_eq_true, beq_iff_eq, Option.any_eq_true] at hp
  obtain ⟨⟨⟨hlive, info, hinfo, hti⟩, e, he, htii⟩, halloc⟩ := hp
  have htable := toyfs_tableOk hx'
  obtain ⟨hright, -⟩ := iget_right_iff 65536 x hx'
  refine ⟨x, hx', (hright 3 (some 9)).mpr fun n hn => .inl ⟨3, info, hinfo, ?_⟩,
    fun hget => ?_⟩
  · rw [hlive] at hn
    obtain rfl : n = ⟨1023, 2⟩ := by simpa using hn
    exact hti
  · obtain ⟨he, hino⟩ := htable.itableFind_eq_some_iff.mp he
    obtain ⟨n, hn, hmem⟩ := htable.entry e he
    rw [hino] at hmem
    rcases (hright 2 (some 9)).mp hget n hmem with ⟨a, i, hi, hbound⟩ | ⟨-, hnone⟩
    · obtain ⟨hsome, -⟩ := htable.entry_of_inMemory he hn hi hbound
      rw [htii] at hsome
      cases hsome
    · rw [hnone] at halloc
      cases halloc

/-- The info a file that is linked and was evicted comes back with is that of no file. -/
theorem iget_unbound : ¬ ∀ x, (toyfs 65536).Reachable x → ∀ ino addr, x.FreshAddr addr →
    x.IgetRight addr ino := by
  intro hall
  obtain ⟨x, hx, hp⟩ := exists_reachable_of_mounted 65536
    [.newInode ⟨1023, 0⟩ ⟨.reg, 0, 0, [], fun _ => 0, false⟩ (some 2),
      .addDentry ⟨1023, 0⟩ ⟨1023, 1⟩ [97], .evict 2]
    (p := fun x => decide (x.FreshAddr (some 3)) && match x.sbi.iget 2 (some 3) with
      | (.ok a, s) => (s.tiis a).any (fun info => info.ino != 2)
      | _ => false) (by decide +kernel)
  simp only [Bool.and_eq_true, decide_eq_true_eq] at hp
  obtain ⟨hfresh, hp⟩ := hp
  obtain ⟨-, -, hbound⟩ := hall x hx 2 (some 3) hfresh
  rcases hr : x.sbi.iget 2 (some 3) with ⟨err | a, s⟩
  · simp [hr] at hp
  · rw [hr] at hp hbound
    obtain ⟨n, info, -, hinfo, hino, -⟩ := hbound a rfl
    simp only [Option.any_eq_true] at hp
    obtain ⟨i, hi, hne⟩ := hp
    obtain rfl := Option.some.inj (hi.symm.trans hinfo)
    simp [hino] at hne

end Zus.Toyfs
