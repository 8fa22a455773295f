import Mathlib.Data.List.Nodup
import Zus.Toyfs.Xattr

/-!
# Extended attributes as a finite map

What `toyfs_getxattr` returns should be what the last successful `toyfs_setxattr` stored.
The specification is a map from names to values, updated by every call that succeeds.

The step of the walk, `_next_of`, leaves out the three bytes of the header. It lands on the last
three bytes of the entry and takes them for the next header. Where it goes from there depends on
these bytes: it stops on them when the last one is zero, and a value appended then is written over
them; or it steps on, to a place inside the page or behind it. `storable` says where the walk of a
call may land: behind all bytes of the attributes that are there, with room for the entry, and from
the new entry on at no header with a name.
-/

namespace Zus.Toyfs

open Zus.Lib Xattr

/-! ## Runs of calls -/

/-- The page of an inode with what it should hold. -/
structure XattrRun where
  pg : Bytes
  /-- the value last set for each name and not removed since -/
  spec : List UInt8 → Option (List UInt8)
  /-- a call has read or written outside the page -/
  faulted : Bool

/-- A zeroed page. -/
def XattrRun.start : XattrRun := ⟨fun _ => 0, fun _ => none, false⟩

/-- The map after a call that returned `res`. -/
def specAfter (spec : List UInt8 → Option (List UInt8)) (ioc : IocXattr) :
    Except Errno Unit → List UInt8 → Option (List UInt8)
  | .error _ => spec
  | .ok () => Function.update spec ioc.name ioc.value

/-- One `toyfs_setxattr` with a name the kernel can pass. -/
def XattrRun.next (x : XattrRun) (ioc : IocXattr) : Option XattrRun :=
  if IocXattr.ValidName ioc.name then
    match setxattrPage x.pg xeEnd ioc with
    | none => some { x with faulted := true }
    | some (res, pg) => some { x with pg := pg, spec := specAfter x.spec ioc res }
  else none

/-- The runs of `toyfs_setxattr` on one page. -/
def xattrRuns : Lts XattrRun IocXattr := .ofNext (· = .start) XattrRun.next

/-- The page answers as the map does, and no call has left it. -/
def XattrRun.Refines (x : XattrRun) : Prop :=
  x.faulted = false ∧ ∀ name, IocXattr.ValidName name → ∀ size, 0 < size →
    (∀ value, x.spec name = some value → value.length ≤ size →
      doGetxattr x.pg xeEnd name size = some (.ok value)) ∧
    (x.spec name = none → doGetxattr x.pg xeEnd name size = some (.error .enodata))

/-! ## Where the walk lands -/

/-- The name of an entry. -/
def entryName (pg : Bytes) (xe : ℕ) : List UInt8 := pg.slice (xe + xeData) (nameLen pg xe)

/-- The value of an entry. -/
def entryValue (pg : Bytes) (xe : ℕ) : List UInt8 :=
  pg.slice (xe + xeData + nameLen pg xe) (valueSize pg xe)

/-- From `xe` on the walk stays in the page and meets no name: what it takes for one has a NUL. -/
def quietFrom (pg : Bytes) (xe : ℕ) : Bool :=
  if xe < xeEnd then
    if xeEnd ≤ xe + 2 then false
    else if nameLen pg xe = 0 then true
    else if xe + xeData + nameLen pg xe ≤ xeEnd ∧ 0 ∈ entryName pg xe then
      quietFrom pg (nextOf pg xe)
    else false
  else true
termination_by xeEnd - xe
decreasing_by
  have := lt_nextOf ‹_›
  omega

/-- From `xe` the walk gets to `p`, over entries that end before `p` and over headers before `p`
that have a NUL in their name, now and on the page `pg'`. -/
def clearTo (pg pg' : Bytes) (p xe : ℕ) : Bool :=
  if xe = p then true
  else if nameLen pg xe = 0 then false
  else if xe < xeEnd ∧ xe + xeData ≤ p ∧
      (xe + xeData + nameLen pg xe + valueSize pg xe ≤ p ∨
        0 ∈ entryName pg xe ∧ 0 ∈ entryName pg' xe) then
    clearTo pg pg' p (nextOf pg xe)
  else false
termination_by xeEnd - xe
decreasing_by
  have := lt_nextOf ‹_›
  omega

/-- The walk over the page lands where there is room for the entry, behind all attributes, and from
the entry on it meets no name. -/
def landsWell (pg : Bytes) (name value : List UInt8) : Bool :=
  match endFrom pg xeEnd 0 with
  | none => false
  | some p =>
    p + xeData + name.length + value.length ≤ xeEnd &&
      clearTo pg (writeEntry pg p name value) p 0 &&
      quietFrom (writeEntry pg p name value) (p + name.length + value.length)

/-- The walk lands where there is no room for the entry. -/
def landsFull (pg : Bytes) (name value : List UInt8) : Bool :=
  match endFrom pg xeEnd 0 with
  | none => false
  | some p => nbytesDistance p xeEnd < name.length + value.length

/-- The entry at `xe` stands behind all attributes before it, and where the walk ended behind the
page, it meets no name in what is left at the end of the page once the entry is taken out. -/
def leavesWell (pg : Bytes) (xe : ℕ) : Bool :=
  match discardXattr pg xeEnd xe, endFrom pg xeEnd (nextOf pg xe) with
  | some pg', some last =>
    clearTo pg pg' xe 0 && (last < xeEnd || quietFrom pg' (last - (nextOf pg xe - xe)))
  | _, _ => false

/-- The calls whose walks stay in the page and land well: a call that its flags reject; a removal of
a name that is not there, or whose entry leaves well; a new name, when its entry lands well or finds
no room; and a new value, when the old entry leaves well and the new one lands well on what is
left. -/
def storable (pg : Bytes) (ioc : IocXattr) : Bool :=
  match ioc.value, findXe pg xeEnd ioc.name with
  | none, some (some xe) => leavesWell pg xe
  | some value, some none =>
    ioc.replace || landsFull pg ioc.name value || landsWell pg ioc.name value
  | some value, some (some xe) =>
    ioc.create || leavesWell pg xe &&
      (discardXattr pg xeEnd xe).any fun pg' => landsWell pg' ioc.name value
  | none, some none => true
  | _, none => false

/-! ## What the walk meets -/

/-- From `xe` on the walk stays in the page and meets the attributes `l`, in this order; any other
header it meets has a NUL in its name. -/
inductive Meets (pg : Bytes) : ℕ → List (List UInt8 × List UInt8) → Prop
  /-- the end of the page -/
  | last {xe : ℕ} : xeEnd ≤ xe → Meets pg xe []
  /-- a header without data -/
  | stop {xe : ℕ} : xe + 2 < xeEnd → nameLen pg xe = 0 → Meets pg xe []
  | skip {xe : ℕ} {l : List (List UInt8 × List UInt8)} : nameLen pg xe ≠ 0 →
      xe + xeData + nameLen pg xe ≤ xeEnd → 0 ∈ entryName pg xe → Meets pg (nextOf pg xe) l →
      Meets pg xe l
  | attr {xe : ℕ} {l : List (List UInt8 × List UInt8)} : nameLen pg xe ≠ 0 →
      xe + xeData + nameLen pg xe + valueSize pg xe ≤ xeEnd → 0 ∉ entryName pg xe →
      Meets pg (nextOf pg xe) l → Meets pg xe ((entryName pg xe, entryValue pg xe) :: l)

variable {pg pg' : Bytes} {xe p d : ℕ} {name value : List UInt8}
  {l l' : List (List UInt8 × List UInt8)}

@[simp] theorem length_entryName : (entryName pg xe).length = nameLen pg xe := by
  simp [entryName]

@[simp] theorem length_entryValue : (entryValue pg xe).length = valueSize pg xe := by
  simp [entryValue]

/-- `_has_name` on an entry inside the memory that may be touched. -/
theorem hasName_eq {lim : ℕ} (hin : xe + xeData + nameLen pg xe ≤ lim) :
    hasName pg lim xe name = some (entryName pg xe == name) := by
  rw [hasName]
  split_ifs with hlen hroom
  · have hne : entryName pg xe ≠ name := by
      rintro rfl
      exact hlen length_entryName.symm
    rw [beq_eq_false_iff_ne.mpr hne]
  · rw [not_not] at hlen
    rw [entryName, hlen]
  · rw [not_not] at hlen
    exact absurd (hlen ▸ hin) hroom

theorem quietFrom_meets (h : quietFrom pg xe = true) : Meets pg xe [] := by
  induction xe using quietFrom.induct pg with
  | case1 xe hlt hin =>
    rw [quietFrom, if_pos hlt, if_pos hin] at h
    cases h
  | case2 xe hlt hin hzero => exact .stop (Nat.lt_of_not_le hin) hzero
  | case3 xe hlt hin hlen hname ih =>
    rw [quietFrom, if_pos hlt, if_neg hin, if_neg hlen, if_pos hname] at h
    exact .skip hlen hname.1 hname.2 (ih h)
  | case4 xe hlt hin hlen hname =>
    rw [quietFrom, if_pos hlt, if_neg hin, if_neg hlen, if_neg hname] at h
    cases h
  | case5 xe hlt => exact .last (Nat.not_lt.mp hlt)

/-- `_find_xe` finds the attribute of the name, if the walk meets one. -/
theorem Meets.find (h : Meets pg xe l) (hname : 0 ∉ name) :
    (l.lookup name = none ∧ findXeFrom pg xeEnd name xe = some none) ∨
      ∃ x, findXeFrom pg xeEnd name xe = some (some x) ∧ l.lookup name = some (entryValue pg x) ∧
        entryName pg x = name ∧ x + xeData + nameLen pg x + valueSize pg x ≤ xeEnd := by
  induction h with
  | last hend =>
    rw [findXeFrom, if_neg (Nat.not_lt.mpr hend)]
    exact .inl ⟨rfl, rfl⟩
  | @stop xe hin hzero =>
    rw [findXeFrom, if_pos (by omega), if_neg (by omega), if_pos hzero]
    exact .inl ⟨rfl, rfl⟩
  | @skip xe l hlen hin hnul _ ih =>
    have hin' := hin
    simp only [xeData] at hin'
    have hne : entryName pg xe ≠ name := fun heq => hname (heq ▸ hnul)
    rw [findXeFrom, if_pos (by omega), if_neg (by omega), if_neg hlen, hasName_eq hin,
      beq_eq_false_iff_ne.mpr hne]
    exact ih
  | @attr xe l hlen hin hnul _ ih =>
    have hin' := hin
    simp only [xeData] at hin'
    rw [findXeFrom, if_pos (by omega), if_neg (by omega), if_neg hlen,
      hasName_eq (by omega)]
    by_cases heq : entryName pg xe = name
    · rw [beq_iff_eq.mpr heq]
      exact .inr ⟨xe, rfl, by rw [List.lookup_cons, beq_iff_eq.mpr heq.symm], heq, hin⟩
    · rw [beq_eq_false_iff_ne.mpr heq, List.lookup_cons, beq_eq_false_iff_ne.mpr (Ne.symm heq)]
      exact ih

/-- Every name that is met is one. -/
theorem Meets.name_of_mem (h : Meets pg xe l) : ∀ a ∈ l, 0 ∉ a.1 := by
  induction h with
  | last | stop => exact fun a ha => by cases ha
  | skip _ _ _ _ ih => exact ih
  | attr _ _ hnul _ ih =>
    intro a ha
    rcases List.mem_cons.mp ha with rfl | ha
    · exact hnul
    · exact ih a ha

/-- Where the walk of `_append_xattr` ends there is nothing. -/
theorem endFrom_some {lim : ℕ} (h : endFrom pg lim xe = some p) :
    xeEnd ≤ p ∨ nameLen pg p = 0 := by
  induction xe using endFrom.induct pg lim with
  | case1 xe hlt hin =>
    rw [endFrom, if_pos hlt, if_pos hin] at h
    cases h
  | case2 xe hlt hin hzero =>
    rw [endFrom, if_pos hlt, if_neg hin, if_pos hzero] at h
    obtain rfl := Option.some.inj h
    exact .inr hzero
  | case3 xe hlt hin hlen ih =>
    rw [endFrom, if_pos hlt, if_neg hin, if_neg hlen] at h
    exact ih h
  | case4 xe hlt =>
    rw [endFrom, if_neg hlt] at h
    obtain rfl := Option.some.inj h
    exact .inl (Nat.not_lt.mp hlt)

theorem Meets.eq_nil (h : Meets pg p l) (hp : xeEnd ≤ p ∨ nameLen pg p = 0) : l = [] := by
  cases h with
  | last | stop => rfl
  | skip hlen hin =>
    rcases hp with hp | hp
    · simp only [xeData] at hin
      omega
    · exact absurd hp hlen
  | attr hlen hin =>
    rcases hp with hp | hp
    · simp only [xeData] at hin
      omega
    · exact absurd hp hlen

/-! ## What a change of the page leaves -/

/-- Two pages with the same bytes up to the end of an entry have the same entry. -/
theorem entry_congr (hsame : ∀ i < p, pg' i = pg i) (hhead : xe + xeData ≤ p) :
    nameLen pg' xe = nameLen pg xe ∧ valueSize pg' xe = valueSize pg xe ∧
      nextOf pg' xe = nextOf pg xe := by
  simp only [xeData] at hhead
  have hlen : nameLen pg' xe = nameLen pg xe := by rw [nameLen, nameLen, hsame _ (by omega)]
  have hsize : valueSize pg' xe = valueSize pg xe := by
    rw [valueSize, valueSize, hsame _ (by omega), hsame _ (by omega)]
  exact ⟨hlen, hsize, by rw [nextOf, nextOf, hlen, hsize]⟩

/-- An entry that ends before `p` has its name and its value on any page that is the same up to
`p`. -/
theorem entry_congr_all (hsame : ∀ i < p, pg' i = pg i)
    (hin : xe + xeData + nameLen pg xe + valueSize pg xe ≤ p) :
    entryName pg' xe = entryName pg xe ∧ entryValue pg' xe = entryValue pg xe := by
  obtain ⟨hlen, hsize, -⟩ := entry_congr hsame (by omega : xe + xeData ≤ p)
  refine ⟨?_, ?_⟩
  · rw [entryName, entryName, hlen]
    exact Bytes.slice_congr fun i hi => hsame _ (by omega)
  · rw [entryValue, entryValue, hlen, hsize]
    exact Bytes.slice_congr fun i hi => hsame _ (by omega)

/-- What stands clear of `p` is met on any page that is the same up to `p`. -/
theorem Meets.transfer (h : Meets pg xe l) (hclear : clearTo pg pg' p xe = true)
    (hsame : ∀ i < p, pg' i = pg i) :
    ∃ l₁ l₂, l = l₁ ++ l₂ ∧ Meets pg p l₂ ∧ ∀ l', Meets pg' p l' → Meets pg' xe (l₁ ++ l') := by
  induction xe using clearTo.induct pg pg' p generalizing l with
  | case1 => exact ⟨[], l, rfl, h, fun _ h' => h'⟩
  | case2 xe hp hzero =>
    rw [clearTo, if_neg hp, if_pos hzero] at hclear
    cases hclear
  | case3 xe hp hzero hcond ih =>
    rw [clearTo, if_neg hp, if_neg hzero, if_pos hcond] at hclear
    obtain ⟨hlt, hhead, hbytes⟩ := hcond
    obtain ⟨hlen', hsize', hnext⟩ := entry_congr hsame hhead
    cases h with
    | last hend => exact absurd hlt (Nat.not_lt.mpr hend)
    | stop _ h0 => exact absurd h0 hzero
    | skip hlen hin hnul h =>
      obtain ⟨l₁, l₂, hl, hp₂, htail⟩ := ih h hclear
      have hnul' : 0 ∈ entryName pg' xe := by
        rcases hbytes with hbytes | ⟨-, hnul'⟩
        · rwa [(entry_congr_all hsame hbytes).1]
        · exact hnul'
      refine ⟨l₁, l₂, hl, hp₂, fun l' h' => .skip (hlen'.symm ▸ hlen) ?_ hnul' ?_⟩
      · rwa [hlen']
      · rw [hnext]
        exact htail l' h'
    | @attr _ l hlen hin hnul h =>
      obtain ⟨l₁, l₂, hl, hp₂, htail⟩ := ih h hclear
      have hbytes' := hbytes.resolve_right fun hb => hnul hb.1
      obtain ⟨hname', hvalue'⟩ := entry_congr_all hsame hbytes'
      refine ⟨(entryName pg xe, entryValue pg xe) :: l₁, l₂, by rw [hl]; rfl, hp₂, fun l' h' => ?_⟩
      rw [List.cons_append, ← hname', ← hvalue']
      refine .attr (hlen'.symm ▸ hlen) ?_ (hname'.symm ▸ hnul) ?_
      · rwa [hlen', hsize']
      · rw [hnext]
        exact htail l' h'
  | case4 xe hp hzero hcond =>
    rw [clearTo, if_neg hp, if_neg hzero, if_neg hcond] at hclear
    cases hclear

/-- The header of an entry that moves down by `d`. -/
theorem header_shift (hp : p ≤ xe) (hmove : ∀ i, p ≤ i → i + d < xeEnd → pg' i = pg (i + d))
    (hin : xe + d + xeData ≤ xeEnd) :
    nameLen pg' xe = nameLen pg (xe + d) ∧ valueSize pg' xe = valueSize pg (xe + d) ∧
      nextOf pg (xe + d) = nextOf pg' xe + d := by
  simp only [xeData] at hin
  have hbyte : ∀ j < 3, pg' (xe + j) = pg (xe + d + j) := by
    intro j hj
    rw [hmove _ (by omega) (by omega), Nat.add_right_comm]
  have hlen : nameLen pg' xe = nameLen pg (xe + d) := by
    rw [nameLen, nameLen, hbyte 2 (by omega)]
  have hsize : valueSize pg' xe = valueSize pg (xe + d) := by
    have h0 : pg' xe = pg (xe + d) := hbyte 0 (by omega)
    rw [valueSize, valueSize, h0, hbyte 1 (by omega)]
  refine ⟨hlen, hsize, ?_⟩
  rw [nextOf, nextOf, hlen, hsize]
  omega

/-- Bytes that move down by `d`. -/
theorem slice_shift {off len : ℕ} (hp : p ≤ off)
    (hmove : ∀ i, p ≤ i → i + d < xeEnd → pg' i = pg (i + d)) (hin : off + d + len ≤ xeEnd) :
    pg'.slice off len = pg.slice (off + d) len := by
  refine List.map_congr_left fun i hi => ?_
  rw [List.mem_range] at hi
  rw [hmove _ (by omega) (by omega), Nat.add_right_comm]

theorem entryName_shift (hp : p ≤ xe) (hmove : ∀ i, p ≤ i → i + d < xeEnd → pg' i = pg (i + d))
    (hin : xe + d + xeData + nameLen pg (xe + d) ≤ xeEnd) :
    entryName pg' xe = entryName pg (xe + d) := by
  obtain ⟨hlen, -⟩ := header_shift hp hmove (by omega)
  rw [entryName, entryName, hlen, slice_shift (by omega) hmove (by omega), Nat.add_right_comm]

theorem entryValue_shift (hp : p ≤ xe) (hmove : ∀ i, p ≤ i → i + d < xeEnd → pg' i = pg (i + d))
    (hin : xe + d + xeData + nameLen pg (xe + d) + valueSize pg (xe + d) ≤ xeEnd) :
    entryValue pg' xe = entryValue pg (xe + d) := by
  obtain ⟨hlen, hsize, -⟩ := header_shift hp hmove (by omega)
  rw [entryValue, entryValue, hlen, hsize, slice_shift (by omega) hmove (by omega)]
  congr 1
  omega

/-- What is met behind an entry is met `d` bytes lower once `d` bytes are taken out before it. -/
theorem Meets.shift {q last : ℕ} (h : Meets pg q l) (hq : q = xe + d) (hp : p ≤ xe)
    (hmove : ∀ i, p ≤ i → i + d < xeEnd → pg' i = pg (i + d)) (hlast : endFrom pg xeEnd q = some last)
    (htail : last < xeEnd ∨ quietFrom pg' (last - d) = true) : Meets pg' xe l := by
  induction h generalizing xe with
  | last hend =>
    rw [endFrom, if_neg (Nat.not_lt.mpr hend)] at hlast
    obtain rfl := Option.some.inj hlast
    have hquiet := htail.resolve_left (Nat.not_lt.mpr hend)
    rw [hq, Nat.add_sub_cancel] at hquiet
    exact quietFrom_meets hquiet
  | stop hin hzero =>
    subst hq
    refine .stop (by omega) ?_
    rw [nameLen, hmove _ (by omega) (by omega), show xe + 2 + d = xe + d + 2 by omega]
    exact hzero
  | @skip q l hlen hin hnul _ ih =>
    subst hq
    simp only [xeData] at hin
    rw [endFrom, if_pos (by omega), if_neg (by omega), if_neg hlen] at hlast
    obtain ⟨hlen', -, hnext'⟩ := header_shift hp hmove (by unfold xeData; omega)
    refine .skip (hlen'.symm ▸ hlen) (by unfold xeData; omega) ?_ (ih hnext' ?_ hlast)
    · rw [entryName_shift hp hmove (by unfold xeData; omega)]
      exact hnul
    · have := lt_nextOf (hlen'.symm ▸ hlen)
      omega
  | @attr q l hlen hin hnul _ ih =>
    subst hq
    simp only [xeData] at hin
    rw [endFrom, if_pos (by omega), if_neg (by omega), if_neg hlen] at hlast
    obtain ⟨hlen', hsize', hnext'⟩ := header_shift hp hmove (by unfold xeData; omega)
    have hname' := entryName_shift hp hmove (by unfold xeData; omega)
    rw [← hname', ← entryValue_shift hp hmove (by unfold xeData; omega)]
    refine .attr (hlen'.symm ▸ hlen) (by unfold xeData; omega) ?_ (ih hnext' ?_ hlast)
    · rw [hname']
      exact hnul
    · have := lt_nextOf (hlen'.symm ▸ hlen)
      omega

/-! ## The stores -/

/-- What `_discard_xattr` stores: the bytes behind the entry, up to the end of the page. -/
theorem discardXattr_eq (h : discardXattr pg xeEnd xe = some pg') (hlen : nameLen pg xe ≠ 0) :
    (∀ i < xe, pg' i = pg i) ∧
      ∀ i, xe ≤ i → i + (nextOf pg xe - xe) < xeEnd → pg' i = pg (i + (nextOf pg xe - xe)) := by
  have hlt := lt_nextOf hlen
  simp only [discardXattr] at h
  split at h
  case isFalse => cases h
  next hin =>
    obtain rfl := Option.some.inj h
    have hdist : nbytesDistance (nextOf pg xe) xeEnd = xeEnd - nextOf pg xe := by
      rw [nbytesDistance] at hin ⊢
      unfold xeEnd at hin ⊢
      omega
    refine ⟨fun i hi => Bytes.store_of_lt _ _ hi, fun i hi hmove => ?_⟩
    rw [hdist, Bytes.store_of_mem _ _ hi (by omega)]
    congr 1
    omega

/-- What `_append_xattr` stores reads back. -/
theorem writeEntry_reads (hn : name.length ≤ 255) (hv : value.length < 2 ^ 16) :
    nameLen (writeEntry pg p name value) p = name.length ∧
      valueSize (writeEntry pg p name value) p = value.length ∧
      entryName (writeEntry pg p name value) p = name ∧
      entryValue (writeEntry pg p name value) p = value := by
  have hle : (leBytes 2 value.length).length = 2 := length_leBytes 2 _
  have hdata : xeData = 3 := rfl
  have hlen : nameLen (writeEntry pg p name value) p = name.length := by
    rw [nameLen, writeEntry, Bytes.store_of_ge _ _ (le_refl _),
      Bytes.store_of_mem _ _ (le_refl _) (by omega), UInt8.toNat_ofNat']
    exact Nat.mod_eq_of_lt (by omega)
  have hsize : valueSize (writeEntry pg p name value) p = value.length := by
    have hread : ∀ m : Bytes, (m.store p 2 (.ofList (leBytes 2 value.length))).slice p 2 =
        leBytes 2 value.length := by
      intro m
      have := @Bytes.slice_store_ofList m p (leBytes 2 value.length)
      rwa [hle] at this
    have hnat : ∀ m : Bytes, valueSize m p = leNat (m.slice p 2) := by
      intro m
      simp [valueSize, Bytes.slice, leNat, List.range_succ]
    rw [hnat, writeEntry, hread]
    exact leNat_leBytes (by norm_num; omega)
  refine ⟨hlen, hsize, ?_, ?_⟩
  · rw [entryName, hlen, writeEntry, Bytes.slice_store_of_disjoint _ _ (.inr (by omega)),
      Bytes.slice_store_of_disjoint _ _ (.inr (by omega)),
      Bytes.slice_store_of_disjoint _ _ (.inl (by omega)), Bytes.slice_store_ofList]
  · rw [entryValue, hlen, hsize, writeEntry, Bytes.slice_store_of_disjoint _ _ (.inr (by omega)),
      Bytes.slice_store_of_disjoint _ _ (.inr (by omega)), Bytes.slice_store_ofList]

theorem writeEntry_of_lt {i : ℕ} (hi : i < p) : writeEntry pg p name value i = pg i := by
  have hdata : xeData = 3 := rfl
  rw [writeEntry, Bytes.store_of_lt _ _ (by omega), Bytes.store_of_lt _ _ (by omega),
    Bytes.store_of_lt _ _ (by omega), Bytes.store_of_lt _ _ (by omega)]

/-! ## The invariant -/

/-- The walk over the page meets the attributes of the map, each once. -/
def Agrees (pg : Bytes) (spec : List UInt8 → Option (List UInt8)) : Prop :=
  ∃ l, Meets pg 0 l ∧ (l.map Prod.fst).Nodup ∧ spec = fun name => l.lookup name

variable {spec : List UInt8 → Option (List UInt8)}

theorem lookup_none_iff : l.lookup name = none ↔ name ∉ l.map Prod.fst := by
  rw [List.lookup_eq_none_iff]
  simp only [List.mem_map, bne_iff_ne]
  exact ⟨fun h ⟨a, ha, heq⟩ => h a ha heq.symm, fun h a ha heq => h ⟨a, ha, heq.symm⟩⟩

/-- A new attribute behind the others is what the map gains. -/
theorem lookup_append_new (hnew : l.lookup name = none) :
    (fun n => (l ++ [(name, value)]).lookup n) =
      Function.update (fun n => l.lookup n) name (some value) := by
  funext n
  rw [List.lookup_append, List.lookup_singleton]
  by_cases hn : n = name
  · rw [hn, Function.update_self, hnew, beq_self_eq_true, if_pos rfl, Option.none_or]
  · rw [Function.update_of_ne hn, if_neg (by rwa [beq_iff_eq]), Option.or_none]

/-- An attribute taken out of a list without another one of its name is what the map loses. -/
theorem lookup_remove (hnodup : ((l ++ (name, value) :: l').map Prod.fst).Nodup) :
    (fun n => (l ++ l').lookup n) =
      Function.update (fun n => (l ++ (name, value) :: l').lookup n) name none := by
  rw [List.map_append, List.map_cons, List.nodup_middle, List.nodup_cons, List.mem_append,
    not_or] at hnodup
  funext n
  by_cases hn : n = name
  · rw [hn, Function.update_self, lookup_none_iff, List.map_append]
    exact List.mem_append.not.mpr (not_or.mpr hnodup.1)
  · rw [Function.update_of_ne hn, List.lookup_append, List.lookup_append, List.lookup_cons,
      beq_eq_false_iff_ne.mpr hn]

/-- `_find_xe` answers from the map. -/
theorem findXe_agrees (h : Agrees pg spec) (hname : 0 ∉ name) :
    (spec name = none ∧ findXe pg xeEnd name = some none) ∨
      ∃ xe, findXe pg xeEnd name = some (some xe) ∧ spec name = some (entryValue pg xe) ∧
        entryName pg xe = name ∧ xe + xeData + nameLen pg xe + valueSize pg xe ≤ xeEnd := by
  obtain ⟨l, hl, -, rfl⟩ := h
  exact hl.find hname

/-- A removal that leaves well takes the attribute out of the map. -/
theorem Agrees.remove (h : Agrees pg spec) (hname : 0 ∉ name) (hlen : nameLen pg xe ≠ 0)
    (hentry : entryName pg xe = name) (hlt : xe < xeEnd) (hpg' : discardXattr pg xeEnd xe = some pg')
    (hleaves : leavesWell pg xe = true) : Agrees pg' (Function.update spec name none) := by
  obtain ⟨l, hl, hnodup, rfl⟩ := h
  obtain ⟨hsame, hmove⟩ := discardXattr_eq hpg' hlen
  rw [leavesWell, hpg'] at hleaves
  rcases hlast : endFrom pg xeEnd (nextOf pg xe) with _ | last
  · rw [hlast] at hleaves
    cases hleaves
  simp only [hlast, Bool.and_eq_true, Bool.or_eq_true, decide_eq_true_eq] at hleaves
  obtain ⟨hclear, htail⟩ := hleaves
  obtain ⟨l₁, l₂, rfl, h₂, hbefore⟩ := hl.transfer hclear hsame
  -- the walk meets the entry at `xe`, and then the attributes behind it
  obtain ⟨l₃, rfl, h₃⟩ : ∃ l₃, l₂ = (name, entryValue pg xe) :: l₃ ∧ Meets pg (nextOf pg xe) l₃ := by
    cases h₂ with
    | last hend => exact absurd hlt (Nat.not_lt.mpr hend)
    | stop _ hzero => exact absurd hzero hlen
    | skip _ _ hnul _ => exact absurd (hentry ▸ hnul) hname
    | @attr _ l₃ _ _ _ h₃ => exact ⟨l₃, by rw [hentry], h₃⟩
  have hafter : Meets pg' xe l₃ := by
    refine h₃.shift (Nat.add_sub_cancel' ?_).symm (le_refl xe) hmove hlast htail
    exact (lt_nextOf hlen).le
  refine ⟨l₁ ++ l₃, hbefore l₃ hafter, ?_, (lookup_remove hnodup).symm⟩
  exact hnodup.sublist (((List.sublist_cons_self _ _).append_left _).map _)

/-- A new name that lands well is what the map gains. -/
theorem Agrees.append (h : Agrees pg spec) (hv : IocXattr.ValidName name) (hnew : spec name = none)
    (hlands : landsWell pg name value = true) :
    ∃ pg', appendXattr pg xeEnd name value = some (.ok (), pg') ∧
      Agrees pg' (Function.update spec name (some value)) := by
  obtain ⟨l, hl, hnodup, rfl⟩ := h
  rw [landsWell] at hlands
  rcases hend : endFrom pg xeEnd 0 with _ | p
  · rw [hend] at hlands
    cases hlands
  simp only [hend, Bool.and_eq_true, decide_eq_true_eq] at hlands
  obtain ⟨⟨hroom, hclear⟩, hquiet⟩ := hlands
  have hmax := hv.2.1
  have hroom' := hroom
  unfold xeData xeEnd at hroom'
  obtain ⟨hlen, hsize, hname, hvalue⟩ :=
    @writeEntry_reads pg p name value hmax (by omega)
  obtain ⟨l₁, l₂, rfl, h₂, hbefore⟩ := hl.transfer hclear fun i hi => writeEntry_of_lt hi
  obtain rfl := h₂.eq_nil (endFrom_some hend)
  rw [List.append_nil] at hnodup hnew ⊢
  have hnew' : Meets (writeEntry pg p name value) p [(name, value)] := by
    have hmeet : Meets (writeEntry pg p name value) p
        [(entryName (writeEntry pg p name value) p, entryValue (writeEntry pg p name value) p)] := by
      refine .attr ?_ (by rwa [hlen, hsize]) (by rw [hname]; exact hv.2.2) ?_
      · rw [hlen]
        exact fun h0 => hv.1 (List.length_eq_zero_iff.mp h0)
      · rw [nextOf, hlen, hsize]
        exact quietFrom_meets hquiet
    rwa [hname, hvalue] at hmeet
  have hdist : nbytesDistance p xeEnd = xeEnd - p := by
    rw [nbytesDistance]
    unfold xeEnd
    omega
  refine ⟨writeEntry pg p name value, ?_, l₁ ++ [(name, value)], hbefore _ hnew', ?_,
    (lookup_append_new hnew).symm⟩
  · rw [appendXattr, hend]
    simp only
    rw [if_neg (by rw [hdist]; omega), if_pos hroom]
  · rw [List.map_append, List.map_singleton, List.nodup_append]
    refine ⟨hnodup, List.nodup_singleton _, fun a ha b hb => ?_⟩
    obtain rfl : b = name := List.mem_singleton.mp hb
    rintro rfl
    exact lookup_none_iff.mp hnew ha

/-! ## The calls -/

/-- `_do_removexattr` takes the name out of the map, or reports that it is not there. -/
theorem doRemovexattr_agrees (h : Agrees pg spec) (hv : IocXattr.ValidName name)
    (hok : ∀ xe, findXe pg xeEnd name = some (some xe) → leavesWell pg xe = true) :
    (spec name = none ∧ doRemovexattr pg xeEnd name = some (.error .enodata, pg)) ∨
      ∃ xe pg', findXe pg xeEnd name = some (some xe) ∧ discardXattr pg xeEnd xe = some pg' ∧
        doRemovexattr pg xeEnd name = some (.ok (), pg') ∧
        Agrees pg' (Function.update spec name none) := by
  rcases findXe_agrees h hv.2.2 with ⟨hspec, hfind⟩ | ⟨xe, hfind, hspec, hentry, hin⟩
  · refine .inl ⟨hspec, ?_⟩
    rw [doRemovexattr, hfind]
  · have hlen : nameLen pg xe ≠ 0 := by
      rw [← length_entryName, hentry]
      exact fun h0 => hv.1 (List.length_eq_zero_iff.mp h0)
    have hleaves := hok xe hfind
    rcases hdis : discardXattr pg xeEnd xe with _ | pg'
    · rw [leavesWell, hdis] at hleaves
      cases hleaves
    · refine .inr ⟨xe, pg', hfind, hdis, ?_, h.remove hv.2.2 hlen hentry (by omega) hdis hleaves⟩
      rw [doRemovexattr, hfind]
      simp only [hdis, Option.map_some]

/-- A new name for which there is no room leaves the page as it is. -/
theorem appendXattr_full (hfull : landsFull pg name value = true) :
    appendXattr pg xeEnd name value = some (.error .enospc, pg) := by
  rw [landsFull] at hfull
  rcases hend : endFrom pg xeEnd 0 with _ | p
  · rw [hend] at hfull
    cases hfull
  · simp only [hend, decide_eq_true_eq] at hfull
    rw [appendXattr, hend]
    simp only
    rw [if_pos hfull]

/-- A name that is not there is set if there is room, or the page stays as it is. -/
theorem doSetxattr_new (h : Agrees pg spec) (hv : IocXattr.ValidName name) {create replace : Bool}
    (hspec : spec name = none) (hfind : findXe pg xeEnd name = some none)
    (hok : replace = true ∨ landsFull pg name value = true ∨ landsWell pg name value = true) :
    ∃ res pg', doSetxattr pg xeEnd name value create replace = some (res, pg') ∧
      ((res = .ok () ∧ Agrees pg' (Function.update spec name (some value))) ∨
        (∃ e, res = .error e) ∧ pg' = pg) := by
  have hrem : doRemovexattr pg xeEnd name = some (.error .enodata, pg) := by
    rw [doRemovexattr, hfind]
  rw [doSetxattr, hfind]
  cases replace
  · rcases hok.resolve_left Bool.false_ne_true with hfull | hlands
    · have happ := appendXattr_full hfull
      exact ⟨.error .enospc, pg, by simpa [hrem] using happ, .inr ⟨⟨_, rfl⟩, rfl⟩⟩
    · obtain ⟨pg', happ, hagrees⟩ := h.append hv hspec hlands
      exact ⟨.ok (), pg', by simpa [hrem] using happ, .inl ⟨rfl, hagrees⟩⟩
  · exact ⟨.error .enodata, pg, by simp, .inr ⟨⟨_, rfl⟩, rfl⟩⟩

/-- A name that is there gets the new value, or `XATTR_CREATE` keeps the old one. -/
theorem doSetxattr_old (h : Agrees pg spec) (hv : IocXattr.ValidName name) {create replace : Bool}
    (hfind : findXe pg xeEnd name = some (some xe)) (hspec : spec name ≠ none)
    (hok : create = true ∨ leavesWell pg xe = true ∧
      ∀ pg', discardXattr pg xeEnd xe = some pg' → landsWell pg' name value = true) :
    ∃ res pg', doSetxattr pg xeEnd name value create replace = some (res, pg') ∧
      ((res = .ok () ∧ Agrees pg' (Function.update spec name (some value))) ∨
        (∃ e, res = .error e) ∧ pg' = pg) := by
  rw [doSetxattr, hfind]
  cases create
  · obtain ⟨hleaves, hlands⟩ := hok.resolve_left Bool.false_ne_true
    have hat : ∀ y, findXe pg xeEnd name = some (some y) → y = xe := fun y hy =>
      Option.some.inj (Option.some.inj (hy.symm.trans hfind))
    have hrem := doRemovexattr_agrees h hv fun y hy => by rwa [hat y hy]
    obtain ⟨y, pg', hy, hdis, hrem, hagrees⟩ := hrem.resolve_left fun hnone => hspec hnone.1
    obtain rfl := hat y hy
    obtain ⟨pg'', happ, hagrees'⟩ := hagrees.append hv (Function.update_self ..) (hlands pg' hdis)
    rw [Function.update_idem] at hagrees'
    exact ⟨.ok (), pg'', by simpa [hrem] using happ, .inl ⟨rfl, hagrees'⟩⟩
  · exact ⟨.error .eexist, pg, by simp, .inr ⟨⟨_, rfl⟩, rfl⟩⟩

/-- **A call whose walks land well** stays in the page and does to it what it does to the map. -/
theorem setxattrPage_agrees (h : Agrees pg spec) {ioc : IocXattr}
    (hv : IocXattr.ValidName ioc.name) (hok : storable pg ioc = true) :
    ∃ res pg', setxattrPage pg xeEnd ioc = some (res, pg') ∧ Agrees pg' (specAfter spec ioc res) := by
  rcases hval : ioc.value with _ | value
  · have hleaves : ∀ xe, findXe pg xeEnd ioc.name = some (some xe) → leavesWell pg xe = true := by
      intro xe hfind
      simpa only [storable, hval, hfind] using hok
    rw [setxattrPage, hval]
    rcases doRemovexattr_agrees h hv hleaves with ⟨-, hrem⟩ | ⟨xe, pg', -, -, hrem, hagrees⟩
    · exact ⟨.error .enodata, pg, hrem, h⟩
    · refine ⟨.ok (), pg', hrem, ?_⟩
      rw [specAfter, hval]
      exact hagrees
  · have hset : ∃ res pg',
        doSetxattr pg xeEnd ioc.name value ioc.create ioc.replace = some (res, pg') ∧
          ((res = .ok () ∧ Agrees pg' (Function.update spec ioc.name (some value))) ∨
            (∃ e, res = .error e) ∧ pg' = pg) := by
      rcases findXe_agrees h hv.2.2 with ⟨hspec, hfind⟩ | ⟨xe, hfind, hspec, -, -⟩
      · refine doSetxattr_new h hv hspec hfind ?_
        simpa only [storable, hval, hfind, Bool.or_eq_true, or_assoc] using hok
      · refine doSetxattr_old h hv hfind (by simp [hspec]) ?_
        simp only [storable, hval, hfind, Bool.or_eq_true, Bool.and_eq_true] at hok
        refine hok.imp_right fun hok => ⟨hok.1, fun pg' hdis => ?_⟩
        simpa only [hdis, Option.any_some] using hok.2
    rw [setxattrPage, hval]
    obtain ⟨res, pg', hset, ⟨rfl, hagrees⟩ | ⟨⟨e, rfl⟩, rfl⟩⟩ := hset
    · refine ⟨.ok (), pg', hset, ?_⟩
      rw [specAfter, hval]
      exact hagrees
    · exact ⟨.error e, pg', hset, h⟩

/-- One call whose walks land well keeps page and map in agreement. -/
theorem agrees_next {x x' : XattrRun} {ioc : IocXattr} (hf : x.faulted = false)
    (h : Agrees x.pg x.spec) (hok : storable x.pg ioc = true) (hn : x.next ioc = some x') :
    x'.faulted = false ∧ Agrees x'.pg x'.spec := by
  unfold XattrRun.next at hn
  split at hn
  · next hv =>
    obtain ⟨res, pg', hpage, hagrees⟩ := setxattrPage_agrees h hv hok
    rw [hpage] at hn
    obtain rfl := Option.some.inj hn
    exact ⟨hf, hagrees⟩
  · cases hn

/-- A page in agreement with the map answers as the map does. -/
theorem doGetxattr_agrees (h : Agrees pg spec) (hname : 0 ∉ name) (size : ℕ) :
    (∀ value, spec name = some value → value.length ≤ size →
      doGetxattr pg xeEnd name size = some (.ok value)) ∧
    (spec name = none → doGetxattr pg xeEnd name size = some (.error .enodata)) := by
  rcases findXe_agrees h hname with ⟨hspec, hfind⟩ | ⟨xe, hfind, hspec, -, hin⟩
  · refine ⟨fun value hval => ?_, fun _ => ?_⟩
    · rw [hspec] at hval
      cases hval
    · rw [doGetxattr, hfind]
  · refine ⟨fun value hval hle => ?_, fun hnone => ?_⟩
    · obtain rfl := Option.some.inj (hspec.symm.trans hval)
      rw [length_entryValue] at hle
      rw [doGetxattr, hfind]
      simp only [copyValueToBuf]
      rw [if_neg (by omega), if_pos hin, entryValue]
    · rw [hspec] at hnone
      cases hnone

/-- **Extended attributes refine a finite map** in every run of calls whose walks land well: what is
read is what was last set and not removed, and no call leaves the page. -/
theorem xattrRuns_refines (x : XattrRun)
    (hreach : (xattrRuns.restrict fun x ioc => storable x.pg ioc = true).Reachable x) :
    x.Refines := by
  have hinv : x.faulted = false ∧ Agrees x.pg x.spec := by
    refine hreach.invariant (I := fun x => x.faulted = false ∧ Agrees x.pg x.spec) ?_ ?_
    · rintro _ rfl
      exact ⟨rfl, [], .stop (by decide) rfl, List.nodup_nil, rfl⟩
    · rintro x ioc x' ⟨hf, hag⟩ ⟨hok, hn⟩
      exact agrees_next hf hag hok hn
  exact ⟨hinv.1, fun name hv size _ => doGetxattr_agrees hinv.2 hv.2.2 size⟩

/-- Three names: two sets whose values the next walk steps over, a new value for the first name, a
removal of the second, and a set of a third that the walk need not step over. -/
theorem xattrRuns_refines_three : ∃ x,
    (xattrRuns.restrict fun x ioc => storable x.pg ioc = true).Reachable x ∧
      (x.spec [97] = some [120, 121, 3, 0, 1] ∧ x.spec [98] = none ∧ x.spec [99] = some [119]) ∧
      x.Refines := by
  have hrun : ∃ x, (xattrRuns.restrict fun x ioc => storable x.pg ioc = true).Reachable x ∧
      (x.spec [97] == some [120, 121, 3, 0, 1] && x.spec [98] == none &&
        x.spec [99] == some [119]) = true :=
    @Lts.Reachable.exists_of_restrict XattrRun IocXattr (· = .start) XattrRun.next _ _
      (some .start) (fun x hx => (Option.some.inj hx).symm)
      [⟨[97], [118, 3, 0, 1], false, false, false⟩, ⟨[98], [119, 3, 0, 1], false, false, false⟩,
        ⟨[97], [120, 121, 3, 0, 1], false, false, false⟩, ⟨[98], [], false, false, false⟩,
        ⟨[99], [119], false, false, false⟩]
      (fun x => x.spec [97] == some [120, 121, 3, 0, 1] && x.spec [98] == none &&
        x.spec [99] == some [119]) (by decide +kernel)
  obtain ⟨x, hx, hp⟩ := hrun
  simp only [Bool.and_eq_true, beq_iff_eq] at hp
  exact ⟨x, hx, ⟨hp.1.1, hp.1.2, hp.2⟩, xattrRuns_refines x hx⟩

/-- Two attributes of one byte each: the second call takes the value of the first for a
header, walks to offset `24953` and writes there. -/
theorem xattrRuns_fault : ¬ ∀ x, xattrRuns.Reachable x → x.Refines := by
  intro hall
  have h₀ : xattrRuns.Reachable .start := .init rfl
  obtain ⟨x, hx, hp⟩ := h₀.exists_of_runAll
    [⟨[97], [118], false, false, false⟩, ⟨[98], [119], false, false, false⟩]
    (p := fun x => x.faulted) (by decide +kernel)
  rw [(hall x hx).1] at hp
  cases hp

end Zus.Toyfs
