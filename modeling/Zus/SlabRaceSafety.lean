import Zus.MallocSafety
import Zus.SlabRace

/-!
# What the threads keep

Under any interleaving of the threads the slabs are as some run of one call after the other leaves
them, with a pool that may be larger (`RaceInv.seq`). A call takes effect at one turn: an
allocation when it takes its element, a free when it gives its element back. In between, the
elements that a thread is freeing are in nobody's hands, and a page that a thread has from the page
allocator, or is putting, is in that thread's hands alone.
-/

namespace Zus.SlabRace

open Zus.Lib Zus.Slab Zus.Pa

/-! ## Slabs over a larger pool -/

section Sized

variable {g : Gsa} {live : List Alloc} {n bn c k e : ℕ}

theorem cutFor_sized : CutFor (sized g n) bn c k ↔ CutFor g bn c k :=
  ⟨fun h => ⟨h.owned, h.index, h.cpu⟩, fun h => ⟨h.owned, h.index, h.cpu⟩⟩

theorem inv_sized (h : Slab.Inv g live) (hle : g.paSize ≤ n) : Slab.Inv (sized g n) live where
  aligned := h.aligned
  pos := h.pos
  cut bn ho := by
    obtain ⟨hlt, c, hc, k, hk, hcut⟩ := h.cut bn ho
    exact ⟨hlt.trans_le hle, c, hc, k, hk, cutFor_sized.mpr hcut⟩
  listed c k e he := by
    obtain ⟨bn, hcut, helem⟩ := h.listed c k e he
    exact ⟨bn, cutFor_sized.mpr hcut, helem⟩
  nodup := h.nodup
  held a ha := by
    obtain ⟨bn, c, k, hcut, hrest⟩ := h.held a ha
    exact ⟨bn, c, k, cutFor_sized.mpr hcut, hrest⟩
  liveNodup := h.liveNodup
  complete bn c k e hcut := h.complete bn c k e (cutFor_sized.mp hcut)
  nfree := h.nfree
  nused := h.nused
  uc := h.uc

theorem slabAllocElem_sized : (sized g n).slabAllocElem c k =
    ((g.slabAllocElem c k).1, sized (g.slabAllocElem c k).2 n) := by
  have hslab : (sized g n).slab = g.slab := rfl
  rw [Gsa.slabAllocElem, Gsa.slabAllocElem, hslab]
  rcases (g.slab c k).head with _ | ⟨se, rest⟩
  · rfl
  · rfl

theorem slabFreeAt_sized : (sized g n).slabFreeAt c k bn e = sized (g.slabFreeAt c k bn e) n := by
  have helem : (sized g n).slabFreeElem c k bn e = sized (g.slabFreeElem c k bn e) n := rfl
  simp only [Gsa.slabFreeAt, helem, apply_ite (sized · n)]
  rfl

theorem slabFree_sized : (sized g n).slabFree c e = sized (g.slabFree c e) n := by
  rw [Gsa.slabFree, Gsa.slabFree, apply_ite (sized · n), ← slabFreeAt_sized]
  rfl

end Sized

/-! ## One slab at a time -/

section Frame

variable {g : Gsa} {live : List Alloc} {c c' k size bn e : ℕ} {a : Alloc}

/-- An allocation from a given slab, as a call on its cpu. -/
theorem zusGsaMalloc_own (hc : c < g.nslabs) (paAlloc : Option (ℕ × ℕ)) :
    g.zusGsaMalloc c size (fun i => i == 0) paAlloc = g.slabAlloc c size paAlloc := by
  rw [Gsa.zusGsaMalloc]
  split_ifs
  · rfl
  · split
    · next i hi =>
      have hi0 := List.find?_some hi
      rw [Bool.and_eq_true, beq_iff_eq] at hi0
      rw [hi0.1, Nat.add_zero, Nat.mod_eq_of_lt hc]
    · rw [Nat.add_mod_right, Nat.mod_eq_of_lt hc]

theorem slabSys_nslabs {n : ℕ} {x : Slab.Sys} (h : (slabSys n).Reachable x) : x.gsa.nslabs = n := by
  refine h.invariant (I := fun x => x.gsa.nslabs = n) ?_ ?_
  · rintro x ⟨dataPtr, -, -, rfl⟩
    rfl
  · rintro x call x' hn hstep
    cases hstep with
    | malloc _ _ hpa => exact (zusGsaMalloc_grows hpa _ _ _).1.nslabs.trans hn
    | free _ => exact (zusGsaFree_shape _ _).1.trans hn

theorem slab_setList (l : SlabList) (hc : c' ≠ c) : (g.setList c k l).slab c' = g.slab c' :=
  Function.update_of_ne hc _ _

theorem slab_slabAllocElem (hc : c' ≠ c) : (g.slabAllocElem c k).2.slab c' = g.slab c' := by
  rw [Gsa.slabAllocElem]
  split
  · rfl
  · exact slab_setList _ hc

theorem slab_slabFree (hc : c' ≠ c) : (g.slabFree c e).slab c' = g.slab c' := by
  have helem : ∀ k bn, (g.slabFreeElem c k bn e).slab c' = g.slab c' := fun _ _ => slab_setList _ hc
  rw [Gsa.slabFree]
  split_ifs
  · rfl
  · simp only [Gsa.slabFreeAt]
    split_ifs
    · exact helem _ _
    · exact helem _ _
    · exact (slab_setList _ hc).trans (helem _ _)

/-- A free gives up the page of the element or none. -/
theorem owned_slabFree : (g.slabFree c e).owned = g.owned ∨
    (g.slabFree c e).owned = Function.update g.owned (g.virtToPage e) false := by
  rw [Gsa.slabFree]
  split_ifs
  · exact .inl rfl
  · simp only [Gsa.slabFreeAt]
    split_ifs
    · exact .inl rfl
    · exact .inl rfl
    · exact .inr rfl

theorem dataPtr_slabFree : (g.slabFree c e).dataPtr = g.dataPtr := by
  rw [Gsa.slabFree]
  split_ifs
  · rfl
  · simp only [Gsa.slabFreeAt]
    split_ifs <;> rfl

/-- The pages that a free leaves cut were cut so before. -/
theorem cutFor_of_slabFree (h : CutFor (g.slabFree c e) bn c' k) : CutFor g bn c' k := by
  rw [Gsa.slabFree] at h
  split_ifs at h
  · exact h
  · simp only [Gsa.slabFreeAt] at h
    have helem := fun j => sameCut_update g c j (g.virtToPage e)
      { g.slab c j with
        head := (g.slab c j).head ++ [e]
        nfree := (g.slab c j).nfree + 1
        nused := (g.slab c j).nused - 1 } ((g.page (g.virtToPage e)).slabUc - 1)
    split_ifs at h
    · exact (helem _).cutFor.mp h
    · exact (helem _).cutFor.mp h
    · exact (helem _).cutFor.mp (cutFor_pageFini.mp h).2

end Frame

/-! ## One page at a time -/

section Pages

variable {m m' : PaRace.Threads} {t : ℕ}

/-- A single page has no follower. -/
theorem noPendingFollower_zero (h : PaRace.Inv m) : PaRace.NoPendingFollower m (.alloc t 0) := by
  rintro bn hfind t' p hput ⟨hle, hlt⟩
  obtain rfl : bn = p := by omega
  exact (h.idle bn (List.mem_of_find?_eq_some hfind)).putting t' hput

/-- What an allocation of one page does: the pool does not shrink, and the page had no reference. -/
theorem alloc_spec {paSize : ℕ} (h : PaRace.Inv m) {r : Option ℕ × Pa}
    (hr : paAllocOrder paSize 0 false m.pa = r) :
    m.pa.size ≤ r.2.size ∧
      ((r.1 = none ∧ r.2.refcount = m.pa.refcount) ∨
        ∃ bn, r.1 = some bn ∧ m.pa.refcount bn = 0 ∧ (∀ t, m.putting t ≠ some bn) ∧
          r.2.refcount = Function.update m.pa.refcount bn 1) := by
  subst hr
  have hgrow : ∀ k, m.pa.size ≤ (Pa.grow m.pa k).size := fun k => Nat.le_add_right _ _
  obtain ⟨k, hr | ⟨bn, hbn, -, hr⟩⟩ := paAllocOrder_outcome paSize 0 m.pa
  · rw [hr]
    exact ⟨hgrow k, .inl ⟨rfl, rfl⟩⟩
  · rw [hr]
    have hidle := (h.grow k).idle bn hbn
    exact ⟨hgrow k, .inr ⟨bn, rfl, hidle.refcount, hidle.putting, rfl⟩⟩

end Pages

/-! ## The invariant -/

/-- The lock that a thread has. -/
def holds (n : ℕ) : Pc → Option ℕ
  | .looking cpu _ i => some ((cpu + i) % n)
  | .allocating c _ => some c
  | .cutting c _ _ => some c
  | .giving _ c => some c
  | .putting c _ => some c
  | .linking c _ => some c
  | _ => none

/-- The page that a thread has a reference to. -/
def hand : Pc → Option ℕ
  | .cutting _ _ bn => some bn
  | .putting _ bn => some bn
  | _ => none

/-- The page that a thread is about to insert. -/
def transit : Pc → Option ℕ
  | .linking _ bn => some bn
  | _ => none

/-- The allocation that a thread is freeing. -/
def frees : Pc → Option Alloc
  | .finding a => some a
  | .freeing a _ => some a
  | .giving a _ => some a
  | _ => none

/-- What a thread knows where it is. -/
def PcOk (g : Gsa) : Pc → Prop
  | .testing cpu size => cpu < g.nslabs ∧ slabSizeValid size = true
  | .trying cpu size _ => cpu < g.nslabs ∧ slabSizeValid size = true
  | .looking cpu size _ => cpu < g.nslabs ∧ slabSizeValid size = true
  | .waiting c size => c < g.nslabs ∧ slabSizeValid size = true
  | .allocating c size => c < g.nslabs ∧ slabSizeValid size = true
  | .cutting c size _ => c < g.nslabs ∧ slabSizeValid size = true ∧ g.slabListEmpty c size = true
  | .freeing a c => (g.page (g.virtToPage a.ptr)).slabCpu = c
  | .giving a c => (g.page (g.virtToPage a.ptr)).slabCpu = c
  | _ => True

/-- Where the pages with a reference are: cut for the slabs, or in the hands of one thread. -/
structure Pages (pc : ℕ → Pc) (own : ℕ → Bool) (cnt : ℕ → ℕ) : Prop where
  owned : ∀ bn, own bn = true → cnt bn = 1
  hands : OnlyOne hand pc
  mine : ∀ t bn, hand (pc t) = some bn → own bn = false ∧ cnt bn = 1
  used : ∀ bn, cnt bn ≠ 0 → own bn = true ∨ ∃ t, hand (pc t) = some bn

/-- Where the allocations are that the slabs have given: with the users, or with one thread that
frees them. -/
structure Users (pc : ℕ → Pc) (live given : List Alloc) : Prop where
  single : OnlyOne frees pc
  split : ∀ a, a ∈ given ↔ a ∈ live ∨ ∃ t, frees (pc t) = some a
  apart : ∀ t a, frees (pc t) = some a → a ∉ live
  liveNodup : live.Nodup

/-- The invariant, with the allocations that the slabs have given and not got back. -/
structure RaceInv (nslabs nthreads : ℕ) (s : Race) (given : List Alloc) : Prop where
  mem : PaRace.Inv s.mem
  /-- the slabs are as a run of one call after the other leaves them -/
  seq : ∃ g, (slabSys nslabs).Reachable ⟨g, given⟩ ∧ g.paSize ≤ s.mem.pa.size ∧
    s.gsa = sized g s.mem.pa.size
  locks : LocksAgree (holds nslabs) s.pc s.lock
  pages : Pages s.pc s.gsa.owned s.mem.pa.refcount
  putting : ∀ t, s.mem.putting t = transit (s.pc t)
  users : Users s.pc s.live given
  ok : ∀ t, PcOk s.gsa (s.pc t)
  idle : ∀ t, nthreads ≤ t → s.pc t = .idle

/-! ## Pages and users when a thread moves -/

section Move

variable {pc : ℕ → Pc} {p : Pc} {t bn : ℕ} {a : Alloc} {live given : List Alloc}
  {own : ℕ → Bool} {cnt : ℕ → ℕ}

/-- What all threads have after a move: what the mover has, and what the others had. -/
theorem exists_update {A : Type} (f : Pc → Option A) (x : A) :
    (∃ t', f (Function.update pc t p t') = some x) ↔
      f p = some x ∨ ∃ t' ≠ t, f (pc t') = some x :=
  Function.exists_update_iff pc fun _ q => f q = some x

theorem forall_update {A : Type} {f : Pc → Option A} {Q : A → Prop}
    (hself : ∀ x, f p = some x → Q x)
    (hother : ∀ t', t' ≠ t → ∀ x, f (pc t') = some x → Q x) (t' : ℕ) (x : A)
    (hx : f (Function.update pc t p t') = some x) : Q x :=
  (Function.forall_update_iff pc fun _ q => ∀ x, f q = some x → Q x).mpr ⟨hself, hother⟩ t' x hx

/-- What all threads have: what one has, and what the others have. -/
theorem exists_split {A : Type} (f : Pc → Option A) (t : ℕ) (x : A) :
    (∃ t', f (pc t') = some x) ↔ f (pc t) = some x ∨ ∃ t' ≠ t, f (pc t') = some x := by
  rw [← exists_update f x, Function.update_eq_self]

namespace Pages

/-- A move with the page that the thread has, if any. -/
theorem keep (h : Pages pc own cnt) (hp : hand p = hand (pc t)) :
    Pages (Function.update pc t p) own cnt where
  owned := h.owned
  hands := h.hands.keep (.inl hp)
  mine := forall_update (fun bn hbn => h.mine t bn (hp.symm.trans hbn)) (fun t' _ => h.mine t')
  used bn hbn := by
    rw [exists_update, hp, ← exists_split]
    exact h.used bn hbn

/-- A thread gets a page that had no reference. -/
theorem take (h : Pages pc own cnt) (hnone : hand (pc t) = none) (hp : hand p = some bn)
    (hzero : cnt bn = 0) :
    Pages (Function.update pc t p) own (Function.update cnt bn 1) := by
  have hne : ∀ {b}, cnt b = 1 → b ≠ bn := by
    rintro b hb rfl
    omega
  refine ⟨fun b hb => ?_, h.hands.move fun b hb t' _ ht' => ?_,
    forall_update (fun b hb => ?_) (fun t' _ b hb => ?_), fun b hb => ?_⟩
  · rw [Function.update_of_ne (hne (h.owned b hb))]
    exact h.owned b hb
  · exact hne (h.mine t' b ht').2 (Option.some.inj (hb.symm.trans hp))
  · obtain rfl := Option.some.inj (hb.symm.trans hp)
    refine ⟨Bool.eq_false_iff.mpr fun ho => hne (h.owned b ho) rfl, Function.update_self _ _ _⟩
  · rw [Function.update_of_ne (hne (h.mine t' b hb).2)]
    exact h.mine t' b hb
  · rw [exists_update, hp]
    by_cases hbb : b = bn
    · exact .inr (.inl (congrArg some hbb.symm))
    · rw [Function.update_of_ne hbb] at hb
      refine (h.used b hb).imp_right fun hex => ?_
      rw [exists_split _ t, hnone] at hex
      exact hex.imp_left nofun

/-- The page of a thread is cut. -/
theorem cut (h : Pages pc own cnt) (hhand : hand (pc t) = some bn) (hp : hand p = none) :
    Pages (Function.update pc t p) (Function.update own bn true) cnt := by
  have hone := (h.mine t bn hhand).2
  refine ⟨(Function.forall_update_iff own fun b o => o = true → cnt b = 1).mpr
      ⟨fun _ => hone, fun b _ => h.owned b⟩, h.hands.keep (.inr hp),
    forall_update (fun b hb => ?_) (fun t' ht' b hb => ?_), fun b hb => ?_⟩
  · cases hp.symm.trans hb
  · have hbb : b ≠ bn := by
      rintro rfl
      exact ht' (h.hands b t' t hb hhand)
    rw [Function.update_of_ne hbb]
    exact h.mine t' b hb
  · rw [exists_update, hp]
    by_cases hbb : b = bn
    · subst hbb
      exact .inl (Function.update_self _ _ _)
    · rw [Function.update_of_ne hbb]
      refine (h.used b hb).imp_right fun hex => ?_
      rw [exists_split _ t, hhand] at hex
      exact hex.imp_left fun heq => absurd (Option.some.inj heq).symm hbb

/-- A thread gets a page that was cut. -/
theorem giveUp (h : Pages pc own cnt) (hnone : hand (pc t) = none) (hp : hand p = some bn)
    (howned : own bn = true) :
    Pages (Function.update pc t p) (Function.update own bn false) cnt := by
  have hne : ∀ {t' b}, hand (pc t') = some b → b ≠ bn := by
    rintro t' b hb rfl
    cases howned.symm.trans (h.mine t' b hb).1
  refine ⟨(Function.forall_update_iff own fun b o => o = true → cnt b = 1).mpr
      ⟨nofun, fun b _ => h.owned b⟩,
    h.hands.move fun b hb t' _ ht' => hne ht' (Option.some.inj (hb.symm.trans hp)),
    forall_update (fun b hb => ?_) (fun t' _ b hb => ?_), fun b hb => ?_⟩
  · obtain rfl := Option.some.inj (hb.symm.trans hp)
    exact ⟨Function.update_self _ _ _, h.owned b howned⟩
  · rw [Function.update_of_ne (hne hb)]
    exact h.mine t' b hb
  · rw [exists_update, hp]
    by_cases hbb : b = bn
    · exact .inr (.inl (congrArg some hbb.symm))
    · rw [Function.update_of_ne hbb]
      refine (h.used b hb).imp_right fun hex => ?_
      rw [exists_split _ t, hnone] at hex
      exact hex.imp_left nofun

/-- A thread drops the reference to its page. -/
theorem drop (h : Pages pc own cnt) (hhand : hand (pc t) = some bn) (hp : hand p = none) :
    Pages (Function.update pc t p) own (Function.update cnt bn 0) := by
  have hfalse := (h.mine t bn hhand).1
  have hne : ∀ {b}, own b = true → b ≠ bn := by
    rintro b hb rfl
    cases hb.symm.trans hfalse
  refine ⟨fun b hb => ?_, h.hands.keep (.inr hp),
    forall_update (fun b hb => ?_) (fun t' ht' b hb => ?_), fun b hb => ?_⟩
  · rw [Function.update_of_ne (hne hb)]
    exact h.owned b hb
  · cases hp.symm.trans hb
  · have hbb : b ≠ bn := by
      rintro rfl
      exact ht' (h.hands b t' t hb hhand)
    rw [Function.update_of_ne hbb]
    exact h.mine t' b hb
  · rw [exists_update, hp]
    have hbb : b ≠ bn := by
      rintro rfl
      exact hb (Function.update_self _ _ _)
    rw [Function.update_of_ne hbb] at hb
    refine (h.used b hb).imp_right fun hex => ?_
    rw [exists_split _ t, hhand] at hex
    exact hex.imp_left fun heq => absurd (Option.some.inj heq).symm hbb

end Pages

namespace Users

/-- A move with the allocation that the thread frees, if any. -/
theorem keep (h : Users pc live given) (hp : frees p = frees (pc t)) :
    Users (Function.update pc t p) live given where
  single := h.single.keep (.inl hp)
  split a := by
    rw [exists_update, hp, ← exists_split]
    exact h.split a
  apart := forall_update (fun a ha => h.apart t a (hp.symm.trans ha)) (fun t' _ => h.apart t')
  liveNodup := h.liveNodup

/-- An allocation that is new. -/
theorem alloc (h : Users pc live given) (hp : frees p = frees (pc t))
    (hnew : a ∉ given) : Users (Function.update pc t p) (a :: live) (a :: given) := by
  have hkeep := h.keep hp
  refine ⟨hkeep.single, fun b => ?_, fun t' b hb hmem => ?_,
    List.nodup_cons.mpr ⟨fun ha => hnew ((h.split a).mpr (.inl ha)), h.liveNodup⟩⟩
  · rw [List.mem_cons, List.mem_cons, hkeep.split b, or_assoc]
  · rcases List.mem_cons.mp hmem with rfl | hmem
    · exact hnew ((hkeep.split b).mpr (.inr ⟨t', hb⟩))
    · exact hkeep.apart t' b hb hmem

/-- A thread starts to free a live allocation. -/
theorem take (h : Users pc live given) (ha : a ∈ live) (hnone : frees (pc t) = none)
    (hp : frees p = some a) : Users (Function.update pc t p) (live.erase a) given := by
  have hother : ∀ t' b, frees (pc t') = some b → b ≠ a := by
    rintro t' b hb rfl
    exact h.apart t' b hb ha
  refine ⟨h.single.move fun b hb t' _ ht' =>
      hother t' b ht' (Option.some.inj (hb.symm.trans hp)), fun b => ?_,
    forall_update (fun b hb hmem => ?_) (fun t' _ b hb hmem =>
      h.apart t' b hb (List.mem_of_mem_erase hmem)), h.liveNodup.erase a⟩
  · rw [exists_update, hp, h.split b, exists_split _ t, hnone, h.liveNodup.mem_erase_iff]
    by_cases hb : b = a
    · subst hb
      simp [ha]
    · have hne : some a ≠ some b := fun heq => hb (Option.some.inj heq).symm
      simp [hb, hne]
  · obtain rfl := Option.some.inj (hb.symm.trans hp)
    exact (h.liveNodup.mem_erase_iff.mp hmem).1 rfl

/-- The allocation that a thread frees is given back. -/
theorem give (h : Users pc live given) (hnodup : given.Nodup)
    (hfrees : frees (pc t) = some a) (hp : frees p = none) :
    Users (Function.update pc t p) live (given.erase a) := by
  have hother : ∀ t', t' ≠ t → ∀ b, frees (pc t') = some b → b ≠ a := by
    rintro t' ht' b hb rfl
    exact ht' (h.single b t' t hb hfrees)
  refine ⟨h.single.keep (.inr hp), fun b => ?_,
    forall_update (fun b hb => ?_) (fun t' _ => h.apart t'), h.liveNodup⟩
  · rw [exists_update, hp, hnodup.mem_erase_iff, h.split b, exists_split _ t, hfrees]
    constructor
    · rintro ⟨hne, hb | heq | hb⟩
      · exact .inl hb
      · exact absurd (Option.some.inj heq).symm hne
      · exact .inr (.inr hb)
    · rintro (hb | hb | ⟨t', ht', hb⟩)
      · refine ⟨?_, .inl hb⟩
        rintro rfl
        exact h.apart t b hfrees hb
      · cases hb
      · exact ⟨hother t' ht' b hb, .inr (.inr ⟨t', ht', hb⟩)⟩
  · cases hp.symm.trans hb

end Users

end Move

/-! ## The steps -/

variable {nslabs nthreads paSize t c size bn : ℕ} {s s' : Race} {given : List Alloc} {a : Alloc}
  {p : Pc}

theorem RaceInv.slab (h : RaceInv nslabs nthreads s given) : Slab.Inv s.gsa given := by
  obtain ⟨g, hg, hle, hgsa⟩ := h.seq
  rw [hgsa]
  exact inv_sized (inv_reachable nslabs hg) hle

theorem RaceInv.nslabs_eq (h : RaceInv nslabs nthreads s given) : s.gsa.nslabs = nslabs := by
  obtain ⟨g, hg, -, hgsa⟩ := h.seq
  rw [hgsa]
  exact slabSys_nslabs hg

/-- Only a thread in a call has something. -/
theorem RaceInv.lt (h : RaceInv nslabs nthreads s given) (hpc : s.pc t ≠ .idle) : t < nthreads := by
  by_contra hge
  exact hpc (h.idle t (Nat.not_lt.mp hge))

theorem RaceInv.idle_update (h : RaceInv nslabs nthreads s given) (ht : t < nthreads) (t' : ℕ)
    (hge : nthreads ≤ t') : Function.update s.pc t p t' = .idle := by
  rw [Function.update_of_ne (by omega)]
  exact h.idle t' hge

/-- The place of a thread stays good when its slab stays as it is, and so does the slab of the
element that it frees. -/
theorem PcOk.frame {g g' : Gsa} (h : PcOk g p) (hn : g'.nslabs = g.nslabs)
    (hlist : ∀ c, holds g.nslabs p = some c → g'.slab c = g.slab c)
    (hcpu : ∀ a, frees p = some a → (g'.page (g'.virtToPage a.ptr)).slabCpu =
      (g.page (g.virtToPage a.ptr)).slabCpu) : PcOk g' p := by
  cases p with
  | cutting c size bn =>
    obtain ⟨hc, hsize, hempty⟩ := h
    refine ⟨hn.symm ▸ hc, hsize, ?_⟩
    rw [Gsa.slabListEmpty, hlist c rfl]
    exact hempty
  | freeing a c => exact (hcpu a rfl).trans h
  | giving a c => exact (hcpu a rfl).trans h
  | testing cpu size => exact ⟨hn.symm ▸ h.1, h.2⟩
  | trying cpu size i => exact ⟨hn.symm ▸ h.1, h.2⟩
  | looking cpu size i => exact ⟨hn.symm ▸ h.1, h.2⟩
  | waiting c size => exact ⟨hn.symm ▸ h.1, h.2⟩
  | allocating c size => exact ⟨hn.symm ▸ h.1, h.2⟩
  | idle => trivial
  | finding a => trivial
  | putting c bn => trivial
  | linking c bn => trivial

/-- A move that leaves the slabs and the page allocator as they are. -/
theorem RaceInv.goto (h : RaceInv nslabs nthreads s given) {lock : ℕ → Option ℕ}
    {live : List Alloc} (ht : t < nthreads)
    (hlocks : LocksAgree (holds nslabs) (Function.update s.pc t p) lock)
    (hhand : hand p = hand (s.pc t)) (htransit : transit p = transit (s.pc t))
    (husers : Users (Function.update s.pc t p) live given) (hok : PcOk s.gsa p) :
    RaceInv nslabs nthreads { s with lock := lock, pc := Function.update s.pc t p, live := live }
      given where
  mem := h.mem
  seq := h.seq
  locks := hlocks
  pages := h.pages.keep hhand
  putting := (Function.forall_update_iff s.pc fun t' q => s.mem.putting t' = transit q).mpr
    ⟨(h.putting t).trans htransit.symm, fun t' _ => h.putting t'⟩
  users := husers
  ok := (Function.forall_update_iff s.pc fun _ q => PcOk s.gsa q).mpr ⟨hok, fun t' _ => h.ok t'⟩
  idle := h.idle_update ht

/-- A step of the page allocator. -/
theorem RaceInv.setMem (h : RaceInv nslabs nthreads s given) {lock : ℕ → Option ℕ}
    {mem : PaRace.Threads} (ht : t < nthreads) (hmem : PaRace.Inv mem)
    (hsize : s.mem.pa.size ≤ mem.pa.size)
    (hlocks : LocksAgree (holds nslabs) (Function.update s.pc t p) lock)
    (hpages : Pages (Function.update s.pc t p) s.gsa.owned mem.pa.refcount)
    (hputting : mem.putting = Function.update s.mem.putting t (transit p))
    (hfrees : frees p = frees (s.pc t)) (hok : PcOk s.gsa p) :
    RaceInv nslabs nthreads
      { s.setMem mem with lock := lock, pc := Function.update s.pc t p } given where
  mem := hmem
  seq := by
    obtain ⟨g, hg, hle, hgsa⟩ := h.seq
    refine ⟨g, hg, hle.trans hsize, ?_⟩
    change sized s.gsa mem.pa.size = _
    rw [hgsa]
    rfl
  locks := hlocks
  pages := hpages
  putting t' := by
    change mem.putting t' = transit (Function.update s.pc t p t')
    rw [hputting]
    by_cases htt : t' = t
    · subst htt
      rw [Function.update_self, Function.update_self]
    · rw [Function.update_of_ne htt, Function.update_of_ne htt]
      exact h.putting t'
  users := h.users.keep hfrees
  ok := (Function.forall_update_iff s.pc fun _ q => PcOk (sized s.gsa mem.pa.size) q).mpr
    ⟨hok.frame rfl (fun _ _ => rfl) fun _ _ => rfl,
      fun t' _ => (h.ok t').frame rfl (fun _ _ => rfl) fun _ _ => rfl⟩
  idle := h.idle_update ht

/-- A step of one slab, by the thread that has its lock. -/
theorem RaceInv.setGsa (h : RaceInv nslabs nthreads s given) {lock : ℕ → Option ℕ} {g' : Gsa}
    {live' given' : List Alloc} (hc : holds nslabs (s.pc t) = some c)
    (hseq : ∃ g, (slabSys nslabs).Reachable ⟨g, given'⟩ ∧ g.paSize ≤ s.mem.pa.size ∧
      g' = sized g s.mem.pa.size)
    (hlocks : LocksAgree (holds nslabs) (Function.update s.pc t p) lock)
    (hpages : Pages (Function.update s.pc t p) g'.owned s.mem.pa.refcount)
    (htransit : transit p = transit (s.pc t))
    (husers : Users (Function.update s.pc t p) live' given')
    (hslab : ∀ c', c' ≠ c → g'.slab c' = s.gsa.slab c')
    (hcpu : ∀ a ∈ given, a ∈ given' → (g'.page (g'.virtToPage a.ptr)).slabCpu =
      (s.gsa.page (s.gsa.virtToPage a.ptr)).slabCpu)
    (hok : PcOk g' p) :
    RaceInv nslabs nthreads
      { s with gsa := g', lock := lock, pc := Function.update s.pc t p, live := live' }
      given' where
  mem := h.mem
  seq := hseq
  locks := hlocks
  pages := hpages
  putting := (Function.forall_update_iff s.pc fun t' q => s.mem.putting t' = transit q).mpr
    ⟨(h.putting t).trans htransit.symm, fun t' _ => h.putting t'⟩
  users := husers
  ok := by
    refine (Function.forall_update_iff s.pc fun _ q => PcOk g' q).mpr ⟨hok, fun t' ht' => ?_⟩
    have hn : g'.nslabs = s.gsa.nslabs := by
      obtain ⟨g, hg, -, rfl⟩ := hseq
      exact (slabSys_nslabs hg).trans h.nslabs_eq.symm
    refine (h.ok t').frame hn (fun c' hc' => hslab c' ?_) fun a ha => ?_
    · rintro rfl
      rw [h.nslabs_eq] at hc'
      exact ht' (h.locks.unique hc' hc)
    · refine hcpu a ((h.users.split a).mpr (.inr ⟨t', ha⟩)) ((husers.split a).mpr (.inr ⟨t', ?_⟩))
      rw [Function.update_of_ne ht']
      exact ha
  idle := h.idle_update (h.lt fun hidle => by
    rw [hidle] at hc
    cases hc)

/-- What is noted of an allocation is noted of what the users have. -/
theorem Users.note {pc : ℕ → Pc} {live : List Alloc} (h : Users pc live given)
    (hp : frees p = frees (pc t)) (res : Option ℕ)
    (hnodup : ((noteAlloc given size res).map Alloc.ptr).Nodup) :
    Users (Function.update pc t p) (noteAlloc live size res) (noteAlloc given size res) := by
  rcases res with _ | se
  · exact h.keep hp
  · refine h.alloc hp fun hmem => ?_
    exact (List.nodup_cons.mp hnodup).1 (List.mem_map_of_mem hmem)

/-- An allocation from a slab that has elements. -/
theorem RaceInv.pop (h : RaceInv nslabs nthreads s given) (hc : holds nslabs (s.pc t) = some c)
    (hhand : hand (s.pc t) = none) (htransit : transit (s.pc t) = none)
    (hfrees : frees (s.pc t) = none) (hlt : c < nslabs) (hsize : slabSizeValid size = true)
    (hne : ¬ s.gsa.slabListEmpty c size = true) :
    ∃ given', RaceInv nslabs nthreads (s.pop t c size) given' := by
  obtain ⟨g, hg, hle, hgsa⟩ := h.seq
  have hres : g.zusGsaMalloc c size (fun i => i == 0) none =
      g.slabAllocElem c (slabListIndex size) := by
    rw [zusGsaMalloc_own ((slabSys_nslabs hg).symm ▸ hlt), Gsa.slabAlloc, if_neg]
    rw [hgsa] at hne
    exact hne
  have hstep : Slab.Step ⟨g, given⟩ (.malloc c size (fun i => i == 0) none) _ :=
    .malloc ((slabSys_nslabs hg).symm ▸ hlt) hsize trivial
  have hreach := hg.step hstep
  rw [hres] at hreach
  have hsame := sameCut_slabAllocElem s.gsa c (slabListIndex size)
  have helem : s.gsa.slabAllocElem c (slabListIndex size) =
      ((g.slabAllocElem c (slabListIndex size)).1,
        sized (g.slabAllocElem c (slabListIndex size)).2 s.mem.pa.size) := by
    rw [hgsa, slabAllocElem_sized]
  refine ⟨_, h.setGsa hc ⟨_, hreach, ?_, congrArg Prod.snd helem⟩ (h.locks.release hc rfl) ?_
    htransit.symm ?_ (fun c' hc' => slab_slabAllocElem hc') (fun a _ _ => ?_) trivial⟩
  · rw [(sameCut_slabAllocElem g c (slabListIndex size)).paSize]
    exact hle
  · rw [hsame.owned]
    exact h.pages.keep hhand.symm
  · rw [helem]
    exact h.users.note (p := .idle) hfrees.symm _ (inv_reachable nslabs hreach).liveNodup
  · rw [hsame.virtToPage, hsame.cpu]

/-- A page with a reference is in the pool. -/
theorem lt_size_of_refcount {mem : PaRace.Threads} (h : PaRace.Inv mem)
    (hne : mem.pa.refcount bn ≠ 0) : bn < mem.pa.size := by
  by_contra hge
  exact hne (h.fresh bn (Nat.not_lt.mp hge)).refcount

/-- The page of an allocation is the slabs'. -/
theorem RaceInv.owned_of_given (h : RaceInv nslabs nthreads s given) (ha : a ∈ given) :
    s.gsa.owned (s.gsa.virtToPage a.ptr) = true := by
  obtain ⟨c, k, hcut, -⟩ := h.slab.held_page ha
  exact hcut.owned

/-- An allocation from a fresh page. -/
theorem RaceInv.cutPop (h : RaceInv nslabs nthreads s given) (hpc : s.pc t = .cutting c size bn) :
    ∃ given', RaceInv nslabs nthreads ((s.cut c size bn).pop t c size) given' := by
  obtain ⟨hlt, hsize, hempty⟩ : PcOk s.gsa (.cutting c size bn) := hpc ▸ h.ok t
  have hhand : hand (s.pc t) = some bn := congrArg hand hpc
  obtain ⟨hown, hone⟩ := h.pages.mine t bn hhand
  have hbn : bn < s.mem.pa.size := lt_size_of_refcount h.mem (by omega)
  rw [h.nslabs_eq] at hlt
  obtain ⟨g, hg, hle, hgsa⟩ := h.seq
  have hlt' : c < g.nslabs := (slabSys_nslabs hg).symm ▸ hlt
  -- the slabs after the page is cut, and after its first element is taken
  set k := slabListIndex size
  set g₁ := (takePage g bn s.mem.pa.size).slabPageInit c bn k with hg₁
  have hcut : (s.cut c size bn).gsa = g₁ := by
    rw [Race.cut, hgsa]
    rfl
  have hres : g.zusGsaMalloc c size (fun i => i == 0) (some (bn, s.mem.pa.size)) =
      g₁.slabAllocElem c k := by
    rw [zusGsaMalloc_own hlt', Gsa.slabAlloc, if_pos]
    · rfl
    · rw [hgsa] at hempty
      exact hempty
  have hpa : PaAllocOk g (some (bn, s.mem.pa.size)) := by
    rw [hgsa] at hown
    exact ⟨hown, hbn, hle⟩
  have hstep : Slab.Step ⟨g, given⟩ (.malloc c size (fun i => i == 0) _) _ := .malloc hlt' hsize hpa
  have hreach := hg.step hstep
  rw [hres] at hreach
  have hsame := sameCut_slabAllocElem g₁ c k
  have hpaSize : (g₁.slabAllocElem c k).2.paSize = s.mem.pa.size := hsame.paSize
  refine ⟨noteAlloc given size (g₁.slabAllocElem c k).1, ?_⟩
  rw [Race.pop, hcut]
  refine h.setGsa (congrArg (holds nslabs) hpc) ⟨_, hreach, hpaSize.le, ?_⟩
    (h.locks.release (congrArg (holds nslabs) hpc) rfl) ?_ (congrArg transit hpc).symm
    (h.users.note (p := .idle) (congrArg frees hpc).symm _ (inv_reachable nslabs hreach).liveNodup)
    (fun c' hc' => ?_) (fun a ha _ => ?_) trivial
  · rw [← hpaSize]
    rfl
  · have howned : (g₁.slabAllocElem c k).2.owned = Function.update s.gsa.owned bn true := by
      rw [hsame.owned, hgsa]
      rfl
    rw [howned]
    exact h.pages.cut hhand rfl
  · rw [slab_slabAllocElem hc', hgsa]
    exact slab_setList _ hc'
  · have hne : s.gsa.virtToPage a.ptr ≠ bn := by
      intro heq
      have ho := h.owned_of_given ha
      rw [heq, hown] at ho
      cases ho
    rw [hsame.virtToPage, hsame.cpu]
    rw [hgsa] at hne ⊢
    exact congrArg SlabPage.slabCpu (Function.update_of_ne hne _ _)

/-- The end of a free, but for the page. -/
theorem RaceInv.give (h : RaceInv nslabs nthreads s given) (hpc : s.pc t = .giving a c)
    {lock : ℕ → Option ℕ} (hlocks : LocksAgree (holds nslabs) (Function.update s.pc t p) lock)
    (hpages : Pages (Function.update s.pc t p) (s.gsa.slabFree c a.ptr).owned s.mem.pa.refcount)
    (htransit : transit p = none) (hfrees : frees p = none)
    (hok : PcOk (s.gsa.slabFree c a.ptr) p) :
    RaceInv nslabs nthreads
      { s with gsa := s.gsa.slabFree c a.ptr, lock := lock, pc := Function.update s.pc t p }
      (given.erase a) := by
  have ha : a ∈ given := (h.users.split a).mpr (.inr ⟨t, congrArg frees hpc⟩)
  have hcpu : (s.gsa.page (s.gsa.virtToPage a.ptr)).slabCpu = c := by
    have hpcOk := h.ok t
    rw [hpc] at hpcOk
    exact hpcOk
  obtain ⟨g, hg, hle, hgsa⟩ := h.seq
  obtain ⟨c₀, k, hcut, helem, -⟩ := (inv_reachable nslabs hg).held_page ha
  obtain rfl : c₀ = c := by
    rw [← hcut.cpu, ← hcpu, hgsa]
    rfl
  have hfree : g.zusGsaFree a.ptr = g.slabFree c₀ a.ptr := by
    rw [Gsa.zusGsaFree, (inv_reachable nslabs hg).zusGsaCpuOf hcut helem]
  have hreach := hg.step (Slab.Step.free ha)
  have hpaSize := (zusGsaFree_shape g a.ptr).2.2
  rw [hfree] at hreach hpaSize
  have hgsa' : s.gsa.slabFree c₀ a.ptr = sized (g.slabFree c₀ a.ptr) s.mem.pa.size := by
    rw [hgsa, slabFree_sized]
  have hnodup : given.Nodup := (inv_reachable nslabs hg).liveNodup.of_map
  refine h.setGsa (congrArg (holds nslabs) hpc) ⟨_, hreach, hpaSize.le.trans hle, hgsa'⟩ hlocks
    hpages (htransit.trans (congrArg transit hpc).symm)
    (h.users.give hnodup (congrArg frees hpc) hfrees) (fun c' hc' => slab_slabFree hc')
    (fun b _ hb => ?_) hok
  -- what stays cut was cut for the same slab
  obtain ⟨c', k', hcut', -⟩ := (inv_reachable nslabs hreach).held_page hb
  have hold := cutFor_of_slabFree hcut'
  rw [hgsa', hgsa]
  refine hcut'.cpu.trans (hold.cpu.symm.trans ?_)
  rw [Gsa.virtToPage, dataPtr_slabFree]
  rfl

theorem owned_of_keptPage (h : RaceInv nslabs nthreads s given) (hpc : s.pc t = .giving a c)
    (hkept : ¬ (s.gsa.owned (s.gsa.virtToPage a.ptr) &&
      !(s.gsa.slabFree c a.ptr).owned (s.gsa.virtToPage a.ptr)) = true) :
    (s.gsa.slabFree c a.ptr).owned = s.gsa.owned := by
  have ho := h.owned_of_given ((h.users.split a).mpr (.inr ⟨t, congrArg frees hpc⟩))
  rcases @owned_slabFree s.gsa c a.ptr with heq | heq
  · exact heq
  · rw [ho, heq, Function.update_self] at hkept
    exact absurd rfl hkept

theorem owned_of_gonePage (hgone : (s.gsa.owned (s.gsa.virtToPage a.ptr) &&
      !(s.gsa.slabFree c a.ptr).owned (s.gsa.virtToPage a.ptr)) = true) :
    (s.gsa.slabFree c a.ptr).owned =
      Function.update s.gsa.owned (s.gsa.virtToPage a.ptr) false := by
  rcases @owned_slabFree s.gsa c a.ptr with heq | heq
  · rw [heq, Bool.and_not_self] at hgone
    cases hgone
  · exact heq

theorem RaceInv.idle_putting (h : RaceInv nslabs nthreads s given)
    (htransit : transit (s.pc t) = none) : s.mem.putting t = none := (h.putting t).trans htransit

/-- The page allocator gives a page or none. -/
theorem RaceInv.alloc (h : RaceInv nslabs nthreads s given) (hpc : s.pc t = .allocating c size)
    (hempty : s.gsa.slabListEmpty c size = true) {mem : PaRace.Threads}
    (hnext : PaRace.next paSize s.mem (.alloc t 0) = some mem) :
    RaceInv nslabs nthreads
      (match (paAllocOrder paSize 0 false s.mem.pa).1 with
        | none => (s.setMem mem).leave t c .idle
        | some bn => (s.setMem mem).goto t (.cutting c size bn)) given := by
  have ht : t < nthreads := h.lt (by simp [hpc])
  have hput : s.mem.putting t = none := h.idle_putting (congrArg transit hpc)
  have hmem := PaRace.inv_next h.mem (noPendingFollower_zero h.mem) hnext
  have hhand : hand (s.pc t) = none := congrArg hand hpc
  obtain ⟨hlt, hsize⟩ : PcOk s.gsa (.allocating c size) := hpc ▸ h.ok t
  obtain ⟨hgrow, hres⟩ := @alloc_spec s.mem paSize h.mem _ rfl
  obtain ⟨-, ⟨⟩⟩ := Option.ite_none_right_eq_some.mp hnext
  have hputting : s.mem.putting = Function.update s.mem.putting t none :=
    (Function.update_eq_self_iff.mpr hput.symm).symm
  rcases hres with ⟨hnone, hcnt⟩ | ⟨bn, hsome, hzero, -, hcnt⟩
  · rw [hnone] at hmem ⊢
    refine h.setMem ht hmem hgrow (h.locks.release (congrArg (holds nslabs) hpc) rfl) ?_ hputting
      (congrArg frees hpc).symm trivial
    change Pages _ _ (paAllocOrder paSize 0 false s.mem.pa).2.refcount
    rw [hcnt]
    exact h.pages.keep hhand.symm
  · rw [hsome] at hmem ⊢
    refine h.setMem ht hmem hgrow (h.locks.keep (congrArg (holds nslabs) hpc).symm) ?_ hputting
      (congrArg frees hpc).symm ⟨hlt, hsize, hempty⟩
    change Pages _ _ (paAllocOrder paSize 0 false s.mem.pa).2.refcount
    rw [hcnt]
    exact h.pages.take hhand rfl hzero

/-- The decrement takes the last reference. -/
theorem RaceInv.dec (h : RaceInv nslabs nthreads s given) (hpc : s.pc t = .putting c bn)
    {mem : PaRace.Threads} (hnext : PaRace.next paSize s.mem (.dec t bn) = some mem) :
    (paPutPageDec s.mem.pa bn).1 = true ∧
      RaceInv nslabs nthreads ((s.setMem mem).goto t (.linking c bn)) given := by
  have hmem := PaRace.inv_next h.mem (a := .dec t bn) trivial hnext
  have hhand : hand (s.pc t) = some bn := congrArg hand hpc
  have hone := (h.pages.mine t bn hhand).2
  have hlast : (paPutPageDec s.mem.pa bn).1 = true := beq_iff_eq.mpr hone
  obtain ⟨-, ⟨⟩⟩ := Option.ite_none_right_eq_some.mp hnext
  refine ⟨hlast, h.setMem (h.lt (by simp [hpc])) hmem (Nat.le_refl _)
    (h.locks.keep (congrArg (holds nslabs) hpc).symm) ?_ ?_ (congrArg frees hpc).symm trivial⟩
  · change Pages _ _ (Function.update s.mem.pa.refcount bn (s.mem.pa.refcount bn - 1))
    rw [hone]
    exact h.pages.drop hhand rfl
  · change Function.update s.mem.putting t (if (paPutPageDec s.mem.pa bn).1 then some bn else none) =
      _
    rw [if_pos hlast]
    rfl

/-- The page goes back to the free list. -/
theorem RaceInv.link (h : RaceInv nslabs nthreads s given) (hpc : s.pc t = .linking c bn)
    {mem : PaRace.Threads} (hnext : PaRace.next paSize s.mem (.link t) = some mem) :
    RaceInv nslabs nthreads ((s.setMem mem).leave t c .idle) given := by
  have hmem := PaRace.inv_next h.mem (a := .link t) trivial hnext
  have hput : s.mem.putting t = some bn := (h.putting t).trans (congrArg transit hpc)
  obtain rfl := Option.some.inj (by simpa only [PaRace.next, hput] using hnext)
  exact h.setMem (h.lt (by simp [hpc])) hmem (Nat.le_refl _)
    (h.locks.release (congrArg (holds nslabs) hpc) rfl)
    (h.pages.keep (congrArg hand hpc).symm) rfl (congrArg frees hpc).symm trivial

/-- A turn that only reads, or takes or gives a lock. -/
theorem RaceInv.walk (h : RaceInv nslabs nthreads s given) {q : Pc} (hpc : s.pc t = q)
    (hq : q ≠ .idle) {lock : ℕ → Option ℕ}
    (hlocks : LocksAgree (holds nslabs) (Function.update s.pc t p) lock)
    (hhand : hand p = hand q) (htransit : transit p = transit q) (hfrees : frees p = frees q)
    (hok : PcOk s.gsa p) :
    RaceInv nslabs nthreads { s with lock := lock, pc := Function.update s.pc t p } given := by
  subst hpc
  exact h.goto (h.lt hq) hlocks hhand htransit (h.users.keep hfrees) hok

/-- **One turn keeps the invariant.** -/
theorem RaceInv.turn (h : RaceInv nslabs nthreads s given) (hturn : s.turn t paSize = some s') :
    ∃ given', RaceInv nslabs nthreads s' given' := by
  have hok := h.ok t
  have hn := h.nslabs_eq
  cases hpc : s.pc t with
  | idle =>
    rw [Race.turn, hpc] at hturn
    cases hturn
  | testing cpu size =>
    rw [hpc] at hok
    simp only [Race.turn, hpc] at hturn
    split_ifs at hturn <;> obtain rfl := Option.some.inj hturn
    · exact ⟨given, h.walk hpc nofun (h.locks.keep (congrArg (holds nslabs) hpc).symm) rfl rfl
        rfl hok⟩
    · exact ⟨given, h.walk hpc nofun (h.locks.keep (congrArg (holds nslabs) hpc).symm) rfl rfl
        rfl hok⟩
  | trying cpu size i =>
    rw [hpc] at hok
    simp only [Race.turn, hpc] at hturn
    split_ifs at hturn with hi hlock <;> obtain rfl := Option.some.inj hturn
    · exact ⟨given, h.walk hpc nofun (h.locks.keep (congrArg (holds nslabs) hpc).symm) rfl rfl
        rfl hok⟩
    · have hacquire := h.locks.acquire (p := .looking cpu size i)
        (Option.not_isSome_iff_eq_none.mp hlock) (congrArg (holds nslabs) hpc)
        (by rw [Race.sslabAt, hn]; rfl)
      exact ⟨given, h.walk hpc nofun hacquire rfl rfl rfl hok⟩
    · exact ⟨given, h.walk hpc nofun (h.locks.keep (congrArg (holds nslabs) hpc).symm) rfl rfl
        rfl ⟨Nat.mod_lt _ (Nat.zero_lt_of_lt hok.1), hok.2⟩⟩
  | looking cpu size i =>
    rw [hpc] at hok
    have hc : holds nslabs (s.pc t) = some (s.sslabAt cpu i) := by
      rw [hpc, Race.sslabAt, hn]
      rfl
    simp only [Race.turn, hpc] at hturn
    split_ifs at hturn with hempty <;> obtain rfl := Option.some.inj hturn
    · exact ⟨given, h.walk hpc nofun (h.locks.release hc rfl) rfl rfl rfl hok⟩
    · have hlt : s.sslabAt cpu i < nslabs := hn ▸ Nat.mod_lt _ (Nat.zero_lt_of_lt hok.1)
      exact h.pop hc (congrArg hand hpc) (congrArg transit hpc) (congrArg SlabRace.frees hpc) hlt
        hok.2 hempty
  | waiting c size =>
    rw [hpc] at hok
    simp only [Race.turn, hpc] at hturn
    split_ifs at hturn with hlock
    obtain rfl := Option.some.inj hturn
    have hacquire := h.locks.acquire (p := .allocating c size)
      (Option.not_isSome_iff_eq_none.mp hlock) (congrArg (holds nslabs) hpc) rfl
    exact ⟨given, h.walk hpc nofun hacquire rfl rfl rfl hok⟩
  | allocating c size =>
    rw [hpc] at hok
    simp only [Race.turn, hpc] at hturn
    split_ifs at hturn with hempty
    · obtain ⟨mem, hnext, rfl⟩ := Option.map_eq_some_iff.mp hturn
      exact ⟨given, h.alloc hpc hempty hnext⟩
    · obtain rfl := Option.some.inj hturn
      exact h.pop (congrArg (holds nslabs) hpc) (congrArg hand hpc) (congrArg transit hpc)
        (congrArg SlabRace.frees hpc) (hn ▸ hok.1) hok.2 hempty
  | cutting c size bn =>
    simp only [Race.turn, hpc] at hturn
    obtain rfl := Option.some.inj hturn
    exact h.cutPop hpc
  | finding a =>
    have ha : a ∈ given := (h.users.split a).mpr (.inr ⟨t, congrArg SlabRace.frees hpc⟩)
    obtain ⟨c, k, hcut, helem, -⟩ := h.slab.held_page ha
    simp only [Race.turn, hpc, h.slab.zusGsaCpuOf hcut helem] at hturn
    obtain rfl := Option.some.inj hturn
    exact ⟨given, h.walk hpc nofun (h.locks.keep (congrArg (holds nslabs) hpc).symm) rfl rfl rfl
      hcut.cpu⟩
  | freeing a c =>
    rw [hpc] at hok
    simp only [Race.turn, hpc] at hturn
    split_ifs at hturn with hlock
    obtain rfl := Option.some.inj hturn
    have hacquire := h.locks.acquire (p := .giving a c)
      (Option.not_isSome_iff_eq_none.mp hlock) (congrArg (holds nslabs) hpc) rfl
    exact ⟨given, h.walk hpc nofun hacquire rfl rfl rfl hok⟩
  | giving a c =>
    have ha : a ∈ given := (h.users.split a).mpr (.inr ⟨t, congrArg SlabRace.frees hpc⟩)
    have hhand : hand (s.pc t) = none := congrArg hand hpc
    simp only [Race.turn, hpc] at hturn
    split_ifs at hturn with hgone <;> obtain rfl := Option.some.inj hturn
    · refine ⟨_, h.give hpc (h.locks.keep (congrArg (holds nslabs) hpc).symm) ?_ rfl rfl trivial⟩
      rw [owned_of_gonePage hgone]
      exact h.pages.giveUp hhand rfl (h.owned_of_given ha)
    · refine ⟨_, h.give hpc (h.locks.release (congrArg (holds nslabs) hpc) rfl) ?_ rfl rfl
        trivial⟩
      rw [owned_of_keptPage h hpc hgone]
      exact h.pages.keep hhand.symm
  | putting c bn =>
    simp only [Race.turn, hpc] at hturn
    obtain ⟨mem, hnext, rfl⟩ := Option.map_eq_some_iff.mp hturn
    obtain ⟨hlast, hinv⟩ := h.dec hpc hnext
    rw [if_pos hlast]
    exact ⟨given, hinv⟩
  | linking c bn =>
    simp only [Race.turn, hpc] at hturn
    obtain ⟨mem, hnext, rfl⟩ := Option.map_eq_some_iff.mp hturn
    exact ⟨given, h.link hpc hnext⟩

theorem raceInv_start {dataPtr : ℕ} (ha : dataPtr % blockSize = 0) (hp : 0 < dataPtr) :
    RaceInv nslabs nthreads (start nslabs dataPtr) [] where
  mem := PaRace.inv_start
  seq := ⟨initGsa nslabs dataPtr, .init ⟨dataPtr, ha, hp, rfl⟩, Nat.le_refl 0, rfl⟩
  locks _ _ := iff_of_false nofun nofun
  pages := ⟨nofun, nofun, nofun, fun _ hne => absurd rfl hne⟩
  putting _ := rfl
  users := ⟨nofun, fun _ => iff_of_false List.not_mem_nil
    (not_or_intro List.not_mem_nil fun ⟨_, h⟩ => nomatch h), nofun, List.nodup_nil⟩
  ok _ := trivial
  idle _ _ := rfl

theorem RaceInv.next (h : RaceInv nslabs nthreads s given) {act : Act}
    (hnext : next paSize nthreads s act = some s') : ∃ given', RaceInv nslabs nthreads s' given' := by
  cases act with
  | turn t => exact h.turn hnext
  | malloc t cpu size =>
    rw [SlabRace.next] at hnext
    split at hnext
    · next hpc =>
      obtain ⟨⟨ht, hok⟩, hstart⟩ := Option.ite_none_right_eq_some.mp hnext
      split_ifs at hstart <;> obtain rfl := Option.some.inj hstart
      · exact ⟨given, h.goto ht (h.locks.keep (congrArg (holds nslabs) hpc).symm)
          (congrArg hand hpc).symm (congrArg transit hpc).symm
          (h.users.keep (congrArg SlabRace.frees hpc).symm) hok⟩
      · exact ⟨given, h.goto ht (h.locks.keep (congrArg (holds nslabs) hpc).symm)
          (congrArg hand hpc).symm (congrArg transit hpc).symm
          (h.users.keep (congrArg SlabRace.frees hpc).symm) hok⟩
    · cases hnext
  | free t a =>
    rw [SlabRace.next] at hnext
    split at hnext
    · next hpc =>
      obtain ⟨⟨ht, ha⟩, hstart⟩ := Option.ite_none_right_eq_some.mp hnext
      obtain rfl := Option.some.inj hstart
      exact ⟨given, h.goto ht (h.locks.keep (congrArg (holds nslabs) hpc).symm)
        (congrArg hand hpc).symm (congrArg transit hpc).symm
        (h.users.take ha (congrArg SlabRace.frees hpc) rfl) trivial⟩
    · cases hnext

theorem exists_raceInv (h : (slabThreads paSize nslabs nthreads).Reachable s) :
    ∃ given, RaceInv nslabs nthreads s given := by
  refine h.invariant (I := fun s => ∃ given, RaceInv nslabs nthreads s given) ?_ ?_
  · rintro s ⟨dataPtr, ha, hp, rfl⟩
    exact ⟨[], raceInv_start ha hp⟩
  · rintro s act s' ⟨given, hinv⟩ hnext
    exact hinv.next hnext

/-! ## What holds in every run -/

/-- **Under threads the slabs do what they do under one call after the other**: in every
interleaving they are, but for the size of the pool, as some run of complete calls leaves them, and
what that run has given is what the users have and what threads are about to give back. -/
theorem slabThreads_refine (paSize nslabs nthreads : ℕ) (s : Race)
    (hreach : (slabThreads paSize nslabs nthreads).Reachable s) :
    ∃ g given, (slabSys nslabs).Reachable ⟨g, given⟩ ∧ s.gsa = sized g s.mem.pa.size ∧
      (∀ a, a ∈ given ↔ a ∈ s.live ∨ ∃ t, frees (s.pc t) = some a) ∧
      (∀ t a, frees (s.pc t) = some a → a ∉ s.live) ∧
      ∀ t t' a, frees (s.pc t) = some a → frees (s.pc t') = some a → t = t' := by
  obtain ⟨given, h⟩ := exists_raceInv hreach
  obtain ⟨g, hg, -, hgsa⟩ := h.seq
  exact ⟨g, given, hg, hgsa, h.users.split, h.users.apart, fun t t' a => h.users.single a t t'⟩

/-- A thread has allocated, and another one is freeing that while the first one is in its next
call. -/
theorem slabThreads_refine_two : ∃ s, (slabThreads (1 <<< 32) 2 2).Reachable s ∧
    s.live = [] ∧ frees (s.pc 1) = some ⟨4096, 100⟩ ∧
    ∃ g given, (slabSys 2).Reachable ⟨g, given⟩ ∧ s.gsa = sized g s.mem.pa.size := by
  have h₀ : (slabThreads (1 <<< 32) 2 2).Reachable (start 2 4096) :=
    .init ⟨4096, by decide, by decide, rfl⟩
  obtain ⟨s, hs, hp⟩ := h₀.exists_of_runAll
    [.malloc 0 0 100, .turn 0, .turn 0, .turn 0, .turn 0, .malloc 0 0 100, .free 1 ⟨4096, 100⟩]
    (p := fun s => s.live.isEmpty && frees (s.pc 1) == some ⟨4096, 100⟩) (by decide +kernel)
  rw [Bool.and_eq_true, List.isEmpty_iff, beq_iff_eq] at hp
  obtain ⟨g, given, hg, hgsa, -⟩ := slabThreads_refine _ _ _ s hs
  exact ⟨s, hs, hp.1, hp.2, g, given, hg, hgsa⟩

/-! ## Pages -/

/-- Where a page of the pool can be. -/
inductive Spot
  /-- on the free list -/
  | free
  /-- about to be inserted by a thread -/
  | transit (t : ℕ)
  /-- with a thread -/
  | hand (t : ℕ)
  /-- cut into elements -/
  | cut

def IsAt (s : Race) (bn : ℕ) : Spot → Prop
  | .free => bn ∈ s.mem.pa.head
  | .transit t => transit (s.pc t) = some bn
  | .hand t => hand (s.pc t) = some bn
  | .cut => s.gsa.owned bn = true

/-- A spot whose pages have a reference. -/
def Spot.referenced : Spot → Bool
  | .free => false
  | .transit _ => false
  | .hand _ => true
  | .cut => true

/-- The spot of a page tells its reference count. -/
theorem RaceInv.refcount (h : RaceInv nslabs nthreads s given) {w : Spot} (hw : IsAt s bn w) :
    s.mem.pa.refcount bn = if w.referenced then 1 else 0 := by
  cases w with
  | free => exact (h.mem.idle bn hw).refcount
  | transit t => exact h.mem.pending t bn ((h.putting t).trans hw)
  | hand t => exact (h.pages.mine t bn hw).2
  | cut => exact h.pages.owned bn hw

theorem RaceInv.exists_spot (h : RaceInv nslabs nthreads s given) (hbn : bn < s.mem.pa.size) :
    ∃ w, IsAt s bn w := by
  by_cases hzero : s.mem.pa.refcount bn = 0
  · by_cases hput : ∃ t, s.mem.putting t = some bn
    · obtain ⟨t, ht⟩ := hput
      exact ⟨.transit t, (h.putting t).symm.trans ht⟩
    · exact ⟨.free, h.mem.linked bn hbn hzero (not_exists.mp hput)⟩
  · rcases h.pages.used bn hzero with ho | ⟨t, ht⟩
    · exact ⟨.cut, ho⟩
    · exact ⟨.hand t, ht⟩

theorem RaceInv.spot_unique (h : RaceInv nslabs nthreads s given) {w w' : Spot}
    (hw : IsAt s bn w) (hw' : IsAt s bn w') : w = w' := by
  have hcnt := (h.refcount hw).symm.trans (h.refcount hw')
  have hfree : ∀ {t}, bn ∈ s.mem.pa.head → transit (s.pc t) ≠ some bn := fun hmem ht =>
    (h.mem.idle bn hmem).putting _ ((h.putting _).trans ht)
  have hcut : ∀ {t}, s.gsa.owned bn = true → hand (s.pc t) ≠ some bn := fun ho ht => by
    rw [(h.pages.mine _ bn ht).1] at ho
    cases ho
  cases w <;> cases w'
  case free.free => rfl
  case cut.cut => rfl
  case transit.transit t t' =>
    rw [h.mem.single t t' bn ((h.putting t).trans hw) ((h.putting t').trans hw')]
  case hand.hand t t' => rw [h.pages.hands bn t t' hw hw']
  case free.transit => exact absurd hw' (hfree hw)
  case transit.free => exact absurd hw (hfree hw')
  case cut.hand => exact absurd hw' (hcut hw)
  case hand.cut => exact absurd hw (hcut hw')
  all_goals cases hcnt

/-- **No page is lost, and none is in two hands**: in every interleaving every page of the pool is
on the free list, about to be inserted by one thread, with one thread, or cut for the slabs, and
only one of these; it has a reference in the last two. -/
theorem slabThreads_pages (paSize nslabs nthreads : ℕ) (s : Race)
    (hreach : (slabThreads paSize nslabs nthreads).Reachable s) :
    s.mem.pa.head.Nodup ∧ ∀ bn,
      (bn < s.mem.pa.size → ∃! w, IsAt s bn w) ∧
      ∀ w, IsAt s bn w → bn < s.mem.pa.size ∧
        s.mem.pa.refcount bn = if w.referenced then 1 else 0 := by
  obtain ⟨given, h⟩ := exists_raceInv hreach
  refine ⟨h.mem.nodup, fun bn => ⟨fun hbn => ?_, fun w hw => ⟨?_, h.refcount hw⟩⟩⟩
  · obtain ⟨w, hw⟩ := h.exists_spot hbn
    exact ⟨w, hw, fun w' hw' => h.spot_unique hw' hw⟩
  · cases w with
    | free => exact h.mem.lt bn hw
    | transit t =>
      by_contra hge
      exact (h.mem.fresh bn (Nat.not_lt.mp hge)).putting t ((h.putting t).trans hw)
    | hand t =>
      have hone := h.refcount hw
      exact lt_size_of_refcount h.mem (by rw [hone]; exact Nat.one_ne_zero)
    | cut =>
      have hone := h.refcount hw
      exact lt_size_of_refcount h.mem (by rw [hone]; exact Nat.one_ne_zero)

/-- A thread has a page from the page allocator and has not cut it. -/
theorem slabThreads_pages_hand : ∃ s, (slabThreads (1 <<< 32) 2 2).Reachable s ∧
    IsAt s 0 (.hand 0) ∧ s.mem.pa.refcount 0 = 1 := by
  have h₀ : (slabThreads (1 <<< 32) 2 2).Reachable (start 2 4096) :=
    .init ⟨4096, by decide, by decide, rfl⟩
  obtain ⟨s, hs, hp⟩ := h₀.exists_of_runAll [.malloc 0 0 100, .turn 0, .turn 0, .turn 0]
    (p := fun s => hand (s.pc 0) == some 0) (by decide +kernel)
  rw [beq_iff_eq] at hp
  exact ⟨s, hs, hp, (((slabThreads_pages _ _ _ s hs).2 0).2 (.hand 0) hp).2⟩

/-! ## Warnings -/

/-- The element that an allocation has taken is in the pool, and its page has one reference. -/
theorem popWarns_eq_false (h : RaceInv nslabs nthreads (s.pop t c size) given) :
    s.popWarns c size = false := by
  have hsame := sameCut_slabAllocElem s.gsa c (slabListIndex size)
  rw [Race.popWarns]
  rcases hres : (s.gsa.slabAllocElem c (slabListIndex size)).1 with _ | se
  · rfl
  · have hlive : (s.pop t c size).live = ⟨se, size⟩ :: s.live := congrArg (noteAlloc s.live size) hres
    have hgiven : (⟨se, size⟩ : Alloc) ∈ given := (h.users.split _).mpr <| .inl <| by
      rw [hlive]
      exact List.mem_cons_self
    obtain ⟨c', k', hcut, helem, -⟩ := h.slab.held_page hgiven
    have hcnt : s.mem.pa.refcount (s.gsa.virtToPage se) = 1 := by
      rw [← hsame.virtToPage]
      exact h.pages.owned _ hcut.owned
    have hrange : s.gsa.paAddrInrange se = true := by
      have hin := h.slab.inrange hcut helem
      change (s.gsa.slabAllocElem c (slabListIndex size)).2.paAddrInrange se = true at hin
      rw [Gsa.paAddrInrange, hsame.dataPtr, hsame.paSize] at hin
      exact hin
    dsimp only
    rw [hrange, hcnt]
    rfl

/-- The counter of a list tells whether it has elements. -/
theorem listWarns_eq_false (h : RaceInv nslabs nthreads s given)
    (hsize : slabSizeValid size = true) : s.listWarns c size = false := by
  have hk := (slabListIndex_spec hsize).1
  rw [Race.listWarns, decide_eq_false (Nat.not_le.mpr hk), Bool.false_or, Gsa.slabListEmpty,
    h.slab.nfree]
  rcases (s.gsa.slab c (slabListIndex size)).head with _ | ⟨e, es⟩
  · rfl
  · rfl

/-- **The warnings of the slabs never fire**: in no interleaving does a thread find a list whose
counter is wrong, an element outside the pool, a page that somebody else has a reference to, or an
address that is of no slab. -/
theorem slabThreads_silent (paSize nslabs nthreads : ℕ) (s : Race)
    (hreach : (slabThreads paSize nslabs nthreads).Reachable s) (t : ℕ) : s.warns t = false := by
  obtain ⟨given, h⟩ := exists_raceInv hreach
  have hok := h.ok t
  have hpop : ∀ {c size}, s.turn t paSize = some (s.pop t c size) → s.popWarns c size = false :=
    fun hturn => popWarns_eq_false (h.turn hturn).choose_spec
  rw [Race.warns]
  cases hpc : s.pc t with
  | looking cpu size i =>
    rw [hpc] at hok
    dsimp only
    rw [listWarns_eq_false h hok.2, Bool.false_or]
    rcases hempty : s.gsa.slabListEmpty (s.sslabAt cpu i) size with _ | _
    · refine hpop ?_
      simp only [Race.turn, hpc, hempty]
      rfl
    · rfl
  | allocating c size =>
    rw [hpc] at hok
    dsimp only
    rw [listWarns_eq_false h hok.2, Bool.false_or]
    rcases hempty : s.gsa.slabListEmpty c size with _ | _
    · refine hpop ?_
      simp only [Race.turn, hpc, hempty]
      rfl
    · rfl
  | cutting c size bn => exact popWarns_eq_false (h.cutPop hpc).choose_spec
  | finding a =>
    have ha : a ∈ given := (h.users.split a).mpr (.inr ⟨t, congrArg SlabRace.frees hpc⟩)
    obtain ⟨c, k, hcut, helem, -⟩ := h.slab.held_page ha
    dsimp only
    rw [h.slab.zusGsaCpuOf hcut helem]
    rfl
  | giving a c =>
    have ha : a ∈ given := (h.users.split a).mpr (.inr ⟨t, congrArg SlabRace.frees hpc⟩)
    obtain ⟨c, k, hcut, helem, -⟩ := h.slab.held_page ha
    dsimp only
    rw [h.slab.inrange hcut helem]
    rfl
  | putting c bn =>
    have hone := (h.pages.mine t bn (congrArg hand hpc)).2
    dsimp only
    rw [paPutPageDec, hone]
    rfl
  | _ => rfl

/-- The turn in which a thread cuts its first page. -/
theorem slabThreads_silent_cutting : ∃ s, (slabThreads (1 <<< 32) 2 2).Reachable s ∧
    hand (s.pc 0) = some 0 ∧ s.warns 0 = false := by
  have h₀ : (slabThreads (1 <<< 32) 2 2).Reachable (start 2 4096) :=
    .init ⟨4096, by decide, by decide, rfl⟩
  obtain ⟨s, hs, hp⟩ := h₀.exists_of_runAll [.malloc 0 0 100, .turn 0, .turn 0, .turn 0]
    (p := fun s => hand (s.pc 0) == some 0) (by decide +kernel)
  rw [beq_iff_eq] at hp
  exact ⟨s, hs, hp, slabThreads_silent _ _ _ s hs 0⟩

/-! ## Calls come to an end -/

/-- An upper bound of the turns that a call has left. -/
def rank (n : ℕ) : Pc → ℕ
  | .idle => 0
  | .testing _ _ => 2 * n + 5
  | .trying _ _ i => 2 * (n - i) + 4
  | .looking _ _ i => 2 * (n - (i + 1)) + 5
  | .waiting _ _ => 3
  | .allocating _ _ => 2
  | .cutting _ _ _ => 1
  | .finding _ => 5
  | .freeing _ _ => 4
  | .giving _ _ => 3
  | .putting _ _ => 2
  | .linking _ _ => 1

theorem rank_le (n : ℕ) (p : Pc) : rank n p ≤ 2 * n + 5 := by
  cases p <;> simp only [rank] <;> omega

/-- A turn moves one thread, to a place with fewer turns left. -/
theorem turn_lowers (hn : s.gsa.nslabs = nslabs) (hturn : s.turn t paSize = some s') :
    ∃ p, s'.pc = Function.update s.pc t p ∧ rank nslabs p < rank nslabs (s.pc t) := by
  cases hpc : s.pc t with
  | idle =>
    rw [Race.turn, hpc] at hturn
    cases hturn
  | testing cpu size =>
    simp only [Race.turn, hpc] at hturn
    split_ifs at hturn <;> obtain rfl := Option.some.inj hturn
    · exact ⟨_, rfl, by simp only [rank]; omega⟩
    · exact ⟨_, rfl, by simp only [rank]; omega⟩
  | trying cpu size i =>
    simp only [Race.turn, hpc] at hturn
    split_ifs at hturn <;> obtain rfl := Option.some.inj hturn
    · exact ⟨_, rfl, by simp only [rank]; omega⟩
    · exact ⟨_, rfl, by simp only [rank]; omega⟩
    · exact ⟨_, rfl, by simp only [rank]; omega⟩
  | looking cpu size i =>
    simp only [Race.turn, hpc] at hturn
    split_ifs at hturn <;> obtain rfl := Option.some.inj hturn
    · exact ⟨_, rfl, by simp only [rank]; omega⟩
    · exact ⟨_, rfl, by simp only [rank]; omega⟩
  | waiting c size =>
    simp only [Race.turn, hpc] at hturn
    split_ifs at hturn
    obtain rfl := Option.some.inj hturn
    exact ⟨_, rfl, by simp only [rank]; omega⟩
  | allocating c size =>
    simp only [Race.turn, hpc] at hturn
    split_ifs at hturn
    · obtain ⟨mem, -, rfl⟩ := Option.map_eq_some_iff.mp hturn
      split
      · exact ⟨_, rfl, by simp only [rank]; omega⟩
      · exact ⟨_, rfl, by simp only [rank]; omega⟩
    · obtain rfl := Option.some.inj hturn
      exact ⟨_, rfl, by simp only [rank]; omega⟩
  | cutting c size bn =>
    simp only [Race.turn, hpc] at hturn
    obtain rfl := Option.some.inj hturn
    exact ⟨_, rfl, by simp only [rank]; omega⟩
  | finding a =>
    simp only [Race.turn, hpc] at hturn
    split at hturn <;> obtain rfl := Option.some.inj hturn
    · exact ⟨_, rfl, by simp only [rank]; omega⟩
    · exact ⟨_, rfl, by simp only [rank]; omega⟩
  | freeing a c =>
    simp only [Race.turn, hpc] at hturn
    split_ifs at hturn
    obtain rfl := Option.some.inj hturn
    exact ⟨_, rfl, by simp only [rank]; omega⟩
  | giving a c =>
    simp only [Race.turn, hpc] at hturn
    split_ifs at hturn <;> obtain rfl := Option.some.inj hturn
    · exact ⟨_, rfl, by simp only [rank]; omega⟩
    · exact ⟨_, rfl, by simp only [rank]; omega⟩
  | putting c bn =>
    simp only [Race.turn, hpc] at hturn
    obtain ⟨mem, -, rfl⟩ := Option.map_eq_some_iff.mp hturn
    split_ifs
    · exact ⟨_, rfl, by simp only [rank]; omega⟩
    · exact ⟨_, rfl, by simp only [rank]; omega⟩
  | linking c bn =>
    simp only [Race.turn, hpc] at hturn
    obtain ⟨mem, -, rfl⟩ := Option.map_eq_some_iff.mp hturn
    exact ⟨_, rfl, by simp only [rank]; omega⟩

/-- A thread with a lock never waits. -/
theorem RaceInv.turn_of_holds (h : RaceInv nslabs nthreads s given)
    (hc : holds nslabs (s.pc t) = some c) : s.turn t paSize ≠ none := by
  intro hturn
  cases hpc : s.pc t with
  | looking cpu size i =>
    simp only [Race.turn, hpc] at hturn
    split_ifs at hturn
  | allocating c size =>
    have hput : s.mem.putting t = none := h.idle_putting (congrArg transit hpc)
    have hnext : PaRace.next paSize s.mem (.alloc t 0) = some _ := if_pos ⟨hput, Nat.zero_le _⟩
    simp only [Race.turn, hpc] at hturn
    split_ifs at hturn
    rw [hnext] at hturn
    cases hturn
  | cutting c size bn =>
    rw [Race.turn, hpc] at hturn
    cases hturn
  | giving a c =>
    simp only [Race.turn, hpc] at hturn
    split_ifs at hturn
  | putting c bn =>
    have hput : s.mem.putting t = none := h.idle_putting (congrArg transit hpc)
    have hone := (h.pages.mine t bn (congrArg hand hpc)).2
    have hnext : PaRace.next paSize s.mem (.dec t bn) = some _ := if_pos ⟨hput, by omega⟩
    simp only [Race.turn, hpc, hnext] at hturn
    cases hturn
  | linking c bn =>
    have hput : s.mem.putting t = some bn := (h.putting t).trans (congrArg transit hpc)
    simp only [Race.turn, hpc, PaRace.next, hput] at hturn
    cases hturn
  | _ =>
    rw [hpc] at hc
    cases hc

/-- Where no thread has a turn, no thread is in a call. -/
theorem RaceInv.idle_of_stuck (h : RaceInv nslabs nthreads s given)
    (hstuck : ∀ t, s.turn t paSize = none) (t : ℕ) : s.pc t = .idle := by
  have hfree : ∀ c, ¬ (s.lock c).isSome = true := by
    intro c hc
    obtain ⟨t', ht'⟩ := Option.isSome_iff_exists.mp hc
    exact h.turn_of_holds ((h.locks t' c).mp ht') (hstuck t')
  have hturn := hstuck t
  cases hpc : s.pc t with
  | idle => rfl
  | testing cpu size =>
    simp only [Race.turn, hpc] at hturn
    split_ifs at hturn
  | trying cpu size i =>
    simp only [Race.turn, hpc] at hturn
    split_ifs at hturn
  | waiting c size =>
    simp only [Race.turn, hpc, if_neg (hfree c)] at hturn
    cases hturn
  | finding a =>
    simp only [Race.turn, hpc] at hturn
    split at hturn <;> cases hturn
  | freeing a c =>
    simp only [Race.turn, hpc, if_neg (hfree c)] at hturn
    cases hturn
  | _ => exact absurd hturn (h.turn_of_holds (congrArg (holds nslabs) hpc))

/-- A turn lowers what its own thread has left, and leaves that of every other. -/
theorem turn_of_thread (t : ℕ) {u : ℕ} (hI : ∃ given, RaceInv nslabs nthreads s given)
    (hturn : s.turn u paSize = some s') :
    (∃ given, RaceInv nslabs nthreads s' given) ∧
      rank nslabs (s'.pc t) ≤ rank nslabs (s.pc t) ∧
      ((u == t) = true → rank nslabs (s'.pc t) < rank nslabs (s.pc t)) := by
  obtain ⟨given, h⟩ := hI
  refine ⟨h.turn hturn, ?_⟩
  obtain ⟨p, hpc, hlt⟩ := turn_lowers h.nslabs_eq hturn
  rw [hpc, beq_iff_eq]
  by_cases hut : u = t
  · subst hut
    rw [Function.update_self]
    exact ⟨hlt.le, fun _ => hlt⟩
  · rw [Function.update_of_ne (Ne.symm hut)]
    exact ⟨le_rfl, fun heq => absurd heq hut⟩

/-- **Calls come to an end**: from every state of every interleaving, however the threads are
scheduled, each call under way has at most `2 * nslabs + 5` turns left, a thread in no call has
none, and when no thread has a turn any more all calls have returned: no thread waits for a lock for
ever, every lock is free and every page that was given back is on the free list. -/
theorem calls_return (paSize nslabs nthreads : ℕ) (s s' : Race)
    (hreach : (slabThreads paSize nslabs nthreads).Reachable s) (ts : List ℕ)
    (hrun : Lts.runAll (fun s t => s.turn t paSize) ts s = some s') :
    (∀ t, ts.count t ≤ 2 * nslabs + 5) ∧ (∀ t, s.pc t = .idle → ts.count t = 0) ∧
      ts.length ≤ nthreads * (2 * nslabs + 5) ∧
      ((∀ t, s'.turn t paSize = none) →
        (∀ t, s'.pc t = .idle) ∧ (∀ c, s'.lock c = none) ∧ ∀ t, s'.mem.putting t = none) := by
  have hlow : ∀ s t s', (∃ given, RaceInv nslabs nthreads s given) → s.turn t paSize = some s' →
      (∃ given, RaceInv nslabs nthreads s' given) ∧
        work (rank nslabs) nthreads s'.pc < work (rank nslabs) nthreads s.pc := by
    rintro s t s' ⟨given, h⟩ hturn
    refine ⟨h.turn hturn, ?_⟩
    obtain ⟨p, hpc, hlt⟩ := turn_lowers h.nslabs_eq hturn
    rw [hpc]
    refine work_update_lt (h.lt fun hidle => ?_) hlt
    rw [hidle] at hlt
    cases hlt
  have heach (t : ℕ) : ts.count t ≤ rank nslabs (s.pc t) := by
    have hcount := (runAll_countP_le (fun _ _ _ hI hturn => turn_of_thread t hI hturn)
      (exists_raceInv hreach) hrun).2
    exact (Nat.le_add_right _ _).trans hcount
  obtain ⟨⟨given, h⟩, hle⟩ := runAll_lowers hlow (exists_raceInv hreach) hrun
  refine ⟨fun t => (heach t).trans (rank_le nslabs _), fun t hidle => ?_, ?_, fun hstuck => ?_⟩
  · have hle := heach t
    rw [hidle] at hle
    exact Nat.le_zero.mp hle
  · have hwork := work_le (rank_le nslabs) nthreads s.pc
    omega
  · have hidle := h.idle_of_stuck hstuck
    refine ⟨hidle, fun c => ?_, fun t => ?_⟩
    · rcases hlock : s'.lock c with _ | t
      · rfl
      · have hholds := (h.locks t c).mp hlock
        rw [hidle t] at hholds
        cases hholds
    · rw [h.putting t, hidle t]
      rfl

/-- An allocation from a cold slab returns after four turns. -/
theorem calls_return_malloc : ∃ s s', (slabThreads (1 <<< 32) 2 2).Reachable s ∧
    Lts.runAll (fun s t => s.turn t (1 <<< 32)) [0, 0, 0, 0] s = some s' ∧
    (∀ t, [0, 0, 0, 0].count t ≤ 2 * 2 + 5) := by
  have h₀ : (slabThreads (1 <<< 32) 2 2).Reachable (start 2 4096) :=
    .init ⟨4096, by decide, by decide, rfl⟩
  obtain ⟨s, hs, hp⟩ := h₀.exists_of_runAll [.malloc 0 0 100]
    (p := fun s => (Lts.runAll (fun s t => s.turn t (1 <<< 32)) [0, 0, 0, 0] s).isSome)
    (by decide +kernel)
  obtain ⟨s', hrun⟩ := Option.isSome_iff_exists.mp hp
  exact ⟨s, s', hs, hrun, (calls_return _ _ _ s s' hs _ hrun).1⟩

end Zus.SlabRace
