import Mathlib.Data.List.Nodup
import Mathlib.Logic.Function.Basic

/-!
# Rings of links

Doubly linked lists that are closed by a head: every node points to the one after it and to the
one before it, and the head is a node like the others. `Ring h hd xs` says that going on from `hd`
one meets the nodes `xs` in order and then `hd` again, and going back the same in reverse. A node
is linked in between two neighbours, and a node that is taken out leaves its neighbours linked.

`Rings` is a family of rings that have no node in common. What is not on a ring may be written
over.
-/

namespace Zus.Lib

universe u v

/-- The links of a node. -/
@[ext] structure Node (A : Type u) where
  next : A
  prev : A

/-- The links of all nodes. -/
abbrev Nodes (A : Type u) := A → Node A

namespace Nodes

variable {A : Type u} [DecidableEq A] (h : Nodes A) (x y e p n : A)

def setNext : Nodes A := Function.update h x { h x with next := y }

def setPrev : Nodes A := Function.update h x { h x with prev := y }

/-- A node linked between two others. -/
def link : Nodes A := (((h.setPrev n e).setNext e n).setPrev e p).setNext p e

/-- The neighbours of a node linked with each other. -/
def unlink : Nodes A :=
  let h' := h.setPrev (h e).next (h e).prev
  h'.setNext (h' e).prev (h' e).next

/-- A node linked with itself. -/
def close : Nodes A := (h.setNext e e).setPrev e e

theorem setNext_apply : h.setNext x y e = if e = x then ⟨y, (h x).prev⟩ else h e :=
  Function.update_apply ..

theorem setPrev_apply : h.setPrev x y e = if e = x then ⟨(h x).next, y⟩ else h e :=
  Function.update_apply ..

@[simp] theorem setNext_next : (h.setNext x y e).next = if e = x then y else (h e).next := by
  rw [setNext_apply]
  split_ifs <;> rfl

@[simp] theorem setNext_prev : (h.setNext x y e).prev = (h e).prev := by
  rw [setNext_apply]
  split_ifs with he
  · rw [he]
  · rfl

@[simp] theorem setPrev_prev : (h.setPrev x y e).prev = if e = x then y else (h e).prev := by
  rw [setPrev_apply]
  split_ifs <;> rfl

@[simp] theorem setPrev_next : (h.setPrev x y e).next = (h e).next := by
  rw [setPrev_apply]
  split_ifs with he
  · rw [he]
  · rfl

theorem link_next :
    (h.link e p n x).next = if x = p then e else if x = e then n else (h x).next := by
  simp [link]

theorem link_prev :
    (h.link e p n x).prev = if x = e then p else if x = n then e else (h x).prev := by
  simp [link]

theorem link_of_ne {x e p n : A} (he : x ≠ e) (hp : x ≠ p) (hn : x ≠ n) : h.link e p n x = h x := by
  ext
  · rw [link_next, if_neg hp, if_neg he]
  · rw [link_prev, if_neg he, if_neg hn]

theorem unlink_next (hne : (h e).next ≠ e) :
    (h.unlink e x).next = if x = (h e).prev then (h e).next else (h x).next := by
  simp [unlink, hne.symm]

theorem unlink_prev :
    (h.unlink e x).prev = if x = (h e).next then (h e).prev else (h x).prev := by
  simp [unlink]

theorem unlink_of_ne {x e : A} (hne : (h e).next ≠ e) (hp : x ≠ (h e).prev) (hn : x ≠ (h e).next) :
    h.unlink e x = h x := by
  ext
  · rw [unlink_next _ _ _ hne, if_neg hp]
  · rw [unlink_prev, if_neg hn]

@[simp] theorem close_self : h.close e e = ⟨e, e⟩ := by
  ext <;> simp [close]

theorem close_of_ne {x e : A} (hne : x ≠ e) : h.close e x = h x := by
  ext <;> simp [close, hne]

end Nodes

section

variable {A : Type u} {h h' : Nodes A} {a b c hd e p n x : A} {xs ys : List A}

/-- The links from one node over some others to a last one. -/
def Seg (h : Nodes A) : A → List A → A → Prop
  | a, [], b => (h a).next = b ∧ (h b).prev = a
  | a, x :: xs, b => ((h a).next = x ∧ (h x).prev = a) ∧ Seg h x xs b

/-- A ring, from its head on. -/
structure Ring (h : Nodes A) (hd : A) (xs : List A) : Prop where
  nodup : (hd :: xs).Nodup
  seg : Seg h hd xs hd

theorem seg_append : Seg h a (xs ++ x :: ys) b ↔ Seg h a xs x ∧ Seg h x ys b := by
  induction xs generalizing a with
  | nil => exact Iff.rfl
  | cons y xs ih => simp only [List.cons_append, Seg, ih, and_assoc]

theorem Seg.congr (hseg : Seg h a xs b) (hnext : ∀ x ∈ a :: xs, (h' x).next = (h x).next)
    (hprev : ∀ x ∈ xs ++ [b], (h' x).prev = (h x).prev) : Seg h' a xs b := by
  induction xs generalizing a with
  | nil =>
    rw [Seg, hnext a List.mem_cons_self, hprev b List.mem_cons_self]
    exact hseg
  | cons x xs ih =>
    rw [Seg, hnext a List.mem_cons_self, hprev x List.mem_cons_self]
    exact ⟨hseg.1, ih hseg.2 (fun y hy => hnext y (List.mem_cons_of_mem _ hy))
      fun y hy => hprev y (List.mem_cons_of_mem _ hy)⟩

/-- The last of the nodes linked with another one. -/
theorem Seg.retarget (hseg : Seg h a xs b) (hnodup : (a :: xs).Nodup)
    (hlast : (a :: xs).getLast (List.cons_ne_nil a xs) = p)
    (hnext : ∀ x ∈ a :: xs, x ≠ p → (h' x).next = (h x).next)
    (hprev : ∀ x ∈ xs, (h' x).prev = (h x).prev) (hp : (h' p).next = c) (hc : (h' c).prev = p) :
    Seg h' a xs c := by
  induction xs generalizing a with
  | nil =>
    obtain rfl : a = p := hlast
    exact ⟨hp, hc⟩
  | cons x xs ih =>
    rw [List.getLast_cons (List.cons_ne_nil x xs)] at hlast
    have hmem : p ∈ x :: xs := hlast ▸ List.getLast_mem _
    have hne : a ≠ p := fun heq => (List.nodup_cons.mp hnodup).1 (heq ▸ hmem)
    rw [Seg, hnext a List.mem_cons_self hne, hprev x List.mem_cons_self]
    exact ⟨hseg.1, ih hseg.2 (List.nodup_cons.mp hnodup).2 hlast
      (fun y hy => hnext y (List.mem_cons_of_mem _ hy))
      fun y hy => hprev y (List.mem_cons_of_mem _ hy)⟩

theorem Seg.next_eq (hseg : Seg h a xs b) : (h a).next = (xs ++ [b]).head (by simp) := by
  cases xs with
  | nil => exact hseg.1
  | cons x xs => exact hseg.1.1

theorem Seg.prev_eq (hseg : Seg h a xs b) :
    (h b).prev = (a :: xs).getLast (List.cons_ne_nil a xs) := by
  induction xs generalizing a with
  | nil => exact hseg.2
  | cons x xs ih =>
    rw [List.getLast_cons (List.cons_ne_nil x xs)]
    exact ih hseg.2

namespace Ring

/-- A ring is a ring from each of its nodes. -/
theorem rotate (hr : Ring h hd (xs ++ x :: ys)) : Ring h x (ys ++ hd :: xs) where
  nodup := by
    have hperm : (hd :: (xs ++ x :: ys)).Perm (x :: (ys ++ hd :: xs)) := by
      have hswap : (hd :: xs ++ x :: ys).Perm (x :: ys ++ hd :: xs) := List.perm_append_comm
      exact hswap
    exact hperm.nodup_iff.mp hr.nodup
  seg := by
    have hseg := seg_append.mp hr.seg
    exact seg_append.mpr ⟨hseg.2, hseg.1⟩

/-- **A ring only depends on the links of its nodes.** -/
theorem congr (hr : Ring h hd xs) (heq : ∀ x ∈ hd :: xs, h' x = h x) : Ring h' hd xs where
  nodup := hr.nodup
  seg := by
    refine hr.seg.congr (fun x hx => by rw [heq x hx]) fun x hx => ?_
    rw [heq]
    rcases List.mem_append.mp hx with hx | hx
    · exact List.mem_cons_of_mem _ hx
    · rw [List.mem_singleton.mp hx]
      exact List.mem_cons_self

/-- The head of an empty ring points to itself. -/
theorem next_eq_iff (hr : Ring h hd xs) : (h hd).next = hd ↔ xs = [] := by
  rw [hr.seg.next_eq]
  cases xs with
  | nil => simp
  | cons x xs =>
    have hne : x ≠ hd := fun heq => (List.nodup_cons.mp hr.nodup).1 (heq ▸ List.mem_cons_self)
    simp [hne]

/-- The first node. -/
theorem next_cons (hr : Ring h hd (x :: xs)) : (h hd).next = x := hr.seg.next_eq

/-- The neighbours of a node are on its ring. -/
theorem next_mem (hr : Ring h hd xs) (hx : x ∈ hd :: xs) : (h x).next ∈ hd :: xs := by
  rcases List.mem_cons.mp hx with rfl | hx
  · rw [hr.seg.next_eq]
    have hmem := List.head_mem (by simp : xs ++ [x] ≠ [])
    simp only [List.mem_append, List.mem_singleton] at hmem
    exact hmem.elim (List.mem_cons_of_mem _) fun heq => List.mem_cons.mpr (.inl heq)
  · obtain ⟨before, after, rfl⟩ := List.append_of_mem hx
    rw [hr.rotate.seg.next_eq]
    have hmem := List.head_mem (by simp : (after ++ hd :: before) ++ [x] ≠ [])
    simp only [List.mem_append, List.mem_cons, List.not_mem_nil, or_false] at hmem ⊢
    tauto

theorem prev_mem (hr : Ring h hd xs) (hx : x ∈ hd :: xs) : (h x).prev ∈ hd :: xs := by
  rcases List.mem_cons.mp hx with rfl | hx
  · rw [hr.seg.prev_eq]
    exact List.getLast_mem _
  · obtain ⟨before, after, rfl⟩ := List.append_of_mem hx
    rw [hr.rotate.seg.prev_eq]
    have hmem := List.getLast_mem (List.cons_ne_nil x (after ++ hd :: before))
    simp only [List.mem_append, List.mem_cons] at hmem ⊢
    tauto

/-- A node on a ring with others does not point to itself. -/
theorem next_ne (hr : Ring h hd xs) (hx : x ∈ xs) : (h x).next ≠ x := by
  obtain ⟨before, after, rfl⟩ := List.append_of_mem hx
  intro heq
  have hnil := hr.rotate.next_eq_iff.mp heq
  simp at hnil

variable [DecidableEq A]

theorem close (h : Nodes A) (hd : A) : Ring (h.close hd) hd [] where
  nodup := List.nodup_singleton hd
  seg := by
    rw [Seg, Nodes.close_self]
    exact ⟨rfl, rfl⟩

/-- **A node linked in at the end.** -/
theorem link_last (hr : Ring h hd xs) (he : e ∉ hd :: xs) :
    Ring (h.link e (h hd).prev hd) hd (xs ++ [e]) where
  nodup := by
    have hall : (hd :: xs ++ [e]).Nodup :=
      List.nodup_append.mpr ⟨hr.nodup, List.nodup_singleton e, fun a ha b hb => by
        rw [List.mem_singleton.mp hb]
        exact fun heq => he (heq ▸ ha)⟩
    exact hall
  seg := by
    have hlast := hr.seg.prev_eq
    have hmem : (h hd).prev ∈ hd :: xs := hlast ▸ List.getLast_mem _
    have hne : ∀ x ∈ hd :: xs, x ≠ e := fun x hx heq => he (heq ▸ hx)
    refine seg_append.mpr ⟨hr.seg.retarget hr.nodup hlast.symm ?_ ?_ ?_ ?_, ?_, ?_⟩
    · intro x hx hxp
      rw [Nodes.link_next, if_neg hxp, if_neg (hne x hx)]
    · intro x hx
      have hxhd : x ≠ hd := fun heq => (List.nodup_cons.mp hr.nodup).1 (heq ▸ hx)
      rw [Nodes.link_prev, if_neg (hne x (List.mem_cons_of_mem _ hx)), if_neg hxhd]
    · rw [Nodes.link_next, if_pos rfl]
    · rw [Nodes.link_prev, if_pos rfl]
    · rw [Nodes.link_next, if_neg (hne _ hmem).symm, if_pos rfl]
    · rw [Nodes.link_prev, if_neg (hne hd List.mem_cons_self), if_pos rfl]

/-- **A node linked in before another one.** -/
theorem link_before (hr : Ring h hd (xs ++ x :: ys)) (he : e ∉ hd :: (xs ++ x :: ys)) :
    Ring (h.link e (h x).prev x) hd (xs ++ e :: x :: ys) := by
  have hrot := hr.rotate.link_last (e := e) (by
    simp only [List.mem_cons, List.mem_append, not_or] at he ⊢
    tauto)
  rw [List.append_assoc, List.cons_append] at hrot
  have hback := hrot.rotate
  rw [List.append_assoc] at hback
  exact hback

/-- **A node linked in first.** -/
theorem link_first (hr : Ring h hd xs) (he : e ∉ hd :: xs) :
    Ring (h.link e hd (h hd).next) hd (e :: xs) := by
  cases xs with
  | nil =>
    have hnext : (h hd).next = hd := hr.next_eq_iff.mpr rfl
    have hprev : (h hd).prev = hd := hr.seg.prev_eq
    have hlast := hr.link_last he
    rw [hprev] at hlast
    rwa [hnext]
  | cons x xs =>
    have hprev : (h x).prev = hd := hr.seg.1.2
    have hbefore : Ring (h.link e (h x).prev x) hd ([] ++ e :: x :: xs) := link_before hr he
    rw [hprev] at hbefore
    rwa [hr.next_cons]

/-- **A node taken out.** -/
theorem unlink (hr : Ring h hd (xs ++ e :: ys)) : Ring (h.unlink e) hd (xs ++ ys) := by
  have hne := hr.next_ne (List.mem_append_right xs List.mem_cons_self)
  have hrot := hr.rotate
  -- what is left is a ring from the node after the one taken out
  have hleft : ∀ z zs, Ring h e (z :: zs) → Ring (h.unlink e) z zs := by
    intro z zs hz
    have hnext : (h e).next = z := hz.next_cons
    have hprev := hz.seg.prev_eq
    rw [List.getLast_cons (List.cons_ne_nil z zs)] at hprev
    have hnodup := (List.nodup_cons.mp hz.nodup).2
    refine ⟨hnodup, hz.seg.2.retarget hnodup hprev.symm ?_ ?_ ?_ ?_⟩
    · intro x _ hxp
      rw [Nodes.unlink_next _ _ _ hne, if_neg hxp]
    · intro x hx
      have hxz : x ≠ (h e).next := fun heq =>
        (List.nodup_cons.mp hnodup).1 (hnext ▸ heq ▸ hx)
      rw [Nodes.unlink_prev, if_neg hxz]
    · rw [Nodes.unlink_next _ _ _ hne, if_pos rfl, hnext]
    · rw [Nodes.unlink_prev, if_pos hnext.symm]
  cases ys with
  | nil =>
    rw [List.append_nil]
    exact hleft hd xs hrot
  | cons y ys => exact (hleft y _ hrot).rotate

end Ring

end

/-! ## Many rings -/

/-- Rings without a common node. -/
structure Rings {A : Type u} {I : Type v} (h : Nodes A) (hd : I → A) (L : I → List A) : Prop where
  ring : ∀ i, Ring h (hd i) (L i)
  apart : ∀ i j x, x ∈ hd i :: L i → x ∈ hd j :: L j → i = j

namespace Rings

variable {A : Type u} {I : Type v} {h h' : Nodes A} {hd : I → A} {L : I → List A}
  {i : I} {e x : A} {xs ys : List A}

/-- **What is on no ring may be written over.** -/
theorem congr (hr : Rings h hd L) (heq : ∀ i, ∀ x ∈ hd i :: L i, h' x = h x) : Rings h' hd L where
  ring i := (hr.ring i).congr (heq i)
  apart := hr.apart

/-- What is linked is on no other ring. -/
theorem link_frame [DecidableEq A] (hr : Rings h hd L) (he : ∀ j, e ∉ hd j :: L j) {p n : A}
    (hp : p ∈ hd i :: L i)
    (hn : n ∈ hd i :: L i) : ∀ j x, j ≠ i → x ∈ hd j :: L j → h.link e p n x = h x := by
  intro j x hji hx
  refine Nodes.link_of_ne _ (fun heq => he j (heq ▸ hx)) (fun heq => hji ?_) fun heq => hji ?_
  · exact hr.apart j i x hx (heq ▸ hp)
  · exact hr.apart j i x hx (heq ▸ hn)

variable [DecidableEq I]

/-- **One ring at a time.** -/
theorem update (hr : Rings h hd L) (hring : Ring h' (hd i) xs)
    (hmem : ∀ x ∈ xs, x ∈ L i ∨ ∀ j, x ∉ hd j :: L j)
    (hframe : ∀ j x, j ≠ i → x ∈ hd j :: L j → h' x = h x) :
    Rings h' hd (Function.update L i xs) := by
  have hself : Function.update L i xs i = xs := Function.update_self ..
  have hother : ∀ j, j ≠ i → Function.update L i xs j = L j := fun j hj =>
    Function.update_of_ne hj ..
  -- a node of the new ring was on the old one, or on none
  have hfrom : ∀ x ∈ hd i :: xs, x ∈ hd i :: L i ∨ ∀ j, x ∉ hd j :: L j := by
    intro x hx
    rcases List.mem_cons.mp hx with rfl | hx
    · exact .inl List.mem_cons_self
    · exact (hmem x hx).imp_left (List.mem_cons_of_mem _)
  refine ⟨fun j => ?_, fun j k x hj hk => ?_⟩
  · by_cases hji : j = i
    · rw [hji, hself]
      exact hring
    · rw [hother j hji]
      exact (hr.ring j).congr fun x hx => hframe j x hji hx
  · by_cases hji : j = i <;> by_cases hki : k = i
    · rw [hji, hki]
    · rw [hji, hself] at hj
      rw [hother k hki] at hk
      rcases hfrom x hj with hold | hnone
      · exact hji.trans (hr.apart i k x hold hk)
      · exact absurd hk (hnone k)
    · rw [hki, hself] at hk
      rw [hother j hji] at hj
      rcases hfrom x hk with hold | hnone
      · exact (hr.apart j i x hj hold).trans hki.symm
      · exact absurd hj (hnone j)
    · rw [hother j hji] at hj
      rw [hother k hki] at hk
      exact hr.apart j k x hj hk

variable [DecidableEq A]

theorem link_last (hr : Rings h hd L) (i : I) (he : ∀ j, e ∉ hd j :: L j) :
    Rings (h.link e (h (hd i)).prev (hd i)) hd (Function.update L i (L i ++ [e])) := by
  refine hr.update ((hr.ring i).link_last (he i)) (fun x hx => ?_)
    (hr.link_frame he ((hr.ring i).prev_mem List.mem_cons_self) List.mem_cons_self)
  rcases List.mem_append.mp hx with hx | hx
  · exact .inl hx
  · rw [List.mem_singleton.mp hx]
    exact .inr he

theorem link_first (hr : Rings h hd L) (i : I) (he : ∀ j, e ∉ hd j :: L j) :
    Rings (h.link e (hd i) (h (hd i)).next) hd (Function.update L i (e :: L i)) := by
  refine hr.update ((hr.ring i).link_first (he i)) (fun x hx => ?_)
    (hr.link_frame he List.mem_cons_self ((hr.ring i).next_mem List.mem_cons_self))
  rcases List.mem_cons.mp hx with rfl | hx
  · exact .inr he
  · exact .inl hx

/-- A node taken out of its ring. -/
theorem unlink [BEq A] [LawfulBEq A] (hr : Rings h hd L) (he : e ∈ L i) :
    Rings (h.unlink e) hd (Function.update L i ((L i).erase e)) := by
  have hring := hr.ring i
  have hmem : e ∈ hd i :: L i := List.mem_cons_of_mem _ he
  refine hr.update ?_ (fun x hx => .inl (List.mem_of_mem_erase hx)) fun j x hji hx => ?_
  · obtain ⟨before, after, hsplit⟩ := List.append_of_mem he
    have hnotin : e ∉ before := fun hin => by
      have hnodup := (List.nodup_cons.mp hring.nodup).2
      rw [hsplit, List.nodup_append] at hnodup
      exact hnodup.2.2 e hin e List.mem_cons_self rfl
    rw [hsplit, List.erase_append_right _ hnotin, List.erase_cons_head]
    rw [hsplit] at hring
    exact hring.unlink
  · refine Nodes.unlink_of_ne _ (hring.next_ne he) (fun heq => hji ?_) fun heq => hji ?_
    · exact hr.apart j i x hx (heq ▸ hring.prev_mem hmem)
    · exact hr.apart j i x hx (heq ▸ hring.next_mem hmem)

end Rings

end Zus.Lib
