import Zus.Lib.Ring

/-!
# The lists of the daemon

`a_list.h` threads its lists through the things they list: an `a_list_head` is both the head of a
list and a link in it. A node that is taken out with `a_list_del_init` is a list of its own.
-/

namespace Zus.AList

open Zus.Lib

universe u v

variable {A : Type u} [DecidableEq A]

/-- `a_list_init`. -/
def aListInit (h : Nodes A) (list : A) : Nodes A := h.close list

/-- `_link_list`. -/
def linkList (h : Nodes A) (list prev next : A) : Nodes A := h.link list prev next

/-- `a_list_add`. -/
def aListAdd (h : Nodes A) (list head : A) : Nodes A := linkList h list head (h head).next

/-- `a_list_add_tail`. -/
def aListAddTail (h : Nodes A) (list head : A) : Nodes A := linkList h list (h head).prev head

/-- `a_list_del`. -/
def aListDel (h : Nodes A) (list : A) : Nodes A := h.unlink list

/-- `a_list_del_init`. -/
def aListDelInit (h : Nodes A) (list : A) : Nodes A := aListInit (aListDel h list) list

/-- `a_list_empty`. -/
def aListEmpty (h : Nodes A) (head : A) : Bool := decide ((h head).next = head)

/-- `a_list_first_entry`. -/
def aListFirstEntry (h : Nodes A) (head : A) : A := (h head).next

variable {I : Type v} {h : Nodes A} {hd : I → A} {L : I → List A} {i : I} {e : A} {es : List A}

theorem aListEmpty_iff (hr : Rings h hd L) : aListEmpty h (hd i) = true ↔ L i = [] := by
  rw [aListEmpty, decide_eq_true_eq, (hr.ring i).next_eq_iff]

omit [DecidableEq A] in
theorem aListFirstEntry_eq (hr : Rings h hd L) (hL : L i = e :: es) :
    aListFirstEntry h (hd i) = e := by
  have hring := hr.ring i
  rw [hL] at hring
  exact hring.next_cons

variable [DecidableEq I]

theorem rings_addTail (hr : Rings h hd L) (i : I) (he : ∀ j, e ∉ hd j :: L j) :
    Rings (aListAddTail h e (hd i)) hd (Function.update L i (L i ++ [e])) := hr.link_last i he

/-- **A node taken out is on no list any more**, and its links are its own. -/
theorem rings_delInit (hr : Rings h hd L) (he : e ∈ L i) :
    Rings (aListDelInit h e) hd (Function.update L i ((L i).erase e)) := by
  refine (hr.unlink he).congr fun j x hx => Nodes.close_of_ne _ ?_
  rintro rfl
  by_cases hji : j = i
  · subst hji
    rw [Function.update_self] at hx
    have hnodup := List.nodup_cons.mp (hr.ring j).nodup
    rcases List.mem_cons.mp hx with rfl | hx
    · exact hnodup.1 he
    · exact hnodup.2.not_mem_erase hx
  · rw [Function.update_of_ne hji] at hx
    exact hji (hr.apart j i x hx (List.mem_cons_of_mem _ he))

/-- Nodes added one after the other. -/
theorem rings_foldl_addTail (hr : Rings h hd L) (i : I) (hnodup : es.Nodup)
    (hes : ∀ e ∈ es, ∀ j, e ∉ hd j :: L j) :
    Rings (es.foldl (fun h e => aListAddTail h e (hd i)) h) hd
      (Function.update L i (L i ++ es)) := by
  induction es generalizing h L with
  | nil => rwa [List.append_nil, Function.update_eq_self]
  | cons e es ih =>
    have hstep := rings_addTail hr i (hes e List.mem_cons_self)
    have hrest := ih hstep (List.nodup_cons.mp hnodup).2 fun x hx j hmem => by
      have hxe : x ≠ e := fun heq => (List.nodup_cons.mp hnodup).1 (heq ▸ hx)
      refine hes x (List.mem_cons_of_mem _ hx) j ?_
      by_cases hji : j = i
      · subst hji
        rw [Function.update_self] at hmem
        simpa [hxe] using hmem
      · rwa [Function.update_of_ne hji] at hmem
    rw [Function.update_idem, Function.update_self, List.append_assoc] at hrest
    exact hrest

/-- Nodes taken out one after the other. -/
theorem rings_foldl_delInit (hr : Rings h hd L) (hnodup : es.Nodup) (hes : es ⊆ L i) :
    Rings (es.foldl aListDelInit h) hd (Function.update L i (es.foldl List.erase (L i))) := by
  induction es generalizing h L with
  | nil => rwa [List.foldl_nil, List.foldl_nil, Function.update_eq_self]
  | cons e es ih =>
    have hstep := rings_delInit hr (hes List.mem_cons_self)
    have hrest := ih hstep (List.nodup_cons.mp hnodup).2 fun x hx => by
      have hxe : x ≠ e := fun heq => (List.nodup_cons.mp hnodup).1 (heq ▸ hx)
      rw [Function.update_self]
      exact (List.mem_erase_of_ne hxe).mpr (hes (List.mem_cons_of_mem _ hx))
    rw [Function.update_idem, Function.update_self] at hrest
    exact hrest

end Zus.AList
