import Zus.Lib.Sharing

/-!
# Counted links of a name space

A name space says what each place leads to. Some nodes are *inner* ones: places lie in them. A
place that leads to an inner node counts for the node it lies in, any other one for the node it
leads to. Making, removing and moving a link changes the count of the node it counts for by one,
and this is all: the lemmas below are these moves, as moves of counted references.
-/

namespace Zus.Lib

variable {π ν : Type*} {parent : π → ν} {inner inner' : ν → Prop} {leads leads' : π → Option ν}
  {held cnt : ν → ℕ} {p q : π} {n k : ν}

/-- The node a place that leads to `n` counts for. -/
def linkOwner (parent : π → ν) (inner : ν → Prop) [DecidablePred inner] (p : π) (n : ν) : ν :=
  if inner n then parent p else n

/-- The places that count for a node. -/
def linkRefs (parent : π → ν) (inner : ν → Prop) [DecidablePred inner] (leads : π → Option ν)
    (k : ν) : Set π := { p | ∃ n, leads p = some n ∧ linkOwner parent inner p n = k }

variable [DecidablePred inner] [DecidablePred inner']

/-- The links of an inner node are the places in it that lead to inner nodes. -/
theorem mem_linkRefs_of_inner (hk : inner k) :
    p ∈ linkRefs parent inner leads k ↔ parent p = k ∧ ∃ n, leads p = some n ∧ inner n := by
  constructor
  · rintro ⟨n, hn, hown⟩
    unfold linkOwner at hown
    split at hown
    · next hin => exact ⟨hown, n, hn, hin⟩
    · next hin => exact absurd (hown ▸ hk) hin
  · rintro ⟨hp, n, hn, hin⟩
    exact ⟨n, hn, (if_pos hin).trans hp⟩

/-- The links of any other node lead to it. -/
theorem mem_linkRefs_of_not_inner (hk : ¬ inner k) (hplaced : ∀ p, leads p ≠ none → inner (parent p)) :
    p ∈ linkRefs parent inner leads k ↔ leads p = some k := by
  constructor
  · rintro ⟨n, hn, hown⟩
    unfold linkOwner at hown
    split at hown
    · exact absurd (hown ▸ hplaced p (by simp [hn])) hk
    · rw [hn, hown]
  · exact fun hn => ⟨k, hn, if_neg hk⟩

/-- Links are about the nodes that are led to. -/
theorem linkRefs_congr (h : ∀ p n, leads p = some n → (inner' n ↔ inner n)) :
    linkRefs parent inner' leads = linkRefs parent inner leads := by
  funext k
  ext p
  refine exists_congr fun n => and_congr_right fun hn => ?_
  unfold linkOwner
  by_cases hin : inner n
  · rw [if_pos hin, if_pos ((h p n hn).mpr hin)]
  · rw [if_neg hin, if_neg fun hin' => hin ((h p n hn).mp hin')]

namespace Counted

variable [DecidableEq π] [DecidableEq ν]

/-- **A link is made**: the node it counts for has one more. -/
theorem addLink (h : Counted (linkRefs parent inner leads) held cnt) (hp : leads p = none) :
    Counted (linkRefs parent inner (Function.update leads p (some n))) held
      (bump cnt (linkOwner parent inner p n)) := by
  set o := linkOwner parent inner p n with ho
  have hother : ∀ q k, q ≠ p → (q ∈ linkRefs parent inner (Function.update leads p (some n)) k ↔
      q ∈ linkRefs parent inner leads k) := by
    intro q k hq
    simp only [linkRefs, Set.mem_ofPred_eq, Function.update_of_ne hq]
  have hout : ∀ k, p ∉ linkRefs parent inner leads k := by
    rintro k ⟨m, hm, -⟩
    rw [hp] at hm
    cases hm
  have hin : ∀ k, p ∈ linkRefs parent inner (Function.update leads p (some n)) k ↔ k = o := by
    intro k
    simp [linkRefs, ho, eq_comm]
  refine (h.take (bump_self cnt) fun d hd => bump_of_ne cnt hd).attach (hout o) ?_ fun d hd => ?_
  · ext q
    obtain rfl | hq := eq_or_ne q p
    · simp [hin]
    · simp [hother q o hq, hq]
  · ext q
    obtain rfl | hq := eq_or_ne q p
    · simp [hin, hd, hout]
    · exact hother q d hq

/-- **A link is removed**: the node it counted for has one less. -/
theorem dropLink (h : Counted (linkRefs parent inner leads) held cnt) (hp : leads p = some n) :
    Counted (linkRefs parent inner (Function.update leads p none)) held
      (Function.update cnt (linkOwner parent inner p n) (cnt (linkOwner parent inner p n) - 1)) := by
  set o := linkOwner parent inner p n with ho
  have hother : ∀ q k, q ≠ p → (q ∈ linkRefs parent inner (Function.update leads p none) k ↔
      q ∈ linkRefs parent inner leads k) := by
    intro q k hq
    simp only [linkRefs, Set.mem_ofPred_eq, Function.update_of_ne hq]
  have hout : ∀ k, p ∉ linkRefs parent inner (Function.update leads p none) k := by
    rintro k ⟨m, hm, -⟩
    rw [Function.update_self] at hm
    cases hm
  have hin : ∀ k, p ∈ linkRefs parent inner leads k ↔ k = o := by
    intro k
    simp [linkRefs, hp, ho, eq_comm]
  refine (h.detach (hout o) ?_ fun d hd => ?_).give (Function.update_self ..)
    fun d hd => Function.update_of_ne hd ..
  · ext q
    obtain rfl | hq := eq_or_ne q p
    · simp [hin]
    · simp [hother q o hq, hq]
  · ext q
    obtain rfl | hq := eq_or_ne q p
    · simp [hin, hd, hout]
    · exact hother q d hq

/-- **A link is moved**: it counts for another node, or for the same one. -/
theorem moveLink (h : Counted (linkRefs parent inner leads) held cnt) (hp : leads p = some n)
    (hq : leads q = none) :
    Counted (linkRefs parent inner (Function.update (Function.update leads q (some n)) p none)) held
      fun k => bump cnt (linkOwner parent inner q n) k -
        if k = linkOwner parent inner p n then 1 else 0 := by
  have hne : p ≠ q := by
    rintro rfl
    rw [hp] at hq
    cases hq
  have h₁ := (h.addLink (n := n) hq).dropLink (p := p) (n := n) (by rwa [Function.update_of_ne hne])
  refine Eq.mp (congrArg _ ?_) h₁
  funext k
  obtain rfl | hk := eq_or_ne k (linkOwner parent inner p n)
  · rw [Function.update_self, if_pos rfl]
  · rw [Function.update_of_ne hk, if_neg hk, Nat.sub_zero]

end Counted

/-! ## Trees -/

variable {root : ν → Prop}

/-- A node is linked when some place leads to it; a root always is. -/
def Linked (root : ν → Prop) (leads : π → Option ν) (n : ν) : Prop := root n ∨ ∃ p, leads p = some n

open Classical in
/-- What an inner node counts besides its links: two, while it is linked. -/
noncomputable def baseLinks (inner root : ν → Prop) (leads : π → Option ν) (n : ν) : ℕ :=
  if inner n ∧ Linked root leads n then 2 else 0

/-- The counts are those of a name space in which an inner node has one place, and one without
a place no links. -/
structure LinkTree (parent : π → ν) (inner root : ν → Prop) [DecidablePred inner]
    (leads : π → Option ν) (cnt : ν → ℕ) : Prop where
  counted : Counted (linkRefs parent inner leads) (baseLinks inner root leads) cnt
  placed : ∀ p, leads p ≠ none → inner (parent p)
  once : ∀ p q n, inner n → leads p = some n → leads q = some n → p = q
  top : ∀ p n, root n → leads p ≠ some n
  bare : ∀ n, inner n → ¬ Linked root leads n → linkRefs parent inner leads n = ∅

namespace LinkTree

/-- **What the counts say**: of a node that is no inner one, how many places lead to it; of an inner
one that is linked, how many places in it lead to inner nodes, and two; of one without a place,
nothing. -/
theorem exact (h : LinkTree parent inner root leads cnt) (n : ν) :
    (¬ inner n → { p | leads p = some n }.encard = cnt n) ∧
    (inner n → Linked root leads n →
      { p | parent p = n ∧ ∃ m, leads p = some m ∧ inner m }.encard + 2 = cnt n) ∧
    (¬ Linked root leads n → cnt n = 0) := by
  have hn := h.counted n
  refine ⟨fun hin => ?_, fun hin hl => ?_, fun hl => ?_⟩
  · have hrefs : linkRefs parent inner leads n = { p | leads p = some n } := by
      ext p
      exact mem_linkRefs_of_not_inner hin h.placed
    rw [hrefs, baseLinks, if_neg fun hc => hin hc.1, Nat.cast_zero, add_zero] at hn
    exact hn
  · have hrefs : linkRefs parent inner leads n =
        { p | parent p = n ∧ ∃ m, leads p = some m ∧ inner m } := by
      ext p
      exact mem_linkRefs_of_inner hin
    rw [hrefs, baseLinks, if_pos ⟨hin, hl⟩] at hn
    exact hn
  · have hempty : linkRefs parent inner leads n = ∅ := by
      by_cases hin : inner n
      · exact h.bare n hin hl
      · ext p
        rw [mem_linkRefs_of_not_inner hin h.placed]
        exact iff_of_false (fun hp => hl (.inr ⟨p, hp⟩)) (Set.notMem_empty p)
    rw [hempty, baseLinks, if_neg fun hc => hl hc.2, Set.encard_empty, Nat.cast_zero, add_zero] at hn
    exact_mod_cast hn.symm

/-- A name space without places: its roots count two. -/
theorem of_empty (hleads : ∀ p, leads p = none)
    (hcnt : ∀ n, inner n ∧ root n → cnt n = 2) (hzero : ∀ n, ¬ (inner n ∧ root n) → cnt n = 0) :
    LinkTree parent inner root leads cnt := by
  have hrefs : ∀ n, linkRefs parent inner leads n = ∅ := by
    refine fun n => Set.eq_empty_of_forall_notMem ?_
    rintro p ⟨m, hm, -⟩
    rw [hleads] at hm
    cases hm
  have hlinked : ∀ n, Linked root leads n ↔ root n := fun n =>
    or_iff_left fun ⟨p, hp⟩ => by simp [hleads] at hp
  refine ⟨fun n => ?_, fun p hp => absurd (hleads p) hp, fun p _ n _ hp => ?_, fun p n _ => ?_,
    fun n _ _ => hrefs n⟩
  · rw [hrefs, Set.encard_empty, zero_add, baseLinks, hlinked]
    by_cases hn : inner n ∧ root n
    · rw [if_pos hn, hcnt n hn]
    · rw [if_neg hn, hzero n hn]
  · rw [hleads] at hp
    cases hp
  · simp [hleads]

/-- No place in a linked inner node that counts two leads to an inner node. -/
theorem linkRefs_eq_empty (h : LinkTree parent inner root leads cnt) (hin : inner n)
    (hl : Linked root leads n) (htwo : cnt n = 2) : linkRefs parent inner leads n = ∅ := by
  have hn := h.counted n
  rw [baseLinks, if_pos ⟨hin, hl⟩, htwo] at hn
  have hzero : (linkRefs parent inner leads n).encard + (2 : ℕ) = 0 + (2 : ℕ) := by rwa [zero_add]
  exact Set.encard_eq_zero.mp (WithTop.add_right_cancel (by decide) hzero)

/-- The same name space, said otherwise. -/
theorem congr {root' : ν → Prop} {cnt' : ν → ℕ} (h : LinkTree parent inner root leads cnt)
    (hin : ∀ k, inner' k ↔ inner k) (hroot : ∀ k, root' k ↔ root k) (hl : leads' = leads)
    (hc : cnt' = cnt) : LinkTree parent inner' root' leads' cnt' := by
  obtain rfl : root' = root := funext fun k => propext (hroot k)
  subst hl hc
  have hrefs : linkRefs parent inner' leads' = linkRefs parent inner leads' :=
    linkRefs_congr fun _ k _ => hin k
  have hbase : baseLinks inner' root' leads' = baseLinks inner root' leads' := by
    funext k
    unfold baseLinks
    rw [hin]
  refine ⟨by rw [hrefs, hbase]; exact h.counted, fun p hp => (hin _).mpr (h.placed p hp),
    fun p q k hk => h.once p q k ((hin k).mp hk), h.top, fun k hk hlk => ?_⟩
  rw [hrefs]
  exact h.bare k ((hin k).mp hk) hlk

/-- A node nothing is known of becomes an inner one. -/
theorem setInner (h : LinkTree parent inner root leads cnt) (hin : ∀ k, inner' k ↔ inner k ∨ k = n)
    (hn : ¬ inner n) (hl : ¬ Linked root leads n) : LinkTree parent inner' root leads cnt := by
  have hled : ∀ p k, leads p = some k → (inner' k ↔ inner k) := by
    intro p k hp
    rw [hin]
    refine or_iff_left ?_
    rintro rfl
    exact hl (.inr ⟨p, hp⟩)
  have hrefs : linkRefs parent inner' leads = linkRefs parent inner leads := linkRefs_congr hled
  have hbase : baseLinks inner' root leads = baseLinks inner root leads := by
    funext k
    unfold baseLinks
    congr 1
    rw [hin]
    refine propext ⟨?_, fun hc => ⟨.inl hc.1, hc.2⟩⟩
    rintro ⟨hk | rfl, hlk⟩
    · exact ⟨hk, hlk⟩
    · exact absurd hlk hl
  refine ⟨by rw [hrefs, hbase]; exact h.counted, fun p hp => (hin _).mpr (.inl (h.placed p hp)),
    fun p q k hk hp hq => h.once p q k ((hled p k hp).mp hk) hp hq, h.top, fun k hk hlk => ?_⟩
  rw [hrefs]
  rcases (hin k).mp hk with hk | rfl
  · exact h.bare k hk hlk
  · refine Set.eq_empty_of_forall_notMem fun p hp => ?_
    exact hl (.inr ⟨p, (mem_linkRefs_of_not_inner hn h.placed).mp hp⟩)

variable [DecidableEq π]

theorem update_some_iff {o : Option ν} : Function.update leads p o q = some k ↔
    (q = p ∧ o = some k) ∨ (q ≠ p ∧ leads q = some k) := by
  obtain rfl | hq := eq_or_ne q p
  · simp
  · simp [hq]

/-- What is linked when a place is given to a node. -/
theorem linked_add (hp : leads p = none) :
    Linked root (Function.update leads p (some n)) k ↔ Linked root leads k ∨ k = n := by
  constructor
  · rintro (hr | ⟨q, hq⟩)
    · exact .inl (.inl hr)
    · rcases update_some_iff.mp hq with ⟨-, heq⟩ | ⟨-, hq⟩
      · exact .inr (Option.some.inj heq).symm
      · exact .inl (.inr ⟨q, hq⟩)
  · rintro ((hr | ⟨q, hq⟩) | rfl)
    · exact .inl hr
    · refine .inr ⟨q, update_some_iff.mpr (.inr ⟨?_, hq⟩)⟩
      rintro rfl
      rw [hp] at hq
      cases hq
    · exact .inr ⟨p, update_some_iff.mpr (.inl ⟨rfl, rfl⟩)⟩

/-- What is linked when a place is taken from a node. -/
theorem linked_drop (hp : leads p = some n) (hk : k ≠ n) :
    Linked root (Function.update leads p none) k ↔ Linked root leads k := by
  refine or_congr_right ⟨?_, ?_⟩
  · rintro ⟨q, hq⟩
    rcases update_some_iff.mp hq with ⟨-, heq⟩ | ⟨-, hq⟩
    · cases heq
    · exact ⟨q, hq⟩
  · rintro ⟨q, hq⟩
    refine ⟨q, update_some_iff.mpr (.inr ⟨?_, hq⟩)⟩
    rintro rfl
    exact hk (Option.some.inj (hq.symm.trans hp))

theorem of_update_none (hq : Function.update leads p none q = some k) : leads q = some k := by
  rcases update_some_iff.mp hq with ⟨-, heq⟩ | ⟨-, hq⟩
  · cases heq
  · exact hq

/-- Taking a place brings no links. -/
theorem linkRefs_drop_subset :
    linkRefs parent inner (Function.update leads p none) k ⊆ linkRefs parent inner leads k :=
  fun _ ⟨m, hm, hown⟩ => ⟨m, of_update_none hm, hown⟩

theorem placed_drop (h : LinkTree parent inner root leads cnt)
    (hq : Function.update leads p none q ≠ none) : inner (parent q) := by
  obtain ⟨k, hk⟩ := Option.ne_none_iff_exists'.mp hq
  refine h.placed q fun hnone => ?_
  rw [of_update_none hk] at hnone
  cases hnone

theorem placed_add (h : LinkTree parent inner root leads cnt) (hparent : inner (parent p))
    (hq : Function.update leads p (some n) q ≠ none) : inner (parent q) := by
  obtain rfl | hne := eq_or_ne q p
  · exact hparent
  · exact h.placed q (by rwa [Function.update_of_ne hne] at hq)

variable [DecidableEq ν]

/-- **A place is given to a node that is no inner one.** -/
theorem addLeaf (h : LinkTree parent inner root leads cnt) (hp : leads p = none)
    (hparent : inner (parent p)) (hn : ¬ inner n) (hr : ¬ root n) :
    LinkTree parent inner root (Function.update leads p (some n)) (bump cnt n) := by
  have hown : linkOwner parent inner p n = n := if_neg hn
  have hbase : baseLinks inner root (Function.update leads p (some n)) =
      baseLinks inner root leads := by
    funext k
    unfold baseLinks
    congr 1
    rw [linked_add hp]
    refine propext (and_congr_right fun hk => or_iff_left ?_)
    rintro rfl
    exact hn hk
  refine ⟨?_, fun q hq => h.placed_add hparent hq, fun q q' k hk hq hq' => ?_, fun q k hk hq => ?_,
    fun k hk hl => ?_⟩
  · rw [hbase]
    have hadd := h.counted.addLink (n := n) hp
    rwa [hown] at hadd
  · rcases update_some_iff.mp hq with ⟨-, heq⟩ | ⟨-, hq⟩
    · exact absurd (Option.some.inj heq ▸ hk) hn
    · rcases update_some_iff.mp hq' with ⟨-, heq⟩ | ⟨-, hq'⟩
      · exact absurd (Option.some.inj heq ▸ hk) hn
      · exact h.once q q' k hk hq hq'
  · rcases update_some_iff.mp hq with ⟨-, heq⟩ | ⟨-, hq⟩
    · exact hr (Option.some.inj heq ▸ hk)
    · exact h.top q k hk hq
  · have hold := h.bare k hk fun hlk => hl ((linked_add hp).mpr (.inl hlk))
    refine Set.eq_empty_of_forall_notMem fun q hq => ?_
    obtain ⟨hqk, m, hm, hin⟩ := (mem_linkRefs_of_inner hk).mp hq
    rcases update_some_iff.mp hm with ⟨-, heq⟩ | ⟨-, hm⟩
    · exact hn (Option.some.inj heq ▸ hin)
    · exact Set.notMem_empty q (hold ▸ (mem_linkRefs_of_inner hk).mpr ⟨hqk, m, hm, hin⟩)

/-- **A place is given to an inner node** that has none, in a node that is linked. -/
theorem addInner (h : LinkTree parent inner root leads cnt) (hp : leads p = none)
    (hparent : inner (parent p)) (hlinked : Linked root leads (parent p)) (hn : inner n)
    (hl : ¬ Linked root leads n) :
    LinkTree parent inner root (Function.update leads p (some n))
      (bump (bump (bump cnt (parent p)) n) n) := by
  have hown : linkOwner parent inner p n = parent p := if_pos hn
  have hbase : baseLinks inner root (Function.update leads p (some n)) =
      bump (bump (baseLinks inner root leads) n) n := by
    funext k
    obtain rfl | hk := eq_or_ne k n
    · rw [bump_self, bump_self]
      unfold baseLinks
      rw [if_pos ⟨hn, (linked_add hp).mpr (.inr rfl)⟩, if_neg fun hc => hl hc.2]
    · rw [bump_of_ne _ hk, bump_of_ne _ hk]
      unfold baseLinks
      congr 1
      rw [linked_add hp]
      exact propext (and_congr_right fun _ => or_iff_left hk)
  refine ⟨?_, fun q hq => h.placed_add hparent hq, fun q q' k hk hq hq' => ?_, fun q k hk hq => ?_,
    fun k hk hl' => ?_⟩
  · have hadd := h.counted.addLink (n := n) hp
    rw [hown] at hadd
    rw [hbase]
    exact (hadd.take (bump_self _) fun d hd => bump_of_ne _ hd).take (bump_self _)
      fun d hd => bump_of_ne _ hd
  · rcases update_some_iff.mp hq with ⟨rfl, heq⟩ | ⟨-, hq⟩
    · obtain rfl := Option.some.inj heq
      rcases update_some_iff.mp hq' with ⟨rfl, -⟩ | ⟨-, hq'⟩
      · rfl
      · exact absurd (.inr ⟨q', hq'⟩) hl
    · rcases update_some_iff.mp hq' with ⟨-, heq⟩ | ⟨-, hq'⟩
      · obtain rfl := Option.some.inj heq
        exact absurd (.inr ⟨q, hq⟩) hl
      · exact h.once q q' k hk hq hq'
  · rcases update_some_iff.mp hq with ⟨-, heq⟩ | ⟨-, hq⟩
    · exact hl (.inl (Option.some.inj heq ▸ hk))
    · exact h.top q k hk hq
  · have hlk : ¬ Linked root leads k := fun hlk => hl' ((linked_add hp).mpr (.inl hlk))
    have hold := h.bare k hk hlk
    refine Set.eq_empty_of_forall_notMem fun q hq => ?_
    obtain ⟨rfl, m, hm, hin⟩ := (mem_linkRefs_of_inner hk).mp hq
    rcases update_some_iff.mp hm with ⟨rfl, -⟩ | ⟨-, hm⟩
    · exact hlk hlinked
    · exact Set.notMem_empty q (hold ▸ (mem_linkRefs_of_inner hk).mpr ⟨rfl, m, hm, hin⟩)

/-- **A place is taken from a node that is no inner one.** -/
theorem removeLeaf (h : LinkTree parent inner root leads cnt) (hp : leads p = some n)
    (hn : ¬ inner n) : LinkTree parent inner root (Function.update leads p none)
      (Function.update cnt n (cnt n - 1)) := by
  have hown : linkOwner parent inner p n = n := if_neg hn
  have hlinked : ∀ k, inner k → (Linked root (Function.update leads p none) k ↔
      Linked root leads k) := fun k hk => linked_drop hp fun heq => hn (heq ▸ hk)
  have hbase : baseLinks inner root (Function.update leads p none) =
      baseLinks inner root leads := by
    funext k
    unfold baseLinks
    congr 1
    exact propext (and_congr_right fun hk => hlinked k hk)
  refine ⟨?_, fun q hq => h.placed_drop hq,
    fun q q' k hk hq hq' => h.once q q' k hk (of_update_none hq) (of_update_none hq'),
    fun q k hk hq => h.top q k hk (of_update_none hq), fun k hk hl => ?_⟩
  · rw [hbase]
    have hdrop := h.counted.dropLink hp
    rwa [hown] at hdrop
  · have hold := h.bare k hk fun hlk => hl ((hlinked k hk).mpr hlk)
    exact Set.subset_eq_empty linkRefs_drop_subset hold

/-- **The place of an inner node is taken** when no place in it leads to an inner node. -/
theorem removeInner (h : LinkTree parent inner root leads cnt) (hp : leads p = some n)
    (hn : inner n) (hempty : linkRefs parent inner leads n = ∅) :
    LinkTree parent inner root (Function.update leads p none)
      (Function.update (Function.update cnt (parent p) (cnt (parent p) - 1)) n (cnt n - 2)) := by
  have hown : linkOwner parent inner p n = parent p := if_pos hn
  have hne : n ≠ parent p := by
    rintro rfl
    exact Set.notMem_empty p (hempty ▸ (mem_linkRefs_of_inner hn).mpr ⟨rfl, parent p, hp, hn⟩)
  have hgone : ¬ Linked root (Function.update leads p none) n := by
    rintro (hr | ⟨q, hq⟩)
    · exact h.top p n hr hp
    · rcases update_some_iff.mp hq with ⟨-, heq⟩ | ⟨hqp, hq⟩
      · cases heq
      · exact hqp (h.once q p n hn hq hp)
  have hbase : baseLinks inner root leads =
      bump (bump (baseLinks inner root (Function.update leads p none)) n) n := by
    funext k
    obtain rfl | hk := eq_or_ne k n
    · rw [bump_self, bump_self]
      unfold baseLinks
      rw [if_pos ⟨hn, .inr ⟨p, hp⟩⟩, if_neg fun hc => hgone hc.2]
    · rw [bump_of_ne _ hk, bump_of_ne _ hk]
      unfold baseLinks
      congr 1
      rw [linked_drop hp hk]
  refine ⟨?_, fun q hq => h.placed_drop hq,
    fun q q' k hk hq hq' => h.once q q' k hk (of_update_none hq) (of_update_none hq'),
    fun q k hk hq => h.top q k hk (of_update_none hq), fun k hk hl => ?_⟩
  · have hdrop := h.counted.dropLink hp
    rw [hown, hbase] at hdrop
    -- the node gives its two links back
    have hgive : Counted (linkRefs parent inner (Function.update leads p none))
        (bump (baseLinks inner root (Function.update leads p none)) n)
        (Function.update (Function.update cnt (parent p) (cnt (parent p) - 1)) n (cnt n - 1)) := by
      refine hdrop.give ?_ fun d hd => Function.update_of_ne hd ..
      rw [Function.update_self, Function.update_of_ne hne]
    refine hgive.give ?_ fun d hd => ?_
    · rw [Function.update_self, Function.update_self]
      omega
    · rw [Function.update_of_ne hd, Function.update_of_ne hd]
  · have hold : linkRefs parent inner leads k = ∅ := by
      obtain rfl | hkn := eq_or_ne k n
      · exact hempty
      · exact h.bare k hk fun hlk => hl ((linked_drop hp hkn).mpr hlk)
    exact Set.subset_eq_empty linkRefs_drop_subset hold

/-- **A node gets another place**, an inner one in a node that is linked. -/
theorem move (h : LinkTree parent inner root leads cnt) (hp : leads p = some n)
    (hq : leads q = none) (hparent : inner (parent q))
    (hlinked : inner n → Linked root leads (parent q)) :
    LinkTree parent inner root (Function.update (Function.update leads q (some n)) p none)
      fun k => bump cnt (linkOwner parent inner q n) k -
        if k = linkOwner parent inner p n then 1 else 0 := by
  have hne : p ≠ q := by
    rintro rfl
    rw [hp] at hq
    cases hq
  have hpn : Function.update leads q (some n) p = some n := by rwa [Function.update_of_ne hne]
  have hleads : ∀ r k, Function.update (Function.update leads q (some n)) p none r = some k →
      (r = q ∧ k = n) ∨ (r ≠ p ∧ leads r = some k) := by
    intro r k hr
    rcases update_some_iff.mp hr with ⟨-, heq⟩ | ⟨hrp, hr⟩
    · cases heq
    · rcases update_some_iff.mp hr with ⟨hrq, heq⟩ | ⟨-, hr⟩
      · exact .inl ⟨hrq, (Option.some.inj heq).symm⟩
      · exact .inr ⟨hrp, hr⟩
  have hsame : ∀ k, Linked root (Function.update (Function.update leads q (some n)) p none) k ↔
      Linked root leads k := by
    intro k
    obtain rfl | hk := eq_or_ne k n
    · refine iff_of_true (.inr ⟨q, ?_⟩) (.inr ⟨p, hp⟩)
      rw [Function.update_of_ne hne.symm, Function.update_self]
    · rw [linked_drop hpn hk, linked_add hq, or_iff_left hk]
  have hbase : baseLinks inner root (Function.update (Function.update leads q (some n)) p none) =
      baseLinks inner root leads := by
    funext k
    unfold baseLinks
    rw [hsame]
  refine ⟨?_, fun r hr => ?_, fun r r' k hk hr hr' => ?_, fun r k hk hr => ?_, fun k hk hl => ?_⟩
  · rw [hbase]
    exact h.counted.moveLink hp hq
  · obtain ⟨k, hk⟩ := Option.ne_none_iff_exists'.mp hr
    rcases hleads r k hk with ⟨rfl, -⟩ | ⟨-, hr⟩
    · exact hparent
    · exact h.placed r (by simp [hr])
  · rcases hleads r k hr with ⟨rfl, rfl⟩ | ⟨hrp, hold⟩
    · rcases hleads r' k hr' with ⟨rfl, -⟩ | ⟨hrp', hold'⟩
      · rfl
      · exact absurd (h.once r' p k hk hold' hp) hrp'
    · rcases hleads r' k hr' with ⟨-, rfl⟩ | ⟨-, hold'⟩
      · exact absurd (h.once r p k hk hold hp) hrp
      · exact h.once r r' k hk hold hold'
  · rcases hleads r k hr with ⟨-, rfl⟩ | ⟨-, hr⟩
    · exact h.top p k hk hp
    · exact h.top r k hk hr
  · have hlk : ¬ Linked root leads k := fun hlk => hl ((hsame k).mpr hlk)
    have hold := h.bare k hk hlk
    refine Set.eq_empty_of_forall_notMem fun r hr => ?_
    obtain ⟨hrk, m, hm, hin⟩ := (mem_linkRefs_of_inner hk).mp hr
    rcases hleads r m hm with ⟨rfl, rfl⟩ | ⟨-, hm⟩
    · exact hlk (hrk ▸ hlinked hin)
    · exact Set.notMem_empty r (hold ▸ (mem_linkRefs_of_inner hk).mpr ⟨hrk, m, hm, hin⟩)

end LinkTree

end Zus.Lib
