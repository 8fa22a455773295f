import Mathlib.Data.List.Basic
import Mathlib.Algebra.BigOperators.Group.List.Basic
import Zus.Lib.Mask

/-!
# Building an iomap

`iom_enc.h` encodes requests to the kernel as elements of one to three 64-bit words, one
after the other in a buffer. The first word of an element holds its type and one value,
packed by `_zufs_iom_enc_type_val` of the zufs API; the other words are plain. The reader
knows nothing but the number of words: the type of an element is in its first word, and
its length follows from its type.

The buffer is named by distances from `ziom->iom_e`. The cursor counts words, since every
element is a whole number of them; the end counts bytes, since the buffer may be of any
size.
-/

namespace Zus.Iom

open Zus.Lib

/-- `enum ZUFS_IOM_TYPE`, as far as `iom_enc.h` uses it; `null` is the type `0` of the word
that ends a list. -/
inductive IomType
  | null
  | wbinv
  | discard
  | unmap
  | t2Write
  | t2Read
  | t2ZusmemWrite
  | t2ZusmemRead
  deriving DecidableEq

/-- The words of an element: the size of its structure in `zus_api.h`. -/
def IomType.words : IomType → ℕ
  | .null => 1
  | .wbinv => 1
  | .discard => 2
  | .unmap => 3
  | .t2Write => 2
  | .t2Read => 2
  | .t2ZusmemWrite => 3
  | .t2ZusmemRead => 3

/-- The first word of an element, in the bit fields `zus_api.h` gives it. The code relies
on this: a type and a value that fits the mask do not overlap. -/
structure FirstWord where
  /-- `ZUFS_IOM_FIRST_VAL_MASK` -/
  firstValMask : UInt64
  /-- `_zufs_iom_enc_type_val` -/
  encTypeVal : IomType → UInt64 → UInt64
  /-- the type field of a word -/
  typeOf : UInt64 → IomType
  /-- the value field of a word -/
  valOf : UInt64 → UInt64
  typeOf_enc : ∀ t v, v &&& ~~~firstValMask = 0 → typeOf (encTypeVal t v) = t
  valOf_enc : ∀ t v, v &&& ~~~firstValMask = 0 → valOf (encTypeVal t v) = v

/-- `struct zus_iomap_build`, with the buffer it points into. -/
structure Iomb where
  /-- the words from `ziom->iom_e` on -/
  iomE : ℕ → UInt64
  /-- `cur_iom_e`, in words -/
  curIomE : ℕ
  /-- `end_iom_e`, in bytes -/
  endIomE : ℕ
  /-- `ziom->iom_n` -/
  iomN : ℕ

/-- The result of an encoder: `0` or `-ENOSPC`. -/
inductive Ret
  | ok
  | enospc
  deriving DecidableEq

/-- The words of a buffer after a list of words was stored at `off`. -/
def storeWords (m : ℕ → UInt64) (off : ℕ) (ws : List UInt64) : ℕ → UInt64 :=
  fun i => if off ≤ i then ws.getD (i - off) (m i) else m i

namespace Iomb

variable (fw : FirstWord) (b : Iomb)

/-- `_zus_iom_len`. -/
def iomLen : ℕ := b.curIomE

/-- `_zus_iom_start`. -/
def iomStart : Iomb :=
  { b with curIomE := 0, iomN := 0, iomE := storeWords b.iomE 0 [0] }

/-- `_zus_iom_end`. -/
def iomEnd : Iomb :=
  let iomE := if 8 * b.curIomE < b.endIomE then
    storeWords b.iomE b.curIomE [fw.encTypeVal .null 0] else b.iomE
  { b with iomE := iomE, iomN := b.iomLen }

/-- The body the encoders share: an element with the value `val` in its first word, then
the words `rest`. -/
def encElem (type : IomType) (val : UInt64) (rest : List UInt64) : Ret × Iomb :=
  if b.endIomE < 8 * (b.curIomE + type.words) then (.enospc, b)
  else (.ok, { b with
    iomE := storeWords b.iomE b.curIomE (fw.encTypeVal type val :: rest)
    curIomE := b.curIomE + type.words })

/-- `_zus_iom_enc_wbinv`. -/
def encWbinv : Ret × Iomb := b.encElem fw .wbinv 0 []

/-- `_zus_iom_enc_discard`. -/
def encDiscard (t2Bn numPages : UInt64) : Ret × Iomb := b.encElem fw .discard t2Bn [numPages]

/-- `_zus_iom_enc_unmap`. -/
def encUnmap (index n ino : UInt64) : Ret × Iomb := b.encElem fw .unmap index [n, ino]

/-- `_zus_iom_enc_t2_io`. -/
def encT2Io (t2Bn t1Val : UInt64) (type : IomType) : Ret × Iomb :=
  b.encElem fw type t2Bn [t1Val]

/-- `_zus_iom_enc_t2_write`. -/
def encT2Write (t2Bn t1Val : UInt64) : Ret × Iomb := b.encT2Io fw t2Bn t1Val .t2Write

/-- `_zus_iom_enc_t2_read`. -/
def encT2Read (t2Bn t1Val : UInt64) : Ret × Iomb := b.encT2Io fw t2Bn t1Val .t2Read

/-- `_zus_iom_enc_t2_zusmem_io`. -/
def encT2ZusmemIo (t2Bn ptr len : UInt64) (type : IomType) : Ret × Iomb :=
  b.encElem fw type t2Bn [ptr, len]

/-- `_zus_iom_enc_t2_zusmem_write`. -/
def encT2ZusmemWrite (t2Bn ptr len : UInt64) : Ret × Iomb :=
  b.encT2ZusmemIo fw t2Bn ptr len .t2ZusmemWrite

/-- `_zus_iom_enc_t2_zusmem_read`. -/
def encT2ZusmemRead (t2Bn ptr len : UInt64) : Ret × Iomb :=
  b.encT2ZusmemIo fw t2Bn ptr len .t2ZusmemRead

/-- The words a reader is given. -/
def elems : List UInt64 := (List.range b.iomN).map b.iomE

end Iomb

/-! ## Calls -/

/-- A call of an encoder with its arguments. -/
inductive Call
  | wbinv
  | discard (t2Bn numPages : UInt64)
  | unmap (index n ino : UInt64)
  | t2Write (t2Bn t1Val : UInt64)
  | t2Read (t2Bn t1Val : UInt64)
  | t2ZusmemWrite (t2Bn ptr len : UInt64)
  | t2ZusmemRead (t2Bn ptr len : UInt64)
  deriving DecidableEq

namespace Call

/-- The encoder a call runs. -/
def enc (fw : FirstWord) (b : Iomb) : Call → Ret × Iomb
  | .wbinv => b.encWbinv fw
  | .discard t2Bn numPages => b.encDiscard fw t2Bn numPages
  | .unmap index n ino => b.encUnmap fw index n ino
  | .t2Write t2Bn t1Val => b.encT2Write fw t2Bn t1Val
  | .t2Read t2Bn t1Val => b.encT2Read fw t2Bn t1Val
  | .t2ZusmemWrite t2Bn ptr len => b.encT2ZusmemWrite fw t2Bn ptr len
  | .t2ZusmemRead t2Bn ptr len => b.encT2ZusmemRead fw t2Bn ptr len

/-- The type of the element. -/
def type : Call → IomType
  | .wbinv => .wbinv
  | .discard .. => .discard
  | .unmap .. => .unmap
  | .t2Write .. => .t2Write
  | .t2Read .. => .t2Read
  | .t2ZusmemWrite .. => .t2ZusmemWrite
  | .t2ZusmemRead .. => .t2ZusmemRead

/-- The value that goes into the first word. -/
def firstVal : Call → UInt64
  | .wbinv => 0
  | .discard t2Bn _ => t2Bn
  | .unmap index _ _ => index
  | .t2Write t2Bn _ => t2Bn
  | .t2Read t2Bn _ => t2Bn
  | .t2ZusmemWrite t2Bn _ _ => t2Bn
  | .t2ZusmemRead t2Bn _ _ => t2Bn

/-- The words after the first one. -/
def rest : Call → List UInt64
  | .wbinv => []
  | .discard _ numPages => [numPages]
  | .unmap _ n ino => [n, ino]
  | .t2Write _ t1Val => [t1Val]
  | .t2Read _ t1Val => [t1Val]
  | .t2ZusmemWrite _ ptr len => [ptr, len]
  | .t2ZusmemRead _ ptr len => [ptr, len]

/-- The words of the element. -/
def words (fw : FirstWord) (c : Call) : List UInt64 :=
  fw.encTypeVal c.type c.firstVal :: c.rest

/-- The value of the call fits its bit field. -/
def Fits (fw : FirstWord) (c : Call) : Prop := c.firstVal &&& ~~~fw.firstValMask = 0

instance (fw : FirstWord) (c : Call) : Decidable (c.Fits fw) :=
  inferInstanceAs (Decidable (_ = _))

end Call

/-- A sequence of calls: those that were accepted, and the state it leaves. -/
def encAll (fw : FirstWord) : Iomb → List Call → List Call × Iomb
  | b, [] => ([], b)
  | b, c :: cs =>
    match c.enc fw b with
    | (.ok, b') => (c :: (encAll fw b' cs).1, (encAll fw b' cs).2)
    | (.enospc, b') => encAll fw b' cs

/-! ## Reading -/

/-- The call an element stands for, from its type and its words. -/
def readElem (fw : FirstWord) (w : UInt64) : IomType → List UInt64 → Option Call
  | .wbinv, [] => some .wbinv
  | .discard, [numPages] => some (.discard (fw.valOf w) numPages)
  | .unmap, [n, ino] => some (.unmap (fw.valOf w) n ino)
  | .t2Write, [t1Val] => some (.t2Write (fw.valOf w) t1Val)
  | .t2Read, [t1Val] => some (.t2Read (fw.valOf w) t1Val)
  | .t2ZusmemWrite, [ptr, len] => some (.t2ZusmemWrite (fw.valOf w) ptr len)
  | .t2ZusmemRead, [ptr, len] => some (.t2ZusmemRead (fw.valOf w) ptr len)
  | _, _ => none

/-- Read a list of words, element by element: the first word gives the type, the type
gives the length. -/
def decode (fw : FirstWord) : List UInt64 → Option (List Call)
  | [] => some []
  | w :: ws =>
    let n := (fw.typeOf w).words - 1
    match readElem fw w (fw.typeOf w) (ws.take n) with
    | none => none
    | some c => (decode fw (ws.drop n)).map (c :: ·)
termination_by ws => ws.length
decreasing_by
  simp only [List.length_drop, List.length_cons]
  omega

/-! ## Encoding and decoding -/

section

variable {fw : FirstWord} {b : Iomb} {c : Call}

theorem Call.length_rest (c : Call) : c.rest.length = c.type.words - 1 := by
  cases c <;> rfl

theorem Call.words_pos (c : Call) : 0 < c.type.words := by
  cases c <;> exact Nat.zero_lt_succ _

theorem Call.length_words (fw : FirstWord) (c : Call) : (c.words fw).length = c.type.words := by
  have hpos := c.words_pos
  rw [Call.words, List.length_cons, c.length_rest]
  omega

/-- **One spec for the seven encoders**: there is no room and nothing changes, or the words
of the call are stored and the cursor moves behind them. -/
theorem Call.enc_eq (c : Call) : c.enc fw b =
    if b.endIomE < 8 * (b.curIomE + c.type.words) then (.enospc, b)
    else (.ok, { b with
      iomE := storeWords b.iomE b.curIomE (c.words fw)
      curIomE := b.curIomE + c.type.words }) := by
  cases c <;> rfl

/-- An element is read back from its words. -/
theorem readElem_words (h : c.Fits fw) :
    readElem fw (fw.encTypeVal c.type c.firstVal) c.type c.rest = some c := by
  have hval := fw.valOf_enc c.type c.firstVal h
  cases c <;> simp only [Call.type, Call.firstVal, Call.rest, readElem] at hval ⊢ <;> rw [hval]

/-- **One element is decoded**, whatever follows it. -/
theorem decode_words (h : c.Fits fw) (ws : List UInt64) :
    decode fw (c.words fw ++ ws) = (decode fw ws).map (c :: ·) := by
  have htype := fw.typeOf_enc c.type c.firstVal h
  have hlen := c.length_rest
  rw [Call.words, List.cons_append, decode]
  simp only [htype]
  rw [← hlen, List.take_left, List.drop_left, readElem_words h]

/-- Elements one after the other are decoded in order. -/
theorem decode_flatMap {cs : List Call} (h : ∀ c ∈ cs, c.Fits fw) :
    decode fw (cs.flatMap (Call.words fw)) = some cs := by
  induction cs with
  | nil => rw [List.flatMap_nil, decode]
  | cons c cs ih =>
    rw [List.flatMap_cons, decode_words (h c List.mem_cons_self),
      ih fun x hx => h x (List.mem_cons_of_mem c hx)]
    rfl

/-! ## The buffer -/

/-- The words before the place of a store stay. -/
theorem map_range_storeWords {m : ℕ → UInt64} {n off : ℕ} {ws : List UInt64} (h : n ≤ off) :
    (List.range n).map (storeWords m off ws) = (List.range n).map m := by
  refine List.map_congr_left fun i hi => if_neg ?_
  have := List.mem_range.mp hi
  omega

/-- The words up to the end of a store are the old ones and the stored ones. -/
theorem map_range_storeWords_self {m : ℕ → UInt64} {off : ℕ} {ws : List UInt64} :
    (List.range (off + ws.length)).map (storeWords m off ws) = (List.range off).map m ++ ws := by
  rw [List.range_add, List.map_append, map_range_storeWords (Nat.le_refl _), List.map_map]
  congr 1
  refine List.ext_getElem (by simp) fun i h₁ h₂ => ?_
  have hsub : off + i - off = i := Nat.add_sub_cancel_left off i
  simp [storeWords, hsub, h₂]

/-- What holds of a buffer while it is filled: the words before the cursor are those of
the calls `cs`. -/
structure Holds (fw : FirstWord) (cs : List Call) (b : Iomb) : Prop where
  inside : 8 * b.curIomE ≤ b.endIomE
  cursor : b.curIomE = (cs.map fun c => c.type.words).sum
  words : (List.range b.curIomE).map b.iomE = cs.flatMap (Call.words fw)

/-- A fresh buffer holds no call. -/
theorem holds_start (fw : FirstWord) (b : Iomb) : Holds fw [] b.iomStart := ⟨Nat.zero_le _, rfl, rfl⟩

/-- **An accepted call is added.** -/
theorem Holds.enc {cs : List Call} {b' : Iomb} (h : Holds fw cs b) (hc : c.enc fw b = (.ok, b')) :
    Holds fw (cs ++ [c]) b' ∧ b'.endIomE = b.endIomE := by
  rw [Call.enc_eq] at hc
  split at hc
  · cases (Prod.mk.inj hc).1
  · next hroom =>
    obtain ⟨-, rfl⟩ := Prod.mk.inj hc
    refine ⟨⟨Nat.not_lt.mp hroom, ?_, ?_⟩, rfl⟩
    · simp only [List.map_append, List.sum_append, List.map_cons, List.map_nil, List.sum_singleton]
      rw [h.cursor]
    · have hlen := c.length_words fw
      simp only [List.flatMap_append, List.flatMap_cons, List.flatMap_nil, List.append_nil]
      rw [← hlen, map_range_storeWords_self, h.words]

/-- A rejected call changes nothing. -/
theorem enc_enospc (h : (c.enc fw b).1 = .enospc) : (c.enc fw b).2 = b := by
  rw [Call.enc_eq] at h ⊢
  split at h
  · rw [if_pos ‹_›]
  · cases h

/-- **Any sequence of calls** adds the accepted ones. -/
theorem Holds.encAll {cs₀ : List Call} (h : Holds fw cs₀ b) (cs : List Call) :
    Holds fw (cs₀ ++ (encAll fw b cs).1) (Iom.encAll fw b cs).2 ∧
      (Iom.encAll fw b cs).2.endIomE = b.endIomE := by
  induction cs generalizing b cs₀ with
  | nil => exact ⟨by simpa [Iom.encAll] using h, rfl⟩
  | cons c cs ih =>
    rcases hc : c.enc fw b with ⟨_ | _, b'⟩
    · obtain ⟨h', hend⟩ := h.enc hc
      obtain ⟨h'', hend'⟩ := ih h'
      simp only [Iom.encAll, hc]
      rw [List.append_assoc] at h''
      exact ⟨h'', hend'.trans hend⟩
    · have hb : (c.enc fw b).2 = b := enc_enospc (by rw [hc])
      rw [hc] at hb
      simp only [Iom.encAll, hc]
      have hb' : b' = b := hb
      subst hb'
      exact ih h

/-- The accepted calls are some of the calls. -/
theorem encAll_subset (cs : List Call) : ∀ x ∈ (encAll fw b cs).1, x ∈ cs := by
  induction cs generalizing b with
  | nil => exact fun x hx => hx
  | cons c cs ih =>
    intro x hx
    rcases hc : c.enc fw b with ⟨_ | _, b'⟩
    · simp only [encAll, hc] at hx
      rcases List.mem_cons.mp hx with rfl | hx
      · exact List.mem_cons_self
      · exact List.mem_cons_of_mem c (ih x hx)
    · simp only [encAll, hc] at hx
      exact List.mem_cons_of_mem c (ih x hx)

/-- The end of a list leaves the words before the cursor, and counts them. -/
theorem Holds.elems_iomEnd {cs : List Call} (h : Holds fw cs b) :
    (b.iomEnd fw).iomN = (cs.map fun c => c.type.words).sum ∧
      (b.iomEnd fw).elems = cs.flatMap (Call.words fw) := by
  refine ⟨h.cursor, ?_⟩
  rw [← h.words]
  unfold Iomb.iomEnd Iomb.elems Iomb.iomLen
  simp only
  split
  · exact map_range_storeWords (Nat.le_refl _)
  · rfl

end

/-- **An iomap is bounded, atomic and uniquely decodable.** After any sequence of calls the
cursor is not behind the end of the buffer; a call that returns `-ENOSPC` changes nothing;
the number of words is that of the accepted elements; and these words decode to the accepted
calls with their arguments, in order. -/
theorem iom_faithful (fw : FirstWord) (b : Iomb) (cs : List Call) (hfit : ∀ c ∈ cs, c.Fits fw) :
    8 * (encAll fw b.iomStart cs).2.curIomE ≤ b.endIomE ∧
    (∀ c : Call, (c.enc fw (encAll fw b.iomStart cs).2).1 = .enospc →
      (c.enc fw (encAll fw b.iomStart cs).2).2 = (encAll fw b.iomStart cs).2) ∧
    ((encAll fw b.iomStart cs).2.iomEnd fw).iomN =
      ((encAll fw b.iomStart cs).1.map fun c => c.type.words).sum ∧
    decode fw ((encAll fw b.iomStart cs).2.iomEnd fw).elems = some (encAll fw b.iomStart cs).1 := by
  obtain ⟨hholds, hend⟩ := (holds_start fw b).encAll cs
  rw [List.nil_append] at hholds
  obtain ⟨hn, helems⟩ := hholds.elems_iomEnd
  refine ⟨?_, fun c hc => enc_enospc hc, hn, ?_⟩
  · have hinside := hholds.inside
    rwa [hend] at hinside
  · rw [helems]
    exact decode_flatMap fun c hc => hfit c (encAll_subset cs c hc)

/-! ## A layout -/

/-- The number of a type. -/
def IomType.num : IomType → ℕ
  | .null => 0
  | .wbinv => 1
  | .discard => 2
  | .unmap => 3
  | .t2Write => 4
  | .t2Read => 5
  | .t2ZusmemWrite => 6
  | .t2ZusmemRead => 7

/-- The type with a number. -/
def IomType.ofNum : ℕ → IomType
  | 1 => .wbinv
  | 2 => .discard
  | 3 => .unmap
  | 4 => .t2Write
  | 5 => .t2Read
  | 6 => .t2ZusmemWrite
  | 7 => .t2ZusmemRead
  | _ => .null

theorem toNat_lt_of_fits {v : UInt64} (h : v &&& ~~~0x00FFFFFFFFFFFFFF = 0) : v.toNat < 2 ^ 56 :=
  toNat_lt_of_and_not_eq_zero (by decide) h

/-- The type in the upper eight bits, the value below. -/
def FirstWord.packed : FirstWord where
  firstValMask := 0x00FFFFFFFFFFFFFF
  encTypeVal t v := UInt64.ofNat (t.num * 2 ^ 56 + v.toNat)
  typeOf w := .ofNum (w.toNat / 2 ^ 56)
  valOf w := UInt64.ofNat (w.toNat % 2 ^ 56)
  typeOf_enc t v h := by
    have hv := toNat_lt_of_fits h
    have hw : (UInt64.ofNat (t.num * 2 ^ 56 + v.toNat)).toNat = t.num * 2 ^ 56 + v.toNat := by
      rw [UInt64.toNat_ofNat']
      cases t <;> simp only [IomType.num] <;> omega
    rw [hw, Nat.mul_comm, Nat.mul_add_div (by decide), Nat.div_eq_of_lt hv]
    cases t <;> rfl
  valOf_enc t v h := by
    have hv := toNat_lt_of_fits h
    have hw : (UInt64.ofNat (t.num * 2 ^ 56 + v.toNat)).toNat = t.num * 2 ^ 56 + v.toNat := by
      rw [UInt64.toNat_ofNat']
      cases t <;> simp only [IomType.num] <;> omega
    rw [hw, Nat.mul_comm, Nat.mul_add_mod, Nat.mod_eq_of_lt hv]
    exact UInt64.ofNat_toNat

/-- Four calls into a buffer of six words: the third one finds no room. -/
theorem iom_faithful_six_words :
    let b : Iomb := ⟨fun _ => 0, 0, 48, 0⟩
    let cs : List Call := [.discard 5 7, .unmap 1 2 3, .t2Write 9 4096, .wbinv]
    (encAll .packed b.iomStart cs).1 = [.discard 5 7, .unmap 1 2 3, .wbinv] ∧
    decode .packed ((encAll .packed b.iomStart cs).2.iomEnd .packed).elems =
      some (encAll .packed b.iomStart cs).1 := by
  intro b cs
  have hfit : ∀ c ∈ cs, c.Fits .packed := by decide
  exact ⟨by decide, (iom_faithful .packed b cs hfit).2.2.2⟩

end Zus.Iom
