import Zus.Lib.Strtoul
import Zus.Lib.Words
import Zus.Printz

/-!
# The words of a debug command

`_tokenize` cuts a command into words, in place: the byte after a word becomes zero, and a token is
the address of the first byte of a word. The words are those of `Words`, of which there may be nine.
-/

namespace Zus.Printz

open Zus.Lib Zus.Lib.Words

/-! ## The code -/

/-- `MAX_DDBG_CMD_TOKENS`. -/
def maxDdbgCmdTokens : ℕ := 9

/-- A double quote or a single one. -/
def isQuote (c : UInt8) : Bool := c = ascii '"' ∨ c = 39

/-- `for (; test(*p); ++p)`. -/
def scan (test : UInt8 → Bool) (m : List UInt8) (p : ℕ) : ℕ :=
  p + ((m.drop p).takeWhile test).length

/-- What a turn of the loop finds. -/
inductive Turn
  | done
  | unclosed
  | word (buf stop : ℕ)
  deriving DecidableEq

/-- A turn after the blanks, at a byte `c`; there is no value to read past the end of memory. -/
def findWord (m : List UInt8) (buf : ℕ) (c : UInt8) : Option Turn :=
  if c = ascii '#' then some .done
  else if isQuote c then
    let stop := scan (fun d => d ≠ 0 ∧ d ≠ c) m (buf + 1)
    match m[stop]? with
    | none => none
    | some e => some (if e = 0 then .unclosed else .word (buf + 1) stop)
  else
    let stop := scan (fun d => d ≠ 0 ∧ ¬ isspace d) m buf
    match m[stop]? with
    | none => none
    | some _ => some (.word buf stop)

/-- A turn up to where `buf` and `end` are the two ends of a word. -/
def turn (m : List UInt8) (buf : ℕ) : Option Turn :=
  match m[buf]? with
  | none => none
  | some c =>
    if c = 0 then some .done
    else
      let buf := scan isspace m buf
      match m[buf]? with
      | none => none
      | some c => if c = 0 then some .done else findWord m buf c

/-- The loop of `_tokenize`: the error, what it leaves in memory, and the tokens. -/
def tokenizeLoop : ℕ → List UInt8 → ℕ → List ℕ → Option (Option Errno × List UInt8 × List ℕ)
  | 0, _, _, _ => none
  | fuel + 1, m, buf, tokens =>
    match turn m buf with
    | none => none
    | some .done => some (none, m, tokens)
    | some .unclosed => some (some .einval, m, tokens)
    | some (.word buf stop) =>
      if tokens.length = maxDdbgCmdTokens then some (some .einval, m, tokens)
      else if m[stop]? = some 0 then tokenizeLoop fuel m stop (tokens ++ [buf])
      else tokenizeLoop fuel (poke m stop [0]) (stop + 1) (tokens ++ [buf])

/-- `_tokenize`, of a command at the start of memory. -/
def tokenize (m : List UInt8) : Option (Option Errno × List UInt8 × List ℕ) :=
  tokenizeLoop (m.length + 1) m 0 []

/-- The string at a token. -/
def tokenAt (m : List UInt8) (t : ℕ) : List UInt8 := cstr (m.drop t)

/-! ## The texts -/

/-- What a byte is to `_tokenize`. -/
def kind (c : UInt8) : Kind :=
  if isspace c then .blank
  else if c = ascii '#' then .hash
  else if isQuote c then .quote
  else .plain

/-- Words in quotes that they do not have, with blanks between them. -/
inductive Joined : List (List UInt8) → List UInt8 → Prop
  | nil : Joined [] []
  | single {q w} : isQuote q → q ∉ w → Joined [w] (q :: (w ++ [q]))
  | cons {q w sep w' ws s} : isQuote q → q ∉ w → sep ≠ [] → (∀ c ∈ sep, isspace c) →
      Joined (w' :: ws) s → Joined (w :: w' :: ws) (q :: (w ++ q :: (sep ++ s)))

/-- Quoted words, and maybe blanks and a comment after them. -/
def QuotedText (ws : List (List UInt8)) (s : List UInt8) : Prop :=
  ∃ body sep comment, Joined ws body ∧ (∀ c ∈ sep, isspace c) ∧
    (∀ c ∈ comment.head?, c = ascii '#') ∧ s = body ++ (sep ++ comment)

/-- What `_tokenize` is for, of the text of a command. -/
structure TokenizeRight (s : List UInt8) : Prop where
  /-- only the text is read and written, and its tokens are parts of it, one after the other -/
  inside : ∃ err out toks, out.length = s.length ∧
    (∀ rest, tokenize (s ++ 0 :: rest) = some (err, out ++ 0 :: rest, toks)) ∧
    (∀ t ∈ toks, t + (tokenAt (out ++ [0]) t).length ≤ s.length ∧
      tokenAt (out ++ [0]) t <+: s.drop t) ∧
    toks.Pairwise fun t t' => t + (tokenAt (out ++ [0]) t).length < t'
  roundTrip : ∀ ws, QuotedText ws s → ws.length ≤ maxDdbgCmdTokens →
    ∀ rest, ∃ m toks, tokenize (s ++ 0 :: rest) = some (none, m, toks) ∧ toks.map (tokenAt m) = ws
  tooMany : ∀ ws, QuotedText ws s → maxDdbgCmdTokens < ws.length →
    ∀ rest, ∃ m toks, tokenize (s ++ 0 :: rest) = some (some .einval, m, toks)

variable {m s w t rest pre a : List UInt8} {ws : List (List UInt8)} {toks : List ℕ} {c d q : UInt8}
  {closed : Bool} {buf n fuel : ℕ} {test : UInt8 → Bool}

/-! ## One turn -/

theorem getElem?_at : (pre ++ c :: t)[pre.length]? = some c := by simp

theorem scan_at (hw : ∀ e ∈ w, test e = true) (hd : test d = false) :
    scan test (pre ++ (w ++ d :: t)) pre.length = pre.length + w.length := by
  rw [scan, List.drop_left, List.takeWhile_append_of_pos hw,
    List.takeWhile_cons_of_neg (by rw [hd]; exact Bool.false_ne_true), List.append_nil]

theorem ne_zero_of_isspace (h : isspace c = true) : c ≠ 0 := by
  rintro rfl
  exact absurd h (by decide)

theorem turn_nul : turn (pre ++ 0 :: t) pre.length = some .done := by
  rw [turn, getElem?_at]
  rfl

/-- A turn skips a blank. -/
theorem turn_blank (hc : isspace c = true) :
    turn (pre ++ c :: t) pre.length = turn (pre ++ c :: t) (pre.length + 1) := by
  have hdrop : (pre ++ c :: t).drop (pre.length + 1) = t := by simp
  have hscan : scan isspace (pre ++ c :: t) pre.length =
      scan isspace (pre ++ c :: t) (pre.length + 1) := by
    rw [scan, scan, hdrop, List.drop_left, List.takeWhile_cons_of_pos hc, List.length_cons]
    omega
  rw [turn, turn, getElem?_at]
  simp only [hscan, if_neg (ne_zero_of_isspace hc)]
  cases t with
  | nil =>
    have hend : scan isspace (pre ++ [c]) (pre.length + 1) = pre.length + 1 := by simp [scan]
    simp [hend]
  | cons d t =>
    have hnext : (pre ++ c :: d :: t)[pre.length + 1]? = some d := by simp
    simp only [hnext]
    by_cases hd : d = 0
    · subst hd
      have hstay : scan isspace (pre ++ c :: 0 :: t) (pre.length + 1) = pre.length + 1 := by
        rw [scan, hdrop]
        rfl
      simp [hstay]
    · rw [if_neg hd]

/-- A turn at a byte that is no blank. -/
theorem turn_of_not_blank (hc : isspace c = false) (h₀ : c ≠ 0) :
    turn (pre ++ c :: t) pre.length = findWord (pre ++ c :: t) pre.length c := by
  have hstay : scan isspace (pre ++ c :: t) pre.length = pre.length :=
    scan_at (w := []) (fun e he => absurd he List.not_mem_nil) hc
  rw [turn, getElem?_at]
  simp only [hstay, getElem?_at, if_neg h₀]

theorem kind_eq_blank : kind c = .blank ↔ isspace c = true := by
  unfold kind
  split_ifs <;> simp_all

theorem kind_eq_hash (h : kind c = .hash) : isspace c = false ∧ c = ascii '#' := by
  unfold kind at h
  split_ifs at h with hblank hhash
  exact ⟨eq_false_of_ne_true hblank, hhash⟩

theorem kind_eq_quote (h : kind c = .quote) :
    isspace c = false ∧ c ≠ ascii '#' ∧ isQuote c = true := by
  unfold kind at h
  split_ifs at h with hblank hhash hquote
  exact ⟨eq_false_of_ne_true hblank, hhash, hquote⟩

theorem kind_eq_plain (h : kind c = .plain) :
    isspace c = false ∧ c ≠ ascii '#' ∧ isQuote c = false := by
  unfold kind at h
  split_ifs at h with hblank hhash hquote
  exact ⟨eq_false_of_ne_true hblank, hhash, eq_false_of_ne_true hquote⟩

theorem turn_hash (hc : kind c = .hash) : turn (pre ++ c :: t) pre.length = some .done := by
  obtain ⟨hblank, rfl⟩ := kind_eq_hash hc
  rw [turn_of_not_blank hblank (by decide), findWord, if_pos rfl]

/-- A quote, up to the next one of its kind or to the end of the text. -/
theorem turn_quote (hq : kind q = .quote) (h₀ : q ≠ 0) (hw : q ∉ w) (hw₀ : 0 ∉ w)
    (hd : d = 0 ∨ d = q) : turn (pre ++ q :: (w ++ d :: t)) pre.length =
      some (if d = 0 then .unclosed
        else .word (pre.length + 1) (pre.length + 1 + w.length)) := by
  obtain ⟨hblank, hhash, hquote⟩ := kind_eq_quote hq
  have hpre : pre ++ q :: (w ++ d :: t) = (pre ++ [q]) ++ (w ++ d :: t) := by simp
  have hstop : scan (fun e => e ≠ 0 ∧ e ≠ q) (pre ++ q :: (w ++ d :: t)) (pre.length + 1) =
      pre.length + 1 + w.length := by
    have hlen : pre.length + 1 = (pre ++ [q]).length := by simp
    rw [hpre, hlen]
    refine scan_at (fun e he => decide_eq_true ⟨?_, ?_⟩) (decide_eq_false fun hne => ?_)
    · exact fun heq => hw₀ (heq ▸ he)
    · exact fun heq => hw (heq ▸ he)
    · exact hd.elim hne.1 hne.2
  have hget : (pre ++ q :: (w ++ d :: t))[pre.length + 1 + w.length]? = some d := by
    have hlen : pre.length + 1 + w.length = (pre ++ q :: w).length := by simp; omega
    rw [hpre, hlen, ← List.append_assoc, List.append_assoc pre, List.singleton_append, getElem?_at]
  rw [turn_of_not_blank hblank h₀, findWord, if_neg hhash, if_pos hquote]
  simp only [hstop, hget]

/-- A word without quotes, up to the next blank or to the end of the text. -/
theorem turn_plain (hc : kind c = .plain) (hw : ∀ e ∈ w, kind e ≠ .blank) (h₀ : 0 ∉ c :: w)
    (hd : d = 0 ∨ isspace d = true) : turn (pre ++ c :: (w ++ d :: t)) pre.length =
      some (.word pre.length (pre.length + (c :: w).length)) := by
  obtain ⟨hblank, hhash, hquote⟩ := kind_eq_plain hc
  have hstop : scan (fun e => e ≠ 0 ∧ ¬ isspace e) (pre ++ c :: (w ++ d :: t)) pre.length =
      pre.length + (c :: w).length := by
    rw [← List.cons_append]
    refine scan_at (fun e he => decide_eq_true ⟨?_, ?_⟩) (decide_eq_false fun hne => ?_)
    · exact fun heq => h₀ (heq ▸ he)
    · obtain rfl | he := List.mem_cons.mp he
      · rw [hblank]
        exact Bool.false_ne_true
      · exact fun hin => hw e he (kind_eq_blank.mpr hin)
    · exact hd.elim hne.1 hne.2
  have hget : (pre ++ c :: (w ++ d :: t))[pre.length + (c :: w).length]? = some d := by
    rw [← List.length_append, ← List.cons_append, ← List.append_assoc, getElem?_at]
  have hne : c ≠ 0 := fun heq => h₀ (heq ▸ List.mem_cons_self)
  rw [turn_of_not_blank hblank hne, findWord, if_neg hhash, if_neg (by rw [hquote]; decide)]
  simp only [hstop, hget]

/-! ## The whole loop -/

/-- The tokens, from `start` on: each has its word, with a zero byte after it, where the text had
the word. -/
def Laid (m₀ m : List UInt8) : ℕ → List ℕ → List (List UInt8) → Prop
  | _, [], [] => True
  | start, t :: toks, w :: ws => start ≤ t ∧ w <+: m₀.drop t ∧ w ++ [0] <+: m.drop t ∧
      Laid m₀ m (t + w.length + 1) toks ws
  | _, _, _ => False

/-- The loop reads the text as the words, wherever it is and whatever is after it. -/
def Reads (s : List UInt8) (ws : List (List UInt8)) (closed : Bool) : Prop :=
  ∀ (pre : List UInt8) (tokens : List ℕ), tokens.length ≤ maxDdbgCmdTokens →
    ∃ out toks, out.length = s.length ∧ ∀ rest fuel, s.length < fuel →
      tokenizeLoop fuel (pre ++ (s ++ 0 :: rest)) pre.length tokens =
        some (if closed = true ∧ tokens.length + ws.length ≤ maxDdbgCmdTokens then none
          else some .einval, pre ++ (out ++ 0 :: rest), tokens ++ toks) ∧
      Laid (pre ++ (s ++ 0 :: rest)) (pre ++ (out ++ 0 :: rest)) pre.length toks
        (ws.take (maxDdbgCmdTokens - tokens.length))

theorem Laid.weaken {m₀ m₀' : List UInt8} {start start' : ℕ} (h : Laid m₀ m start toks ws)
    (hle : start' ≤ start) (heq : m₀.drop start = m₀'.drop start) : Laid m₀' m start' toks ws := by
  induction toks generalizing start start' ws with
  | nil =>
    cases ws with
    | nil => trivial
    | cons w ws => exact h.elim
  | cons t toks ih =>
    cases ws with
    | nil => exact h.elim
    | cons w ws =>
      obtain ⟨hstart, hword, hnul, hrest⟩ := h
      have hdrop : ∀ p, start ≤ p → m₀.drop p = m₀'.drop p := by
        intro p hp
        obtain ⟨i, rfl⟩ := Nat.exists_eq_add_of_le hp
        rw [← List.drop_drop, heq, List.drop_drop]
      refine ⟨hle.trans hstart, ?_, hnul, ih hrest le_rfl (hdrop _ (by omega))⟩
      rw [← hdrop t hstart]
      exact hword

theorem reads_done (h : ∀ pre rest, turn (pre ++ (s ++ 0 :: rest)) pre.length = some .done) :
    Reads s [] true := by
  intro pre tokens htok
  refine ⟨s, [], rfl, fun rest fuel hfuel => ?_⟩
  obtain ⟨fuel, rfl⟩ := Nat.exists_eq_succ_of_ne_zero (Nat.ne_zero_of_lt hfuel)
  rw [tokenizeLoop, h pre rest, List.take_nil]
  refine ⟨?_, trivial⟩
  simp [htok]

theorem reads_blank (hc : kind c = .blank) (h : Reads s ws closed) : Reads (c :: s) ws closed := by
  intro pre tokens htok
  obtain ⟨out, toks, hlen, hrun⟩ := h (pre ++ [c]) tokens htok
  refine ⟨c :: out, toks, by rw [List.length_cons, List.length_cons, hlen],
    fun rest fuel hfuel => ?_⟩
  obtain ⟨fuel, rfl⟩ := Nat.exists_eq_succ_of_ne_zero (Nat.ne_zero_of_lt hfuel)
  obtain ⟨heq, hlaid⟩ := hrun rest (fuel + 1) (Nat.lt_of_succ_lt hfuel)
  have hsplit : ∀ t : List UInt8, (pre ++ [c]) ++ t = pre ++ (c :: t) := by simp
  rw [hsplit, hsplit] at heq hlaid
  have hpre : (pre ++ [c]).length = pre.length + 1 := by simp
  rw [hpre] at heq hlaid
  refine ⟨?_, hlaid.weaken (Nat.le_succ _) rfl⟩
  rw [List.cons_append, tokenizeLoop, turn_blank (kind_eq_blank.mp hc)]
  exact heq

/-- There is no place for one more word. -/
theorem reads_full {start stop : ℕ} {m : List UInt8} {tokens : List ℕ}
    (hturn : turn m n = some (.word start stop)) (hfull : tokens.length = maxDdbgCmdTokens)
    (hfuel : 0 < fuel) :
    tokenizeLoop fuel m n tokens = some (some .einval, m, tokens) := by
  obtain ⟨fuel, rfl⟩ := Nat.exists_eq_succ_of_ne_zero hfuel.ne'
  rw [tokenizeLoop, hturn]
  exact if_pos hfull

/-- A turn with a word and a byte after it, which becomes zero; `a` is the quote before the word, if
there is one. -/
theorem tokenizeLoop_word {tokens : List ℕ}
    (hturn : turn (pre ++ (a ++ (w ++ d :: t))) pre.length =
      some (.word (pre.length + a.length) (pre.length + a.length + w.length)))
    (hd : d ≠ 0) (hroom : tokens.length ≠ maxDdbgCmdTokens) :
    tokenizeLoop (fuel + 1) (pre ++ (a ++ (w ++ d :: t))) pre.length tokens =
      tokenizeLoop fuel (pre ++ (a ++ (w ++ [0])) ++ t) (pre ++ (a ++ (w ++ [0]))).length
        (tokens ++ [pre.length + a.length]) := by
  have hmem : ∀ t : List UInt8, pre ++ (a ++ (w ++ t)) = (pre ++ a ++ w) ++ t := by simp
  have hstop : pre.length + a.length + w.length = (pre ++ a ++ w).length := by simp; omega
  have hget : (pre ++ (a ++ (w ++ d :: t)))[pre.length + a.length + w.length]? = some d := by
    rw [hmem, hstop, getElem?_at]
  have hpoke : poke (pre ++ (a ++ (w ++ d :: t))) (pre.length + a.length + w.length) [0] =
      pre ++ (a ++ (w ++ [0])) ++ t := by
    rw [hmem, hstop, poke_append]
    simp
  have hnext : (pre ++ (a ++ (w ++ [0]))).length = pre.length + a.length + w.length + 1 := by
    simp; omega
  rw [tokenizeLoop, hturn]
  simp only [if_neg hroom, hget, hpoke]
  rw [if_neg fun h => hd (Option.some.inj h), hnext]

/-- The word of such a turn, and those after it. -/
theorem Laid.word {u : List UInt8}
    (h : Laid (pre ++ (a ++ (w ++ [0])) ++ t) (pre ++ (a ++ (w ++ [0])) ++ u)
      (pre ++ (a ++ (w ++ [0]))).length toks ws) :
    Laid (pre ++ (a ++ (w ++ d :: t))) (pre ++ (a ++ (w ++ [0])) ++ u) pre.length
      ((pre.length + a.length) :: toks) (w :: ws) := by
  have hdrop : ∀ t, (pre ++ (a ++ t)).drop (pre.length + a.length) = t := by
    intro t
    rw [← List.append_assoc, ← List.length_append, List.drop_left]
  have hword : pre ++ (a ++ (w ++ [0])) ++ u = pre ++ (a ++ ((w ++ [0]) ++ u)) := by simp
  have hnext : (pre ++ (a ++ (w ++ [0]))).length = pre.length + a.length + w.length + 1 := by
    simp; omega
  refine ⟨Nat.le_add_right _ _, ?_, ?_, ?_⟩
  · rw [hdrop]
    exact List.prefix_append _ _
  · rw [hword, hdrop]
    exact List.prefix_append _ _
  · refine h.weaken hnext.ge ?_
    have hlast : (pre ++ (a ++ (w ++ d :: t))).drop (pre.length + a.length + w.length + 1) = t := by
      rw [← List.drop_drop, ← List.drop_drop, hdrop, List.drop_left]
      rfl
    rw [List.drop_left, hnext, hlast]

theorem reads_word (hturn : ∀ pre rest,
      turn (pre ++ (a ++ (w ++ d :: (s ++ 0 :: rest)))) pre.length =
        some (.word (pre.length + a.length) (pre.length + a.length + w.length)))
    (hd : d ≠ 0) (h : Reads s ws closed) : Reads (a ++ (w ++ d :: s)) (w :: ws) closed := by
  intro pre tokens htok
  have htext : ∀ rest, (a ++ (w ++ d :: s)) ++ 0 :: rest = a ++ (w ++ d :: (s ++ 0 :: rest)) := by
    simp
  by_cases hfull : tokens.length = maxDdbgCmdTokens
  · refine ⟨a ++ (w ++ d :: s), [], rfl, fun rest fuel hfuel => ?_⟩
    rw [htext, reads_full (hturn pre rest) hfull (Nat.zero_lt_of_lt hfuel), hfull, Nat.sub_self,
      List.take_zero, List.append_nil, List.length_cons, if_neg (by omega)]
    exact ⟨rfl, trivial⟩
  · have hlen : (tokens ++ [pre.length + a.length]).length = tokens.length + 1 := by simp
    obtain ⟨out, toks, hout, hrun⟩ := h (pre ++ (a ++ (w ++ [0]))) (tokens ++ [pre.length + a.length])
      (by omega)
    refine ⟨a ++ (w ++ 0 :: out), (pre.length + a.length) :: toks, by simp [hout],
      fun rest fuel hfuel => ?_⟩
    obtain ⟨fuel, rfl⟩ := Nat.exists_eq_succ_of_ne_zero (Nat.ne_zero_of_lt hfuel)
    obtain ⟨heq, hlaid⟩ := hrun rest fuel (by simp at hfuel; omega)
    have hleft : pre ++ ((a ++ (w ++ 0 :: out)) ++ 0 :: rest) =
        pre ++ (a ++ (w ++ [0])) ++ (out ++ 0 :: rest) := by simp
    have htake : (w :: ws).take (maxDdbgCmdTokens - tokens.length) =
        w :: ws.take (maxDdbgCmdTokens - (tokens.length + 1)) := by
      have hsub : maxDdbgCmdTokens - tokens.length =
          maxDdbgCmdTokens - (tokens.length + 1) + 1 := by omega
      rw [hsub, List.take_succ_cons]
    rw [hlen] at heq hlaid
    have htokens : tokens ++ [pre.length + a.length] ++ toks =
        tokens ++ (pre.length + a.length) :: toks := by simp
    have hcount : tokens.length + 1 + ws.length = tokens.length + (w :: ws).length := by
      rw [List.length_cons]
      omega
    rw [htext, hleft, htake]
    refine ⟨?_, hlaid.word⟩
    rw [tokenizeLoop_word (hturn pre rest) hd hfull, heq, htokens, hcount]

/-- A word that the end of the text is the end of. -/
theorem reads_last (hc : kind c = .plain) (hw : ∀ e ∈ w, kind e ≠ .blank) (h₀ : 0 ∉ c :: w) :
    Reads (c :: w) [c :: w] true := by
  intro pre tokens htok
  have hturn : ∀ rest, turn (pre ++ ((c :: w) ++ 0 :: rest)) pre.length =
      some (.word pre.length (pre.length + (c :: w).length)) :=
    fun rest => turn_plain hc hw h₀ (.inl rfl)
  by_cases hfull : tokens.length = maxDdbgCmdTokens
  · refine ⟨c :: w, [], rfl, fun rest fuel hfuel => ?_⟩
    rw [reads_full (hturn rest) hfull (Nat.zero_lt_of_lt hfuel), hfull, Nat.sub_self,
      List.take_zero, List.append_nil]
    exact ⟨rfl, trivial⟩
  · refine ⟨c :: w, [pre.length], rfl, fun rest fuel hfuel => ?_⟩
    -- the turn of the word, and the one at the zero byte
    obtain ⟨fuel, rfl⟩ : ∃ i, fuel = i + 1 + 1 :=
      Nat.exists_eq_add_of_le' (Nat.lt_of_le_of_lt (Nat.succ_pos w.length) hfuel)
    have hmem : pre ++ ((c :: w) ++ 0 :: rest) = (pre ++ (c :: w)) ++ 0 :: rest := by simp
    have hget : (pre ++ ((c :: w) ++ 0 :: rest))[pre.length + (c :: w).length]? = some 0 := by
      rw [hmem, ← List.length_append, getElem?_at]
    have hend : turn (pre ++ ((c :: w) ++ 0 :: rest)) (pre.length + (c :: w).length) =
        some .done := by
      rw [hmem, ← List.length_append, turn_nul]
    refine ⟨?_, ?_⟩
    · rw [tokenizeLoop, hturn]
      simp only [if_neg hfull, hget]
      rw [if_pos trivial, tokenizeLoop, hend, List.length_singleton]
      simp only
      rw [if_pos ⟨trivial, by omega⟩]
    · have htake : [c :: w].take (maxDdbgCmdTokens - tokens.length) = [c :: w] :=
        List.take_of_length_le (by rw [List.length_singleton]; omega)
      rw [htake]
      refine ⟨le_rfl, ?_, ?_, trivial⟩
      · rw [List.drop_left]
        exact List.prefix_append _ _
      · rw [List.drop_left]
        exact ⟨rest, by simp⟩

theorem reads_unclosed (hq : kind q = .quote) (hw : q ∉ w) (h₀ : 0 ∉ q :: w) :
    Reads (q :: w) [] false := by
  intro pre tokens htok
  refine ⟨q :: w, [], rfl, fun rest fuel hfuel => ?_⟩
  obtain ⟨fuel, rfl⟩ := Nat.exists_eq_succ_of_ne_zero (Nat.ne_zero_of_lt hfuel)
  obtain ⟨hne, hw₀⟩ := not_or.mp (List.mem_cons.not.mp h₀)
  have hturn : turn (pre ++ ((q :: w) ++ 0 :: rest)) pre.length = some .unclosed :=
    turn_quote hq (Ne.symm hne) hw hw₀ (.inl rfl)
  rw [tokenizeLoop, hturn, List.take_nil]
  refine ⟨?_, trivial⟩
  simp

/-- **`_tokenize` reads every text as its words.** -/
theorem reads_of_spells (h : Spells kind s ws closed) (h₀ : 0 ∉ s) : Reads s ws closed := by
  induction h with
  | nil => exact reads_done fun pre rest => turn_nul
  | blank hc _ ih => exact reads_blank hc (ih (List.not_mem_of_not_mem_cons h₀))
  | hash hc => exact reads_done fun pre rest => turn_hash hc
  | @quoted q w s ws closed hq hw _ ih =>
    simp only [List.mem_cons, List.mem_append, not_or] at h₀
    obtain ⟨hne, hw₀, -, hs⟩ := h₀
    refine reads_word (a := [q]) (fun pre rest => ?_) (Ne.symm hne) (ih hs)
    rw [List.singleton_append, turn_quote hq (Ne.symm hne) hw hw₀ (.inr rfl), if_neg (Ne.symm hne)]
    rfl
  | unclosed hq hw => exact reads_unclosed hq hw h₀
  | @plain c w d s ws closed hc hw hd _ ih =>
    rw [← List.cons_append, List.mem_append, List.mem_cons (a := 0) (b := d)] at h₀
    simp only [not_or] at h₀
    obtain ⟨hw₀, hd₀, hs⟩ := h₀
    refine reads_word (a := []) (w := c :: w) (fun pre rest => ?_) (Ne.symm hd₀) (ih hs)
    exact turn_plain hc hw hw₀ (.inr (kind_eq_blank.mp hd))
  | last hc hw => exact reads_last hc hw h₀

theorem tokenize_spec (h : Spells kind s ws closed) (h₀ : 0 ∉ s) :
    ∃ out toks, out.length = s.length ∧ ∀ rest,
      tokenize (s ++ 0 :: rest) =
        some (if closed = true ∧ ws.length ≤ maxDdbgCmdTokens then none else some .einval,
          out ++ 0 :: rest, toks) ∧
      Laid (s ++ 0 :: rest) (out ++ 0 :: rest) 0 toks (ws.take maxDdbgCmdTokens) := by
  obtain ⟨out, toks, hlen, hrun⟩ := reads_of_spells h h₀ [] [] (Nat.zero_le _)
  refine ⟨out, toks, hlen, fun rest => ?_⟩
  obtain ⟨heq, hlaid⟩ := hrun rest ((s ++ 0 :: rest).length + 1)
    (by rw [List.length_append]; omega)
  simp only [List.length_nil, Nat.zero_add, List.nil_append, Nat.sub_zero] at heq hlaid
  exact ⟨heq, hlaid⟩

/-! ## The tokens -/

namespace Laid

variable {m₀ : List UInt8} {start : ℕ}

theorem map_tokenAt (h : Laid m₀ m start toks ws) (hws : ∀ w ∈ ws, 0 ∉ w) :
    toks.map (tokenAt m) = ws := by
  induction toks generalizing start ws with
  | nil =>
    cases ws with
    | nil => rfl
    | cons w ws => exact h.elim
  | cons t toks ih =>
    cases ws with
    | nil => exact h.elim
    | cons w ws =>
      obtain ⟨-, -, ⟨tail, hnul⟩, hrest⟩ := h
      obtain ⟨hw, hws⟩ := List.forall_mem_cons.mp hws
      rw [List.map_cons, ih hrest hws, tokenAt, ← hnul, List.append_assoc, List.singleton_append,
        cstr_append hw]

theorem pairwise (h : Laid m₀ m start toks ws) (hws : ∀ w ∈ ws, 0 ∉ w) :
    (∀ t ∈ toks, start ≤ t) ∧
      toks.Pairwise fun t t' => t + (tokenAt m t).length < t' := by
  induction toks generalizing start ws with
  | nil => exact ⟨fun t ht => absurd ht List.not_mem_nil, .nil⟩
  | cons t toks ih =>
    cases ws with
    | nil => exact h.elim
    | cons w ws =>
      have hmap := h.map_tokenAt hws
      obtain ⟨hstart, -, -, hrest⟩ := h
      obtain ⟨hlo, hpair⟩ := ih hrest (List.forall_mem_cons.mp hws).2
      have htoken : tokenAt m t = w := (List.cons.inj hmap).1
      refine ⟨List.forall_mem_cons.mpr ⟨hstart, fun t' ht' => ?_⟩,
        List.pairwise_cons.mpr ⟨fun t' ht' => ?_, hpair⟩⟩
      · have hle := hlo t' ht'
        omega
      · rw [htoken]
        exact hlo t' ht'

theorem prefix_of_mem (h : Laid m₀ m start toks ws) (hws : ∀ w ∈ ws, 0 ∉ w) {t : ℕ}
    (ht : t ∈ toks) : tokenAt m t <+: m₀.drop t ∧ tokenAt m t ++ [0] <+: m.drop t := by
  induction toks generalizing start ws with
  | nil => exact absurd ht List.not_mem_nil
  | cons t' toks ih =>
    cases ws with
    | nil => exact h.elim
    | cons w ws =>
      have hmap := h.map_tokenAt hws
      obtain ⟨-, hword, hnul, hrest⟩ := h
      obtain rfl | ht := List.mem_cons.mp ht
      · have htoken : tokenAt m t = w := (List.cons.inj hmap).1
        rw [htoken]
        exact ⟨hword, hnul⟩
      · exact ih hrest (List.forall_mem_cons.mp hws).2 ht

end Laid

theorem kind_of_isQuote (h : isQuote q = true) : kind q = .quote := by
  obtain rfl | rfl : q = ascii '"' ∨ q = 39 := by simpa [isQuote] using h
  · decide
  · decide

theorem spells_blanks (hsep : ∀ c ∈ t, isspace c = true) (h : Spells kind s ws closed) :
    Spells kind (t ++ s) ws closed := by
  induction t with
  | nil => exact h
  | cons c t ih =>
    obtain ⟨hc, ht⟩ := List.forall_mem_cons.mp hsep
    exact .blank (kind_eq_blank.mpr hc) (ih ht)

theorem Joined.spells (h : Joined ws s) (ht : Spells kind t [] true) :
    Spells kind (s ++ t) ws true := by
  induction h with
  | nil => exact ht
  | @single q w hq hw =>
    rw [List.cons_append, List.append_assoc]
    exact .quoted (kind_of_isQuote hq) hw ht
  | @cons q w sep w' ws s hq hw _ hsep _ ih =>
    have heq : q :: (w ++ q :: (sep ++ s)) ++ t = q :: (w ++ q :: (sep ++ (s ++ t))) := by simp
    rw [heq]
    exact .quoted (kind_of_isQuote hq) hw (spells_blanks hsep ih)

theorem QuotedText.spells (h : QuotedText ws s) : Spells kind s ws true := by
  obtain ⟨body, sep, comment, hjoined, hsep, hcomment, rfl⟩ := h
  refine hjoined.spells (spells_blanks hsep ?_)
  cases comment with
  | nil => exact .nil
  | cons c comment =>
    obtain rfl := hcomment c rfl
    exact .hash (by decide)

/-- **`_tokenize` reads and writes the text only, leaves its tokens one after the other, and takes
quoted words apart again.** -/
theorem tokenize_right (s : CStr) : TokenizeRight s.bytes := by
  refine ⟨?_, fun ws hws hle rest => ?_, fun ws hws hlt rest => ?_⟩
  · obtain ⟨ws, closed, h⟩ := exists_spells kind s.bytes
    obtain ⟨out, toks, hlen, hrun⟩ := tokenize_spec h s.noNul
    have hnul : ∀ w ∈ ws.take maxDdbgCmdTokens, 0 ∉ w :=
      fun w hw h₀ => s.noNul (h.mem (List.mem_of_mem_take hw) h₀)
    have hlaid := (hrun []).2
    refine ⟨_, out, toks, hlen, fun rest => (hrun rest).1, fun t ht => ?_,
      (hlaid.pairwise hnul).2⟩
    obtain ⟨hword, hend⟩ := hlaid.prefix_of_mem hnul ht
    have hle : t + (tokenAt (out ++ [0]) t).length ≤ s.bytes.length := by
      have := hend.length_le
      simp only [List.length_append, List.length_singleton, List.length_drop] at this
      omega
    refine ⟨hle, ?_⟩
    rw [List.drop_append_of_le_length (by omega)] at hword
    exact List.prefix_of_prefix_length_le hword (List.prefix_append _ _)
      (by rw [List.length_drop]; omega)
  · obtain ⟨out, toks, -, hrun⟩ := tokenize_spec hws.spells s.noNul
    obtain ⟨heq, hlaid⟩ := hrun rest
    rw [List.take_of_length_le hle] at hlaid
    refine ⟨_, toks, heq.trans (by rw [if_pos ⟨rfl, hle⟩]), hlaid.map_tokenAt fun w hw h₀ => ?_⟩
    exact s.noNul (hws.spells.mem hw h₀)
  · obtain ⟨out, toks, -, hrun⟩ := tokenize_spec hws.spells s.noNul
    refine ⟨out ++ 0 :: rest, toks, (hrun rest).1.trans ?_⟩
    rw [if_neg fun h => not_lt.mpr h.2 hlt]

end Zus.Printz
