import Mathlib.Data.List.Induction
import Mathlib.Data.List.Infix
import Zus.Tokenize

/-!
# Debug commands

A command gives criteria, each with its argument, and says whether the messages that meet them are
to be active. `zus_ddbg_write` takes it apart with `_tokenize`, reads the words with `_parse`, and
goes over the tables with `_process`.
-/

namespace Zus.Printz

open Zus.Lib Zus.Lib.Words

/-- A text in ASCII. -/
def text (cs : List Char) : List UInt8 := cs.map ascii

/-! ## The code -/

/-- `enum ddbg_cmd`. -/
inductive DdbgCmd
  | unset
  | enable
  | disable
  deriving DecidableEq

/-- `DDBG_CRIT_MOD` to `DDBG_CRIT_FMT`. -/
inductive DdbgCrit
  | mod
  | func
  | file
  | lineno
  | fmt
  deriving DecidableEq

/-- What `_token_type` says of a token. -/
inductive TokenType
  | crit (c : DdbgCrit)
  | enable
  | disable
  deriving DecidableEq

/-- `NO_LINE_NUMBER`. -/
def noLineNumber : UInt32 := 0xffffffff

/-- `struct ddbg_ctl`, as `zus_ddbg_write` sets it up; `_tokenize` has the tokens. -/
structure DdbgCtl where
  modname : Option (List UInt8) := none
  function : Option (List UInt8) := none
  filename : Option (List UInt8) := none
  lineno : UInt32 := noLineNumber
  format : Option (List UInt8) := none
  cmd : DdbgCmd := .unset

/-- `_token_type`. -/
def tokenType (token : List UInt8) : Option TokenType :=
  if token = text ['m', 'o', 'd', 'u', 'l', 'e'] then some (.crit .mod)
  else if token = text ['f', 'u', 'n', 'c'] then some (.crit .func)
  else if token = text ['f', 'i', 'l', 'e'] then some (.crit .file)
  else if token = text ['l', 'i', 'n', 'e'] then some (.crit .lineno)
  else if token = text ['f', 'o', 'r', 'm', 'a', 't'] then some (.crit .fmt)
  else if token = text ['+', 'p'] then some .enable
  else if token = text ['-', 'p'] then some .disable
  else none

/-- The line number of an argument: the value is cut to 32 bits. -/
def lineOf (arg : List UInt8) : UInt32 := (strtoul arg).1.toUInt32

/-- The part of `_parse` that sets a criterion; an argument that `strtoul` leaves something of is
refused. -/
def DdbgCtl.setCrit (ddc : DdbgCtl) (arg : List UInt8) : DdbgCrit → Option DdbgCtl
  | .mod => some { ddc with modname := some arg }
  | .func => some { ddc with function := some arg }
  | .file => some { ddc with filename := some arg }
  | .lineno => if (strtoul arg).2 = [] then some { ddc with lineno := lineOf arg } else none
  | .fmt => some { ddc with format := some arg }

/-- `_parse`, from some token on. -/
def parse (ddc : DdbgCtl) : List (List UInt8) → Except Errno DdbgCtl
  | [] => if ddc.cmd = .unset then .error .einval else .ok ddc
  | token :: tokens =>
    match tokenType token with
    | none => .error .einval
    | some .enable => parse { ddc with cmd := .enable } tokens
    | some .disable => parse { ddc with cmd := .disable } tokens
    | some (.crit c) =>
      match tokens with
      -- `REQUIRE_ADDITIONAL_TOKEN`
      | [] => .error .einval
      | arg :: tokens =>
        match ddc.setCrit arg c with
        | none => .error .einval
        | some ddc => parse ddc tokens

/-- A turn of the inner loop of `_process`. -/
def processEntry (ddc : DdbgCtl) (ddbg : Ddebug) : Ddebug :=
  if ∃ filename ∈ ddc.filename, filename ≠ ddbg.filename.bytes then ddbg
  else if ∃ function ∈ ddc.function, function ≠ ddbg.function.bytes then ddbg
  else if ddc.lineno ≠ noLineNumber ∧ ddc.lineno ≠ ddbg.lineno then ddbg
  else if ∃ format ∈ ddc.format, ¬ format <:+: ddbg.format.bytes then ddbg
  else { ddbg with active := ddc.cmd = .enable }

/-- A turn of the outer loop. -/
def processModule (ddc : DdbgCtl) (modd : ModuleDdbg) : ModuleDdbg :=
  if ∃ modname ∈ ddc.modname, modname ≠ modd.name.bytes then modd
  else { modd with dbgEntries := modd.scanned.map (processEntry ddc) ++
           modd.dbgEntries.drop modd.nDbgEntries.toNat }

/-- `_process`. -/
def process (ddc : DdbgCtl) (db : DdbgDb) : DdbgDb :=
  { db with modules := db.modules.map (processModule ddc) }

/-- `zus_ddbg_write`: the error, the message that is left, and the tables. -/
def zusDdbgWrite (db : DdbgDb) (msg : List UInt8) :
    Option (Option Errno × List UInt8 × DdbgDb) :=
  match tokenize msg with
  | none => none
  | some (some errno, msg, _) => some (some errno, msg, db)
  | some (none, msg, tokens) =>
    match parse {} (tokens.map (tokenAt msg)) with
    | .error errno => some (some errno, msg, db)
    | .ok ddc => some (none, msg, process ddc db)

/-! ## What a command means -/

/-- The parts of a command: a criterion with its argument, or `+p` or `-p`. -/
inductive Item
  | crit (c : DdbgCrit) (arg : List UInt8)
  | set (active : Bool)
  deriving DecidableEq

/-- The word for a criterion. -/
def DdbgCrit.word : DdbgCrit → List UInt8
  | .mod => text ['m', 'o', 'd', 'u', 'l', 'e']
  | .func => text ['f', 'u', 'n', 'c']
  | .file => text ['f', 'i', 'l', 'e']
  | .lineno => text ['l', 'i', 'n', 'e']
  | .fmt => text ['f', 'o', 'r', 'm', 'a', 't']

namespace Item

/-- The words of a part. -/
def words : Item → List (List UInt8)
  | .crit c arg => [c.word, arg]
  | .set true => [text ['+', 'p']]
  | .set false => [text ['-', 'p']]

/-- The argument, of a criterion. -/
def arg? (c : DdbgCrit) : Item → Option (List UInt8)
  | .crit c' arg => if c' = c then some arg else none
  | .set _ => none

/-- The value of `+p` or `-p`. -/
def set? : Item → Option Bool
  | .crit _ _ => none
  | .set active => some active

end Item

/-- A command. -/
abbrev Command := List Item

namespace Command

/-- The words of a command. -/
def words (items : Command) : List (List UInt8) := items.flatMap Item.words

/-- The argument of a criterion; the last one counts. -/
def given (items : Command) (c : DdbgCrit) : Option (List UInt8) :=
  (items.filterMap (Item.arg? c)).getLast?

/-- What the messages are to be; the last one counts. -/
def wanted (items : Command) : Option Bool := (items.filterMap Item.set?).getLast?

/-- Any of the criteria, each once, and one `+p` or `-p`; the line is a number. -/
structure WellFormed (items : Command) : Prop where
  once : ∀ c, (items.filterMap (Item.arg? c)).length ≤ 1
  set : (items.filterMap Item.set?).length = 1
  line : ∀ arg ∈ items.filterMap (Item.arg? .lineno), (decimal arg).isSome

end Command

/-- An entry of a module meets a criterion. -/
def DdbgCrit.Meets (c : DdbgCrit) (arg : List UInt8) (modd : ModuleDdbg) (ddbg : Ddebug) : Prop :=
  match c with
  | .mod => arg = modd.name.bytes
  | .func => arg = ddbg.function.bytes
  | .file => arg = ddbg.filename.bytes
  | .lineno => decimal arg = some ↑ddbg.lineno.toNat
  | .fmt => arg <:+: ddbg.format.bytes

/-- An entry of a module meets every criterion of a command. -/
def Command.Matches (items : Command) (modd : ModuleDdbg) (ddbg : Ddebug) : Prop :=
  ∀ c, ∀ arg ∈ items.given c, c.Meets arg modd ddbg

open Classical in
/-- The tables with the entries that match set. -/
noncomputable def DdbgDb.set (db : DdbgDb) (items : Command) (active : Bool) : DdbgDb :=
  { db with modules := db.modules.map fun modd =>
      { modd with dbgEntries := modd.dbgEntries.map fun ddbg =>
          if items.Matches modd ddbg then { ddbg with active := active } else ddbg } }

/-- What `zus_ddbg_write` is for, of a command as it is in memory. -/
def WriteRight (db : DdbgDb) (s : List UInt8) : Prop :=
  ∀ rest, ∃ err msg db', zusDdbgWrite db (s ++ 0 :: rest) = some (err, msg, db') ∧
    (err ≠ none → db' = db) ∧
    (err = none → ∃ items active, Spells kind s (Command.words items) true ∧
      Command.wanted items = some active ∧ db' = db.set items active) ∧
    ∀ items : Command, items.WellFormed → Spells kind s items.words true → err = none

variable {db : DdbgDb} {items items' : Command} {item : Item} {c : DdbgCrit} {ddc ddc' : DdbgCtl}
  {ws : List (List UInt8)} {s : List UInt8} {modd : ModuleDdbg} {ddbg : Ddebug} {active closed : Bool}

/-! ## Parsing -/

/-- What `_token_type` says of the first word of a part. -/
def Item.tokenType : Item → TokenType
  | .crit c _ => .crit c
  | .set true => .enable
  | .set false => .disable

theorem tokenType_word (c : DdbgCrit) : tokenType c.word = some (.crit c) := by
  cases c <;> decide

theorem tokenType_of_words (item : Item) :
    ∃ token tokens, item.words = token :: tokens ∧ tokenType token = some item.tokenType := by
  match item with
  | .crit c arg => exact ⟨_, _, rfl, tokenType_word c⟩
  | .set true => exact ⟨_, _, rfl, by decide⟩
  | .set false => exact ⟨_, _, rfl, by decide⟩

/-- The words of a command are those of no other. -/
theorem Command.words_injective (h : items.words = Command.words items') : items = items' := by
  induction items generalizing items' with
  | nil =>
    cases items' with
    | nil => rfl
    | cons item' items' =>
      obtain ⟨token, tokens, hwords, -⟩ := tokenType_of_words item'
      rw [Command.words, Command.words, List.flatMap_cons, hwords] at h
      cases h
  | cons item items ih =>
    obtain ⟨token, tokens, hwords, htype⟩ := tokenType_of_words item
    cases items' with
    | nil =>
      rw [Command.words, Command.words, List.flatMap_cons, hwords] at h
      cases h
    | cons item' items' =>
      obtain ⟨token', tokens', hwords', htype'⟩ := tokenType_of_words item'
      have hsame : item.tokenType = item'.tokenType := by
        rw [Command.words, Command.words, List.flatMap_cons, List.flatMap_cons, hwords, hwords'] at h
        obtain ⟨rfl, -⟩ := List.cons.inj h
        exact Option.some.inj (htype.symm.trans htype')
      match item, item' with
      | .crit c arg, .crit c' arg' =>
        obtain rfl := TokenType.crit.inj hsame
        obtain ⟨rfl, hrest⟩ := List.cons.inj (List.cons.inj h).2
        rw [ih hrest]
      | .set true, .set true => rw [ih (List.cons.inj h).2]
      | .set false, .set false => rw [ih (List.cons.inj h).2]

/-- A part of a command in `_parse`. -/
def DdbgCtl.apply (ddc : DdbgCtl) : Item → DdbgCtl
  | .crit .mod arg => { ddc with modname := some arg }
  | .crit .func arg => { ddc with function := some arg }
  | .crit .file arg => { ddc with filename := some arg }
  | .crit .lineno arg => { ddc with lineno := lineOf arg }
  | .crit .fmt arg => { ddc with format := some arg }
  | .set true => { ddc with cmd := .enable }
  | .set false => { ddc with cmd := .disable }

/-- `strtoul` leaves nothing of a line number. -/
def Item.Read (item : Item) : Prop := ∀ arg ∈ item.arg? .lineno, (strtoul arg).2 = []

theorem read_crit (h : c ≠ .lineno) (arg : List UInt8) : (Item.crit c arg).Read := by
  intro arg' harg
  rw [Item.arg?, if_neg h] at harg
  cases harg

theorem read_set (active : Bool) : (Item.set active).Read := fun _ harg => by cases harg

theorem read_lineno {arg : List UInt8} : (Item.crit .lineno arg).Read ↔ (strtoul arg).2 = [] := by
  constructor
  · exact fun h => h arg rfl
  · rintro h arg' harg
    rw [← Option.some.inj harg]
    exact h

theorem setCrit_eq_some {arg : List UInt8} : ddc.setCrit arg c = some ddc' ↔
    (Item.crit c arg).Read ∧ ddc' = ddc.apply (.crit c arg) := by
  cases c with
  | lineno =>
    rw [DdbgCtl.setCrit, read_lineno, DdbgCtl.apply]
    split_ifs with hleft
    · rw [Option.some_inj]
      exact ⟨fun h => ⟨hleft, h.symm⟩, fun h => h.2.symm⟩
    · exact iff_of_false id fun h => hleft h.1
  | mod | func | file | fmt =>
    rw [DdbgCtl.setCrit, DdbgCtl.apply, Option.some_inj]
    exact ⟨fun h => ⟨read_crit (by decide) arg, h.symm⟩, fun h => h.2.symm⟩

theorem parse_words (h : item.Read) :
    parse ddc (item.words ++ ws) = parse (ddc.apply item) ws := by
  match item with
  | .crit c arg =>
    have hset : ddc.setCrit arg c = some (ddc.apply (.crit c arg)) := setCrit_eq_some.mpr ⟨h, rfl⟩
    simp only [Item.words, List.cons_append, List.nil_append, parse, tokenType_word, hset]
  | .set true => rfl
  | .set false => rfl

/-- The token of a type. -/
theorem eq_of_tokenType {token : List UInt8} {type : TokenType} (h : tokenType token = some type) :
    token = match type with
      | .crit c => c.word
      | .enable => text ['+', 'p']
      | .disable => text ['-', 'p'] := by
  unfold tokenType at h
  split_ifs at h <;> (obtain rfl := Option.some.inj h; assumption)

/-- **`_parse` takes commands**, and fills in what they say. -/
theorem parse_eq_ok : parse ddc ws = .ok ddc' ↔
    ∃ items : Command, ws = items.words ∧ (∀ item ∈ items, item.Read) ∧
      ddc' = items.foldl DdbgCtl.apply ddc ∧ ddc'.cmd ≠ .unset := by
  constructor
  · intro h
    fun_induction parse ddc ws with
    | case1 ddc hunset => cases h
    | case2 ddc hset =>
      obtain rfl := Except.ok.inj h
      exact ⟨[], rfl, fun _ hm => absurd hm List.not_mem_nil, rfl, hset⟩
    | case3 => cases h
    | case4 ddc token tokens htype ih =>
      obtain ⟨items, rfl, hread, hddc⟩ := ih h
      rw [eq_of_tokenType htype]
      exact ⟨.set true :: items, rfl, List.forall_mem_cons.mpr ⟨read_set true, hread⟩, hddc⟩
    | case5 ddc token tokens htype ih =>
      obtain ⟨items, rfl, hread, hddc⟩ := ih h
      rw [eq_of_tokenType htype]
      exact ⟨.set false :: items, rfl, List.forall_mem_cons.mpr ⟨read_set false, hread⟩, hddc⟩
    | case6 => cases h
    | case7 => cases h
    | case8 ddc token c htype arg tokens ddc₁ hset ih =>
      obtain ⟨items, rfl, hread, hddc⟩ := ih h
      obtain ⟨hitem, rfl⟩ := setCrit_eq_some.mp hset
      rw [eq_of_tokenType htype]
      exact ⟨.crit c arg :: items, rfl, List.forall_mem_cons.mpr ⟨hitem, hread⟩, hddc⟩
  · rintro ⟨items, rfl, hread, rfl, hset⟩
    induction items generalizing ddc with
    | nil => exact if_neg hset
    | cons item items ih =>
      obtain ⟨hitem, hitems⟩ := List.forall_mem_cons.mp hread
      rw [Command.words, List.flatMap_cons, parse_words hitem]
      exact ih hitems hset

namespace Command

theorem given_append : (items ++ items').given c = (items'.given c).or (items.given c) := by
  rw [given, List.filterMap_append, List.getLast?_append]
  rfl

theorem wanted_append : (items ++ items').wanted = items'.wanted.or items.wanted := by
  rw [wanted, List.filterMap_append, List.getLast?_append]
  rfl

/-- `struct ddbg_ctl` after a command. -/
def ctl (items : Command) : DdbgCtl where
  modname := items.given .mod
  function := items.given .func
  filename := items.given .file
  lineno := (items.given .lineno).elim noLineNumber lineOf
  format := items.given .fmt
  cmd := match items.wanted with
    | none => .unset
    | some true => .enable
    | some false => .disable

/-- The last argument of a criterion is the one that is left. -/
theorem foldl_apply (items : Command) : items.foldl DdbgCtl.apply {} = items.ctl := by
  induction items using List.reverseRecOn with
  | nil => rfl
  | append_singleton items item ih =>
    rw [List.foldl_append, List.foldl_cons, List.foldl_nil, ih]
    simp only [ctl, given_append, wanted_append]
    match item with
    | .crit .mod arg => rfl
    | .crit .func arg => rfl
    | .crit .file arg => rfl
    | .crit .lineno arg => rfl
    | .crit .fmt arg => rfl
    | .set true => rfl
    | .set false => rfl

end Command

theorem parse_empty_eq_ok : parse {} ws = .ok ddc ↔
    ∃ items : Command, ws = items.words ∧ (∀ item ∈ items, item.Read) ∧ ddc = items.ctl ∧
      items.wanted ≠ none := by
  rw [parse_eq_ok]
  refine exists_congr fun items => and_congr_right fun _ => and_congr_right fun _ => ?_
  rw [Command.foldl_apply]
  refine and_congr_right fun hddc => not_congr ?_
  rw [hddc, Command.ctl]
  cases items.wanted with
  | none => exact iff_of_true rfl rfl
  | some active => cases active <;> exact iff_of_false DdbgCmd.noConfusion (Option.some_ne_none _)

/-! ## Processing -/

/-- The code takes an entry to meet the criterion `line`. -/
def Command.LinePasses (items : Command) (ddbg : Ddebug) : Prop :=
  ∀ arg ∈ items.given .lineno, lineOf arg = noLineNumber ∨ lineOf arg = ddbg.lineno

/-- An entry meets the other criteria. -/
def Command.MatchesRest (items : Command) (modd : ModuleDdbg) (ddbg : Ddebug) : Prop :=
  ∀ c ≠ .lineno, ∀ arg ∈ items.given c, c.Meets arg modd ddbg

theorem Command.matches_iff : items.Matches modd ddbg ↔ items.MatchesRest modd ddbg ∧
    ∀ arg ∈ items.given .lineno, decimal arg = some ↑ddbg.lineno.toNat := by
  constructor
  · exact fun h => ⟨fun c _ => h c, h .lineno⟩
  · rintro ⟨hrest, hline⟩ c
    by_cases hc : c = .lineno
    · subst hc
      exact hline
    · exact hrest c hc

theorem lineOf_of_decimal {arg : List UInt8} {x : UInt32} (h : decimal arg = some ↑x.toNat) :
    lineOf arg = x := by
  have hlt := x.toNat_lt
  have hval := strtoul_fst_of_decimal h (by omega) (by omega)
  apply UInt32.toNat_inj.mp
  rw [lineOf, UInt64.toNat_toUInt32]
  omega

theorem Command.linePasses_of_matches (h : items.Matches modd ddbg) : items.LinePasses ddbg :=
  fun arg harg => .inr (lineOf_of_decimal (h .lineno arg harg))

theorem not_exists_mem_not_iff {α : Type*} {o : Option α} {P : α → Prop} :
    (¬ ∃ a ∈ o, ¬ P a) ↔ ∀ a ∈ o, P a := by
  simp only [not_exists, not_and, not_not]

theorem Command.linePasses_iff : items.LinePasses ddbg ↔
    ¬ (items.ctl.lineno ≠ noLineNumber ∧ items.ctl.lineno ≠ ddbg.lineno) := by
  rw [not_and_or, not_not, not_not, Command.LinePasses, Command.ctl]
  cases items.given .lineno with
  | none => exact iff_of_true (fun arg harg => absurd harg (by simp)) (.inl rfl)
  | some arg => simp

theorem Command.matchesRest_iff : items.MatchesRest modd ddbg ↔
    (∀ arg ∈ items.given .mod, arg = modd.name.bytes) ∧
    (∀ arg ∈ items.given .file, arg = ddbg.filename.bytes) ∧
    (∀ arg ∈ items.given .func, arg = ddbg.function.bytes) ∧
    ∀ arg ∈ items.given .fmt, arg <:+: ddbg.format.bytes := by
  constructor
  · intro h
    exact ⟨h .mod (by decide), h .file (by decide), h .func (by decide), h .fmt (by decide)⟩
  · rintro ⟨hmod, hfile, hfunc, hfmt⟩ c hc
    match c with
    | .mod => exact hmod
    | .file => exact hfile
    | .func => exact hfunc
    | .fmt => exact hfmt
    | .lineno => exact absurd rfl hc

open Classical in
/-- **`_process` sets an entry just when** it meets the criteria as the code takes them. -/
theorem processEntry_ctl (hmod : ∀ arg ∈ items.given .mod, arg = modd.name.bytes)
    (hset : items.wanted = some active) : processEntry items.ctl ddbg =
      if items.MatchesRest modd ddbg ∧ items.LinePasses ddbg then
        { ddbg with active := active } else ddbg := by
  have hactive : decide (items.ctl.cmd = .enable) = active := by
    rw [Command.ctl, hset]
    cases active <;> rfl
  unfold processEntry
  rw [Command.matchesRest_iff, Command.linePasses_iff, hactive]
  by_cases hfile : ∃ filename ∈ items.ctl.filename, filename ≠ ddbg.filename.bytes
  · rw [if_pos hfile, if_neg fun h => not_exists_mem_not_iff.mpr h.1.2.1 hfile]
  by_cases hfunc : ∃ function ∈ items.ctl.function, function ≠ ddbg.function.bytes
  · rw [if_neg hfile, if_pos hfunc, if_neg fun h => not_exists_mem_not_iff.mpr h.1.2.2.1 hfunc]
  by_cases hline : items.ctl.lineno ≠ noLineNumber ∧ items.ctl.lineno ≠ ddbg.lineno
  · rw [if_neg hfile, if_neg hfunc, if_pos hline, if_neg fun h => h.2 hline]
  by_cases hfmt : ∃ format ∈ items.ctl.format, ¬ format <:+: ddbg.format.bytes
  · rw [if_neg hfile, if_neg hfunc, if_neg hline, if_pos hfmt,
      if_neg fun h => not_exists_mem_not_iff.mpr h.1.2.2.2 hfmt]
  · rw [if_neg hfile, if_neg hfunc, if_neg hline, if_neg hfmt, if_pos]
    exact ⟨⟨hmod, not_exists_mem_not_iff.mp hfile, not_exists_mem_not_iff.mp hfunc,
      not_exists_mem_not_iff.mp hfmt⟩, hline⟩

open Classical in
/-- A module after `_process`, as the code takes the criteria. -/
theorem processModule_ctl (hset : items.wanted = some active) : processModule items.ctl modd =
    { modd with dbgEntries :=
        modd.scanned.map (fun ddbg => if items.MatchesRest modd ddbg ∧ items.LinePasses ddbg then
          { ddbg with active := active } else ddbg) ++
        modd.dbgEntries.drop modd.nDbgEntries.toNat } := by
  unfold processModule
  by_cases hmod : ∃ modname ∈ items.ctl.modname, modname ≠ modd.name.bytes
  · have hnone : ∀ ddbg, ¬ (items.MatchesRest modd ddbg ∧ items.LinePasses ddbg) := fun ddbg h =>
      not_exists_mem_not_iff.mpr (Command.matchesRest_iff.mp h.1).1 hmod
    rw [if_pos hmod]
    simp only [if_neg (hnone _), List.map_id', ModuleDdbg.scanned, List.take_append_drop]
  · have hentry := fun ddbg =>
      @processEntry_ctl items modd ddbg active (not_exists_mem_not_iff.mp hmod) hset
    rw [if_neg hmod, funext hentry]

/-- An entry is left as it is just when its flag is the one to be set. -/
theorem set_eq_self_iff : { ddbg with active := active } = ddbg ↔ ddbg.active = active := by
  constructor
  · intro h
    rw [← h]
  · rintro rfl
    rfl

/-- What `_process` needs to set the entries that match: the flags of those past the count of a
module are right already, and so are those that the code takes a line number to be of. -/
structure Command.Exact (db : DdbgDb) (items : Command) (active : Bool) : Prop where
  counted : ∀ modd ∈ db.modules, ∀ ddbg ∈ modd.dbgEntries.drop modd.nDbgEntries.toNat,
    items.Matches modd ddbg → ddbg.active = active
  line : ∀ modd ∈ db.modules, ∀ ddbg ∈ modd.scanned, items.MatchesRest modd ddbg →
    items.LinePasses ddbg → ddbg.active ≠ active →
      ∀ arg ∈ items.given .lineno, decimal arg = some ↑ddbg.lineno.toNat

/-- Changing the first `n` elements one way, and all of them another way. -/
theorem map_take_append_drop_eq_iff {α : Type*} {f g : α → α} {l : List α} {n : ℕ} :
    (l.take n).map f ++ l.drop n = l.map g ↔
      (∀ a ∈ l.take n, f a = g a) ∧ ∀ a ∈ l.drop n, a = g a := by
  have hsplit : l.map g = (l.take n).map g ++ (l.drop n).map g := by
    rw [← List.map_append, List.take_append_drop]
  have hlen : ((l.take n).map f).length = ((l.take n).map g).length := by
    rw [List.length_map, List.length_map]
  have hid : l.drop n = (l.drop n).map g ↔ ∀ a ∈ l.drop n, a = g a := by
    have hmap := @List.map_inj_left _ _ (l.drop n) id g
    rwa [List.map_id] at hmap
  rw [hsplit, ← List.map_inj_left, ← hid]
  exact ⟨fun h => List.append_inj h hlen, fun h => congrArg₂ (· ++ ·) h.1 h.2⟩

/-- **`_process` sets the entries that match, just when** the numbers of 16 and 32 bits do not
matter. -/
theorem process_ctl_eq_set_iff (hset : items.wanted = some active) :
    process items.ctl db = db.set items active ↔ items.Exact db active := by
  have hdb : process items.ctl db = db.set items active ↔ ∀ modd ∈ db.modules,
      (∀ ddbg ∈ modd.scanned, items.MatchesRest modd ddbg ∧ items.LinePasses ddbg →
        ¬ items.Matches modd ddbg → ddbg.active = active) ∧
      ∀ ddbg ∈ modd.dbgEntries.drop modd.nDbgEntries.toNat,
        items.Matches modd ddbg → ddbg.active = active := by
    rw [process, DdbgDb.set, DdbgDb.mk.injEq, and_iff_left rfl, List.map_inj_left]
    refine forall₂_congr fun modd _ => ?_
    rw [processModule_ctl hset, ModuleDdbg.mk.injEq, and_iff_right rfl, and_iff_right rfl,
      ModuleDdbg.scanned, map_take_append_drop_eq_iff]
    refine and_congr (forall₂_congr fun ddbg _ => ?_) (forall₂_congr fun ddbg _ => ?_)
    · by_cases hmatch : items.Matches modd ddbg
      · have hpass := And.intro (Command.matches_iff.mp hmatch).1 (Command.linePasses_of_matches hmatch)
        rw [if_pos hmatch, if_pos hpass]
        exact iff_of_true rfl fun _ hnot => absurd hmatch hnot
      · rw [if_neg hmatch]
        split_ifs with hpass
        · exact set_eq_self_iff.trans ⟨fun h _ _ => h, fun h => h hpass hmatch⟩
        · exact iff_of_true rfl fun h => absurd h hpass
    · by_cases hmatch : items.Matches modd ddbg
      · rw [if_pos hmatch, eq_comm, set_eq_self_iff]
        exact ⟨fun h _ => h, fun h => h hmatch⟩
      · rw [if_neg hmatch]
        exact iff_of_true rfl fun h => absurd h hmatch
  rw [hdb]
  constructor
  · intro h
    refine ⟨fun modd hm => (h modd hm).2, fun modd hm ddbg hd hrest hline hne => ?_⟩
    by_contra hnot
    exact hne ((h modd hm).1 ddbg hd ⟨hrest, hline⟩ fun hmatch =>
      hnot (Command.matches_iff.mp hmatch).2)
  · intro h modd hm
    refine ⟨fun ddbg hd hpass hnot => ?_, h.counted modd hm⟩
    by_contra hne
    exact hnot (Command.matches_iff.mpr ⟨hpass.1, h.line modd hm ddbg hd hpass.1 hpass.2 hne⟩)

/-! ## Whole commands -/

namespace Command

/-- The code takes the command. -/
structure Accepted (items : Command) (active : Bool) : Prop where
  short : items.words.length ≤ maxDdbgCmdTokens
  read : ∀ item ∈ items, item.Read
  set : items.wanted = some active

/-- What the code needs to take a command as it is meant: not all five criteria are given, and if
the code takes it, the entries are exact. -/
structure Taken (db : DdbgDb) (items : Command) : Prop where
  few : items.WellFormed → ∃ c, items.given c = none
  exact : ∀ active, items.Accepted active → items.Exact db active

theorem given_eq_none_iff : items.given c = none ↔ (items.filterMap (Item.arg? c)).length = 0 := by
  rw [given, List.getLast?_eq_none_iff, List.length_eq_zero_iff]

theorem length_words (items : Command) : items.words.length =
    2 * ((items.filterMap (Item.arg? .mod)).length + (items.filterMap (Item.arg? .func)).length +
      (items.filterMap (Item.arg? .file)).length + (items.filterMap (Item.arg? .lineno)).length +
      (items.filterMap (Item.arg? .fmt)).length) + (items.filterMap Item.set?).length := by
  induction items with
  | nil => rfl
  | cons item items ih =>
    rw [words, List.flatMap_cons, List.length_append]
    rw [words] at ih
    simp only [List.filterMap_cons]
    match item with
    | .crit c arg => cases c <;> simp [Item.words, Item.arg?, Item.set?, ih] <;> omega
    | .set true => simp [Item.words, Item.arg?, Item.set?, ih]; omega
    | .set false => simp [Item.words, Item.arg?, Item.set?, ih]; omega

/-- A command with any of the criteria is short just when it does not have all of them. -/
theorem WellFormed.short_iff (h : items.WellFormed) :
    items.words.length ≤ maxDdbgCmdTokens ↔ ∃ c, items.given c = none := by
  have hlen := items.length_words
  have hmod := h.once .mod
  have hfunc := h.once .func
  have hfile := h.once .file
  have hline := h.once .lineno
  have hfmt := h.once .fmt
  have hset := h.set
  unfold maxDdbgCmdTokens
  constructor
  · intro hle
    by_contra hall
    simp only [given_eq_none_iff, not_exists] at hall
    have := hall .mod
    have := hall .func
    have := hall .file
    have := hall .lineno
    have := hall .fmt
    omega
  · rintro ⟨c, hc⟩
    rw [given_eq_none_iff] at hc
    cases c <;> omega

/-- The code takes a command with any four of the criteria. -/
theorem WellFormed.accepted (h : items.WellFormed) (hfew : ∃ c, items.given c = none) :
    ∃ active, items.Accepted active := by
  have hread : ∀ item ∈ items, item.Read := by
    intro item hitem arg harg
    obtain ⟨x, hx⟩ := Option.isSome_iff_exists.mp
      (h.line arg (List.mem_filterMap.mpr ⟨item, hitem, harg⟩))
    exact strtoul_snd_of_decimal hx
  cases hset : items.wanted with
  | none =>
    have hone := h.set
    rw [wanted, List.getLast?_eq_none_iff] at hset
    rw [hset] at hone
    cases hone
  | some active => exact ⟨active, h.short_iff.mpr hfew, hread, hset⟩

end Command

/-- What `zus_ddbg_write` does with the words of a message. -/
theorem zusDdbgWrite_spec (h : Spells kind s ws closed) (h₀ : 0 ∉ s) (db : DdbgDb)
    (rest : List UInt8) : ∃ msg, zusDdbgWrite db (s ++ 0 :: rest) =
      if closed = true ∧ ws.length ≤ maxDdbgCmdTokens then
        match parse {} ws with
        | .error errno => some (some errno, msg, db)
        | .ok ddc => some (none, msg, process ddc db)
      else some (some .einval, msg, db) := by
  obtain ⟨out, toks, -, hrun⟩ := tokenize_spec h h₀
  obtain ⟨heq, hlaid⟩ := hrun rest
  refine ⟨out ++ 0 :: rest, ?_⟩
  rw [zusDdbgWrite, heq]
  by_cases hok : closed = true ∧ ws.length ≤ maxDdbgCmdTokens
  · have hmap : toks.map (tokenAt (out ++ 0 :: rest)) = ws := by
      rw [List.take_of_length_le hok.2] at hlaid
      exact hlaid.map_tokenAt fun w hw hnul => h₀ (h.mem hw hnul)
    rw [if_pos hok, if_pos hok]
    simp only [hmap]
  · rw [if_neg hok, if_neg hok]

/-- A command that the code takes. -/
theorem zusDdbgWrite_of_accepted (h : Spells kind s items.words true) (h₀ : 0 ∉ s)
    (hacc : items.Accepted active) (db : DdbgDb) (rest : List UInt8) :
    ∃ msg, zusDdbgWrite db (s ++ 0 :: rest) = some (none, msg, process items.ctl db) := by
  obtain ⟨msg, heq⟩ := zusDdbgWrite_spec h h₀ db rest
  have hparse : parse {} items.words = .ok items.ctl :=
    parse_empty_eq_ok.mpr ⟨items, rfl, hacc.read, rfl, by rw [hacc.set]; exact Option.some_ne_none _⟩
  rw [if_pos ⟨rfl, hacc.short⟩, hparse] at heq
  exact ⟨msg, heq⟩

/-- A message that is no such command. -/
theorem zusDdbgWrite_of_not_accepted (h₀ : 0 ∉ s)
    (hno : ∀ items active, Spells kind s (Command.words items) true → ¬ items.Accepted active)
    (db : DdbgDb) (rest : List UInt8) :
    ∃ errno msg, zusDdbgWrite db (s ++ 0 :: rest) = some (some errno, msg, db) := by
  obtain ⟨ws, closed, h⟩ := exists_spells kind s
  obtain ⟨msg, heq⟩ := zusDdbgWrite_spec h h₀ db rest
  split_ifs at heq with hok
  · cases hparse : parse {} ws with
    | error errno => exact ⟨errno, msg, heq.trans (by rw [hparse])⟩
    | ok ddc =>
      obtain ⟨items, rfl, hread, rfl, hset⟩ := parse_empty_eq_ok.mp hparse
      obtain ⟨active, hactive⟩ := Option.ne_none_iff_exists'.mp hset
      obtain ⟨rfl, hshort⟩ := hok
      exact absurd ⟨hshort, hread, hactive⟩ (hno items active h)
  · exact ⟨.einval, msg, heq⟩

/-- **`zus_ddbg_write` does what a message says, just when** the message is not a command with all
five criteria, and the numbers of the code are right for the entries it is about. -/
theorem zusDdbgWrite_right_iff (db : DdbgDb) (msg : CStr) : WriteRight db msg.bytes ↔
    ∀ items : Command, Spells kind msg.bytes items.words true → items.Taken db := by
  constructor
  · intro hright items hspells
    obtain ⟨err, m, db', heq, -, hdone, htaken⟩ := hright []
    refine ⟨fun hwf => ?_, fun active hacc => ?_⟩
    · -- the command is taken, and so it is short
      obtain ⟨m', heq'⟩ := zusDdbgWrite_spec hspells msg.noNul db []
      refine hwf.short_iff.mp (not_lt.mp fun hlong => ?_)
      rw [if_neg fun h => not_lt.mpr h.2 hlong, heq, htaken items hwf hspells] at heq'
      cases heq'
    · obtain ⟨m', heq'⟩ := zusDdbgWrite_of_accepted hspells msg.noNul hacc db []
      rw [heq] at heq'
      obtain ⟨rfl, hdb⟩ := Prod.mk.inj (Option.some.inj heq')
      obtain ⟨-, rfl⟩ := Prod.mk.inj hdb
      -- the message is no other command
      obtain ⟨items', active', hspells', hwanted, hset⟩ := hdone rfl
      obtain rfl := Command.words_injective (hspells.unique hspells').1
      obtain rfl := Option.some.inj (hacc.set.symm.trans hwanted)
      exact (process_ctl_eq_set_iff hacc.set).mp hset
  · intro h rest
    by_cases hacc : ∃ items active, Spells kind msg.bytes (Command.words items) true ∧
        items.Accepted active
    · obtain ⟨items, active, hspells, hacc⟩ := hacc
      obtain ⟨m, heq⟩ := zusDdbgWrite_of_accepted hspells msg.noNul hacc db rest
      refine ⟨_, m, _, heq, fun hne => absurd rfl hne, fun _ => ?_, fun _ _ _ => rfl⟩
      exact ⟨items, active, hspells, hacc.set,
        (process_ctl_eq_set_iff hacc.set).mpr ((h items hspells).exact active hacc)⟩
    · obtain ⟨errno, m, heq⟩ := zusDdbgWrite_of_not_accepted msg.noNul
        (fun items active hspells haccepted => hacc ⟨items, active, hspells, haccepted⟩) db rest
      refine ⟨_, m, _, heq, fun _ => rfl, fun hnone => absurd hnone (Option.some_ne_none _),
        fun items hwf hspells => ?_⟩
      obtain ⟨active, haccepted⟩ := hwf.accepted ((h items hspells).few hwf)
      exact absurd ⟨items, active, hspells, haccepted⟩ hacc

/-- The largest number of 32 bits, which no message is at. -/
def lineMax : List UInt8 := text ['4', '2', '9', '4', '9', '6', '7', '2', '9', '5']

/-- `line 4294967295 +p`. -/
def lineMaxCommand : List UInt8 :=
  text ['l', 'i', 'n', 'e', ' '] ++ (lineMax ++ text [' ', '+', 'p'])

theorem spells_lineMaxCommand :
    Spells kind lineMaxCommand (Command.words [.crit .lineno lineMax, .set true]) true := by
  have hword : ∀ w : List UInt8, (w.all fun e => kind e ≠ .blank) = true →
      ∀ e ∈ w, kind e ≠ .blank :=
    fun w h e he => of_decide_eq_true (List.all_eq_true.mp h e he)
  refine .plain (c := ascii 'l') (d := ascii ' ') (by decide)
    (hword (text ['i', 'n', 'e']) (by decide)) (by decide) ?_
  refine .plain (c := ascii '4') (d := ascii ' ') (by decide)
    (hword (text ['2', '9', '4', '9', '6', '7', '2', '9', '5']) (by decide)) (by decide) ?_
  exact .last (c := ascii '+') (by decide) (hword (text ['p']) (by decide))

theorem accepted_lineMaxCommand : Command.Accepted [.crit .lineno lineMax, .set true] true where
  short := by decide
  read := List.forall_mem_cons.mpr ⟨read_lineno.mpr (by decide),
    List.forall_mem_singleton.mpr (read_set true)⟩
  set := rfl

/-- A command for a line that no message is at sets the messages at line 1: its number is the one
that stands for any line. -/
theorem zusDdbgWrite_any_line :
    (zusDdbgWrite twoEntries (lineMaxCommand ++ [0])).map (fun r => (r.1, r.2.2.modules.map fun modd =>
      modd.dbgEntries.map fun ddbg => (ddbg.lineno, ddbg.active))) =
        some (none, [[(1, true), (1, true)]]) ∧
    ¬ WriteRight twoEntries lineMaxCommand := by
  refine ⟨by decide +kernel, fun hright => ?_⟩
  obtain ⟨err, m, db', heq, -, hdone, -⟩ := hright []
  obtain ⟨m', heq'⟩ := zusDdbgWrite_of_accepted spells_lineMaxCommand (by decide)
    accepted_lineMaxCommand twoEntries []
  rw [heq] at heq'
  obtain ⟨rfl, hdb⟩ := Prod.mk.inj (Option.some.inj heq')
  obtain ⟨-, rfl⟩ := Prod.mk.inj hdb
  obtain ⟨items, active, hspells, hwanted, hset⟩ := hdone rfl
  obtain rfl := Command.words_injective (hspells.unique spells_lineMaxCommand).1
  obtain rfl := Option.some.inj (accepted_lineMaxCommand.set.symm.trans hwanted)
  have hline := ((process_ctl_eq_set_iff rfl).mp hset).line _ List.mem_cons_self _
    List.mem_cons_self (fun c hc arg harg => ?_) (fun arg harg => .inl ?_) (by decide) lineMax rfl
  · exact absurd hline (by decide)
  · cases c with
    | lineno => exact absurd rfl hc
    | mod | func | file | fmt => cases harg
  · rw [← Option.some.inj harg]
    decide

end Zus.Printz
