import Zus.Toyfs.State

/-!
# The pool

Pages come from the pool and go back to it; a page taken by the pool itself is cut into
records of one kind, which are handed out and taken back one by one. The three kinds of
records are served by the same code, `popRec` and `pushRec` here.
-/

namespace Zus.Toyfs

open Zus.Lib

namespace Pool

variable (p : Pool)

/-- `_pool_pop_pmemb`. -/
def popPmemb : Option (ℕ × Pool) :=
  match p.pages with
  | [] => none
  | bn :: rest => some (bn, { p with pages := rest })

/-- `_pool_push_pmemb`. -/
def pushPmemb (bn : ℕ) : Pool := { p with pages := bn :: p.pages }

/-- Replace one of the free lists. -/
def setFree (kind : RecKind) (l : List RecPtr) : Pool :=
  { p with free := Function.update p.free kind l }

/-- The records a page is cut into. -/
def recsOf (kind : RecKind) (bn : ℕ) : List RecPtr :=
  (List.range kind.perPage).map fun i => ⟨bn, i⟩

/-- `_pool_add_free_inodes`, `_pool_add_free_dblkrefs`, `_pool_add_free_iblkrefs`. -/
def addFree (kind : RecKind) : Option Pool :=
  match p.popPmemb with
  | none => none
  | some (bn, p') => some (p'.setFree kind (p'.free kind ++ recsOf kind bn))

/-- `_pool_pop_free_inode`, `_pool_pop_free_dblkref`, `_pool_pop_free_iblkref`. -/
def popFree (kind : RecKind) : Option (RecPtr × Pool) :=
  match p.free kind with
  | [] => none
  | r :: rest => some (r, p.setFree kind rest)

/-- `_pool_pop_inode`, `_pool_pop_dblkref`, `_pool_pop_iblkref`. -/
def popRec (kind : RecKind) : Option (RecPtr × Pool) :=
  match p.popFree kind with
  | some r => some r
  | none =>
    match p.addFree kind with
    | none => none
    | some p' => p'.popFree kind

/-- `_pool_push_inode`, `_pool_push_dblkref`, `_pool_push_iblkref`: the list functions
of toyfs all link at the tail. -/
def pushRec (kind : RecKind) (r : RecPtr) : Pool := p.setFree kind (p.free kind ++ [r])

/-- `_pool_setup` over blocks `2` to `nblocks - 1`. -/
def setup (nblocks : ℕ) : Pool where
  pages := ((List.range (nblocks - 2)).map (· + 2)).reverse
  free _ := []

end Pool

namespace Sbi

variable (s : Sbi)

/-- `toyfs_acquire_pmemb`: a zeroed page. -/
def acquirePmemb : Option (ℕ × Sbi) :=
  if s.fBfree = 0 then none
  else if s.fBavail = 0 then none
  else
    match s.pool.popPmemb with
    | none => none
    | some (bn, p) =>
      some (bn, { s.setPage bn fun _ => 0 with
        pool := p, fBfree := s.fBfree - 1, fBavail := s.fBavail - 1 })

/-- `toyfs_release_pmemb`. -/
def releasePmemb (bn : ℕ) : Sbi :=
  { s with pool := s.pool.pushPmemb bn, fBfree := s.fBfree + 1, fBavail := s.fBavail + 1 }

/-- `toyfs_acquire_dblkref`. -/
def acquireDblkref : Option (RecPtr × Sbi) :=
  match s.pool.popRec .dblkref with
  | none => none
  | some (d, p) => some (d, { s.setDblkref d ⟨0, 0⟩ with pool := p })

/-- `toyfs_release_dblkref`. -/
def releaseDblkref (d : RecPtr) : Sbi :=
  { s.setDblkref d { s.dblkrefs d with bn := 0 } with pool := s.pool.pushRec .dblkref d }

/-- `toyfs_acquire_iblkref`: the record; its fields are set by the caller. -/
def acquireIblkref : Option (RecPtr × Sbi) :=
  match s.pool.popRec .iblkref with
  | none => none
  | some (r, p) => some (r, { s with pool := p })

/-- `toyfs_release_iblkref`. -/
def releaseIblkref (r : RecPtr) : Sbi := { s with pool := s.pool.pushRec .iblkref r }

/-- `toyfs_acquire_inode`. -/
def acquireInode : Option (RecPtr × Sbi) :=
  match s.pool.popRec .inode with
  | none => none
  | some (n, p) => some (n, { s with pool := p })

/-- `toyfs_release_inode`: the record is zeroed. -/
def releaseInode (n : RecPtr) : Sbi :=
  { s.setInode n {} with pool := s.pool.pushRec .inode n }

/-! ## What is acquired -/

variable {s} {s' : Sbi} {bn : ℕ} {r : RecPtr}

/-- A page that is acquired was counted as free, is popped, and zeroed. -/
theorem acquirePmemb_some (ha : s.acquirePmemb = some (bn, s')) :
    s.fBfree ≠ 0 ∧ s.fBavail ≠ 0 ∧ ∃ p, s.pool.popPmemb = some (bn, p) ∧
      s' = { s.setPage bn fun _ => 0 with
        pool := p, fBfree := s.fBfree - 1, fBavail := s.fBavail - 1 } := by
  unfold acquirePmemb at ha
  split at ha
  · cases ha
  next hbfree =>
  split at ha
  · cases ha
  next hbavail =>
  split at ha
  · cases ha
  next b p hpop =>
  obtain ⟨rfl, rfl⟩ := Prod.mk.inj (Option.some.inj ha)
  exact ⟨hbfree, hbavail, p, hpop, rfl⟩

theorem acquireDblkref_some (ha : s.acquireDblkref = some (r, s')) :
    ∃ p, s.pool.popRec .dblkref = some (r, p) ∧
      s' = { s.setDblkref r ⟨0, 0⟩ with pool := p } := by
  unfold acquireDblkref at ha
  split at ha
  · cases ha
  next d p hpop =>
  obtain ⟨rfl, rfl⟩ := Prod.mk.inj (Option.some.inj ha)
  exact ⟨p, hpop, rfl⟩

theorem acquireDblkref_none (ha : s.acquireDblkref = none) : s.pool.popRec .dblkref = none := by
  unfold acquireDblkref at ha
  split at ha
  · assumption
  · cases ha

theorem acquireIblkref_some (ha : s.acquireIblkref = some (r, s')) :
    ∃ p, s.pool.popRec .iblkref = some (r, p) ∧ s' = { s with pool := p } := by
  unfold acquireIblkref at ha
  split at ha
  · cases ha
  next r₀ p hpop =>
  obtain ⟨rfl, rfl⟩ := Prod.mk.inj (Option.some.inj ha)
  exact ⟨p, hpop, rfl⟩

theorem acquireIblkref_none (ha : s.acquireIblkref = none) : s.pool.popRec .iblkref = none := by
  unfold acquireIblkref at ha
  split at ha
  · assumption
  · cases ha

theorem acquireInode_some (ha : s.acquireInode = some (r, s')) :
    ∃ p, s.pool.popRec .inode = some (r, p) ∧ s' = { s with pool := p } := by
  unfold acquireInode at ha
  split at ha
  · cases ha
  next n p hpop =>
  obtain ⟨rfl, rfl⟩ := Prod.mk.inj (Option.some.inj ha)
  exact ⟨p, hpop, rfl⟩

end Sbi

end Zus.Toyfs
