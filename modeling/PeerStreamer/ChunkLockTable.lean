import PeerStreamer.CInt
import PeerStreamer.ChunkLock
import PeerStreamer.Lib.Memory
import Mathlib.Data.List.Induction

/-!
# The locks in memory (`chunklock.c`)

The array that holds the locks, with the cells that are not in use.  It grows when a lock is added to
a full array, and the cells behind a removed lock are moved down.  `Holds` says which locks an array
holds: on arrays that hold locks the functions go through without leaving the array, and they do on
the locks what `ChunkLock` says.
-/

namespace PeerStreamer.ChunkLock

open Memory

variable {N : Type}

/-- The cells `locks` points to, those without a value that was stored included, and `lcount`.  There
are no cells as long as the pointer is NULL. -/
structure Table (N : Type) where
  cells : List (Option (Lock N))
  lcount : ℕ
  deriving DecidableEq, Repr

namespace Table

def empty : Table N := ⟨[], 0⟩

/-- `lsize` -/
def lsize (t : Table N) : ℕ := t.cells.length

/-- `locks[i]` -/
def get (t : Table N) (i : ℕ) : Except Fault (Lock N) :=
  match t.cells[i]? with
  | some (some l) => .ok l
  | _ => .error .outOfBounds

/-- `locks_init` -/
def locksInit (t : Table N) : Table N :=
  let t := if t.cells = [] then ⟨List.replicate LSIZE_INCREMENT none, 0⟩ else t
  if t.lcount = t.lsize then { t with cells := t.cells ++ List.replicate LSIZE_INCREMENT none }
  else t

/-- `chunk_lock_remove`, which frees the peer of the lock. -/
def chunkLockRemove (t : Table N) (i : ℕ) : Except Fault (Table N) := do
  let _ ← t.get i
  match memmove t.cells i (i + 1) (t.lcount - i - 1) with
  | none => .error .outOfBounds
  | some cells => return ⟨cells, t.lcount - 1⟩

/-- The loop of `chunk_locks_cleanup`, over the locks before index `i`. -/
def cleanupLoop (clock : Clock) : ℕ → Table N → ℕ → Except Fault (Table N × ℕ)
  | 0, t, n => .ok (t, n)
  | i + 1, t, n => do
    let l ← t.get i
    let t ← if chunkLockTimedOut (clock.read n) l then t.chunkLockRemove i else .ok t
    cleanupLoop clock i t (n + 1)

def chunkLocksCleanup (clock : Clock) (t : Table N) (n : ℕ) : Except Fault (Table N × ℕ) :=
  cleanupLoop clock t.lcount t n

/-- `chunk_lock`, stamped with the given time. -/
def chunkLock (chunkid : Int) (peer : Option N) (now : Timeval) (t : Table N) :
    Except Fault (Table N) :=
  let t := t.locksInit
  match store t.cells t.lcount [some ⟨chunkid, peer, now⟩] with
  | none => .error .outOfBounds
  | some cells => .ok ⟨cells, t.lcount + 1⟩

/-- The loop that looks for a chunk, over `k` locks from index `i` on. -/
def find (chunkid : Int) (t : Table N) : ℕ → ℕ → Except Fault (Option ℕ)
  | 0, _ => .ok none
  | k + 1, i => do
    let l ← t.get i
    if l.chunkid = chunkid then return some i else find chunkid t k (i + 1)

def chunkUnlock (chunkid : Int) (t : Table N) : Except Fault (Table N) := do
  match ← t.find chunkid t.lcount 0 with
  | none => return t
  | some i => t.chunkLockRemove i

/-- `chunk_islocked`: the result, the locks left by the cleanup and the readings made. -/
def chunkIslocked (clock : Clock) (chunkid : Int) (t : Table N) (n : ℕ) :
    Except Fault (Bool × Table N × ℕ) := do
  let (t, n) ← t.chunkLocksCleanup clock n
  let i ← t.find chunkid t.lcount 0
  return (i.isSome, t, n)

/-! ## The locks an array holds -/

/-- The array holds the locks `ls`, from its start on. -/
def Holds (t : Table N) (ls : List (Lock N)) : Prop :=
  ∃ rest, t.cells = ls.map some ++ rest ∧ t.lcount = ls.length

variable {t t' : Table N} {clock : Clock} {n i : ℕ} {x : Int}

section

variable {ls : List (Lock N)}

theorem holds_empty : (empty : Table N).Holds [] := ⟨[], rfl, rfl⟩

theorem Holds.lcount_eq (h : t.Holds ls) : t.lcount = ls.length := h.choose_spec.2

theorem Holds.lcount_le (h : t.Holds ls) : t.lcount ≤ t.lsize := by
  obtain ⟨rest, hcells, hcount⟩ := h
  rw [lsize, hcells, hcount, List.length_append, List.length_map]
  omega

theorem Holds.unique {ls' : List (Lock N)} (h : t.Holds ls) (h' : t.Holds ls') : ls = ls' := by
  obtain ⟨rest, hcells, hcount⟩ := h
  obtain ⟨rest', hcells', hcount'⟩ := h'
  have hlen : (ls.map some).length = (ls'.map some).length := by
    rw [List.length_map, List.length_map, ← hcount, ← hcount']
  have hmap := (List.append_inj (hcells.symm.trans hcells') hlen).1
  exact List.map_inj_right (fun _ _ => Option.some.inj) |>.1 hmap

theorem Holds.get (h : t.Holds ls) (hi : i < ls.length) : t.get i = .ok ls[i] := by
  obtain ⟨rest, hcells, -⟩ := h
  unfold Table.get
  rw [hcells, List.getElem?_append_left (by rwa [List.length_map]), List.getElem?_map,
    List.getElem?_eq_getElem hi]
  rfl

/-- The lock at an index is the one that has as many before it. -/
theorem Holds.get_append {as bs : List (Lock N)} {l : Lock N} (h : t.Holds (as ++ l :: bs)) :
    t.get as.length = .ok l := by
  rw [h.get (by simp), List.getElem_append_right (Nat.le_refl _)]
  simp

end

theorem Holds.chunkLockRemove {as bs : List (Lock N)} {l : Lock N} (h : t.Holds (as ++ l :: bs)) :
    ∃ t', t.chunkLockRemove as.length = .ok t' ∧ t'.lsize = t.lsize ∧ t'.Holds (as ++ bs) := by
  have hget := h.get_append
  obtain ⟨rest, hcells, hcount⟩ := h
  have hcount' : t.lcount - as.length - 1 = (bs.map some).length := by
    simp only [hcount, List.length_append, List.length_cons, List.length_map]
    omega
  have hmove : memmove t.cells as.length (as.length + 1) (t.lcount - as.length - 1) =
      some (as.map some ++ bs.map some ++ (some l :: bs.map some ++ rest).drop bs.length) := by
    have hgap := memmove_gap (as.map some) (bs.map some) rest (some l)
    rw [hcount', hcells, List.map_append, List.map_cons]
    simpa only [List.length_map] using hgap
  have hremove : t.chunkLockRemove as.length = .ok ⟨as.map some ++ bs.map some ++
      (some l :: bs.map some ++ rest).drop bs.length, t.lcount - 1⟩ := by
    unfold Table.chunkLockRemove
    rw [hget, hmove]
    rfl
  refine ⟨_, hremove, ?_, _, congrArg (· ++ _) List.map_append.symm, ?_⟩
  · simp only [lsize, hcells, List.length_append, List.length_map, List.length_drop,
      List.length_cons]
    omega
  · simp only [hcount, List.length_append, List.length_cons]
    omega

/-- The cleanup begins with the last lock. -/
theorem cleanup_concat (clock : Clock) (as : List (Lock N)) (l : Lock N) (n : ℕ) :
    cleanup clock (as ++ [l]) n = ((cleanup clock as (n + 1)).1 ++
      (if chunkLockTimedOut (clock.read n) l then [] else [l]), (cleanup clock as (n + 1)).2) := by
  induction as with
  | nil => rfl
  | cons a as ih =>
    rw [List.cons_append]
    unfold cleanup
    rw [ih]
    dsimp only
    split_ifs <;> rfl

/-- The cleanup of the locks `as` leaves what it leaves of the list. -/
theorem Holds.cleanupLoop {as bs : List (Lock N)} (h : t.Holds (as ++ bs)) (clock : Clock) (n : ℕ) :
    ∃ t', t.cleanupLoop clock as.length n = .ok (t', (cleanup clock as n).2) ∧
      t'.lsize = t.lsize ∧ t'.Holds ((cleanup clock as n).1 ++ bs) := by
  induction as using List.reverseRecOn generalizing t n bs with
  | nil => exact ⟨t, rfl, rfl, h⟩
  | append_singleton as l ih =>
    rw [List.append_assoc, List.singleton_append] at h
    rw [List.length_append, List.length_singleton, cleanup_concat]
    unfold Table.cleanupLoop
    rw [h.get_append]
    by_cases hout : chunkLockTimedOut (clock.read n) l = true
    · obtain ⟨t₁, hremove, hsize₁, h₁⟩ := h.chunkLockRemove
      obtain ⟨t', hloop, hsize, h'⟩ := ih h₁ (n + 1)
      refine ⟨t', ?_, hsize.trans hsize₁, ?_⟩
      · simp only [bind, Except.bind, if_pos hout, hremove, hloop]
      · rwa [if_pos hout, List.append_nil]
    · obtain ⟨t', hloop, hsize, h'⟩ := ih h (n + 1)
      refine ⟨t', ?_, hsize, ?_⟩
      · simp only [bind, Except.bind, if_neg hout, hloop]
      · rwa [if_neg hout, List.append_assoc, List.singleton_append]

/-- The loop that looks for a chunk, from a lock on. -/
theorem Holds.find {as bs : List (Lock N)} (h : t.Holds (as ++ bs)) (x : Int) :
    t.find x bs.length as.length =
      .ok ((bs.findIdx? fun l => l.chunkid = x).map (as.length + ·)) := by
  induction bs generalizing as with
  | nil => rfl
  | cons l bs ih =>
    have hnext := @ih (as ++ [l]) (by rwa [List.append_assoc, List.singleton_append])
    rw [List.length_append, List.length_singleton] at hnext
    rw [List.length_cons, List.findIdx?_cons]
    unfold Table.find
    rw [h.get_append]
    by_cases hid : l.chunkid = x
    · simp only [bind, Except.bind, if_pos hid, decide_eq_true hid, if_true]
      rfl
    · have hshift : ∀ i, as.length + 1 + i = as.length + (i + 1) := fun i => by omega
      simp only [bind, Except.bind, if_neg hid, decide_eq_false hid, hnext, Bool.false_eq_true,
        if_false, Option.map_map, Function.comp_def, hshift]

theorem Holds.find_all {ls : List (Lock N)} (h : t.Holds ls) (x : Int) :
    t.find x t.lcount 0 = .ok (ls.findIdx? fun l => l.chunkid = x) := by
  have hfind := @Holds.find N t [] ls h x
  simp only [List.length_nil, Nat.zero_add, Option.map_id_fun'] at hfind
  rwa [h.lcount_eq]

/-! ## The functions on an array that holds locks -/

/-- The array is one for the locks of a `Locks`. -/
def Represents (t : Table N) (ls : Locks N) : Prop := t.lsize = ls.lsize ∧ t.Holds ls.locks

variable {ls : Locks N}

theorem represents_empty : (empty : Table N).Represents .empty := ⟨rfl, holds_empty⟩

theorem Represents.locksInit (h : t.Represents ls) :
    t.locksInit.lsize = ChunkLock.locksInit ls ∧ t.locksInit.Holds ls.locks := by
  obtain ⟨hsize, rest, hcells, hcount⟩ := h
  unfold Table.locksInit ChunkLock.locksInit
  rw [← hsize, ← hcount]
  by_cases hnull : t.cells = []
  · have hnil : ls.locks = [] := by
      rw [hnull] at hcells
      exact List.map_eq_nil_iff.1 (List.append_eq_nil_iff.1 hcells.symm).1
    have hcount0 : t.lcount = 0 := by rw [hcount, hnil, List.length_nil]
    have hsize0 : t.lsize = 0 := by rw [Table.lsize, hnull, List.length_nil]
    rw [hcount0, hsize0, if_pos hnull, hnil]
    exact ⟨rfl, _, rfl, rfl⟩
  · have hsize0 : t.lsize ≠ 0 := fun h => hnull (List.length_eq_zero_iff.1 h)
    rw [if_neg hnull, if_neg hsize0]
    by_cases hfull : t.lcount = t.lsize
    · rw [if_pos hfull, if_pos hfull]
      refine ⟨?_, rest ++ List.replicate LSIZE_INCREMENT none, ?_, hcount⟩
      · rw [Table.lsize, List.length_append, List.length_replicate, Table.lsize]
      · rw [hcells, List.append_assoc]
    · rw [if_neg hfull, if_neg hfull]
      exact ⟨rfl, rest, hcells, hcount⟩

theorem Represents.chunkLock (h : t.Represents ls) (x : Int) (peer : Option N) (now : Timeval) :
    ∃ t', t.chunkLock x peer now = .ok t' ∧
      t'.Represents (ChunkLock.chunkLock x peer now ls) := by
  obtain ⟨hsize, rest, hcells, hcount⟩ := h.locksInit
  have hroom := length_lt_locksInit ls
  obtain ⟨c, rest, rfl⟩ : ∃ c rest', rest = c :: rest' := by
    refine List.exists_cons_of_ne_nil fun hnil => ?_
    rw [Table.lsize, hcells, hnil, List.append_nil, List.length_map] at hsize
    omega
  have hstore : store t.locksInit.cells t.locksInit.lcount [some ⟨x, peer, now⟩] =
      some (ls.locks.map some ++ [some ⟨x, peer, now⟩] ++ rest) := by
    have happ := store_append (ls.locks.map some) [c] rest [some ⟨x, peer, now⟩] rfl
    rwa [List.length_map, List.append_assoc, List.singleton_append, ← hcells, ← hcount] at happ
  have hlock : t.chunkLock x peer now =
      .ok ⟨ls.locks.map some ++ [some ⟨x, peer, now⟩] ++ rest, t.locksInit.lcount + 1⟩ := by
    unfold Table.chunkLock
    simp only [hstore]
  refine ⟨_, hlock, ?_, rest, ?_, ?_⟩
  · rw [Table.lsize, hcells] at hsize
    simp only [Table.lsize, ChunkLock.chunkLock, ← hsize, List.length_append, List.length_cons,
      List.length_nil]
    omega
  · rw [ChunkLock.chunkLock, List.map_append]
    rfl
  · rw [ChunkLock.chunkLock, List.length_append, hcount]
    rfl

theorem Represents.chunkUnlock (h : t.Represents ls) (x : Int) :
    ∃ t', t.chunkUnlock x = .ok t' ∧ t'.Represents (ChunkLock.chunkUnlock x ls) := by
  obtain ⟨hsize, hholds⟩ := h
  have hfind := hholds.find_all x
  unfold Table.chunkUnlock
  rw [hfind]
  by_cases hany : ∃ l ∈ ls.locks, decide (l.chunkid = x) = true
  · obtain ⟨l, hmem, hl⟩ := hany
    obtain ⟨l, as, bs, hall, hl, hsplit, herase⟩ :=
      List.exists_of_eraseP (p := fun l => decide (l.chunkid = x)) hmem hl
    have hidx : ls.locks.findIdx? (fun l => l.chunkid = x) = some as.length := by
      have hnone : as.findIdx? (fun l => l.chunkid = x) = none :=
        List.findIdx?_eq_none_iff.2 fun b hb => by simpa using hall b hb
      rw [hsplit, List.findIdx?_append, hnone, List.findIdx?_cons, if_pos hl]
      simp
    rw [hidx]
    rw [hsplit] at hholds
    obtain ⟨t', hremove, hsize', h'⟩ := hholds.chunkLockRemove
    have hlocks : (ChunkLock.chunkUnlock x ls).locks = as ++ bs := herase
    refine ⟨t', hremove, hsize'.trans hsize, ?_⟩
    rwa [hlocks]
  · have hnone : ∀ l ∈ ls.locks, ¬ decide (l.chunkid = x) = true :=
      fun l hl h => hany ⟨l, hl, h⟩
    have hidx : ls.locks.findIdx? (fun l => l.chunkid = x) = none :=
      List.findIdx?_eq_none_iff.2 fun l hl => by simpa using hnone l hl
    have hlocks : (ChunkLock.chunkUnlock x ls).locks = ls.locks := List.eraseP_of_forall_not hnone
    rw [hidx]
    refine ⟨t, rfl, hsize, ?_⟩
    rwa [hlocks]

theorem Represents.chunkIslocked (h : t.Represents ls) (clock : Clock) (x : Int) (n : ℕ) :
    ∃ t', t.chunkIslocked clock x n = .ok ((ChunkLock.chunkIslocked clock x ls n).1, t',
      (ChunkLock.chunkIslocked clock x ls n).2.2) ∧
      t'.Represents (ChunkLock.chunkIslocked clock x ls n).2.1 := by
  obtain ⟨hsize, hholds⟩ := h
  have hcount := hholds.lcount_eq
  rw [← List.append_nil ls.locks] at hholds
  obtain ⟨t', hclean, hsize', h'⟩ := hholds.cleanupLoop clock n
  rw [List.append_nil] at h'
  refine ⟨t', ?_, hsize'.trans hsize, h'⟩
  unfold Table.chunkIslocked Table.chunkLocksCleanup
  rw [hcount, hclean]
  simp only [bind, Except.bind, h'.find_all, List.findIdx?_isSome]
  rfl

end Table

end PeerStreamer.ChunkLock
