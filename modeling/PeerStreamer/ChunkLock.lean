import Mathlib.Data.List.Nodup
import PeerStreamer.Lib.Timeval

/-!
# The locks on chunks that were asked for (`chunklock.c`)

A chunk is locked when it is accepted from an offer, so that it is not accepted from another one
meanwhile.  A lock is released when the chunk arrives, and times out after `toutdiff`.

Every reading of the clock is the next one: the functions that read it take the number of readings
made so far and return it increased.
-/

namespace PeerStreamer.ChunkLock

open Timeval

/-- `struct lock`. -/
structure Lock (N : Type*) where
  chunkid : Int
  peer : Option N
  timestamp : Timeval
  deriving DecidableEq, Repr

/-- The array of locks: the ones in use, and the number of them that are allocated (none before the
first lock). -/
structure Locks (N : Type*) where
  locks : List (Lock N)
  lsize : ℕ
  bound : locks.length ≤ lsize
  deriving DecidableEq, Repr

def toutdiff : Timeval := .ofUsec 2000000

def LSIZE_INCREMENT : ℕ := 10

variable {N : Type*}

def Locks.empty : Locks N := ⟨[], 0, Nat.le_refl 0⟩

/-- The ids that are locked. -/
def Locks.ids (t : Locks N) : List Int := t.locks.map Lock.chunkid

/-! ## The code -/

/-- `locks_init`: the number of locks that are allocated afterwards. -/
def locksInit (t : Locks N) : ℕ :=
  let lsize := if t.lsize = 0 then LSIZE_INCREMENT else t.lsize
  if t.locks.length = lsize then lsize + LSIZE_INCREMENT else lsize

theorem length_lt_locksInit (t : Locks N) : t.locks.length < locksInit t := by
  have hbound := t.bound
  unfold locksInit LSIZE_INCREMENT
  dsimp only
  split_ifs <;> omega

def chunkLockTimedOut (tnow : Timeval) (l : Lock N) : Bool :=
  timercmp tnow (timeradd l.timestamp toutdiff) (· > ·)

/-- The loop of `chunk_locks_cleanup`, which goes through the array from its end. -/
def cleanup (clock : Clock) : List (Lock N) → ℕ → List (Lock N) × ℕ
  | [], n => ([], n)
  | l :: ls, n =>
    let (ls, n) := cleanup clock ls n
    (if chunkLockTimedOut (clock.read n) l then ls else l :: ls, n + 1)

theorem cleanup_sublist (clock : Clock) (ls : List (Lock N)) (n : ℕ) :
    (cleanup clock ls n).1.Sublist ls := by
  induction ls with
  | nil => exact List.Sublist.refl _
  | cons l ls ih =>
    unfold cleanup
    dsimp only
    split_ifs
    · exact ih.cons l
    · exact ih.cons_cons l

def chunkLocksCleanup (clock : Clock) (t : Locks N) (n : ℕ) : Locks N × ℕ :=
  (⟨(cleanup clock t.locks n).1, t.lsize,
    Nat.le_trans (cleanup_sublist clock t.locks n).length_le t.bound⟩, (cleanup clock t.locks n).2)

/-- `chunk_lock`, stamped with the given time. -/
def chunkLock (chunkid : Int) (peer : Option N) (now : Timeval) (t : Locks N) : Locks N where
  locks := t.locks ++ [⟨chunkid, peer, now⟩]
  lsize := locksInit t
  bound := by
    rw [List.length_append, List.length_singleton]
    exact length_lt_locksInit t

def chunkUnlock (chunkid : Int) (t : Locks N) : Locks N where
  locks := t.locks.eraseP fun l => l.chunkid = chunkid
  lsize := t.lsize
  bound := Nat.le_trans List.eraseP_sublist.length_le t.bound

/-- `chunk_islocked`: the result, the locks left by the cleanup and the readings made. -/
def chunkIslocked (clock : Clock) (chunkid : Int) (t : Locks N) (n : ℕ) : Bool × Locks N × ℕ :=
  let (t, n) := chunkLocksCleanup clock t n
  (t.locks.any fun l => l.chunkid = chunkid, t, n)

/-! ## Properties -/

variable {clock : Clock} {t : Locks N} {ls : List (Lock N)} {l : Lock N} {n : ℕ} {x y : Int}

/-- A lock has expired when more than two seconds have passed since its stamp. -/
def Expired (clock : Clock) (n : ℕ) (stamp : Timeval) : Prop :=
  ∃ m, m < n ∧ stamp.toUsec + 2000000 < (clock.read m).toUsec

theorem Expired.mono {m : ℕ} {stamp : Timeval} (h : Expired clock n stamp) (hm : n ≤ m) :
    Expired clock m stamp := by
  obtain ⟨k, hk, hlt⟩ := h
  exact ⟨k, by omega, hlt⟩

/-- A later reading is more than two seconds after an expired stamp. -/
theorem Expired.lt_read (hclock : clock.Forward) {m : ℕ} {stamp : Timeval}
    (h : Expired clock n stamp) (hm : n ≤ m) :
    stamp.toUsec + 2000000 < (clock.read m).toUsec := by
  obtain ⟨k, hk, hlt⟩ := h
  have := hclock k m (by omega)
  omega

theorem chunkLockTimedOut_iff (tnow : Timeval) (l : Lock N) :
    chunkLockTimedOut tnow l ↔ l.timestamp.toUsec + 2000000 < tnow.toUsec := by
  unfold chunkLockTimedOut toutdiff
  rw [decide_eq_true_iff, timercmp_gt, toUsec_timeradd, toUsec_ofUsec]

theorem le_cleanup (clock : Clock) (ls : List (Lock N)) (n : ℕ) : n ≤ (cleanup clock ls n).2 := by
  induction ls with
  | nil => exact Nat.le_refl n
  | cons l ls ih => exact Nat.le_trans ih (Nat.le_succ _)

/-- A lock survives the cleanup or has expired. -/
theorem mem_cleanup_or_expired (clock : Clock) (n : ℕ) (hl : l ∈ ls) :
    l ∈ (cleanup clock ls n).1 ∨ Expired clock (cleanup clock ls n).2 l.timestamp := by
  induction ls with
  | nil => cases hl
  | cons k ls ih =>
    unfold cleanup
    dsimp only
    rcases List.mem_cons.1 hl with rfl | hl
    · split_ifs with hout
      · exact Or.inr ⟨_, Nat.lt_succ_self _, (chunkLockTimedOut_iff _ l).1 hout⟩
      · exact Or.inl (List.mem_cons_self ..)
    · rcases ih hl with h | h
      · left
        split_ifs
        · exact h
        · exact List.mem_cons_of_mem _ h
      · exact Or.inr (h.mono (Nat.le_succ _))

theorem chunkIslocked_eq_false (h : (chunkIslocked clock x t n).1 = false) :
    x ∉ (chunkIslocked clock x t n).2.1.ids := by
  intro hx
  obtain ⟨l, hl, hid⟩ := List.mem_map.1 hx
  have := List.any_eq_false.1 h l hl
  exact this (decide_eq_true hid)

theorem ids_chunkIslocked_sublist (clock : Clock) (x : Int) (t : Locks N) (n : ℕ) :
    (chunkIslocked clock x t n).2.1.ids.Sublist t.ids :=
  (cleanup_sublist clock t.locks n).map _

theorem ids_chunkLock (x : Int) (peer : Option N) (now : Timeval) (t : Locks N) :
    (chunkLock x peer now t).ids = t.ids ++ [x] := by
  rw [Locks.ids, chunkLock, List.map_append]
  rfl

theorem ids_chunkUnlock_sublist (x : Int) (t : Locks N) : (chunkUnlock x t).ids.Sublist t.ids :=
  (List.eraseP_sublist).map _

/-- With one lock for each chunk at most, an unlocked chunk has none left. -/
theorem not_mem_ids_chunkUnlock (h : t.ids.Nodup) : x ∉ (chunkUnlock x t).ids := by
  have herase : (chunkUnlock x t).ids = t.ids.erase x := by
    rw [List.erase_eq_eraseP', Locks.ids, Locks.ids, chunkUnlock, List.eraseP_map]
    rfl
  rw [herase]
  exact fun hx => (h.mem_erase_iff.1 hx).1 rfl

/-- The locks of other chunks stay. -/
theorem mem_chunkUnlock (hl : l ∈ t.locks) (hne : l.chunkid ≠ x) : l ∈ (chunkUnlock x t).locks :=
  (List.mem_eraseP_of_neg (by simpa using hne)).2 hl

end PeerStreamer.ChunkLock
