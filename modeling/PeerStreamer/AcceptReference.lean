import PeerStreamer.ChunkLockTable
import PeerStreamer.StreamingProof

/-!
# The accept decision against its reference

`get_chunks_to_accept` on the locks as they stand in memory.  Every test of the loop purges the array
of locks, and its body adds to the same array; `Work.getChunksToAccept_refines` takes the loop to the
lists of `Streaming`.  While the clock stands still, a purge removes exactly the locks that had
expired before the call, and an accepted chunk is locked for the rest of it, which gives the chunks
accepted in closed form: the first that have no unexpired lock and are needed, each once.
-/

namespace PeerStreamer.Streaming

open ChunkLock ChunkIDSet

variable {N B P S : Type} [ChunkIDSet S] [ChunkBuffer B]

/-! ## The loop on the array of locks -/

/-- What `get_chunks_to_accept` works on. -/
structure Work (N B S : Type) where
  table : Table N
  cb : B
  csetAcc : S
  d : Int
  reads : ℕ

namespace Work

/-- The body of the loop. -/
def acceptOne (cfg : Config) (clock : Clock) (peer : Option N) (myBmap : S) (chunkid : Int)
    (w : Work N B S) : Except Fault (Work N B S) := do
  let (locked, table, n) ← w.table.chunkIslocked clock chunkid w.reads
  if locked then return { w with table := table, reads := n }
  else
    let (need, n) := _needs cfg clock w.cb myBmap cfg.cbSize chunkid n
    if need then
      let table ← table.chunkLock chunkid peer (clock.read n)
      return { w with
        table := table
        csetAcc := ChunkIDSet.add w.csetAcc chunkid
        d := w.d + 1
        reads := n + 1 }
    else return { w with table := table, reads := n }

/-- The loop, over the indices of the offered set. -/
def acceptLoop (cfg : Config) (clock : Clock) (peer : Option N) (myBmap csetOff : S)
    (maxDeliver : Int) : List ℕ → Work N B S → Except Fault (Work N B S)
  | [], w => .ok w
  | i :: is, w =>
    if w.d < maxDeliver then do
      let w ← w.acceptOne cfg clock peer myBmap (ChunkIDSet.getChunk csetOff i)
      acceptLoop cfg clock peer myBmap csetOff maxDeliver is w
    else .ok w

/-- `get_chunks_to_accept`, on the locks, the peers, the chunk buffer and the readings made so
far. -/
def getChunksToAccept [PeerSet P N S] (cfg : Config) (clock : Clock) (fromid : N) (csetOff : S)
    (maxDeliver : Int) (table : Table N) (pset : P) (cb : B) (reads : ℕ) :
    Except Fault (Work N B S) :=
  let peer := (PeerSet.getPeer pset fromid).map Peer.id
  acceptLoop cfg clock peer (cbToBmap cb) csetOff maxDeliver (List.range (ChunkIDSet.size csetOff))
    ⟨table, cb, ChunkIDSet.initList, 0, reads⟩

/-- The array represents the locks, and the rest is the same. -/
structure Refines (w : Work N B S) (a : Accepting N B P S) : Prop where
  table : w.table.Represents a.s.locks
  cb : w.cb = a.s.cb
  csetAcc : w.csetAcc = a.csetAcc
  d : w.d = a.d
  reads : w.reads = a.s.reads

variable {w : Work N B S} {a : Accepting N B P S}

theorem Refines.acceptOne (h : w.Refines a) (cfg : Config) (clock : Clock) (peer : Option N)
    (myBmap : S) (x : Int) : ∃ w', w.acceptOne cfg clock peer myBmap x = .ok w' ∧
      w'.Refines (Streaming.acceptOne cfg clock peer myBmap x a) := by
  obtain ⟨t, hlocked, ht⟩ := h.table.chunkIslocked clock x a.s.reads
  unfold Work.acceptOne Streaming.acceptOne
  rw [h.reads, hlocked, h.cb]
  simp only [bind, Except.bind]
  by_cases hl : (chunkIslocked clock x a.s.locks a.s.reads).1 = true
  · rw [if_pos hl, if_pos hl]
    exact ⟨_, rfl, ht, rfl, h.csetAcc, h.d, rfl⟩
  · rw [if_neg hl, if_neg hl]
    rcases hneeds : _needs cfg clock a.s.cb myBmap cfg.cbSize x
      (chunkIslocked clock x a.s.locks a.s.reads).2.2 with ⟨need, n⟩
    dsimp only
    by_cases hneed : need = true
    · obtain ⟨t', hlock, ht'⟩ := ht.chunkLock x peer (clock.read n)
      rw [if_pos hneed, if_pos hneed, hlock]
      exact ⟨_, rfl, ht', rfl, congrArg (ChunkIDSet.add · x) h.csetAcc, congrArg (· + 1) h.d, rfl⟩
    · rw [if_neg hneed, if_neg hneed]
      exact ⟨_, rfl, ht, rfl, h.csetAcc, h.d, rfl⟩

theorem Refines.acceptLoop (h : w.Refines a) (cfg : Config) (clock : Clock) (peer : Option N)
    (myBmap csetOff : S) (maxDeliver : Int) (is : List ℕ) :
    ∃ w', w.acceptLoop cfg clock peer myBmap csetOff maxDeliver is = .ok w' ∧
      w'.Refines (Streaming.acceptLoop cfg clock peer myBmap csetOff maxDeliver is a) := by
  induction is generalizing w a with
  | nil => exact ⟨w, rfl, h⟩
  | cons i is ih =>
    unfold Work.acceptLoop Streaming.acceptLoop
    rw [h.d]
    by_cases hd : a.d < maxDeliver
    · obtain ⟨w₁, hone, h₁⟩ := h.acceptOne cfg clock peer myBmap (ChunkIDSet.getChunk csetOff i)
      obtain ⟨w', hloop, h'⟩ := ih h₁
      rw [if_pos hd, if_pos hd, hone]
      exact ⟨w', hloop, h'⟩
    · rw [if_neg hd, if_neg hd]
      exact ⟨w, rfl, h⟩

/-- On an array that represents the locks of the state, the function does what it does on the
state. -/
theorem getChunksToAccept_refines [PeerSet P N S] {s : State N B P} {table : Table N}
    (h : table.Represents s.locks) (cfg : Config) (clock : Clock) (fromid : N) (csetOff : S)
    (maxDeliver : Int) :
    ∃ w, getChunksToAccept cfg clock fromid csetOff maxDeliver table s.pset s.cb s.reads = .ok w ∧
      w.Refines (Streaming.getChunksToAccept cfg clock fromid csetOff maxDeliver s) := by
  have hstart : Refines ⟨table, s.cb, initList, 0, s.reads⟩
      (⟨s, (initList : S), 0, []⟩ : Accepting N B P S) := ⟨h, rfl, rfl, rfl, rfl⟩
  exact hstart.acceptLoop cfg clock _ _ csetOff maxDeliver _

end Work

/-! ## A clock that stands still -/

/-- The clock that always shows `now`. -/
def fixed (now : Timeval) : Clock := ⟨fun _ => now⟩

/-- All readings from `n` up to `n'` are `now`. -/
def Still (clock : Clock) (now : Timeval) (n n' : ℕ) : Prop :=
  ∀ m, n ≤ m → m < n' → clock.read m = now

variable {cfg : Config} {clock : Clock} {now : Timeval} {n n' m : ℕ}

theorem Still.mono (h : Still clock now n n') {k k' : ℕ} (hk : n ≤ k) (hk' : k' ≤ n') :
    Still clock now k k' :=
  fun m hm hm' => h m (Nat.le_trans hk hm) (Nat.lt_of_lt_of_le hm' hk')

theorem cleanup_fixed (now : Timeval) (ls : List (Lock N)) (n : ℕ) :
    cleanup (fixed now) ls n =
      (ls.filter fun l => !chunkLockTimedOut now l, n + ls.length) := by
  induction ls with
  | nil => rfl
  | cons l ls ih =>
    have hread : (fixed now).read (n + ls.length) = now := rfl
    unfold cleanup
    rw [ih]
    dsimp only
    rw [hread]
    by_cases hout : chunkLockTimedOut now l = true
    · rw [if_pos hout, List.filter_cons_of_neg (by simpa using hout)]
      rfl
    · rw [if_neg hout, List.filter_cons_of_pos (by simpa using hout)]
      rfl

theorem cleanup_still (ls : List (Lock N)) (h : Still clock now n (cleanup clock ls n).2) :
    cleanup clock ls n = cleanup (fixed now) ls n := by
  induction ls with
  | nil => rfl
  | cons l ls ih =>
    unfold cleanup at h
    have hle := le_cleanup clock ls n
    have hls := ih (h.mono (Nat.le_refl _) (Nat.le_succ _))
    have hread : clock.read (cleanup clock ls n).2 = now := h _ hle (Nat.lt_succ_self _)
    rw [hls] at hread
    unfold cleanup
    rw [hls]
    dsimp only
    rw [hread]
    rfl

theorem chunkIslocked_still {t : Locks N} {x : Int}
    (h : Still clock now n (chunkIslocked clock x t n).2.2) :
    chunkIslocked clock x t n = chunkIslocked (fixed now) x t n := by
  unfold chunkIslocked chunkLocksCleanup at h ⊢
  simp only [cleanup_still t.locks h]

theorem needs_still {cb : B} {cset : S} {size x : Int}
    (h : Still clock now n (_needs cfg clock cb cset size x n).2) :
    _needs cfg clock cb cset size x n = _needs cfg (fixed now) cb cset size x n := by
  by_cases hsize : size = 0
  · unfold _needs
    rw [if_pos hsize, if_pos hsize]
  · have hreads : (_needs cfg clock cb cset size x n).2 = (tooOld cfg clock cb x n).2 := by
      unfold _needs
      rw [if_neg hsize]
      dsimp only
      split_ifs <;> rfl
    rw [hreads] at h
    have hold : tooOld cfg clock cb x n = tooOld cfg (fixed now) cb x n := by
      unfold tooOld at h ⊢
      dsimp only at h ⊢
      split_ifs with hlim hts
      · rw [if_pos hlim, if_pos hts] at h
        rw [h n (Nat.le_refl n) (Nat.lt_succ_self n)]
        rfl
      · rfl
      · rfl
    unfold _needs
    rw [hold]

/-- On a clock that stands still it does not matter when a chunk is tested. -/
theorem needs_fixed (cfg : Config) (now : Timeval) (cb : B) (cset : S) (size x : Int) (n : ℕ) :
    (_needs cfg (fixed now) cb cset size x n).1 = (_needs cfg (fixed now) cb cset size x 0).1 := by
  have hold : (tooOld cfg (fixed now) cb x n).1 = (tooOld cfg (fixed now) cb x 0).1 := by
    unfold tooOld
    dsimp only
    split_ifs <;> rfl
  unfold _needs
  dsimp only
  rw [hold]
  split_ifs <;> rfl

section Loop

variable {peer : Option N} {myBmap csetOff : S} {maxDeliver x : Int} {a : Accepting N B P S}
  {is : List ℕ}

theorem le_reads_acceptOne (cfg : Config) (clock : Clock) (peer : Option N) (myBmap : S) (x : Int)
    (a : Accepting N B P S) : a.s.reads ≤ (acceptOne cfg clock peer myBmap x a).s.reads := by
  have hclean : a.s.reads ≤ (chunkIslocked clock x a.s.locks a.s.reads).2.2 := le_cleanup ..
  have hneeds := le_needs cfg clock a.s.cb myBmap cfg.cbSize x
    (chunkIslocked clock x a.s.locks a.s.reads).2.2
  unfold acceptOne
  dsimp only
  split_ifs
  · exact hclean
  · exact Nat.le_succ_of_le (Nat.le_trans hclean hneeds)
  · exact Nat.le_trans hclean hneeds

theorem le_reads_acceptLoop (cfg : Config) (clock : Clock) (peer : Option N) (myBmap csetOff : S)
    (maxDeliver : Int) (is : List ℕ) (a : Accepting N B P S) :
    a.s.reads ≤ (acceptLoop cfg clock peer myBmap csetOff maxDeliver is a).s.reads := by
  induction is generalizing a with
  | nil => exact Nat.le_refl _
  | cons i is ih =>
    unfold acceptLoop
    split_ifs
    · exact Nat.le_trans (le_reads_acceptOne ..) (ih _)
    · exact Nat.le_refl _

theorem acceptOne_still
    (h : Still clock now a.s.reads (acceptOne cfg clock peer myBmap x a).s.reads) :
    acceptOne cfg clock peer myBmap x a = acceptOne cfg (fixed now) peer myBmap x a := by
  have hclean : a.s.reads ≤ (chunkIslocked clock x a.s.locks a.s.reads).2.2 := le_cleanup ..
  have hneeds := le_needs cfg clock a.s.cb myBmap cfg.cbSize x
    (chunkIslocked clock x a.s.locks a.s.reads).2.2
  unfold acceptOne at h ⊢
  dsimp only at h ⊢
  by_cases hl : (chunkIslocked clock x a.s.locks a.s.reads).1 = true
  · rw [if_pos hl] at h
    rw [← chunkIslocked_still h, if_pos hl, if_pos hl]
  · rw [if_neg hl] at h
    rw [if_neg hl]
    by_cases hneed : (_needs cfg clock a.s.cb myBmap cfg.cbSize x
      (chunkIslocked clock x a.s.locks a.s.reads).2.2).1 = true
    · rw [if_pos hneed] at h
      have hread := h _ (Nat.le_trans hclean hneeds) (Nat.lt_succ_self _)
      rw [← chunkIslocked_still (h.mono (Nat.le_refl _) (Nat.le_succ_of_le hneeds)), if_neg hl,
        ← needs_still (h.mono hclean (Nat.le_succ _)), if_pos hneed, if_pos hneed, hread]
      rfl
    · rw [if_neg hneed] at h
      rw [← chunkIslocked_still (h.mono (Nat.le_refl _) hneeds), if_neg hl,
        ← needs_still (h.mono hclean (Nat.le_refl _)), if_neg hneed, if_neg hneed]

theorem acceptLoop_still
    (h : Still clock now a.s.reads
      (acceptLoop cfg clock peer myBmap csetOff maxDeliver is a).s.reads) :
    acceptLoop cfg clock peer myBmap csetOff maxDeliver is a =
      acceptLoop cfg (fixed now) peer myBmap csetOff maxDeliver is a := by
  induction is generalizing a with
  | nil => rfl
  | cons i is ih =>
    unfold acceptLoop at h ⊢
    split_ifs at h ⊢ with hd
    · have hle := le_reads_acceptLoop cfg clock peer myBmap csetOff maxDeliver is
        (acceptOne cfg clock peer myBmap (getChunk csetOff i) a)
      have hone := acceptOne_still (h.mono (Nat.le_refl _) hle)
      rw [← hone]
      exact ih (h.mono (le_reads_acceptOne ..) (Nat.le_refl _))
    · rfl

/-! ## The chunks accepted -/

/-- The locks that have not expired. -/
def alive (now : Timeval) (ls : List (Lock N)) : List (Lock N) :=
  ls.filter fun l => !chunkLockTimedOut now l

/-- There is no unexpired lock on the chunk, and it is needed. -/
def wanted (now : Timeval) (need : Int → Bool) (ls : List (Lock N)) (x : Int) : Bool :=
  !((alive now ls).any fun l => l.chunkid = x) && need x

/-- The first `k` of the offered chunks that are wanted, each counted once. -/
def accepted (now : Timeval) (need : Int → Bool) (ls : List (Lock N)) (offered : List Int)
    (k : Int) : List Int :=
  (offered.filter (wanted now need ls)).eraseDups.take k.toNat

variable {need : Int → Bool} {ls : List (Lock N)} {offered : List Int} {y k : Int}

theorem alive_alive (now : Timeval) (ls : List (Lock N)) :
    alive now (alive now ls) = alive now ls := by
  unfold alive
  rw [List.filter_filter]
  exact List.filter_congr fun l _ => Bool.and_self _

theorem wanted_alive (now : Timeval) (need : Int → Bool) (ls : List (Lock N)) :
    wanted now need (alive now ls) = wanted now need ls := by
  unfold wanted
  rw [alive_alive]

/-- A lock that is stamped now has not expired. -/
theorem alive_concat (now : Timeval) (ls : List (Lock N)) (x : Int) (peer : Option N) :
    alive now (alive now ls ++ [⟨x, peer, now⟩]) = alive now ls ++ [⟨x, peer, now⟩] := by
  have hfresh : ¬ chunkLockTimedOut now (⟨x, peer, now⟩ : Lock N) = true := by
    rw [chunkLockTimedOut_iff]
    dsimp only
    omega
  have hnew : alive now [(⟨x, peer, now⟩ : Lock N)] = [⟨x, peer, now⟩] :=
    List.filter_cons_of_pos (by simpa using hfresh)
  have happend : alive now (alive now ls ++ [⟨x, peer, now⟩]) =
      alive now (alive now ls) ++ alive now [⟨x, peer, now⟩] := List.filter_append ..
  rw [happend, alive_alive, hnew]

/-- An accepted chunk is not wanted again. -/
theorem wanted_concat (now : Timeval) (need : Int → Bool) (ls : List (Lock N)) (x : Int)
    (peer : Option N) (y : Int) :
    wanted now need (alive now ls ++ [⟨x, peer, now⟩]) y = (wanted now need ls y && y != x) := by
  have hany : (alive now ls ++ [(⟨x, peer, now⟩ : Lock N)]).any (fun l => l.chunkid = y) =
      ((alive now ls).any (fun l => l.chunkid = y) || y == x) := by
    rw [List.any_append, List.any_cons, List.any_nil, Bool.or_false]
    congr 1
    exact decide_eq_decide.2 eq_comm
  unfold wanted
  rw [alive_concat, hany]
  cases (alive now ls).any (fun l => l.chunkid = y) <;> cases need y <;> cases h : y == x <;>
    simp [bne, h]

theorem accepted_nil (h : offered = [] ∨ k ≤ 0) : accepted now need ls offered k = [] := by
  unfold accepted
  rcases h with rfl | h
  · rw [List.filter_nil, List.eraseDups_nil, List.take_nil]
  · rw [Int.toNat_of_nonpos h]
    rfl

theorem accepted_alive (now : Timeval) (need : Int → Bool) (ls : List (Lock N))
    (offered : List Int) (k : Int) :
    accepted now need (alive now ls) offered k = accepted now need ls offered k := by
  unfold accepted
  rw [wanted_alive]

theorem accepted_cons_of_not (h : ¬ wanted now need ls x = true) :
    accepted now need ls (x :: offered) k = accepted now need ls offered k := by
  unfold accepted
  rw [List.filter_cons_of_neg h]

theorem accepted_cons_of_wanted (h : wanted now need ls x = true) (peer : Option N)
    (offered : List Int) (hk : 0 < k) :
    accepted now need ls (x :: offered) k =
      x :: accepted now need (alive now ls ++ [⟨x, peer, now⟩]) offered (k - 1) := by
  obtain ⟨j, rfl⟩ : ∃ j : ℕ, k = j + 1 := ⟨(k - 1).toNat, by omega⟩
  have hrest : (offered.filter (wanted now need ls)).filter (fun b => !b == x) =
      offered.filter (wanted now need (alive now ls ++ [⟨x, peer, now⟩])) := by
    rw [List.filter_filter]
    refine List.filter_congr fun y _ => ?_
    rw [wanted_concat, Bool.and_comm]
    rfl
  unfold accepted
  rw [List.filter_cons_of_pos h, List.eraseDups_cons, hrest, Int.add_sub_cancel]
  exact List.take_succ_cons

/-! ## The loop -/

/-- Whether the node needs a chunk, on a clock that stands still. -/
def needed (cfg : Config) (now : Timeval) (cb : B) (myBmap : S) (x : Int) : Bool :=
  (_needs cfg (fixed now) cb myBmap cfg.cbSize x 0).1

theorem chunkIslocked_fixed (now : Timeval) (x : Int) (t : Locks N) (n : ℕ) :
    (chunkIslocked (fixed now) x t n).1 = (alive now t.locks).any (fun l => l.chunkid = x) ∧
      (chunkIslocked (fixed now) x t n).2.1.locks = alive now t.locks := by
  unfold chunkIslocked chunkLocksCleanup
  dsimp only
  rw [cleanup_fixed]
  exact ⟨rfl, rfl⟩

theorem acceptOne_of_wanted (peer : Option N)
    (h : wanted now (needed cfg now a.s.cb myBmap) a.s.locks.locks x = true) :
    (acceptOne cfg (fixed now) peer myBmap x a).csetAcc = ChunkIDSet.add a.csetAcc x ∧
      (acceptOne cfg (fixed now) peer myBmap x a).d = a.d + 1 ∧
      (acceptOne cfg (fixed now) peer myBmap x a).s.cb = a.s.cb ∧
      (acceptOne cfg (fixed now) peer myBmap x a).s.locks.locks =
        alive now a.s.locks.locks ++ [⟨x, peer, now⟩] := by
  obtain ⟨hlocked, halive⟩ := chunkIslocked_fixed now x a.s.locks a.s.reads
  obtain ⟨hfree, hneed⟩ := Bool.and_eq_true_iff.1 h
  rw [← hlocked] at hfree
  have hfree' : ¬ (chunkIslocked (fixed now) x a.s.locks a.s.reads).1 = true := by
    simpa using hfree
  have hneed' : (_needs cfg (fixed now) a.s.cb myBmap cfg.cbSize x
      (chunkIslocked (fixed now) x a.s.locks a.s.reads).2.2).1 = true :=
    (needs_fixed ..).trans hneed
  unfold acceptOne
  dsimp only
  rw [if_neg hfree', if_pos hneed']
  exact ⟨rfl, rfl, rfl, congrArg (· ++ _) halive⟩

theorem acceptOne_of_not_wanted (peer : Option N)
    (h : ¬ wanted now (needed cfg now a.s.cb myBmap) a.s.locks.locks x = true) :
    (acceptOne cfg (fixed now) peer myBmap x a).csetAcc = a.csetAcc ∧
      (acceptOne cfg (fixed now) peer myBmap x a).d = a.d ∧
      (acceptOne cfg (fixed now) peer myBmap x a).s.cb = a.s.cb ∧
      (acceptOne cfg (fixed now) peer myBmap x a).s.locks.locks = alive now a.s.locks.locks := by
  obtain ⟨hlocked, halive⟩ := chunkIslocked_fixed now x a.s.locks a.s.reads
  unfold acceptOne
  dsimp only
  by_cases hl : (chunkIslocked (fixed now) x a.s.locks a.s.reads).1 = true
  · rw [if_pos hl]
    exact ⟨rfl, rfl, rfl, halive⟩
  · have hneed : ¬ (_needs cfg (fixed now) a.s.cb myBmap cfg.cbSize x
        (chunkIslocked (fixed now) x a.s.locks a.s.reads).2.2).1 = true := by
      rw [needs_fixed]
      intro hneed
      refine h (Bool.and_eq_true_iff.2 ⟨?_, hneed⟩)
      rw [← hlocked]
      simpa using hl
    rw [if_neg hl, if_neg hneed]
    exact ⟨rfl, rfl, rfl, halive⟩

/-- Where a cleanup changes nothing it does not matter whether the loop makes one. -/
theorem locks_left {ls : List (Lock N)} (hls : alive now ls = ls) {need : Int → Bool}
    {csetOff : S} {maxDeliver d : Int} {is : List ℕ} :
    let A := accepted now need ls (is.map (getChunk csetOff)) (maxDeliver - d)
    (if is = [] ∨ maxDeliver ≤ d then ls else alive now ls ++ A.map fun y => ⟨y, peer, now⟩) =
      ls ++ A.map fun y => ⟨y, peer, now⟩ := by
  dsimp only
  split_ifs with hend
  · have hnone : is.map (getChunk csetOff) = [] ∨ maxDeliver - d ≤ 0 :=
      hend.imp List.map_eq_nil_iff.2 Int.sub_nonpos_of_le
    rw [accepted_nil hnone, List.map_nil, List.append_nil]
  · rw [hls]

/-- What a loop over the offered chunks accepts and leaves, when none of those accepted before is
still wanted. -/
theorem acceptLoop_fixed (hadd : ∀ (s : S) x, x ∉ ids s → ids (ChunkIDSet.add s x) = ids s ++ [x])
    (cfg : Config) (now : Timeval) (peer : Option N) (myBmap csetOff : S) (maxDeliver : Int)
    (is : List ℕ) {cb : B} (hcb : a.s.cb = cb)
    (hacc : ∀ y ∈ ids a.csetAcc, ¬ wanted now (needed cfg now cb myBmap) a.s.locks.locks y = true) :
    let A := accepted now (needed cfg now cb myBmap) a.s.locks.locks (is.map (getChunk csetOff))
      (maxDeliver - a.d)
    let r := acceptLoop cfg (fixed now) peer myBmap csetOff maxDeliver is a
    ids r.csetAcc = ids a.csetAcc ++ A ∧ r.s.cb = cb ∧
      r.s.locks.locks = if is = [] ∨ maxDeliver ≤ a.d then a.s.locks.locks
        else alive now a.s.locks.locks ++ A.map fun y => ⟨y, peer, now⟩ := by
  induction is generalizing a with
  | nil =>
    dsimp only
    rw [List.map_nil, accepted_nil (.inl rfl), List.append_nil, if_pos (.inl rfl)]
    exact ⟨rfl, hcb, rfl⟩
  | cons i is ih =>
    dsimp only
    unfold acceptLoop
    by_cases hd : a.d < maxDeliver
    · have hgo : ¬ (i :: is = [] ∨ maxDeliver ≤ a.d) := by
        rintro (h | h)
        · cases h
        · omega
      rw [if_pos hd, if_neg hgo, List.map_cons]
      by_cases hw : wanted now (needed cfg now cb myBmap) a.s.locks.locks (getChunk csetOff i) = true
      · obtain ⟨hset, hcount, hcb', hlocks⟩ := acceptOne_of_wanted peer (hcb.symm ▸ hw)
        have hnew : getChunk csetOff i ∉ ids a.csetAcc := fun h => hacc _ h hw
        have hids := hadd a.csetAcc _ hnew
        rw [← hset] at hids
        obtain ⟨hr, hrcb, hrlocks⟩ := ih (hcb'.trans hcb) (by
          intro y hy
          rw [hlocks, wanted_concat]
          rw [hids] at hy
          rcases List.mem_append.1 hy with hy | hy
          · simp [hacc y hy]
          · simp [List.mem_singleton.1 hy])
        have hA := accepted_cons_of_wanted hw peer (is.map (getChunk csetOff))
          (Int.sub_pos_of_lt hd)
        rw [Int.sub_sub] at hA
        rw [hcount, hlocks] at hr hrlocks
        rw [hA, List.map_cons]
        refine ⟨?_, hrcb, ?_⟩
        · rw [hr, hids, List.append_assoc, List.singleton_append]
        · rw [hrlocks, locks_left (alive_concat ..), List.append_assoc, List.singleton_append]
      · obtain ⟨hset, hcount, hcb', hlocks⟩ := acceptOne_of_not_wanted peer (hcb.symm ▸ hw)
        obtain ⟨hr, hrcb, hrlocks⟩ := ih (hcb'.trans hcb) (by
          intro y hy
          rw [hlocks, wanted_alive]
          exact hacc y (hset ▸ hy))
        rw [hcount, hlocks] at hr hrlocks
        rw [accepted_cons_of_not hw, ← accepted_alive]
        refine ⟨by rw [hr, hset], hrcb, ?_⟩
        rw [hrlocks, locks_left (alive_alive ..)]
    · have hle : maxDeliver ≤ a.d := Int.not_lt.1 hd
      rw [if_neg hd, if_pos (.inr hle), accepted_nil (.inr (by omega)), List.append_nil]
      exact ⟨rfl, hcb, rfl⟩

end Loop

/-! ## Tables that locking and unlocking lead to -/

/-- The arrays that calls of `chunk_lock` and `chunk_unlock` lead to. -/
inductive Reachable : Table N → Prop
  | empty : Reachable .empty
  | lock {t t' : Table N} (x : Int) (peer : Option N) (now : Timeval) :
    Reachable t → t.chunkLock x peer now = .ok t' → Reachable t'
  | unlock {t t' : Table N} (x : Int) : Reachable t → t.chunkUnlock x = .ok t' → Reachable t'

theorem Reachable.represents {t : Table N} (h : Reachable t) :
    ∃ ls : Locks N, t.Represents ls := by
  induction h with
  | empty => exact ⟨.empty, Table.represents_empty⟩
  | lock x peer now _ hlock ih =>
    obtain ⟨ls, hls⟩ := ih
    obtain ⟨t', hlock', ht'⟩ := hls.chunkLock x peer now
    obtain rfl := Except.ok.inj (hlock.symm.trans hlock')
    exact ⟨_, ht'⟩
  | unlock x _ hunlock ih =>
    obtain ⟨ls, hls⟩ := ih
    obtain ⟨t', hunlock', ht'⟩ := hls.chunkUnlock x
    obtain rfl := Except.ok.inj (hunlock.symm.trans hunlock')
    exact ⟨_, ht'⟩

/-- The node that an offer is booked on. -/
def offerer [DecidableEq N] [PeerSet P N S] (pset : P) (fromid : N) : Option N :=
  if fromid ∈ PeerSet.ids pset then some fromid else none

omit [ChunkIDSet S] in
theorem getPeer_eq_offerer [DecidableEq N] [PeerSet P N S] [LawfulPeerSet P N S] (pset : P)
    (fromid : N) : (PeerSet.getPeer pset fromid).map Peer.id = offerer pset fromid := by
  unfold offerer
  split_ifs with hmem
  · obtain ⟨p, hp⟩ := PeerSet.mem_ids_iff.1 hmem
    rw [hp, Option.map_some, (PeerSet.getPeer_eq_some_iff.1 hp).2]
  · rw [PeerSet.getPeer_eq_none_iff.2 hmem]
    rfl

section

variable [DecidableEq N] [PeerSet P N S] [LawfulPeerSet P N S]

theorem getChunksToAccept_still (hinit : ids (initList : S) = [])
    (hadd : ∀ (s : S) x, x ∉ ids s → ids (ChunkIDSet.add s x) = ids s ++ [x]) (fromid : N)
    (csetOff : S) (maxDeliver : Int) (s : State N B P)
    (h : Still clock now s.reads
      (getChunksToAccept cfg clock fromid csetOff maxDeliver s).s.reads) :
    let A := accepted now (needed cfg now s.cb (cbToBmap s.cb : S)) s.locks.locks (ids csetOff)
      maxDeliver
    let r := getChunksToAccept cfg clock fromid csetOff maxDeliver s
    ids r.csetAcc = A ∧ r.s.cb = s.cb ∧
      r.s.locks.locks = if size csetOff = 0 ∨ maxDeliver ≤ 0 then s.locks.locks
        else alive now s.locks.locks ++ A.map fun x => ⟨x, offerer s.pset fromid, now⟩ := by
  have hsame : getChunksToAccept cfg clock fromid csetOff maxDeliver s =
      getChunksToAccept cfg (fixed now) fromid csetOff maxDeliver s := by
    unfold getChunksToAccept at h ⊢
    exact acceptLoop_still h
  have hloop := acceptLoop_fixed (a := ⟨s, initList, 0, []⟩) hadd cfg now
    (offerer s.pset fromid) (cbToBmap s.cb) csetOff maxDeliver (List.range (size csetOff)) rfl (by
      intro y hy
      rw [hinit] at hy
      cases hy)
  dsimp only at hloop ⊢
  rw [hinit, List.nil_append, Int.sub_zero] at hloop
  obtain ⟨hacc, hcb, hlocks⟩ := hloop
  rw [if_congr (or_congr_left List.range_eq_nil) rfl rfl] at hlocks
  rw [hsame]
  unfold getChunksToAccept
  rw [getPeer_eq_offerer]
  exact ⟨hacc, hcb, hlocks⟩

/-- The chunks that are accepted from an offer, and the locks afterwards.  A set of accepted chunks
is empty at first and keeps the order in which chunks are added. -/
theorem getChunksToAccept_reference (hinit : ids (initList : S) = [])
    (hadd : ∀ (s : S) x, x ∉ ids s → ids (ChunkIDSet.add s x) = ids s ++ [x]) (cfg : Config)
    (clock : Clock) (fromid : N) (csetOff : S) (maxDeliver : Int) {table : Table N}
    (htable : Reachable table) (pset : P) (cb : B) (reads : ℕ) :
    ∃ locks w, table.Holds locks ∧
      Work.getChunksToAccept cfg clock fromid csetOff maxDeliver table pset cb reads = .ok w ∧
      ∀ now, Still clock now reads w.reads →
        let A := accepted now (needed cfg now cb (cbToBmap cb : S)) locks (ids csetOff) maxDeliver
        ids w.csetAcc = A ∧
          w.table.Holds (if size csetOff = 0 ∨ maxDeliver ≤ 0 then locks
            else alive now locks ++ A.map fun x => ⟨x, offerer pset fromid, now⟩) ∧
          w.table.lcount ≤ w.table.lsize ∧ w.cb = cb := by
  obtain ⟨ls, hls⟩ := htable.represents
  let s : State N B P := ⟨cb, ls, pset, .init, .init (.ofUsec 0), reads⟩
  obtain ⟨w, hw, href⟩ := Work.getChunksToAccept_refines (s := s) hls cfg clock fromid csetOff
    maxDeliver
  refine ⟨ls.locks, w, hls.2, hw, fun now hstill => ?_⟩
  rw [href.reads] at hstill
  obtain ⟨hacc, hcb, hlocks⟩ := getChunksToAccept_still hinit hadd fromid csetOff maxDeliver s
    hstill
  refine ⟨?_, ?_, href.table.2.lcount_le, href.cb.trans hcb⟩
  · rw [href.csetAcc]
    exact hacc
  · rw [← hlocks]
    exact href.table.2

/-! ## Examples -/

/-- One lock, on chunk 7. -/
def lockedTable : Table ℕ := ⟨some ⟨7, none, .ofUsec 0⟩ :: List.replicate 9 none, 1⟩

/-- Three seconds later, of an offer that names chunk 5 twice. -/
theorem getChunksToAccept_reference_seven : ∃ w : Work ℕ ListBuffer ListIDSet,
    Work.getChunksToAccept plainConfig (fixed (.ofUsec 3000000)) 1 ⟨[5, 7, 5, 6]⟩ 2 lockedTable
      (ListPeers.empty : ListPeers ℕ ListIDSet) (ChunkBuffer.init 10) 0 = .ok w ∧
      ids w.csetAcc = [5, 7] ∧
      w.table.Holds [⟨5, none, .ofUsec 3000000⟩, ⟨7, none, .ofUsec 3000000⟩] := by
  have htable : Reachable lockedTable := .lock 7 none (.ofUsec 0) .empty (by rfl)
  obtain ⟨locks, w, hlocks, hw, hspec⟩ := getChunksToAccept_reference rfl ListIDSet.ids_add
    plainConfig (fixed (.ofUsec 3000000)) 1 ⟨[5, 7, 5, 6]⟩ 2 htable
    (ListPeers.empty : ListPeers ℕ ListIDSet) (ChunkBuffer.init 10 : ListBuffer) 0
  obtain rfl : locks = [⟨7, none, .ofUsec 0⟩] :=
    hlocks.unique ⟨List.replicate 9 none, rfl, rfl⟩
  obtain ⟨hids, hholds, -, -⟩ := hspec (.ofUsec 3000000) fun _ _ _ => rfl
  have hacc : accepted (.ofUsec 3000000) (needed plainConfig (.ofUsec 3000000)
      (ChunkBuffer.init 10 : ListBuffer) (cbToBmap (ChunkBuffer.init 10 : ListBuffer) : ListIDSet))
      [(⟨7, none, .ofUsec 0⟩ : Lock ℕ)] (ids (⟨[5, 7, 5, 6]⟩ : ListIDSet)) 2 = [5, 7] := by
    decide +kernel
  rw [hacc] at hids hholds
  exact ⟨w, hw, hids, hholds⟩

end

end PeerStreamer.Streaming
