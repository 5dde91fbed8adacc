import PeerStreamer.Lib.Memory
import PeerStreamer.CInt
import PeerStreamer.NodeidSet

/-!
# The set functions on arrays (`nodeid_set.c`)

Here the functions run on one memory, with the arrays given by where they begin and by their sizes.
The array that is written may lie in the same memory as the sources, and in `nidset_add_i` it is one
of them.  What they write is what the functions on lists return.
-/

namespace PeerStreamer.NodeidArrays

open Memory

variable {N : Type}

/-- The memory: cells for node IDs, some of which hold none yet. -/
abbrev Cells (N : Type) := List (Option N)

def load (mem : Cells N) (p : ℕ) : Except Fault N :=
  match mem[p]? with
  | some (some x) => .ok x
  | _ => .error .outOfBounds

def write (mem : Cells N) (p : ℕ) (xs : Cells N) : Except Fault (Cells N) :=
  match store mem p xs with
  | some mem' => .ok mem'
  | none => .error .outOfBounds

def memcpy (mem : Cells N) (dst src n : ℕ) : Except Fault (Cells N) :=
  match slice mem src n with
  | some xs => write mem dst xs
  | none => .error .outOfBounds

/-- What a call returns and leaves behind. -/
structure Result (N : Type) where
  r : Int
  /-- `*dst_size` -/
  dstSize : ℕ
  mem : Cells N

section

variable [DecidableEq N]

/-- The inner loop, with `n` ids left from `as` on: whether it ends with `break`. -/
def findLoop (mem : Cells N) (bs : ℕ) : ℕ → ℕ → Except Fault Bool
  | 0, _ => .ok false
  | n + 1, as => do
    let b ← load mem bs
    let a ← load mem as
    if b = a then return true
    findLoop mem bs n (as + 1)

/-- The outer loop, with `n` ids left from `bs` on. -/
def complementLoop (dst maxSize as asSize : ℕ) : ℕ → ℕ → ℕ → Cells N → Except Fault (Result N)
  | 0, _, dstSize, mem => .ok ⟨0, dstSize, mem⟩
  | n + 1, bs, dstSize, mem => do
    if ← findLoop mem bs asSize as then complementLoop dst maxSize as asSize n (bs + 1) dstSize mem
    else if dstSize < maxSize then
      let b ← load mem bs
      let mem ← write mem (dst + dstSize) [some b]
      complementLoop dst maxSize as asSize n (bs + 1) (dstSize + 1) mem
    else return ⟨-1, dstSize, mem⟩

/-- B \ A -/
def nidsetComplement (mem : Cells N) (dst maxSize bs bsSize as asSize : ℕ) :
    Except Fault (Result N) :=
  complementLoop dst maxSize as asSize bsSize bs 0 mem

def nidsetAdd (mem : Cells N) (dst maxSize as asSize bs bsSize : ℕ) : Except Fault (Result N) := do
  let i := min asSize maxSize
  let mem ← memcpy mem dst as i
  if i < asSize then return ⟨-1, i, mem⟩
  let more ← nidsetComplement mem (dst + i) (maxSize - i) bs bsSize as asSize
  return { more with dstSize := i + more.dstSize }

def nidsetAddI (mem : Cells N) (dst dstSize maxSize as asSize : ℕ) : Except Fault (Result N) := do
  let more ← nidsetComplement mem (dst + dstSize) (maxSize - dstSize) as asSize dst dstSize
  return { more with dstSize := dstSize + more.dstSize }

end

/-! ## What an array holds -/

/-- The array at `p` holds the ids. -/
def Holds (mem : Cells N) (p : ℕ) (xs : List N) : Prop :=
  ∀ i x, xs[i]? = some x → mem[p + i]? = some (some x)

/-- The `m` cells from `p` on and the `n` cells from `q` on have none in common. -/
def Apart (p m q n : ℕ) : Prop := p + m ≤ q ∨ q + n ≤ p

instance (p m q n : ℕ) : Decidable (Apart p m q n) := inferInstanceAs (Decidable (_ ∨ _))

variable {mem mem' : Cells N} {p q m n room dst : ℕ} {x : N} {xs ys : List N} {cells : Cells N}

theorem holds_cons : Holds mem p (x :: xs) ↔ mem[p]? = some (some x) ∧ Holds mem (p + 1) xs := by
  constructor
  · intro h
    refine ⟨h 0 x rfl, fun i y hy => ?_⟩
    rw [Nat.add_assoc, Nat.add_comm 1]
    exact h (i + 1) y hy
  · rintro ⟨hx, hxs⟩ i y hy
    cases i with
    | zero =>
      obtain rfl := Option.some.inj hy
      exact hx
    | succ i =>
      rw [Nat.add_comm i, ← Nat.add_assoc]
      exact hxs i y hy

theorem Holds.store (h : Holds mem p xs) (hstore : store mem q cells = some mem')
    (hapart : Apart q cells.length p xs.length) : Holds mem' p xs := by
  intro i x hx
  have hi : i < xs.length := (List.getElem?_eq_some_iff.1 hx).1
  unfold Apart at hapart
  rw [getElem?_store hstore, if_neg (by omega)]
  exact h i x hx

theorem Holds.length_le (h : Holds mem p xs) (hp : p ≤ mem.length) : p + xs.length ≤ mem.length := by
  cases hn : xs.length with
  | zero => exact hp
  | succ k =>
    have hk : k < xs.length := by omega
    have hcell := h k xs[k] (List.getElem?_eq_getElem hk)
    have := (List.getElem?_eq_some_iff.1 hcell).1
    omega

/-- An array that holds the ids already. -/
theorem Holds.store_self (h : Holds mem p xs) (hp : p ≤ mem.length) :
    Memory.store mem p (xs.map some) = some mem := by
  have hfit : p + (xs.map some).length ≤ mem.length := by
    rw [List.length_map]
    exact h.length_le hp
  obtain ⟨mem', hstore⟩ : ∃ mem', Memory.store mem p (xs.map some) = some mem' :=
    ⟨_, store_eq hfit⟩
  rw [hstore]
  refine congrArg some (List.ext_getElem? fun i => ?_)
  rw [getElem?_store hstore]
  split_ifs with hi
  · rw [List.length_map] at hi
    have hlt : i - p < xs.length := by omega
    have hcell := h (i - p) xs[i - p] (List.getElem?_eq_getElem hlt)
    rw [Nat.add_sub_cancel' hi.1] at hcell
    rw [hcell, List.getElem?_map, List.getElem?_eq_getElem hlt]
    rfl
  · rfl

theorem Holds.take (h : Holds mem p xs) (n : ℕ) : Holds mem p (xs.take n) := by
  intro i x hx
  refine h i x ?_
  rw [List.getElem?_take] at hx
  split_ifs at hx
  exact hx

theorem Holds.slice_eq (h : Holds mem p xs) (hp : p ≤ mem.length) :
    slice mem p xs.length = some (xs.map some) := by
  rw [Memory.slice_eq (h.length_le hp)]
  refine congrArg some (List.ext_getElem? fun i => ?_)
  by_cases hi : i < xs.length
  · rw [List.getElem?_take_of_lt hi, List.getElem?_drop,
      h i xs[i] (List.getElem?_eq_getElem hi), List.getElem?_map, List.getElem?_eq_getElem hi]
    rfl
  · rw [List.getElem?_eq_none (by rw [List.length_take]; omega),
      List.getElem?_eq_none (by rw [List.length_map]; omega)]

theorem load_eq (h : mem[p]? = some (some x)) : load mem p = .ok x := by
  unfold load
  rw [h]

theorem write_eq (h : store mem p cells = some mem') : write mem p cells = .ok mem' := by
  unfold write
  rw [h]

theorem memcpy_eq (hslice : slice mem q n = some cells) (hstore : store mem p cells = some mem') :
    memcpy mem p q n = .ok mem' := by
  unfold memcpy
  rw [hslice]
  exact write_eq hstore

theorem Apart.mono {m' n' : ℕ} (h : Apart p m q n) (hm : m' ≤ m) (hn : n' ≤ n) :
    Apart p m' q n' := by
  unfold Apart at *
  omega

/-! ## The loops -/

variable [DecidableEq N] {as bs dstSize maxSize : ℕ} {a b : List N}

theorem findLoop_eq (hx : mem[bs]? = some (some x)) (ha : Holds mem as a) :
    findLoop mem bs a.length as = .ok (decide (x ∈ a)) := by
  induction a generalizing as with
  | nil =>
    rw [decide_eq_false List.not_mem_nil]
    rfl
  | cons y a ih =>
    obtain ⟨hy, ha⟩ := holds_cons.1 ha
    have hrest := ih ha
    rw [List.length_cons]
    unfold findLoop
    rw [load_eq hx, load_eq hy, hrest]
    by_cases hxy : x = y
    · simp [hxy, pure, Except.pure, bind, Except.bind]
    · simp [hxy, bind, Except.bind]

theorem complementLoop_found {asSize : ℕ} (h : findLoop mem bs asSize as = .ok true) :
    complementLoop dst maxSize as asSize (n + 1) bs dstSize mem =
      complementLoop dst maxSize as asSize n (bs + 1) dstSize mem := by
  rw [complementLoop, h]
  rfl

theorem complementLoop_copied {asSize : ℕ} (h : findLoop mem bs asSize as = .ok false)
    (hroom : dstSize < maxSize) (hx : load mem bs = .ok x)
    (hwrite : write mem (dst + dstSize) [some x] = .ok mem') :
    complementLoop dst maxSize as asSize (n + 1) bs dstSize mem =
      complementLoop dst maxSize as asSize n (bs + 1) (dstSize + 1) mem' := by
  rw [complementLoop, h, if_pos hroom, hx]
  simp only [bind, Except.bind, hwrite]
  rfl

theorem complementLoop_full {asSize : ℕ} (h : findLoop mem bs asSize as = .ok false)
    (hroom : ¬ dstSize < maxSize) :
    complementLoop dst maxSize as asSize (n + 1) bs dstSize mem = .ok ⟨-1, dstSize, mem⟩ := by
  rw [complementLoop, h, if_neg hroom]
  rfl

/-- The induction is on the ids that are left to copy, with the memory as the round before left it.
The cells that are still to be written are apart from both sources. -/
theorem complementLoop_eq (dstSize : ℕ) (hb : Holds mem bs b) (ha : Holds mem as a)
    (hfit : dst + maxSize ≤ mem.length) (hsize : dstSize ≤ maxSize)
    (hapartb : Apart (dst + dstSize) (maxSize - dstSize) bs b.length)
    (haparta : Apart (dst + dstSize) (maxSize - dstSize) as a.length) :
    let copied := NodeidSet.nidsetComplement (maxSize - dstSize) b a
    ∃ mem', complementLoop dst maxSize as a.length b.length bs dstSize mem =
        .ok ⟨copied.1, dstSize + copied.2.length, mem'⟩ ∧
      store mem (dst + dstSize) (copied.2.map some) = some mem' := by
  induction b generalizing bs dstSize mem with
  | nil =>
    have hnil : Holds mem (dst + dstSize) [] := fun i x hx => by simp at hx
    refine ⟨mem, rfl, ?_⟩
    exact hnil.store_self (by omega)
  | cons x b ih =>
    obtain ⟨hx, hb⟩ := holds_cons.1 hb
    have hfind := findLoop_eq hx ha
    rw [List.length_cons] at hapartb
    have hapartb' : Apart (dst + dstSize) (maxSize - dstSize) (bs + 1) b.length := by
      unfold Apart at *
      omega
    by_cases hmem : x ∈ a
    · rw [decide_eq_true hmem] at hfind
      rw [List.length_cons, complementLoop_found hfind, NodeidSet.nidsetComplement_of_mem hmem]
      exact ih dstSize hb ha hfit hsize hapartb' haparta
    rw [decide_eq_false hmem] at hfind
    by_cases hroom : dstSize < maxSize
    · obtain ⟨mem₁, hstore⟩ : ∃ mem₁, store mem (dst + dstSize) [some x] = some mem₁ :=
        ⟨_, store_eq (by rw [List.length_singleton]; omega)⟩
      have hlen := length_store hstore
      have hone : [some x].length ≤ maxSize - dstSize := by
        rw [List.length_singleton]
        omega
      have hb₁ : Holds mem₁ (bs + 1) b :=
        hb.store hstore (hapartb'.mono hone (Nat.le_refl _))
      have ha₁ : Holds mem₁ as a := ha.store hstore (haparta.mono hone (Nat.le_refl _))
      have hsize₁ : dstSize + 1 ≤ maxSize := hroom
      have hleft : maxSize - dstSize = maxSize - (dstSize + 1) + 1 := by omega
      obtain ⟨mem', hloop, hstore'⟩ := ih (dstSize + 1) hb₁ ha₁ (by omega) hsize₁
        (by unfold Apart at *; omega) (by unfold Apart at *; omega)
      rw [hleft, NodeidSet.nidsetComplement_succ hmem]
      refine ⟨mem', ?_, ?_⟩
      · rw [List.length_cons, complementLoop_copied hfind hroom (load_eq hx) (write_eq hstore),
          hloop, List.length_cons, Nat.add_right_comm]
        rfl
      · rw [List.map_cons, ← List.singleton_append, ← store_store hstore]
        exact hstore'
    · have hfull : maxSize - dstSize = 0 := by omega
      have hnil : Holds mem (dst + dstSize) [] := fun i x hx => by simp at hx
      rw [hfull, NodeidSet.nidsetComplement_full hmem, List.length_cons,
        complementLoop_full hfind hroom]
      exact ⟨mem, rfl, hnil.store_self (by omega)⟩

/-! ## The functions

Each writes what the function on lists returns. -/

theorem nidsetComplement_eq (dst room : ℕ) (hb : Holds mem bs b) (ha : Holds mem as a)
    (hfit : dst + room ≤ mem.length) (hapartb : Apart dst room bs b.length)
    (haparta : Apart dst room as a.length) :
    let copied := NodeidSet.nidsetComplement room b a
    ∃ mem', nidsetComplement mem dst room bs b.length as a.length =
        .ok ⟨copied.1, copied.2.length, mem'⟩ ∧
      store mem dst (copied.2.map some) = some mem' := by
  have hloop := complementLoop_eq 0 hb ha hfit (Nat.zero_le _) hapartb haparta
  simp only [Nat.zero_add, Nat.add_zero, Nat.sub_zero] at hloop
  exact hloop

theorem nidsetAdd_eq (ha : Holds mem as a) (hb : Holds mem bs b) (has : as ≤ mem.length)
    (hfit : dst + room ≤ mem.length) (haparta : Apart dst room as a.length)
    (hapartb : Apart dst room bs b.length) :
    let written := NodeidSet.nidsetAdd room a b
    ∃ mem', nidsetAdd mem dst room as a.length bs b.length =
        .ok ⟨written.1, written.2.length, mem'⟩ ∧
      store mem dst (written.2.map some) = some mem' := by
  have hlen : (a.take room).length = min a.length room := by rw [List.length_take, Nat.min_comm]
  have hmap : ((a.take room).map some).length = (a.take room).length := List.length_map _
  obtain ⟨mem₁, hstore⟩ : ∃ mem₁, store mem dst ((a.take room).map some) = some mem₁ :=
    ⟨_, store_eq (by omega)⟩
  have hcopy := memcpy_eq ((ha.take room).slice_eq has) hstore
  unfold nidsetAdd NodeidSet.nidsetAdd
  simp only [← hlen, hcopy, bind, Except.bind]
  by_cases hroom : (a.take room).length < a.length
  · rw [if_pos hroom, if_pos hroom]
    exact ⟨mem₁, rfl, hstore⟩
  · rw [if_neg hroom, if_neg hroom]
    have hfirst : ((a.take room).map some).length ≤ room := by omega
    have ha₁ : Holds mem₁ as a := ha.store hstore (haparta.mono hfirst (Nat.le_refl _))
    have hb₁ : Holds mem₁ bs b := hb.store hstore (hapartb.mono hfirst (Nat.le_refl _))
    have hlen₁ := length_store hstore
    obtain ⟨mem', hrun, hstore'⟩ := nidsetComplement_eq (dst + (a.take room).length)
      (room - (a.take room).length) hb₁ ha₁ (by omega) (by unfold Apart at *; omega)
      (by unfold Apart at *; omega)
    refine ⟨mem', ?_, ?_⟩
    · rw [hrun, List.length_append]
      rfl
    · rw [List.map_append, ← store_store hstore, hmap]
      exact hstore'

theorem nidsetAddI_eq (hd : Holds mem dst xs) (ha : Holds mem as a) (hxs : xs.length ≤ room)
    (hfit : dst + room ≤ mem.length) (haparta : Apart dst room as a.length) :
    let written := NodeidSet.nidsetAddI room xs a
    ∃ mem', nidsetAddI mem dst xs.length room as a.length =
        .ok ⟨written.1, written.2.length, mem'⟩ ∧
      store mem dst (written.2.map some) = some mem' := by
  have hself := hd.store_self (by omega)
  -- What is added stands behind the ids that the array holds.
  have hbehind : Apart (dst + xs.length) (room - xs.length) as a.length := by
    unfold Apart at *
    omega
  obtain ⟨mem', hrun, hstore⟩ := nidsetComplement_eq (dst + xs.length) (room - xs.length) ha hd
    (by omega) hbehind (by unfold Apart; omega)
  refine ⟨mem', ?_, ?_⟩
  · unfold nidsetAddI
    rw [hrun]
    simp only [NodeidSet.nidsetAddI, List.length_append]
    rfl
  · rw [NodeidSet.nidsetAddI, List.map_append, ← store_store hself, List.length_map]
    exact hstore

/-! ## Set algebra with a capacity -/

/-- The call wrote as much of `xs` as fits in the room, and nothing else; it fails if and only if
that is not all of it. -/
structure Written (mem : Cells N) (dst room : ℕ) (xs : List N) (res : Result N) : Prop where
  r_eq : res.r = if xs.length ≤ room then 0 else -1
  dstSize_eq : res.dstSize = (xs.take room).length
  dstSize_le : res.dstSize ≤ room
  nodup : (xs.take room).Nodup
  stored : store mem dst ((xs.take room).map some) = some res.mem

omit [DecidableEq N] in
theorem Written.of_stored (hxs : xs.Nodup)
    (h : store mem dst ((xs.take room).map some) = some mem') :
    Written mem dst room xs
      ⟨if xs.length ≤ room then 0 else -1, (xs.take room).length, mem'⟩ where
  r_eq := rfl
  dstSize_eq := rfl
  dstSize_le := List.length_take_le ..
  nodup := hxs.sublist (List.take_sublist ..)
  stored := h

open NodeidSet (difference) in
/-- For arrays without duplicates that are apart from the destination, and in `nidset_add_i` for a
destination that holds ids already. -/
theorem nidset_written (ha : Holds mem as a) (hb : Holds mem bs b) (hna : a.Nodup) (hnb : b.Nodup)
    (has : as ≤ mem.length) (hfit : dst + room ≤ mem.length) (haparta : Apart dst room as a.length)
    (hapartb : Apart dst room bs b.length) :
    (∃ res, nidsetComplement mem dst room bs b.length as a.length = .ok res ∧
      Written mem dst room (difference b a) res) ∧
    (∃ res, nidsetAdd mem dst room as a.length bs b.length = .ok res ∧
      Written mem dst room (a ++ difference b a) res) ∧
    ∀ d : List N, Holds mem dst d → d.Nodup → d.length ≤ room →
      ∃ res, nidsetAddI mem dst d.length room as a.length = .ok res ∧
        Written mem dst room (d ++ difference a d) res := by
  refine ⟨?_, ?_, fun d hd hnd hroom => ?_⟩
  · obtain ⟨mem', hrun, hstore⟩ := nidsetComplement_eq dst room hb ha hfit hapartb haparta
    rw [NodeidSet.nidsetComplement_take] at hrun hstore
    exact ⟨_, hrun, .of_stored (hnb.sublist List.filter_sublist) hstore⟩
  · obtain ⟨mem', hrun, hstore⟩ := nidsetAdd_eq ha hb has hfit haparta hapartb
    rw [NodeidSet.nidsetAdd_take] at hrun hstore
    exact ⟨_, hrun, .of_stored (NodeidSet.nodup_append_difference hna hnb) hstore⟩
  · obtain ⟨mem', hrun, hstore⟩ := nidsetAddI_eq hd ha hroom hfit haparta
    rw [NodeidSet.nidsetAddI_take hroom] at hrun hstore
    exact ⟨_, hrun, .of_stored (NodeidSet.nodup_append_difference hnd hna) hstore⟩

/-- The arrays `[1, 2, 3]`, `[2, 4]` and `[5, 2]`, the last with room for two more. -/
def threeArrays : Cells ℕ :=
  [some 1, some 2, some 3, some 2, some 4, some 5, some 2, none, none]

theorem nidset_written_threeArrays :
    (∃ res, nidsetAdd threeArrays 5 4 0 3 3 2 = .ok res ∧
      Written threeArrays 5 4 [1, 2, 3, 4] res) ∧
    ∃ res, nidsetAddI threeArrays 5 2 3 0 3 = .ok res ∧
      Written threeArrays 5 3 [5, 2, 1, 3] res := by
  have ha : Holds threeArrays 0 [1, 2, 3] := by
    rw [holds_cons, holds_cons, holds_cons]
    exact ⟨rfl, rfl, rfl, fun i x hx => by simp at hx⟩
  have hb : Holds threeArrays 3 [2, 4] := by
    rw [holds_cons, holds_cons]
    exact ⟨rfl, rfl, fun i x hx => by simp at hx⟩
  have hd : Holds threeArrays 5 [5, 2] := by
    rw [holds_cons, holds_cons]
    exact ⟨rfl, rfl, fun i x hx => by simp at hx⟩
  have hapart : Apart 5 4 0 3 := by decide
  have hapart' : Apart 5 4 3 2 := by decide
  refine ⟨?_, ?_⟩
  · exact (nidset_written ha hb (by decide) (by decide) (by decide) (by decide) hapart hapart').2.1
  · exact (nidset_written ha hb (by decide) (by decide) (by decide) (by decide)
      (hapart.mono (by decide) (by decide)) (hapart'.mono (by decide) (by decide))).2.2 _ hd
      (by decide) (by decide)

end PeerStreamer.NodeidArrays
