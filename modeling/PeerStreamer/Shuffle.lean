import PeerStreamer.CInt
import PeerStreamer.NodeidSet
import PeerStreamer.Lib.FisherYates
import PeerStreamer.Lib.Memory

/-!
# The shuffle of an array of bytes (`nodeid_set.c`)

`shuffle` exchanges elements of any size through the bytes they consist of.  The offset of an element
is a product of type `int`: the first round computes that of the last element, and the shuffle is an
unbiased one of the elements exactly when this product does not overflow.  `nidset_shuffle` shuffles
pointers, and the set of node IDs they point to is shuffled as `nidsetShuffle` says.
-/

namespace PeerStreamer.NodeidSet

open FisherYates Memory
open scoped Nat

/-! ## The code -/

/-- The result of an access, if it stays in its array. -/
def inBounds {α : Type} (x : Option α) : Except Fault α :=
  match x with
  | some a => .ok a
  | none => .error .outOfBounds

/-- `size * i`, the offset of an element. -/
def offset (size i : ℕ) : Except Fault ℕ := do
  let x ← int (size * i)
  return x.toNat

/-- The body of the loop in `shuffle`, for the index `i`. -/
def exchange (size newpos i : ℕ) (b : List UInt8) : Except Fault (List UInt8) := do
  let t ← inBounds (slice b (← offset size newpos) size)
  let b ← inBounds (memmove b (← offset size newpos) (← offset size i) size)
  inBounds (store b (← offset size i) t)

/-- The loop, from index `i` down to 1. -/
def exchangeFrom (size : ℕ) (newpos : ℕ → ℕ) : ℕ → List UInt8 → Except Fault (List UInt8)
  | 0, b => .ok b
  | i + 1, b => do
    let b ← exchange size (newpos (i + 1)) (i + 1) b
    exchangeFrom size newpos i b

/-- `shuffle`, with the position drawn for each index; `nmemb` and `size` are not negative. -/
def shuffle (newpos : ℕ → ℕ) (base : List UInt8) (nmemb size : ℕ) : Except Fault (List UInt8) :=
  exchangeFrom size newpos (nmemb - 1) base

variable {size n i j : ℕ} {xs : List (List UInt8)} {d : ℕ → ℕ}

theorem offset_ok (h : ((size * i : ℕ) : Int) ≤ INT_MAX) : offset size i = .ok (size * i) := by
  unfold offset
  rw [← Int.natCast_mul, int_nonneg (Int.natCast_nonneg _) h]
  rfl

theorem offset_overflow (h : INT_MAX < ((size * i : ℕ) : Int)) :
    offset size i = .error .overflow := by
  have hnot : ¬ (INT_MIN ≤ (size : Int) * i ∧ (size : Int) * i ≤ INT_MAX) := by
    rw [← Int.natCast_mul]
    omega
  unfold offset int
  rw [if_neg hnot]
  rfl

/-- Two elements change places. -/
theorem exchange_block (hxs : ∀ x ∈ xs, x.length = size) (hi : i < xs.length) (hj : j ≤ i)
    (hfit : ((size * i : ℕ) : Int) ≤ INT_MAX) :
    exchange size j i xs.flatten = .ok (xs.swap j i).flatten := by
  have hj' : j < xs.length := Nat.lt_of_le_of_lt hj hi
  have hfit' : ((size * j : ℕ) : Int) ≤ INT_MAX :=
    Int.le_trans (Int.ofNat_le.2 (Nat.mul_le_mul_left size hj)) hfit
  have hmove : memmove xs.flatten (size * j) (size * i) size = some (xs.set j xs[i]).flatten := by
    unfold memmove
    rw [slice_block hxs hi]
    exact store_block hxs hj' (hxs _ (List.getElem_mem hi))
  have hset : ∀ x ∈ xs.set j xs[i], x.length = size := by
    intro x hx
    rcases List.mem_or_eq_of_mem_set hx with hx | rfl
    · exact hxs x hx
    · exact hxs _ (List.getElem_mem hi)
  have hback : store (xs.set j xs[i]).flatten (size * i) xs[j] =
      some (xs.swap j i).flatten := by
    rw [store_block hset (by rwa [List.length_set]) (hxs _ (List.getElem_mem hj')),
      List.swap_eq_of_lt hj' hi]
  unfold exchange
  rw [offset_ok hfit, offset_ok hfit']
  simp only [bind, Except.bind, inBounds, slice_block hxs hj', hmove, hback]

theorem exchangeFrom_block (hxs : ∀ x ∈ xs, x.length = size) (hi : i < xs.length ∨ i = 0)
    (hd : ∀ k, 0 < k → k ≤ i → d k ≤ k) (hfit : ((size * i : ℕ) : Int) ≤ INT_MAX) :
    exchangeFrom size d i xs.flatten = .ok (FisherYates.shuffle d i xs).flatten := by
  induction i generalizing xs with
  | zero => rfl
  | succ i ih =>
    have hi' : i + 1 < xs.length := hi.resolve_right (Nat.succ_ne_zero i)
    have hstep := exchange_block hxs hi' (hd (i + 1) (Nat.succ_pos i) (Nat.le_refl _)) hfit
    have hperm := List.swap_perm xs (d (i + 1)) (i + 1)
    have hfit' : ((size * i : ℕ) : Int) ≤ INT_MAX :=
      Int.le_trans (Int.ofNat_le.2 (Nat.mul_le_mul_left size (Nat.le_succ i))) hfit
    unfold exchangeFrom
    rw [hstep]
    exact ih (fun x hx => hxs x (hperm.subset hx)) (.inl (by rw [hperm.length_eq]; omega))
      (fun k hk hki => hd k hk (Nat.le_succ_of_le hki)) hfit'

/-- The first round fails if the offset of the last element is not an `int`. -/
theorem exchange_overflow (h : INT_MAX < ((size * i : ℕ) : Int)) (newpos : ℕ)
    (b b' : List UInt8) : exchange size newpos i b ≠ .ok b' := by
  intro hok
  unfold exchange at hok
  obtain ⟨dst, -, hok⟩ := bind_eq_ok.1 hok
  obtain ⟨t, -, hok⟩ := bind_eq_ok.1 hok
  obtain ⟨dst', -, hok⟩ := bind_eq_ok.1 hok
  obtain ⟨src, hsrc, -⟩ := bind_eq_ok.1 hok
  rw [offset_overflow h] at hsrc
  cases hsrc

theorem shuffle_overflow (h : INT_MAX < ((size * (n - 1) : ℕ) : Int)) (newpos : ℕ → ℕ)
    (b b' : List UInt8) : shuffle newpos b n size ≠ .ok b' := by
  intro hok
  obtain ⟨i, hn⟩ : ∃ i, n - 1 = i + 1 := by
    refine Nat.exists_eq_succ_of_ne_zero fun hzero => ?_
    rw [hzero, Nat.mul_zero] at h
    exact absurd h (by decide)
  unfold shuffle at hok
  rw [hn] at hok h
  obtain ⟨b, hb, -⟩ := bind_eq_ok.1 hok
  exact exchange_overflow h _ _ _ hb

/-! ## The law of the shuffle -/

/-- The shuffle of `n` elements of this size is unbiased: each sequence of draws brings the elements
into some order, and when they are distinct each order comes from exactly one sequence, so that all
orders are equally likely. -/
def Unbiased (n size : ℕ) : Prop :=
  ∀ xs : List (List UInt8), xs.length = n → (∀ x ∈ xs, x.length = size) →
    ∃ result : Draws n → List (List UInt8),
      (∀ d, shuffle d.pos xs.flatten n size = .ok (result d).flatten ∧ (result d).Perm xs) ∧
      (xs.Nodup → Set.BijOn result Set.univ {ys | ys.Perm xs} ∧
        ∀ ys, ys.Perm xs → (PMF.uniformOfFintype (Draws n)).map result ys = (n ! : ENNReal)⁻¹)

theorem not_unbiased_of_lt (h : INT_MAX < ((size * (n - 1) : ℕ) : Int)) : ¬ Unbiased n size := by
  intro hall
  obtain ⟨result, hresult, -⟩ := hall (List.replicate n (List.replicate size 0))
    List.length_replicate fun x hx => by
      rw [List.eq_of_mem_replicate hx, List.length_replicate]
  exact shuffle_overflow h _ _ _ (hresult fun _ => 0).1

/-- The shuffle is unbiased if and only if the offset of the last element is an `int`. -/
theorem unbiased_iff (n size : ℕ) : Unbiased n size ↔ ((size * (n - 1) : ℕ) : Int) ≤ INT_MAX := by
  constructor
  · intro hall
    by_contra hlt
    exact not_unbiased_of_lt (Int.not_le.1 hlt) hall
  · intro hfit xs hlen hxs
    refine ⟨fun d => arrange d xs, fun d => ⟨?_, arrange_perm d xs⟩, fun hnodup => ?_⟩
    · exact exchangeFrom_block hxs (by omega) (fun k hk _ => d.pos_le hk) hfit
    · exact ⟨bijOn_arrange hnodup hlen, fun ys hys => map_arrange_apply hnodup hlen hys⟩

/-- Two gigabytes of pointers and one more. -/
theorem not_unbiased_two_gigabytes : ¬ Unbiased 268435457 8 :=
  not_unbiased_of_lt (by decide)

/-! ## Sets of node IDs -/

section Pointers

variable {N : Type} (rand : ℕ → Fin (RAND_MAX + 1))

/-- The share is so far below 1 that rounding does not bring the product up to `i + 1`. -/
theorem newpos_le (r : Fin (RAND_MAX + 1)) (i : ℕ) : newpos r i ≤ i := by
  have hi : (0 : ℚ) < i + 1 := by positivity
  have hr : (r.val : ℚ) / (RAND_MAX + 1) ≤ RAND_MAX / (RAND_MAX + 1) := by
    gcongr
    exact Nat.le_of_lt_succ r.isLt
  have hquot : Double.div r.val (RAND_MAX + 1) ≤
      RAND_MAX / (RAND_MAX + 1) * (1 + 1 / 2 ^ 53) :=
    (Double.round_le (by positivity)).trans (by gcongr)
  have hquot0 : 0 ≤ Double.div r.val (RAND_MAX + 1) := Double.round_nonneg (by positivity)
  have hprod : Double.mul (Double.div r.val (RAND_MAX + 1)) (i + 1) < (i + 1 : ℕ) := by
    calc Double.mul (Double.div r.val (RAND_MAX + 1)) (i + 1)
        ≤ Double.div r.val (RAND_MAX + 1) * (i + 1) * (1 + 1 / 2 ^ 53) :=
          Double.round_le (mul_nonneg hquot0 hi.le)
      _ ≤ RAND_MAX / (RAND_MAX + 1) * (1 + 1 / 2 ^ 53) * (i + 1) * (1 + 1 / 2 ^ 53) := by gcongr
      _ = RAND_MAX / (RAND_MAX + 1) * (1 + 1 / 2 ^ 53) ^ 2 * (i + 1) := by ring
      _ < 1 * (i + 1) := by
          gcongr
          norm_num [RAND_MAX]
      _ = (i + 1 : ℕ) := by push_cast; ring
  exact Nat.le_of_lt_succ ((Nat.floor_lt (Double.round_nonneg (by positivity))).2 hprod)

theorem shuffleLoop_eq (i : ℕ) (xs : List N) :
    shuffleLoop rand i xs = FisherYates.shuffle (fun k => newpos (rand k) k) i xs := by
  induction i generalizing xs with
  | zero => rfl
  | succ i ih => exact ih _

/-- The bytes of the pointers to the node IDs of a set. -/
theorem nidsetShuffle_bytes (ptr : N → List UInt8) (hptr : ∀ x, (ptr x).length = 8) (xs : List N)
    (hfit : ((8 * (xs.length - 1) : ℕ) : Int) ≤ INT_MAX) :
    shuffle (fun k => newpos (rand k) k) (xs.map ptr).flatten xs.length 8 =
      .ok ((nidsetShuffle rand xs).map ptr).flatten := by
  have hsize : ∀ b ∈ xs.map ptr, b.length = 8 := by
    intro b hb
    obtain ⟨x, -, rfl⟩ := List.mem_map.1 hb
    exact hptr x
  unfold nidsetShuffle
  rw [shuffleLoop_eq, map_shuffle]
  refine exchangeFrom_block hsize ?_ (fun k _ _ => newpos_le (rand k) k) hfit
  rw [List.length_map]
  omega

end Pointers

end PeerStreamer.NodeidSet
