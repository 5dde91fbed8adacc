import PeerStreamer.Lib.DList
import PeerStreamer.Transaction

/-!
# The linked list of transactions (`transaction.c`)

The list of the open transactions as the code keeps it: elements in the heap, each with a pointer to
the one before it and to the one behind it.  `Stores` says that the elements are well linked and
hold a list of transactions; every function does to that list what its counterpart without pointers
does (`refines_create` and so on), and uses no pointer that is NULL or freed.
-/

namespace PeerStreamer.Transaction

open DList

/-- What ends a run of the code without a result. -/
inductive Crash where
  /-- A pointer to memory that is not allocated. -/
  | badPointer
  /-- A loop that takes more steps than there are elements. -/
  | endless
  /-- `malloc` returns memory that is in use. -/
  | inUse
  deriving DecidableEq, Repr

/-- The heap with the elements, and the static variables. -/
structure Store (N : Type) where
  heap : Heap ℕ (ServiceTime N)
  stl : Option ℕ
  transId : UInt16

variable {N : Type}

def load (a : ℕ) (h : Heap ℕ (ServiceTime N)) : Except Crash (Cell ℕ (ServiceTime N)) :=
  match h.lookup a with
  | none => .error .badPointer
  | some c => .ok c

def store (a : ℕ) (f : Cell ℕ (ServiceTime N) → Cell ℕ (ServiceTime N))
    (h : Heap ℕ (ServiceTime N)) : Except Crash (Heap ℕ (ServiceTime N)) :=
  match h.lookup a with
  | none => .error .badPointer
  | some _ => .ok (modify a f h)

/-- A store behind a check for NULL. -/
def storeIf (p : Option ℕ) (f : Cell ℕ (ServiceTime N) → Cell ℕ (ServiceTime N))
    (h : Heap ℕ (ServiceTime N)) : Except Crash (Heap ℕ (ServiceTime N)) :=
  match p with
  | none => .ok h
  | some a => store a f h

namespace Store

def init : Store N := ⟨∅, none, 1⟩

/-! ## The code -/

/-- Take an element out of the list: the first one, the last one, or one in the middle. -/
def unlink (a : ℕ) (s : Store N) : Except Crash (Store N) := do
  let c ← load a s.heap
  match c.backward with
  | none =>
    let heap ← storeIf c.forward (fun d => { d with backward := none }) s.heap
    let heap ← Transaction.store a (fun d => { d with forward := none }) heap
    return { s with heap := heap, stl := c.forward }
  | some b =>
    match c.forward with
    | none =>
      let heap ← Transaction.store b (fun d => { d with forward := none }) s.heap
      return { s with heap := heap }
    | some n =>
      let heap ← Transaction.store b (fun d => { d with forward := some n }) s.heap
      let heap ← Transaction.store n (fun d => { d with backward := some b }) heap
      return { s with heap := heap }

/-- The loop of `check_neighbor_status_list`, from the element `stl_iterator` on. -/
def checkLoop (now : Timeval) : ℕ → Option ℕ → Store N → Except Crash (Store N)
  | _, none, s => .ok s
  | 0, some _, _ => .error .endless
  | k + 1, some a, s => do
    let c ← load a s.heap
    if TimedOut now c.value then
      let s ← unlink a s
      -- `stl_aux` is read before the element is freed, but after it was unlinked
      let c ← load a s.heap
      checkLoop now k c.forward { s with heap := s.heap.erase a }
    else checkLoop now k c.forward s

def checkNeighborStatusList (now : Timeval) (s : Store N) : Except Crash (Store N) :=
  checkLoop now s.heap.entries.length s.stl s

/-- `transaction_create`, with the address that `malloc` returns. -/
def transactionCreate (checked now : Timeval) (a : ℕ) (id : N) (s : Store N) :
    Except Crash (UInt16 × Store N) := do
  let s ← checkNeighborStatusList checked s
  let transId := nextTransId s.transId
  if a ∈ s.heap.keys then .error .inUse
  else
    let heap := s.heap.insert a ⟨⟨transId, seconds now, -1, id⟩, none, s.stl⟩
    let heap ← storeIf s.stl (fun d => { d with backward := some a }) heap
    return (transId, ⟨heap, some a, transId⟩)

/-- Iterate the list until the right element is found. -/
def search (transId : UInt16) (h : Heap ℕ (ServiceTime N)) :
    ℕ → Option ℕ → Except Crash (Option ℕ)
  | _, none => .ok none
  | 0, some _ => .error .endless
  | k + 1, some a => do
    let c ← load a h
    if c.value.transId = transId then return some a else search transId h k c.forward

/-- `transaction_reg_accept`; the code does not use the peer it is given. -/
def transactionRegAccept (transId : UInt16) (_id : N) (now : Timeval) (s : Store N) :
    Except Crash (Bool × Store N) := do
  match ← search transId s.heap s.heap.entries.length s.stl with
  | none => return (false, s)
  | some a =>
    let heap ← Transaction.store a
      (fun d => { d with value := { d.value with acceptReceivedTime := seconds now } }) s.heap
    return (true, { s with heap := heap })

/-- `transaction_remove`: the accept time, -1 without an accept, -2 without the transaction. -/
def transactionRemove (transId : UInt16) (s : Store N) : Except Crash (ℚ × Store N) := do
  match ← search transId s.heap s.heap.entries.length s.stl with
  | none => return (-2, s)
  | some a =>
    let c ← load a s.heap
    let s ← unlink a s
    return (c.value.acceptReceivedTime, { s with heap := s.heap.erase a })

end Store

/-! ## The list that is stored -/

/-- These elements, at their addresses, are all that is allocated, and they are well linked. -/
structure Holds (s : Store N) (cells : List (ℕ × ServiceTime N)) : Prop where
  linked : Linked s.heap s.stl cells
  allocated : ∀ a, a ∈ s.heap ↔ a ∈ cells.map Prod.fst

/-- The elements hold these transactions. -/
def Stores (s : Store N) (t : Transactions N) : Prop :=
  s.transId = t.transId ∧ ∃ cells, Holds s cells ∧ cells.map Prod.snd = t.stl

theorem stores_init : Stores (Store.init : Store N) Transactions.init :=
  ⟨rfl, [], ⟨Linked.empty, by simp [Store.init]⟩, rfl⟩

variable {s s' : Store N} {t : Transactions N} {cells xs ys : List (ℕ × ServiceTime N)}
  {a : ℕ} {st : ServiceTime N}

theorem load_ok {h : Heap ℕ (ServiceTime N)} {c : Cell ℕ (ServiceTime N)}
    (hc : h.lookup a = some c) : load a h = .ok c := by
  rw [load, hc]

theorem store_ok {h : Heap ℕ (ServiceTime N)} (ha : a ∈ h)
    (f : Cell ℕ (ServiceTime N) → Cell ℕ (ServiceTime N)) :
    store a f h = .ok (modify a f h) := by
  obtain ⟨c, hc⟩ := Option.isSome_iff_exists.1 (AList.lookup_isSome.2 ha)
  rw [store, hc]

theorem storeIf_ok {h : Heap ℕ (ServiceTime N)} {p : Option ℕ} (hp : ∀ a ∈ p, a ∈ h)
    (f : Cell ℕ (ServiceTime N) → Cell ℕ (ServiceTime N)) :
    storeIf p f h = .ok (modify? p f h) := by
  cases p with
  | none => rfl
  | some a => exact store_ok (hp a rfl) f

/-- What is allocated when the element has left. -/
theorem Holds.mem_rest (hs : Holds s (xs ++ (a, st) :: ys)) (b : ℕ) :
    b ≠ a ∧ b ∈ s.heap ↔ b ∈ (xs ++ ys).map Prod.fst := by
  have hmem := (nodup_middle hs.linked.nodup).2
  rw [hs.allocated, List.map_append, List.map_append, List.map_cons, List.mem_append,
    List.mem_append, List.mem_cons]
  constructor
  · rintro ⟨hne, hb | rfl | hb⟩
    · exact .inl hb
    · exact absurd rfl hne
    · exact .inr hb
  · intro hb
    refine ⟨?_, hb.imp_right .inr⟩
    rintro rfl
    rw [List.map_append, List.mem_append] at hmem
    exact hmem hb

theorem Holds.mem_first (hs : Holds s (xs ++ (a, st) :: ys)) {b : ℕ} (hb : b ∈ first ys) :
    b ∈ s.heap := by
  apply (hs.allocated b).2
  rw [List.map_append]
  exact List.mem_append_right _ (List.mem_cons_of_mem _ (first_mem hb))

/-- The code's stores when the element is the first one. -/
theorem unlink_first (hs : Holds s ((a, st) :: ys)) :
    s.unlink a = .ok { s with
      heap := modify a (fun d => { d with forward := none }) (bypass none (first ys) s.heap)
      stl := first ys } := by
  have hs₀ : Holds s ([] ++ (a, st) :: ys) := hs
  have hys : ∀ b ∈ first ys, b ∈ s.heap := fun b => hs₀.mem_first
  have ha : a ∈ modify? (first ys) (fun d => { d with backward := none }) s.heap :=
    (mem_modify? ..).2 ((hs.allocated a).2 (List.mem_cons_self ..))
  simp only [Store.unlink, load_ok hs₀.linked.lookup, last_nil, storeIf_ok hys, store_ok ha, bind,
    Except.bind, pure, Except.pure]
  rfl

/-- The stores when it is the last one, or one in the middle. -/
theorem unlink_concat {x : ℕ × ServiceTime N} (hs : Holds s (xs ++ [x] ++ (a, st) :: ys)) :
    s.unlink a = .ok { s with heap := bypass (last (xs ++ [x])) (first ys) s.heap } := by
  have hx : x.1 ∈ s.heap := (hs.allocated _).2 (by simp)
  have hc := hs.linked.lookup
  rw [last_concat] at hc
  cases ys with
  | nil =>
    simp only [Store.unlink, load_ok hc, last_concat, first_nil, store_ok hx, bind, Except.bind,
      pure, Except.pure]
    rfl
  | cons y ys =>
    have hy : y.1 ∈ modify x.1 (fun d => { d with forward := some y.1 }) s.heap :=
      (mem_modify ..).2 (hs.mem_first rfl)
    simp only [Store.unlink, load_ok hc, last_concat, first_cons, store_ok hx, store_ok hy,
      bind, Except.bind, pure, Except.pure]
    rfl

/-- The element is out of the list; its own forward pointer is cleared when it was the first. -/
theorem Holds.unlink (hs : Holds s (xs ++ (a, st) :: ys)) :
    ∃ s' c, s.unlink a = .ok s' ∧ s'.transId = s.transId ∧ s'.heap.lookup a = some c ∧
      c.forward = (if xs = [] then none else first ys) ∧
      Holds { s' with heap := s'.heap.erase a } (xs ++ ys) := by
  have hgone := hs.linked.unlink
  have hmem := (nodup_middle hs.linked.nodup).2
  have hrest := hs.mem_rest
  rcases List.eq_nil_or_concat' xs with rfl | ⟨xs, x, rfl⟩
  · have ha : a ∈ bypass none (first ys) s.heap :=
      (mem_bypass ..).2 ((hs.allocated a).2 (List.mem_cons_self ..))
    obtain ⟨c, hc⟩ := Option.isSome_iff_exists.1 (AList.lookup_isSome.2 ha)
    refine ⟨_, { c with forward := none }, unlink_first hs, rfl, ?_, rfl, ?_, fun b => ?_⟩
    · rw [lookup_modify, if_pos rfl]
      exact congrArg _ hc
    · exact Linked.modify_erase hgone _
    · rw [AList.mem_erase, mem_modify]
      exact (and_congr_right fun _ => mem_bypass ..).trans (hrest b)
  · have hstl : s.stl = first (xs ++ [x] ++ ys) := by
      rw [hs.linked.head_eq, first_append, first_append _ ys, first_append]
      cases xs <;> rfl
    have hlast : last (xs ++ [x]) ≠ some a := fun heq =>
      hmem (by rw [List.map_append]; exact List.mem_append_left _ (last_mem heq))
    have hfirst : first ys ≠ some a := fun heq =>
      hmem (by rw [List.map_append]; exact List.mem_append_right _ (first_mem heq))
    refine ⟨_, ⟨st, last (xs ++ [x]), first ys⟩, unlink_concat hs, rfl, ?_, by simp,
      hstl ▸ hgone, fun b => ?_⟩
    · exact (lookup_bypass_ne hlast hfirst _).trans hs.linked.lookup
    · rw [AList.mem_erase]
      exact (and_congr_right fun _ => mem_bypass ..).trans (hrest b)

/-! ## The functions -/

theorem checkLoop_holds (now : Timeval) {k : ℕ} (hs : Holds s (xs ++ ys)) (hxs : xs ≠ [])
    (hk : ys.length ≤ k) :
    ∃ s', Store.checkLoop now k (first ys) s = .ok s' ∧ s'.transId = s.transId ∧
      Holds s' (xs ++ ys.filter fun y => ¬ TimedOut now y.2) := by
  induction ys generalizing xs s k with
  | nil => exact ⟨s, by cases k <;> rfl, rfl, hs⟩
  | cons y ys ih =>
    cases k with
    | zero => exact absurd hk (Nat.not_succ_le_zero _)
    | succ k =>
      have hk' := Nat.le_of_succ_le_succ hk
      by_cases hout : TimedOut now y.2
      · obtain ⟨s₁, c, hs₁, htrans, hc, hforward, hholds⟩ := hs.unlink
        rw [if_neg hxs] at hforward
        obtain ⟨s', hs', htrans', hholds'⟩ := ih hholds hxs hk'
        refine ⟨s', ?_, htrans'.trans htrans, ?_⟩
        · simp only [first_cons, Store.checkLoop, load_ok hs.linked.lookup, if_pos hout, hs₁,
            load_ok hc, hforward, bind, Except.bind]
          exact hs'
        · rwa [List.filter_cons_of_neg (by simpa using hout)]
      · have hsplit : xs ++ y :: ys = xs ++ [y] ++ ys := by simp
        obtain ⟨s', hs', htrans', hholds'⟩ := ih (hsplit ▸ hs) (by simp) hk'
        refine ⟨s', ?_, htrans', ?_⟩
        · simp only [first_cons, Store.checkLoop, load_ok hs.linked.lookup, if_neg hout, bind,
            Except.bind]
          exact hs'
        · rw [List.filter_cons_of_pos (by simpa using hout)]
          simpa using hholds'

/-- The elements that the check leaves.  When it removes the first one, it stops there. -/
def checked (now : Timeval) : List (ℕ × ServiceTime N) → List (ℕ × ServiceTime N)
  | [] => []
  | y :: ys => if TimedOut now y.2 then ys else y :: ys.filter fun y => ¬ TimedOut now y.2

theorem map_checked (now : Timeval) (cells : List (ℕ × ServiceTime N)) :
    (checked now cells).map Prod.snd = checkNeighborStatusList now (cells.map Prod.snd) := by
  cases cells with
  | nil => rfl
  | cons y ys =>
    simp only [checked, List.map_cons, checkNeighborStatusList, List.filter_map]
    split_ifs
    · rfl
    · rfl

theorem Holds.check (hs : Holds s cells) (now : Timeval) :
    ∃ s', s.checkNeighborStatusList now = .ok s' ∧ s'.transId = s.transId ∧
      Holds s' (checked now cells) := by
  have hfuel := hs.linked.length_le
  unfold Store.checkNeighborStatusList
  rw [hs.linked.head_eq]
  cases cells with
  | nil =>
    refine ⟨s, ?_, rfl, hs⟩
    cases s.heap.entries.length <;> rfl
  | cons y ys =>
    obtain ⟨k, hk⟩ : ∃ k, s.heap.entries.length = k + 1 :=
      Nat.exists_eq_succ_of_ne_zero (by simp at hfuel; omega)
    have hk' : ys.length ≤ k := by simp at hfuel; omega
    have hs₀ : Holds s ([] ++ (y.1, y.2) :: ys) := hs
    have hload := load_ok hs₀.linked.lookup
    rw [hk]
    by_cases hout : TimedOut now y.2
    · obtain ⟨s', c, hs', htrans', hc, hforward, hholds⟩ := hs₀.unlink
      rw [if_pos rfl] at hforward
      refine ⟨{ s' with heap := s'.heap.erase y.1 }, ?_, htrans', ?_⟩
      · simp only [first_cons, Store.checkLoop, hload, if_pos hout, hs', load_ok hc, hforward, bind,
          Except.bind]
      · rw [checked, if_pos hout]
        exact hholds
    · have hs₁ : Holds s ([y] ++ ys) := hs
      obtain ⟨s', hs', htrans', hholds⟩ := checkLoop_holds now hs₁ (by simp) hk'
      refine ⟨s', ?_, htrans', ?_⟩
      · simp only [first_cons, Store.checkLoop, hload, if_neg hout, bind, Except.bind]
        exact hs'
      · rw [checked, if_neg hout]
        exact hholds

theorem Stores.check (h : Stores s t) (now : Timeval) :
    ∃ s', s.checkNeighborStatusList now = .ok s' ∧
      Stores s' { t with stl := checkNeighborStatusList now t.stl } := by
  obtain ⟨htrans, cells, hs, hcells⟩ := h
  obtain ⟨s', hs', htrans', hholds⟩ := hs.check now
  exact ⟨s', hs', htrans'.trans htrans, _, hholds, hcells ▸ map_checked now cells⟩

/-- The elements are allocated by a creation that is given fresh memory after the timeouts. -/
theorem Stores.create (h : Stores s t) (checked now : Timeval) (id : N)
    (hfresh : ∀ s₁, s.checkNeighborStatusList checked = .ok s₁ → a ∉ s₁.heap.keys) :
    ∃ s', s.transactionCreate checked now a id =
        .ok ((transactionCreate checked now id t).1, s') ∧
      Stores s' (transactionCreate checked now id t).2 := by
  obtain ⟨s₁, hs₁, htrans, cells, hs, hcells⟩ := h.check checked
  have ha := hfresh s₁ hs₁
  set st : ServiceTime N := ⟨nextTransId t.transId, seconds now, -1, id⟩ with hst
  have hheap : storeIf s₁.stl (fun d => { d with backward := some a })
      (s₁.heap.insert a ⟨st, none, s₁.stl⟩) = .ok (modify? (first cells)
        (fun d => { d with backward := some a }) (s₁.heap.insert a ⟨st, none, s₁.stl⟩)) := by
    rw [hs.linked.head_eq]
    apply storeIf_ok
    intro b hb
    exact (AList.mem_insert _).2 (.inr ((hs.allocated b).2 (first_mem hb)))
  have hs' : Holds ⟨modify? (first cells) (fun d => { d with backward := some a })
      (s₁.heap.insert a ⟨st, none, s₁.stl⟩), some a, nextTransId t.transId⟩
      ((a, st) :: cells) := by
    refine ⟨hs.linked.push (mt AList.mem_keys.1 ha) st, fun b => ?_⟩
    rw [mem_modify?, AList.mem_insert, hs.allocated, List.map_cons, List.mem_cons]
  refine ⟨_, ?_, rfl, _, hs', ?_⟩
  · have htrans₁ : s₁.transId = t.transId := htrans
    simp only [Store.transactionCreate, hs₁, htrans₁, if_neg ha, ← hst, hheap, bind, Except.bind,
      pure, Except.pure]
    rfl
  · rw [List.map_cons, hcells]
    rfl

theorem search_seg {h : Heap ℕ (ServiceTime N)} {p : Option ℕ} (transId : UInt16)
    (hseg : Seg h p none cells) {k : ℕ} (hk : cells.length ≤ k) :
    Store.search transId h k (first cells) =
      .ok ((cells.find? fun c => c.2.transId = transId).map Prod.fst) := by
  induction cells generalizing p k with
  | nil => cases k <;> rfl
  | cons c cells ih =>
    cases k with
    | zero => exact absurd hk (Nat.not_succ_le_zero _)
    | succ k =>
      simp only [first_cons, Store.search, load_ok hseg.1, bind, Except.bind]
      by_cases hid : c.2.transId = transId
      · rw [if_pos hid, List.find?_cons_of_pos (by simpa using hid)]
        rfl
      · rw [if_neg hid, List.find?_cons_of_neg (by simpa using hid), Option.or_none]
        exact ih hseg.2 (Nat.le_of_succ_le_succ hk)

/-- Either no element has the id, or the search finds the first one. -/
theorem Holds.search (hs : Holds s cells) (transId : UInt16) :
    (Store.search transId s.heap s.heap.entries.length s.stl = .ok none ∧
      ∀ c ∈ cells, c.2.transId ≠ transId) ∨
    ∃ xs a st ys, cells = xs ++ (a, st) :: ys ∧ (∀ c ∈ xs, c.2.transId ≠ transId) ∧
      st.transId = transId ∧
      Store.search transId s.heap s.heap.entries.length s.stl = .ok (some a) := by
  have hsearch := search_seg transId hs.linked.seg hs.linked.length_le
  rw [hs.linked.head_eq, hsearch]
  cases hfind : cells.find? fun c => c.2.transId = transId with
  | none =>
    refine .inl ⟨rfl, fun c hc => ?_⟩
    simpa using List.find?_eq_none.1 hfind c hc
  | some c =>
    obtain ⟨hid, xs, ys, rfl, hxs⟩ := List.find?_eq_some_iff_append.1 hfind
    exact .inr ⟨xs, c.1, c.2, ys, rfl, by simpa using hxs, by simpa using hid, rfl⟩

theorem Stores.regAccept (h : Stores s t) (transId : UInt16) (id : N) (now : Timeval) :
    ∃ s', s.transactionRegAccept transId id now =
        .ok ((transactionRegAccept transId id now t).1, s') ∧
      Stores s' (transactionRegAccept transId id now t).2 := by
  obtain ⟨htrans, cells, hs, hcells⟩ := h
  rcases hs.search transId with ⟨hnone, hall⟩ | ⟨xs, a, st, ys, rfl, hxs, hid, hsome⟩
  · have hlist : transactionRegAccept transId id now t = (false, t) := by
      rw [transactionRegAccept, regAccept_of_forall]
      intro st hst
      rw [← hcells] at hst
      obtain ⟨c, hc, rfl⟩ := List.mem_map.1 hst
      exact hall c hc
    refine ⟨s, ?_, by rw [hlist]; exact htrans, cells, hs, by rw [hlist, hcells]⟩
    simp only [Store.transactionRegAccept, hnone, hlist, bind, Except.bind, pure, Except.pure]
  · have ha : a ∈ s.heap := (hs.allocated a).2 (by simp)
    have hlist : transactionRegAccept transId id now t = (true, { t with
        stl := xs.map Prod.snd ++ { st with acceptReceivedTime := seconds now } ::
          ys.map Prod.snd }) := by
      rw [transactionRegAccept, ← hcells, List.map_append, List.map_cons, regAccept_append _ _ hid]
      intro st hst
      obtain ⟨c, hc, rfl⟩ := List.mem_map.1 hst
      exact hxs c hc
    have hs' : Holds { s with heap := modify a (fun d =>
        { d with value := { d.value with acceptReceivedTime := seconds now } }) s.heap }
        (xs ++ (a, { st with acceptReceivedTime := seconds now }) :: ys) := by
      refine ⟨hs.linked.setValue fun st => { st with acceptReceivedTime := seconds now }, ?_⟩
      intro b
      rw [mem_modify, hs.allocated]
      simp
    refine ⟨_, ?_, by rw [hlist]; exact htrans, _, hs', ?_⟩
    · simp only [Store.transactionRegAccept, hsome, store_ok ha, hlist, bind, Except.bind, pure,
        Except.pure]
    · rw [hlist]
      simp

theorem Stores.remove (h : Stores s t) (transId : UInt16) :
    ∃ s', s.transactionRemove transId = .ok ((transactionRemove transId t).1, s') ∧
      Stores s' (transactionRemove transId t).2 := by
  obtain ⟨htrans, cells, hs, hcells⟩ := h
  rcases hs.search transId with ⟨hnone, hall⟩ | ⟨xs, a, st, ys, rfl, hxs, hid, hsome⟩
  · have hlist : transactionRemove transId t = (-2, t) := by
      have hfind : (t.stl.find? fun st => st.transId = transId) = none := by
        rw [List.find?_eq_none, ← hcells]
        intro st hst
        obtain ⟨c, hc, rfl⟩ := List.mem_map.1 hst
        simpa using hall c hc
      rw [transactionRemove, hfind]
    refine ⟨s, ?_, by rw [hlist]; exact htrans, cells, hs, by rw [hlist, hcells]⟩
    simp only [Store.transactionRemove, hnone, hlist, bind, Except.bind, pure, Except.pure]
  · have hxs' : ∀ st ∈ xs.map Prod.snd, st.transId ≠ transId := by
      intro st hst
      obtain ⟨c, hc, rfl⟩ := List.mem_map.1 hst
      exact hxs c hc
    have hlist : transactionRemove transId t = (st.acceptReceivedTime, { t with
        stl := xs.map Prod.snd ++ ys.map Prod.snd }) := by
      have hstl : t.stl = xs.map Prod.snd ++ st :: ys.map Prod.snd := by
        rw [← hcells, List.map_append, List.map_cons]
      have hfind : (t.stl.find? fun st => st.transId = transId) = some st := by
        rw [hstl, List.find?_append, List.find?_eq_none.2 (by simpa using hxs'),
          List.find?_cons_of_pos (by simpa using hid)]
        rfl
      rw [transactionRemove, hfind, hstl, List.eraseP_append_right _ (by simpa using hxs'),
        List.eraseP_cons_of_pos (by simpa using hid)]
    obtain ⟨s', c, hs', htrans', -, -, hholds⟩ := hs.unlink
    refine ⟨{ s' with heap := s'.heap.erase a }, ?_, ?_, _, hholds, ?_⟩
    · simp only [Store.transactionRemove, hsome, load_ok hs.linked.lookup, hs', hlist, bind,
        Except.bind, pure, Except.pure]
    · rw [hlist]
      exact htrans'.trans htrans
    · rw [hlist, List.map_append]

end PeerStreamer.Transaction
