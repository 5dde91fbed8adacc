import PeerStreamer.TransactionMap

/-!
# The timeout of transactions

`check_neighbor_status_list` is there to remove the transactions that are over the timeout.  It
follows the forward pointer of an element after it was taken out of the list, and that pointer is
cleared when the element was the first: the elements behind it are not looked at.  So a check is
complete if the first element stays, or if it is the only one that has to go (`check_purged_iff`).
-/

namespace PeerStreamer.Transaction

open DList

variable {N : Type} {s s' : Store N} {cells : List (ℕ × ServiceTime N)} {now : Timeval}

/-- The elements over the timeout are gone, the others are linked as before, and a search for an id,
which `transaction_reg_accept` and `transaction_remove` begin with, finds none over the timeout. -/
structure Purged (now : Timeval) (cells : List (ℕ × ServiceTime N)) (s' : Store N) : Prop where
  linked : WellLinked s' (cells.filter fun c => ¬ TimedOut now c.2)
  found : ∀ transId a c, Store.search transId s'.heap s'.heap.entries.length s'.stl = .ok (some a) →
    s'.heap.lookup a = some c → ¬ TimedOut now c.value

theorem Holds.purged (hs : Holds s' (cells.filter fun c => ¬ TimedOut now c.2)) :
    Purged now cells s' := by
  refine ⟨hs.wellLinked, ?_⟩
  intro transId a c hsearch hc
  rcases hs.search transId with ⟨hnone, -⟩ | ⟨xs, b, st, ys, hcells, -, -, hsome⟩
  · rw [hnone] at hsearch
    cases hsearch
  · obtain rfl : b = a := by simpa using hsome.symm.trans hsearch
    have hl := hs.linked
    rw [hcells] at hl
    obtain rfl := Option.some_inj.1 (hl.lookup.symm.trans hc)
    have hmem : (b, st) ∈ cells.filter fun c => ¬ TimedOut now c.2 := by
      rw [hcells]
      simp
    exact of_decide_eq_true (List.mem_filter.1 hmem).2

/-- The addresses that are met on the way through the list determine how many there are. -/
theorem WellLinked.length_eq {cells' : List (ℕ × ServiceTime N)} (h : WellLinked s cells)
    (h' : WellLinked s cells') : cells.length = cells'.length := by
  have hfollow := h.forward (max cells.length cells'.length) (le_max_left ..)
  rw [h'.forward _ (le_max_right ..)] at hfollow
  simpa using (congrArg List.length hfollow).symm

/-- The check can do all that is to be done: the first element stays, or it is the only one that
has to go. -/
def HeadStays (now : Timeval) (cells : List (ℕ × ServiceTime N)) : Prop :=
  (∀ c ∈ cells.head?, ¬ TimedOut now c.2) ∨ ∀ c ∈ cells.tail, ¬ TimedOut now c.2

theorem checked_eq_filter (h : HeadStays now cells) :
    checked now cells = cells.filter fun c => ¬ TimedOut now c.2 := by
  cases cells with
  | nil => rfl
  | cons c cells =>
    rw [checked]
    split_ifs with hout
    · have hfresh : ∀ d ∈ cells, ¬ TimedOut now d.2 := h.resolve_left fun hhead => hhead c rfl hout
      rw [List.filter_cons_of_neg (by simpa using hout), List.filter_eq_self.2 (by simpa using hfresh)]
    · rw [List.filter_cons_of_pos (by simpa using hout)]

/-- An element over the timeout that is behind such a first element is left. -/
theorem headStays_of_length_eq
    (h : (checked now cells).length = (cells.filter fun c => ¬ TimedOut now c.2).length) :
    HeadStays now cells := by
  cases cells with
  | nil => exact .inl (by simp)
  | cons c cells =>
    by_cases hout : TimedOut now c.2
    · right
      rw [checked, if_pos hout, List.filter_cons_of_neg (by simpa using hout), eq_comm,
        List.length_filter_eq_length_iff] at h
      simpa using h
    · left
      intro d hd
      obtain rfl : c = d := Option.some_inj.1 hd
      exact hout

/-- A check removes the elements over the timeout if and only if the first element is not one of
them, or the only one. -/
theorem check_purged_iff (hs : Holds s cells) (now : Timeval) :
    (∃ s', s.checkNeighborStatusList now = .ok s' ∧ Purged now cells s') ↔
      HeadStays now cells := by
  obtain ⟨s', hs', -, hholds⟩ := hs.check now
  constructor
  · rintro ⟨s₁, hs₁, hpurged⟩
    obtain rfl := Except.ok.inj (hs'.symm.trans hs₁)
    exact headStays_of_length_eq (hholds.wellLinked.length_eq hpurged.linked)
  · intro h
    rw [checked_eq_filter h] at hholds
    exact ⟨s', hs', hholds.purged⟩

/-- From 6.1 s to 16.1 s it is more than ten seconds when times are rounded. -/
example : TimedOut (.ofUsec 16100000) (⟨1, seconds (.ofUsec 6100000), -1, 7⟩ : ServiceTime ℕ) := by
  decide +kernel

/-- Two transactions, the newest first, that were opened one and two seconds after the start. -/
def twoOpen : Store ℕ where
  heap := ⟨[⟨16, ⟨⟨3, 2, -1, 7⟩, none, some 8⟩⟩, ⟨8, ⟨⟨2, 1, -1, 9⟩, some 16, none⟩⟩],
    by simp [List.NodupKeys]⟩
  stl := some 16
  transId := 3

theorem holds_twoOpen : Holds twoOpen [(16, ⟨3, 2, -1, 7⟩), (8, ⟨2, 1, -1, 9⟩)] := by
  refine ⟨⟨rfl, by decide, rfl, rfl, trivial⟩, fun a => ?_⟩
  simp [twoOpen, AList.mem_keys, AList.keys, List.keys]

/-- After twelve seconds only the older one is removed. -/
theorem check_purged_iff_twoOpen : ∃ s', twoOpen.checkNeighborStatusList (.ofUsec 12000000) = .ok s' ∧
    Purged (.ofUsec 12000000) [(16, ⟨3, 2, -1, 7⟩), (8, ⟨2, 1, -1, 9⟩)] s' :=
  (check_purged_iff holds_twoOpen (.ofUsec 12000000)).2 (.inl (by decide +kernel))

/-- After thirteen seconds both are over the timeout, and the older one is left. -/
theorem not_check_purged : ¬ ∃ s', twoOpen.checkNeighborStatusList (.ofUsec 13000000) = .ok s' ∧
    Purged (.ofUsec 13000000) [(16, ⟨3, 2, -1, 7⟩), (8, ⟨2, 1, -1, 9⟩)] s' := by
  rintro ⟨s', hs', hpurged⟩
  obtain ⟨s₁, hs₁, -, hholds⟩ := holds_twoOpen.check (.ofUsec 13000000)
  obtain rfl := Except.ok.inj (hs'.symm.trans hs₁)
  have hlen := hholds.wellLinked.length_eq hpurged.linked
  revert hlen
  decide +kernel

end PeerStreamer.Transaction
