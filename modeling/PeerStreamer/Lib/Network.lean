import Mathlib.Data.List.Nodup
import Mathlib.Logic.Function.Basic
import PeerStreamer.Lib.Run

/-!
# Parties that exchange messages

A system says how a party acts on its own and how it handles a message.  A move lets one party act,
or delivers or loses any of the packets on their way: packets are delayed, reordered and lost, but
not duplicated.  Every packet has a number, and the number of the packet that was handled when it
was sent.

`Traced` is what holds of the packets of every run: each was sent by an action or in answer to one
earlier packet, and no packet was handled twice.
-/

namespace Network

variable {N σ α β M ε : Type*}

/-- A message with its addresses. -/
structure Packet (N M : Type*) where
  num : ℕ
  src : N
  dst : N
  body : M
  /-- The packet that was handled when this one was sent. -/
  cause : Option ℕ
  deriving DecidableEq, Repr

/-- What the parties do: each takes a choice of its environment and its state, and may fail. -/
structure System (N σ α β M ε : Type*) where
  act : N → α → σ → Except ε (σ × List (N × M))
  handle : N → β → N → M → σ → Except ε (σ × List (N × M))

structure Net (N σ M : Type*) where
  states : N → σ
  /-- The packets on their way, the oldest first. -/
  flight : List (Packet N M)
  /-- The number of the next packet. -/
  next : ℕ

def Net.init (states : N → σ) : Net N σ M := ⟨states, [], 0⟩

/-- Packets on their way are named by their place. -/
inductive Move (N α β : Type*) where
  | act (n : N) (a : α)
  | deliver (k : ℕ) (b : β)
  | lose (k : ℕ)

/-- Number and address the messages of a party. -/
def packets (n : N) (cause : Option ℕ) : ℕ → List (N × M) → List (Packet N M)
  | _, [] => []
  | k, (dst, body) :: outs => ⟨k, n, dst, body, cause⟩ :: packets n cause (k + 1) outs

/-- The packet at this place is taken off the net. -/
def Net.drop (w : Net N σ M) (k : ℕ) : Net N σ M := { w with flight := w.flight.eraseIdx k }

section Step

variable [DecidableEq N]

/-- Party `n` goes to state `s` and sends messages. -/
def Net.post (w : Net N σ M) (n : N) (cause : Option ℕ) (s : σ) (outs : List (N × M)) :
    Net N σ M where
  states := Function.update w.states n s
  flight := w.flight ++ packets n cause w.next outs
  next := w.next + outs.length

/-- One move, with the packets sent.  A party that fails sends nothing and keeps its state. -/
def step (sys : System N σ α β M ε) (m : Move N α β) (w : Net N σ M) :
    Except ε (Net N σ M × List (Packet N M)) :=
  match m with
  | .act n a =>
    match sys.act n a (w.states n) with
    | .error _ => .ok (w, [])
    | .ok (s, outs) => .ok (w.post n none s outs, packets n none w.next outs)
  | .deliver k b =>
    match w.flight[k]? with
    | none => .ok (w, [])
    | some p =>
      match sys.handle p.dst b p.src p.body (w.states p.dst) with
      | .error _ => .ok (w.drop k, [])
      | .ok (s, outs) =>
        .ok ((w.drop k).post p.dst (some p.num) s outs, packets p.dst (some p.num) w.next outs)
  | .lose k => .ok (w.drop k, [])

/-- What each move can do. -/
inductive Stepped (sys : System N σ α β M ε) (w : Net N σ M) :
    Move N α β → Net N σ M → List (Packet N M) → Prop where
  | actFailed {n : N} {a : α} {e : ε} (h : sys.act n a (w.states n) = .error e) :
    Stepped sys w (.act n a) w []
  | act {n : N} {a : α} {s : σ} {outs : List (N × M)}
    (h : sys.act n a (w.states n) = .ok (s, outs)) :
    Stepped sys w (.act n a) (w.post n none s outs) (packets n none w.next outs)
  | nothing {k : ℕ} {b : β} (hp : w.flight[k]? = none) : Stepped sys w (.deliver k b) w []
  | deliverFailed {k : ℕ} {b : β} {p : Packet N M} {e : ε} (hp : w.flight[k]? = some p)
    (h : sys.handle p.dst b p.src p.body (w.states p.dst) = .error e) :
    Stepped sys w (.deliver k b) (w.drop k) []
  | deliver {k : ℕ} {b : β} {p : Packet N M} {s : σ} {outs : List (N × M)}
    (hp : w.flight[k]? = some p)
    (h : sys.handle p.dst b p.src p.body (w.states p.dst) = .ok (s, outs)) :
    Stepped sys w (.deliver k b) ((w.drop k).post p.dst (some p.num) s outs)
      (packets p.dst (some p.num) w.next outs)
  | lose (k : ℕ) : Stepped sys w (.lose k) (w.drop k) []

variable {sys : System N σ α β M ε} {m : Move N α β} {w w' : Net N σ M} {ps : List (Packet N M)}

theorem stepped (h : step sys m w = .ok (w', ps)) : Stepped sys w m w' ps := by
  cases m with
  | act n a =>
    rcases ha : sys.act n a (w.states n) with e | ⟨s, outs⟩
    · simp only [step, ha] at h
      cases h
      exact .actFailed ha
    · simp only [step, ha] at h
      cases h
      exact .act ha
  | deliver k b =>
    cases hp : w.flight[k]? with
    | none =>
      simp only [step, hp] at h
      cases h
      exact .nothing hp
    | some p =>
      rcases hh : sys.handle p.dst b p.src p.body (w.states p.dst) with e | ⟨s, outs⟩
      · simp only [step, hp, hh] at h
        cases h
        exact .deliverFailed hp hh
      · simp only [step, hp, hh] at h
        cases h
        exact .deliver hp hh
  | lose k =>
    cases h
    exact .lose k

theorem step_total (sys : System N σ α β M ε) (m : Move N α β) (w : Net N σ M) :
    ∃ w' ps, step sys m w = .ok (w', ps) := by
  unfold step
  split
  · split <;> exact ⟨_, _, rfl⟩
  · split
    · exact ⟨_, _, rfl⟩
    · split <;> exact ⟨_, _, rfl⟩
  · exact ⟨_, _, rfl⟩

end Step

/-! ## Numbered packets -/

theorem map_num_packets (n : N) (cause : Option ℕ) (k : ℕ) (outs : List (N × M)) :
    (packets n cause k outs).map Packet.num = List.range' k outs.length := by
  induction outs generalizing k with
  | nil => rfl
  | cons o outs ih =>
    rw [packets, List.map_cons, ih (k + 1), List.length_cons, List.range'_succ]

theorem length_packets (n : N) (cause : Option ℕ) (k : ℕ) (outs : List (N × M)) :
    (packets n cause k outs).length = outs.length := by
  rw [← List.length_map Packet.num, map_num_packets, List.length_range']

theorem le_num_packets {n : N} {cause : Option ℕ} {k : ℕ} {outs : List (N × M)}
    {p : Packet N M} (h : p ∈ packets n cause k outs) : k ≤ p.num := by
  have hnum := List.mem_map_of_mem (f := Packet.num) h
  rw [map_num_packets] at hnum
  exact (List.mem_range'_1.1 hnum).1

/-- A packet is one of the messages it was made of. -/
theorem of_mem_packets {n : N} {cause : Option ℕ} {k : ℕ} {outs : List (N × M)}
    {p : Packet N M} (h : p ∈ packets n cause k outs) :
    p.src = n ∧ p.cause = cause ∧ (p.dst, p.body) ∈ outs := by
  induction outs generalizing k with
  | nil => exact absurd h List.not_mem_nil
  | cons o outs ih =>
    rcases List.mem_cons.1 h with rfl | h
    · exact ⟨rfl, rfl, List.mem_cons_self ..⟩
    · obtain ⟨hsrc, hcause, hmem⟩ := ih h
      exact ⟨hsrc, hcause, List.mem_cons_of_mem _ hmem⟩

/-! ## Where packets come from -/

/-- The packets that were sent when `q` was handled. -/
def answers (sent : List (Packet N M)) (q : Packet N M) : List (Packet N M) :=
  sent.filter fun p => p.cause = some q.num

theorem answers_append (sent ps : List (Packet N M)) (q : Packet N M) :
    answers (sent ++ ps) q = answers sent q ++ answers ps q := List.filter_append ..

theorem answers_packets_none (n : N) (k : ℕ) (outs : List (N × M)) (q : Packet N M) :
    answers (packets n none k outs) q = [] := by
  rw [answers, List.filter_eq_nil_iff]
  intro p hp
  simp [(of_mem_packets hp).2.1]

theorem answers_packets_self (n : N) (k : ℕ) (outs : List (N × M)) (q : Packet N M) :
    answers (packets n (some q.num) k outs) q = packets n (some q.num) k outs := by
  rw [answers, List.filter_eq_self]
  intro p hp
  simp [(of_mem_packets hp).2.1]

theorem answers_packets_ne {i : ℕ} (n : N) (k : ℕ) (outs : List (N × M)) {q : Packet N M}
    (h : i ≠ q.num) : answers (packets n (some i) k outs) q = [] := by
  rw [answers, List.filter_eq_nil_iff]
  intro p hp
  simp [(of_mem_packets hp).2.1, h]

/-- The packets of a run: no packet has been handled twice, and none that is on its way has. -/
structure Traced (sys : System N σ α β M ε) (w : Net N σ M) (sent : List (Packet N M)) :
    Prop where
  next : w.next = sent.length
  nums : sent.map Packet.num = List.range sent.length
  flight : ∀ p ∈ w.flight, p ∈ sent
  nodup : w.flight.Nodup
  cause : ∀ p ∈ sent, ∀ i, p.cause = some i → i < sent.length
  pending : ∀ q ∈ w.flight, answers sent q = []
  acted : ∀ p ∈ sent, p.cause = none →
    ∃ a s s' outs, sys.act p.src a s = .ok (s', outs) ∧ (p.dst, p.body) ∈ outs
  answered : ∀ q ∈ sent, answers sent q = [] ∨ ∃ b s s' outs k,
    sys.handle q.dst b q.src q.body s = .ok (s', outs) ∧
      answers sent q = packets q.dst (some q.num) k outs

namespace Traced

variable {sys : System N σ α β M ε} {w w' : Net N σ M} {sent : List (Packet N M)}
  {p q : Packet N M}

theorem init (sys : System N σ α β M ε) (states : N → σ) : Traced sys (Net.init states) [] where
  next := rfl
  nums := rfl
  flight := by simp [Net.init]
  nodup := List.nodup_nil
  cause := by simp
  pending := by simp [Net.init]
  acted := by simp
  answered := by simp

theorem num_lt (h : Traced sys w sent) (hp : p ∈ sent) : p.num < sent.length := by
  have hnum := List.mem_map_of_mem (f := Packet.num) hp
  rw [h.nums] at hnum
  exact List.mem_range.1 hnum

theorem nodup_nums (h : Traced sys w sent) : (sent.map Packet.num).Nodup := by
  rw [h.nums]
  exact List.nodup_range

/-- A packet is known by its number. -/
theorem eq_of_num (h : Traced sys w sent) (hp : p ∈ sent) (hq : q ∈ sent)
    (hnum : p.num = q.num) : p = q :=
  List.inj_on_of_nodup_map h.nodup_nums hp hq hnum

/-- A packet that was not sent by an action has a cause, and is one of its answers. -/
theorem exists_cause (h : Traced sys w sent) (hp : p ∈ sent) {i : ℕ} (hi : p.cause = some i) :
    ∃ q ∈ sent, q.num = i ∧ p ∈ answers sent q := by
  have hmem : i ∈ sent.map Packet.num := by
    rw [h.nums]
    exact List.mem_range.2 (h.cause p hp i hi)
  obtain ⟨q, hq, hnum⟩ := List.mem_map.1 hmem
  refine ⟨q, hq, hnum, List.mem_filter.2 ⟨hp, ?_⟩⟩
  rw [hi, hnum]
  exact decide_eq_true rfl

theorem drop (h : Traced sys w sent) (k : ℕ) : Traced sys (w.drop k) sent where
  next := h.next
  nums := h.nums
  flight p hp := h.flight p ((List.eraseIdx_sublist ..).subset hp)
  nodup := h.nodup.sublist (List.eraseIdx_sublist ..)
  cause := h.cause
  pending q hq := h.pending q ((List.eraseIdx_sublist ..).subset hq)
  acted := h.acted
  answered := h.answered

/-- Nothing is caused by a packet that is only being sent. -/
theorem answers_new (h : Traced sys w sent) (hq : sent.length ≤ q.num) :
    answers sent q = [] := by
  rw [answers, List.filter_eq_nil_iff]
  intro p hp hcause
  have := h.cause p hp q.num (by simpa using hcause)
  omega

theorem not_mem_drop (h : Traced sys w sent) {k : ℕ} (hp : w.flight[k]? = some p) :
    p ∉ (w.drop k).flight := by
  intro hmem
  obtain ⟨i, hne, hi⟩ := List.mem_eraseIdx_iff_getElem?.1 hmem
  obtain ⟨hlt, -⟩ := List.getElem?_eq_some_iff.1 hi
  exact hne ((List.getElem?_inj hlt h.nodup).1 (hi.trans hp.symm))

section Post

variable [DecidableEq N] {n : N} {s : σ} {outs : List (N × M)} {cause : Option ℕ}

omit [DecidableEq N] in
/-- The numbers go on. -/
theorem nums_append (h : Traced sys w sent) (n : N) (cause : Option ℕ) (outs : List (N × M)) :
    (sent ++ packets n cause w.next outs).map Packet.num =
      List.range (sent ++ packets n cause w.next outs).length := by
  rw [List.map_append, h.nums, map_num_packets, List.length_append, length_packets, h.next,
    List.range_eq_range', List.range_eq_range', ← List.range'_append_1, Nat.zero_add]

omit [DecidableEq N] in
theorem nodup_append (h : Traced sys w sent) (n : N) (cause : Option ℕ) (outs : List (N × M)) :
    (w.flight ++ packets n cause w.next outs).Nodup := by
  apply List.Nodup.append h.nodup
  · apply List.Nodup.of_map Packet.num
    rw [map_num_packets]
    exact List.nodup_range' ..
  · intro p hp hp'
    have hlt := h.num_lt (h.flight p hp)
    have hle := le_num_packets hp'
    rw [h.next] at hle
    omega

omit [DecidableEq N] in
/-- New packets have not been handled. -/
theorem answers_packets_new (h : Traced sys w sent) (hcause : ∀ i, cause = some i → i < sent.length)
    {p : Packet N M} (hp : p ∈ packets n cause w.next outs) :
    answers (sent ++ packets n cause w.next outs) p = [] := by
  have hle := le_num_packets hp
  rw [h.next] at hle
  rw [answers_append, h.answers_new hle, List.nil_append]
  cases cause with
  | none => exact answers_packets_none ..
  | some i =>
    have hlt := hcause i rfl
    exact answers_packets_ne _ _ _ (by omega)

/-- What posting keeps: the new packets answer nothing that was on its way or was answered. -/
theorem post (h : Traced sys w sent) (hcause : ∀ i, cause = some i → i < sent.length)
    (hpending : ∀ q ∈ w.flight, answers (packets n cause w.next outs) q = [])
    (hacted : cause = none → ∃ a s s', sys.act n a s = .ok (s', outs))
    (hanswered : ∀ q ∈ sent, answers (packets n cause w.next outs) q = [] ∨
      answers sent q = [] ∧ n = q.dst ∧ cause = some q.num ∧
        ∃ b s s', sys.handle q.dst b q.src q.body s = .ok (s', outs)) :
    Traced sys (w.post n cause s outs) (sent ++ packets n cause w.next outs) where
  next := by
    rw [List.length_append, length_packets, ← h.next]
    rfl
  nums := h.nums_append n cause outs
  flight p hp := (List.mem_append.1 hp).elim (fun hp => List.mem_append_left _ (h.flight p hp))
    (List.mem_append_right _)
  nodup := h.nodup_append n cause outs
  cause p hp i hi := by
    rw [List.length_append]
    apply Nat.lt_add_right
    rcases List.mem_append.1 hp with hp | hp
    · exact h.cause p hp i hi
    · exact hcause i ((of_mem_packets hp).2.1.symm.trans hi)
  pending q hq := by
    rcases List.mem_append.1 hq with hq | hq
    · rw [answers_append, h.pending q hq, hpending q hq, List.nil_append]
    · exact h.answers_packets_new hcause hq
  acted p hp hnone := by
    rcases List.mem_append.1 hp with hp | hp
    · exact h.acted p hp hnone
    · obtain ⟨hsrc, hc, hmem⟩ := of_mem_packets hp
      obtain ⟨a, s, s', hact⟩ := hacted (hc.symm.trans hnone)
      exact ⟨a, s, s', outs, hsrc ▸ hact, hmem⟩
  answered q hq := by
    rcases List.mem_append.1 hq with hq | hq
    · rcases hanswered q hq with hnil | ⟨hnil, rfl, rfl, b, s, s', hh⟩
      · rw [answers_append, hnil, List.append_nil]
        exact h.answered q hq
      · refine .inr ⟨b, s, s', outs, w.next, hh, ?_⟩
        rw [answers_append, hnil, List.nil_append, answers_packets_self]
    · exact .inl (h.answers_packets_new hcause hq)

theorem step (h : Traced sys w sent) {m : Move N α β} {ps : List (Packet N M)}
    (hs : Stepped sys w m w' ps) : Traced sys w' (sent ++ ps) := by
  cases hs with
  | actFailed =>
    rwa [List.append_nil]
  | nothing =>
    rwa [List.append_nil]
  | deliverFailed =>
    rw [List.append_nil]
    exact h.drop _
  | lose k =>
    rw [List.append_nil]
    exact h.drop k
  | act hact =>
    exact h.post (by simp) (fun q _ => answers_packets_none ..) (fun _ => ⟨_, _, _, hact⟩)
      fun q _ => .inl (answers_packets_none ..)
  | @deliver k b p s outs hp hh =>
    have hflight := List.mem_of_getElem? hp
    have hsent := h.flight p hflight
    refine (h.drop k).post ?_ ?_ (by simp) ?_
    · intro i hi
      exact Option.some.inj hi ▸ h.num_lt hsent
    · intro q hq
      apply answers_packets_ne
      intro hnum
      have hq' := (h.drop k).flight q hq
      exact h.not_mem_drop hp (h.eq_of_num hsent hq' hnum ▸ hq)
    · intro q hq
      by_cases hnum : p.num = q.num
      · obtain rfl := h.eq_of_num hsent hq hnum
        exact .inr ⟨h.pending p hflight, rfl, rfl, b, _, _, hh⟩
      · exact .inl (answers_packets_ne _ _ _ hnum)

end Post

end Traced

/-- A net never fails. -/
theorem run_total [DecidableEq N] (sys : System N σ α β M ε) (moves : List (Move N α β))
    (w : Net N σ M) : ∃ w' sent, Run.run (step sys) moves w = .ok (w', sent) := by
  induction moves generalizing w with
  | nil => exact ⟨w, [], rfl⟩
  | cons m moves ih =>
    obtain ⟨w₁, ps, hm⟩ := step_total sys m w
    obtain ⟨w', sent, hr⟩ := ih w₁
    exact ⟨w', ps ++ sent, Run.run_cons hm hr⟩

/-- The packets of every run are traced. -/
theorem run_traced [DecidableEq N] {sys : System N σ α β M ε} {moves : List (Move N α β)}
    {states : N → σ} {w : Net N σ M} {sent : List (Packet N M)}
    (h : Run.run (step sys) moves (Net.init states) = .ok (w, sent)) : Traced sys w sent := by
  refine Run.invariant (P := fun _ _ => True) (fun _ w sent => Traced sys w sent)
    (.init sys states) ?_ (fun _ _ _ _ _ _ => trivial) h
  intro pre m w sent w' more hw _ hstep
  exact hw.step (stepped hstep)

/-! ## Parties one by one -/

/-- What every party keeps to as long as every message does, and every message it sends. -/
structure Local (sys : System N σ α β M ε) (I : N → σ → Prop) (J : N → N → M → Prop) : Prop where
  act : ∀ n a s s' outs, I n s → sys.act n a s = .ok (s', outs) →
    I n s' ∧ ∀ o ∈ outs, J n o.1 o.2
  handle : ∀ n b src m s s' outs, I n s → J src n m → sys.handle n b src m s = .ok (s', outs) →
    I n s' ∧ ∀ o ∈ outs, J n o.1 o.2

section Local

variable [DecidableEq N] {sys : System N σ α β M ε} {I : N → σ → Prop} {J : N → N → M → Prop}
  {w w' : Net N σ M} {sent ps : List (Packet N M)} {m : Move N α β}

/-- The parties and the packets on their way, and the packets sent. -/
structure Local.Kept (I : N → σ → Prop) (J : N → N → M → Prop) (w : Net N σ M)
    (sent : List (Packet N M)) : Prop where
  states : ∀ n, I n (w.states n)
  flight : ∀ p ∈ w.flight, J p.src p.dst p.body
  sent : ∀ p ∈ sent, J p.src p.dst p.body

omit [DecidableEq N] in
theorem Local.Kept.drop (h : Local.Kept I J w sent) (k : ℕ) : Local.Kept I J (w.drop k) sent :=
  ⟨h.states, fun p hp => h.flight p ((List.eraseIdx_sublist ..).subset hp), h.sent⟩

theorem Local.Kept.post (h : Local.Kept I J w sent) {n : N} (cause : Option ℕ) {s : σ}
    {outs : List (N × M)} (hs : I n s) (houts : ∀ o ∈ outs, J n o.1 o.2) :
    Local.Kept I J (w.post n cause s outs) (sent ++ packets n cause w.next outs) := by
  have hnew : ∀ p ∈ packets n cause w.next outs, J p.src p.dst p.body := by
    intro p hp
    obtain ⟨rfl, -, hmem⟩ := of_mem_packets hp
    exact houts _ hmem
  refine ⟨?_, ?_, ?_⟩
  · intro m
    by_cases hm : m = n
    · subst hm
      show I m (Function.update w.states m s m)
      rwa [Function.update_self]
    · show I m (Function.update w.states n s m)
      rw [Function.update_of_ne hm]
      exact h.states m
  · intro p hp
    exact (List.mem_append.1 hp).elim (h.flight p) (hnew p)
  · intro p hp
    exact (List.mem_append.1 hp).elim (h.sent p) (hnew p)

/-- `Local` for the actions that are allowed. -/
structure LocalOn (sys : System N σ α β M ε) (A : N → α → Prop) (I : N → σ → Prop)
    (J : N → N → M → Prop) : Prop where
  act : ∀ n a s s' outs, A n a → I n s → sys.act n a s = .ok (s', outs) →
    I n s' ∧ ∀ o ∈ outs, J n o.1 o.2
  handle : ∀ n b src m s s' outs, I n s → J src n m → sys.handle n b src m s = .ok (s', outs) →
    I n s' ∧ ∀ o ∈ outs, J n o.1 o.2

/-- A move that makes a party act only as it is allowed to. -/
def Move.Allowed (A : N → α → Prop) : Move N α β → Prop
  | .act n a => A n a
  | .deliver .. | .lose _ => True

theorem LocalOn.step {A : N → α → Prop} (hsys : LocalOn sys A I J) (h : Local.Kept I J w sent)
    (hm : m.Allowed A) (hs : Stepped sys w m w' ps) : Local.Kept I J w' (sent ++ ps) := by
  cases hs with
  | actFailed =>
    rwa [List.append_nil]
  | nothing =>
    rwa [List.append_nil]
  | deliverFailed =>
    rw [List.append_nil]
    exact h.drop _
  | lose k =>
    rw [List.append_nil]
    exact h.drop k
  | @act n a s outs hact =>
    obtain ⟨hI, hJ⟩ := hsys.act n a _ s outs hm (h.states n) hact
    exact h.post none hI hJ
  | @deliver k b p s outs hp hh =>
    have hJp := h.flight p (List.mem_of_getElem? hp)
    obtain ⟨hI, hJ⟩ := hsys.handle p.dst b p.src p.body _ s outs (h.states p.dst) hJp hh
    exact (h.drop k).post (some p.num) hI hJ

theorem run_localOn {A : N → α → Prop} (hsys : LocalOn sys A I J) {moves : List (Move N α β)}
    (hmoves : ∀ m ∈ moves, m.Allowed A) {states : N → σ} (hinit : ∀ n, I n (states n))
    (h : Run.run (Network.step sys) moves (Net.init states) = .ok (w, sent)) :
    Local.Kept I J w sent := by
  refine Run.invariant (P := fun _ m => m.Allowed A) (fun _ w sent => Local.Kept I J w sent)
    ⟨hinit, by simp [Net.init], by simp⟩ ?_ (.of_forall fun m hm _ => hmoves m hm) h
  intro pre m w sent w' more hw hm hstep
  exact hsys.step hw hm (stepped hstep)

theorem run_local (hsys : Local sys I J) {moves : List (Move N α β)} {states : N → σ}
    (hinit : ∀ n, I n (states n))
    (h : Run.run (Network.step sys) moves (Net.init states) = .ok (w, sent)) :
    Local.Kept I J w sent := by
  have hon : LocalOn sys (fun _ _ => True) I J :=
    ⟨fun n a s s' outs _ => hsys.act n a s s' outs, hsys.handle⟩
  exact run_localOn hon (fun m _ => by cases m <;> exact trivial) hinit h

end Local

/-! ## What a party has sent -/

section Outbox

variable [DecidableEq N] {sys : System N σ α β M ε} {I : N → σ → List (N × M) → Prop}
  {w w' : Net N σ M} {sent ps : List (Packet N M)} {m : Move N α β}

/-- The messages a party has sent, in order. -/
def outbox (n : N) (sent : List (Packet N M)) : List (N × M) :=
  (sent.filter fun p => p.src = n).map fun p => (p.dst, p.body)

theorem outbox_append (n : N) (sent ps : List (Packet N M)) :
    outbox n (sent ++ ps) = outbox n sent ++ outbox n ps := by
  rw [outbox, List.filter_append, List.map_append]
  rfl

theorem mem_outbox {n : N} {o : N × M} :
    o ∈ outbox n sent ↔ ∃ p ∈ sent, p.src = n ∧ (p.dst, p.body) = o := by
  simp only [outbox, List.mem_map, List.mem_filter, decide_eq_true_eq, and_assoc]

theorem outbox_packets_self (n : N) (cause : Option ℕ) (k : ℕ) (outs : List (N × M)) :
    outbox n (packets n cause k outs) = outs := by
  induction outs generalizing k with
  | nil => rfl
  | cons o outs ih =>
    rw [packets, outbox, List.filter_cons_of_pos (by simp), List.map_cons]
    exact congrArg (o :: ·) (ih (k + 1))

theorem outbox_packets_ne {n n' : N} (h : n' ≠ n) (cause : Option ℕ) (k : ℕ)
    (outs : List (N × M)) : outbox n (packets n' cause k outs) = [] := by
  rw [outbox, List.map_eq_nil_iff, List.filter_eq_nil_iff]
  intro p hp
  simpa [(of_mem_packets hp).1] using h

/-- What every party keeps to, of its state and of what it has sent. -/
structure History (sys : System N σ α β M ε) (I : N → σ → List (N × M) → Prop) : Prop where
  act : ∀ n a s s' out outs, I n s out → sys.act n a s = .ok (s', outs) → I n s' (out ++ outs)
  handle : ∀ n b src m s s' out outs, I n s out → sys.handle n b src m s = .ok (s', outs) →
    I n s' (out ++ outs)

/-- When a party goes on, the other ones keep their state and their outbox. -/
theorem History.post (h : ∀ n, I n (w.states n) (outbox n sent)) {n : N} (cause : Option ℕ)
    {s : σ} {outs : List (N × M)} (hs : I n s (outbox n sent ++ outs)) (n' : N) :
    I n' ((w.post n cause s outs).states n')
      (outbox n' (sent ++ packets n cause w.next outs)) := by
  show I n' (Function.update w.states n s n') _
  rw [outbox_append]
  by_cases hn : n' = n
  · subst hn
    rwa [Function.update_self, outbox_packets_self]
  · rw [Function.update_of_ne hn, outbox_packets_ne (Ne.symm hn), List.append_nil]
    exact h n'

theorem History.step (hsys : History sys I) (h : ∀ n, I n (w.states n) (outbox n sent))
    (hs : Stepped sys w m w' ps) (n : N) : I n (w'.states n) (outbox n (sent ++ ps)) := by
  cases hs with
  | actFailed =>
    rw [List.append_nil]
    exact h n
  | nothing =>
    rw [List.append_nil]
    exact h n
  | deliverFailed =>
    rw [List.append_nil]
    exact h n
  | lose =>
    rw [List.append_nil]
    exact h n
  | @act n' a s outs hact =>
    exact History.post h none (hsys.act n' a _ s _ outs (h n') hact) n
  | @deliver k b p s outs hp hh =>
    exact History.post (w := w.drop k) h (some p.num)
      (hsys.handle p.dst b p.src p.body _ s _ outs (h p.dst) hh) n

theorem run_history (hsys : History sys I) {moves : List (Move N α β)} {states : N → σ}
    (hinit : ∀ n, I n (states n) [])
    (h : Run.run (Network.step sys) moves (Net.init states) = .ok (w, sent)) (n : N) :
    I n (w.states n) (outbox n sent) := by
  have hall : ∀ n, I n (w.states n) (outbox n sent) := by
    refine Run.invariant (P := fun _ _ => True)
      (fun _ w sent => ∀ n, I n (w.states n) (outbox n sent)) hinit ?_
      (fun _ _ _ _ _ _ => trivial) h
    intro pre m w sent w' more hw _ hstep
    exact hsys.step hw (stepped hstep)
  exact hall n

end Outbox

end Network
