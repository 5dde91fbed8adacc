import PeerStreamer.Lib.Network

/-!
# Nets that keep the order of the messages

On a net without losses, on which of the packets from one party to another the oldest is always
delivered first, the packets from one party to another form a queue.
-/

namespace Network

variable {N σ α β M ε : Type*} [DecidableEq N] {w : Net N σ M} {a b n : N}

/-- The messages from `a` to `b` among these packets. -/
def queue (ps : List (Packet N M)) (a b : N) : List M :=
  (ps.filter fun p => p.src = a ∧ p.dst = b).map Packet.body

/-- No packet is lost, and none overtakes another one between the same two parties. -/
def InOrder (w : Net N σ M) : Move N α β → Prop
  | .act _ _ => True
  | .deliver k _ => ∀ p, w.flight[k]? = some p →
      ∀ q ∈ w.flight.take k, ¬ (q.src = p.src ∧ q.dst = p.dst)
  | .lose _ => False

theorem queue_append (ps qs : List (Packet N M)) (a b : N) :
    queue (ps ++ qs) a b = queue ps a b ++ queue qs a b := by
  rw [queue, List.filter_append, List.map_append, queue, queue]

/-- The messages to `b` among these. -/
def messagesTo (outs : List (N × M)) (b : N) : List M :=
  (outs.filter fun o => o.1 = b).map Prod.snd

theorem queue_packets_self (n : N) (cause : Option ℕ) (k : ℕ) (outs : List (N × M)) (b : N) :
    queue (packets n cause k outs) n b = messagesTo outs b := by
  induction outs generalizing k with
  | nil => rfl
  | cons o outs ih =>
    obtain ⟨dst, body⟩ := o
    have hrest := ih (k + 1)
    unfold queue messagesTo at hrest ⊢
    by_cases h : dst = b
    · rw [packets, List.filter_cons_of_pos (by simpa using h), List.map_cons, hrest,
        List.filter_cons_of_pos (by simpa using h), List.map_cons]
    · rw [packets, List.filter_cons_of_neg (by simpa using h), hrest,
        List.filter_cons_of_neg (by simpa using h)]

theorem queue_packets_ne (hne : n ≠ a) (cause : Option ℕ) (k : ℕ) (outs : List (N × M)) (b : N) :
    queue (packets n cause k outs) a b = [] := by
  rw [queue, List.map_eq_nil_iff, List.filter_eq_nil_iff]
  intro p hp
  simp [(of_mem_packets hp).1, hne]

omit [DecidableEq N] in
/-- The packets on their way, around one of them. -/
theorem flight_split {k : ℕ} {p : Packet N M} (hp : w.flight[k]? = some p) :
    ∃ pre post, w.flight.take k = pre ∧ w.flight = pre ++ p :: post ∧
      (w.drop k).flight = pre ++ post := by
  obtain ⟨hlt, rfl⟩ := List.getElem?_eq_some_iff.1 hp
  refine ⟨_, w.flight.drop (k + 1), rfl, ?_, List.eraseIdx_eq_take_drop_succ ..⟩
  rw [← List.drop_eq_getElem_cons hlt, List.take_append_drop]

/-- The oldest packet from one party to another is the head of their queue. -/
theorem queue_drop {k : ℕ} {p : Packet N M} (hp : w.flight[k]? = some p)
    (hold : ∀ q ∈ w.flight.take k, ¬ (q.src = p.src ∧ q.dst = p.dst)) :
    queue w.flight p.src p.dst = p.body :: queue (w.drop k).flight p.src p.dst := by
  obtain ⟨pre, post, hpre, hall, hrest⟩ := flight_split hp
  have hnil : queue pre p.src p.dst = [] := by
    rw [queue, List.map_eq_nil_iff, List.filter_eq_nil_iff]
    intro q hq
    simpa using hold q (hpre ▸ hq)
  rw [hall, hrest, queue_append, queue_append, hnil, List.nil_append, List.nil_append]
  rw [queue, List.filter_cons_of_pos (by simp), List.map_cons, queue]

theorem queue_drop_ne {k : ℕ} {p : Packet N M} (hp : w.flight[k]? = some p)
    (hne : ¬ (p.src = a ∧ p.dst = b)) :
    queue (w.drop k).flight a b = queue w.flight a b := by
  obtain ⟨pre, post, -, hall, hrest⟩ := flight_split hp
  have hskip : queue (p :: post) a b = queue post a b := by
    rw [queue, queue, List.filter_cons_of_neg (by simpa using hne)]
  rw [hall, hrest, queue_append, queue_append, hskip]

end Network
