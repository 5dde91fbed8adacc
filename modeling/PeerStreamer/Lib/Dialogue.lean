import PeerStreamer.Lib.Network

/-!
# Two parties that talk in turn

When no more than one message is on its way, a move is known from the message and the state of the
party that gets it: the numbers of the packets do not matter.  `Between` gives what two parties and
the flight are, `Said` what a run of moves sends, and the lemmas take one move each.
-/

namespace Network

variable {N σ α β M ε : Type*}

/-- The messages of packets, each with its sender and its addressee. -/
def letters (ps : List (Packet N M)) : List (N × N × M) := ps.map fun p => (p.src, p.dst, p.body)

theorem letters_append (ps qs : List (Packet N M)) :
    letters (ps ++ qs) = letters ps ++ letters qs := List.map_append

theorem letters_packets (n : N) (cause : Option ℕ) (k : ℕ) (outs : List (N × M)) :
    letters (packets n cause k outs) = outs.map fun o => (n, o.1, o.2) := by
  induction outs generalizing k with
  | nil => rfl
  | cons o outs ih =>
    rw [List.map_cons, ← ih (k + 1)]
    rfl

/-- The states of the parties `n` and `m`, and what is on its way. -/
structure Between (w : Net N σ M) (n m : N) (s t : σ) (ls : List (N × N × M)) : Prop where
  left : w.states n = s
  right : w.states m = t
  flight : letters w.flight = ls

variable [DecidableEq N] {sys : System N σ α β M ε} {w w' : Net N σ M} {n m : N} {s t : σ}
  {ls said more : List (N × N × M)} {moves rest : List (Move N α β)}

/-- The moves lead from `w` to `w'`, and the messages `said` are sent. -/
def Said (sys : System N σ α β M ε) (moves : List (Move N α β)) (w w' : Net N σ M)
    (said : List (N × N × M)) : Prop :=
  ∃ sent, Run.run (step sys) moves w = .ok (w', sent) ∧ letters sent = said

theorem Said.refl (sys : System N σ α β M ε) (w : Net N σ M) : Said sys [] w w [] := ⟨[], rfl, rfl⟩

theorem Said.append {w'' : Net N σ M} (h : Said sys moves w w' said)
    (h' : Said sys rest w' w'' more) : Said sys (moves ++ rest) w w'' (said ++ more) := by
  obtain ⟨sent, hrun, rfl⟩ := h
  obtain ⟨sent', hrun', rfl⟩ := h'
  exact ⟨sent ++ sent', Run.run_append hrun hrun', letters_append sent sent'⟩

omit [DecidableEq N] in
theorem Between.symm (h : Between w n m s t ls) : Between w m n t s ls :=
  ⟨h.right, h.left, h.flight⟩

/-- A party goes on while nothing else is on its way. -/
theorem Between.post (h : Between w n m s t []) (hne : n ≠ m) (cause : Option ℕ) (s' : σ)
    (outs : List (N × M)) :
    Between (w.post n cause s' outs) n m s' t (outs.map fun o => (n, o.1, o.2)) where
  left := Function.update_self ..
  right := (Function.update_of_ne hne.symm _ _).trans h.right
  flight := by
    show letters (w.flight ++ packets n cause w.next outs) = _
    rw [letters_append, h.flight, letters_packets, List.nil_append]

theorem Between.act (sys : System N σ α β M ε) (h : Between w n m s t []) (hne : n ≠ m) {a : α}
    {s' : σ} {outs : List (N × M)} (hact : sys.act n a s = .ok (s', outs)) :
    ∃ w', Said sys [.act n a] w w' (outs.map fun o => (n, o.1, o.2)) ∧
      Between w' n m s' t (outs.map fun o => (n, o.1, o.2)) := by
  rw [← h.left] at hact
  have hstep : step sys (.act n a) w =
      .ok (w.post n none s' outs, packets n none w.next outs) := by
    simp only [step, hact]
  exact ⟨_, ⟨_, Run.run_singleton hstep, letters_packets ..⟩, h.post hne none s' outs⟩

/-- The only message on its way is handled. -/
theorem Between.deliver (sys : System N σ α β M ε) (b : β) {body : M}
    (h : Between w n m s t [(n, m, body)]) (hne : n ≠ m) {t' : σ} {outs : List (N × M)}
    (hhandle : sys.handle m b n body t = .ok (t', outs)) :
    ∃ w', Said sys [.deliver 0 b] w w' (outs.map fun o => (m, o.1, o.2)) ∧
      Between w' n m s t' (outs.map fun o => (m, o.1, o.2)) := by
  obtain ⟨p, hflight, hp⟩ := List.map_eq_singleton_iff.1 h.flight
  obtain ⟨rfl, rfl, rfl⟩ : p.src = n ∧ p.dst = m ∧ p.body = body := by simpa using hp
  have hhead : w.flight[0]? = some p := by rw [hflight]; rfl
  rw [← h.right] at hhandle
  have hstep : step sys (.deliver 0 b) w = .ok ((w.drop 0).post p.dst (some p.num) t' outs,
      packets p.dst (some p.num) w.next outs) := by
    simp only [step, hhead, hhandle]
  have hdrop : Between (w.drop 0) p.dst p.src t s [] := by
    refine ⟨h.right, h.left, ?_⟩
    show letters (w.flight.eraseIdx 0) = []
    rw [hflight]
    rfl
  exact ⟨_, ⟨_, Run.run_singleton hstep, letters_packets ..⟩,
    (hdrop.post hne.symm (some p.num) t' outs).symm⟩

/-- With nothing on its way, nothing is delivered. -/
theorem Between.nothing (sys : System N σ α β M ε) (h : Between w n m s t []) (b : β) :
    Said sys [.deliver 0 b] w w [] := by
  have hflight : w.flight = [] := List.map_eq_nil_iff.1 h.flight
  have hstep : step sys (.deliver 0 b) w = .ok (w, []) := by
    simp only [step, hflight, List.getElem?_nil]
  exact ⟨[], Run.run_singleton hstep, rfl⟩

theorem Between.nothings (sys : System N σ α β M ε) (h : Between w n m s t []) (b : β)
    (k : ℕ) : Said sys (List.replicate k (.deliver 0 b)) w w [] := by
  induction k with
  | zero => exact .refl sys w
  | succ k ih => exact (h.nothing sys b).append ih

end Network
