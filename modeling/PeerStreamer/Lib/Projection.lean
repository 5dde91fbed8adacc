import Mathlib.Data.List.InsertIdx
import PeerStreamer.Lib.Network

/-!
# Systems that carry more than another

A projection forgets a part of the states, actions and messages of a system, and what is left acts
and handles messages as another system does.  Its runs are runs of the other system: what a system
carries in addition, a history or a mark, changes nothing of what it does.
-/

namespace Network

variable {N σ σ' α α' β M M' ε : Type*}

/-- What is left of a system `sys'` is the system `sys`. -/
structure Projection (sys' : System N σ' α' β M' ε) (sys : System N σ α β M ε) where
  state : σ' → σ
  action : α' → α
  message : M' → M
  act : ∀ n a s, sys.act n (action a) (state s) =
    (sys'.act n a s).map fun r => (state r.1, r.2.map (Prod.map id message))
  handle : ∀ n b src m s, sys.handle n b src (message m) (state s) =
    (sys'.handle n b src m s).map fun r => (state r.1, r.2.map (Prod.map id message))

namespace Projection

variable {sys' : System N σ' α' β M' ε} {sys : System N σ α β M ε}
  (π : Projection sys' sys)

def packet (p : Packet N M') : Packet N M := ⟨p.num, p.src, p.dst, π.message p.body, p.cause⟩

def net (w : Net N σ' M') : Net N σ M :=
  ⟨fun n => π.state (w.states n), w.flight.map π.packet, w.next⟩

def move : Move N α' β → Move N α β
  | .act n a => .act n (π.action a)
  | .deliver k b => .deliver k b
  | .lose k => .lose k

theorem map_packets (n : N) (cause : Option ℕ) (k : ℕ) (outs : List (N × M')) :
    (packets n cause k outs).map π.packet =
      packets n cause k (outs.map (Prod.map id π.message)) := by
  induction outs generalizing k with
  | nil => rfl
  | cons o outs ih => exact congrArg (_ :: ·) (ih (k + 1))

theorem net_flight (w : Net N σ' M') (k : ℕ) :
    (π.net w).flight[k]? = w.flight[k]?.map π.packet :=
  List.getElem?_map

theorem net_drop (w : Net N σ' M') (k : ℕ) : π.net (w.drop k) = (π.net w).drop k := by
  unfold net Net.drop
  rw [List.eraseIdx_map]

theorem net_post [DecidableEq N] (w : Net N σ' M') (n : N) (cause : Option ℕ) (s : σ')
    (outs : List (N × M')) : π.net (w.post n cause s outs) =
      (π.net w).post n cause (π.state s) (outs.map (Prod.map id π.message)) := by
  unfold net Net.post
  rw [List.map_append, π.map_packets, List.length_map]
  congr 1
  funext m
  exact Function.apply_update (fun _ => π.state) w.states n s m

variable [DecidableEq N] {w w' : Net N σ' M'} {m : Move N α' β} {ps sent : List (Packet N M')}

theorem step (h : Network.step sys' m w = .ok (w', ps)) :
    Network.step sys (π.move m) (π.net w) = .ok (π.net w', ps.map π.packet) := by
  cases stepped h with
  | @actFailed n a e ha =>
    have hact := π.act n a (w.states n)
    rw [ha] at hact
    have hstate : (π.net w).states n = π.state (w.states n) := rfl
    simp only [move, Network.step, hstate, hact, Except.map]
    rfl
  | @act n a s outs ha =>
    have hact := π.act n a (w.states n)
    rw [ha] at hact
    have hstate : (π.net w).states n = π.state (w.states n) := rfl
    simp only [move, Network.step, hstate, hact, Except.map, π.net_post, π.map_packets]
    rfl
  | @nothing k b hp =>
    have hflight : (π.net w).flight[k]? = none := by rw [π.net_flight, hp, Option.map_none]
    simp only [move, Network.step, hflight]
    rfl
  | @deliverFailed k b p e hp hh =>
    have hflight : (π.net w).flight[k]? = some (π.packet p) := by
      rw [π.net_flight, hp, Option.map_some]
    have hhandle := π.handle p.dst b p.src p.body (w.states p.dst)
    rw [hh] at hhandle
    have hstate : (π.net w).states p.dst = π.state (w.states p.dst) := rfl
    simp only [move, Network.step, hflight, packet, hstate, hhandle, Except.map, π.net_drop]
    rfl
  | @deliver k b p s outs hp hh =>
    have hflight : (π.net w).flight[k]? = some (π.packet p) := by
      rw [π.net_flight, hp, Option.map_some]
    have hhandle := π.handle p.dst b p.src p.body (w.states p.dst)
    rw [hh] at hhandle
    have hstate : (π.net w).states p.dst = π.state (w.states p.dst) := rfl
    simp only [move, Network.step, hflight, packet, hstate, hhandle, Except.map, π.net_post,
      π.net_drop, π.map_packets]
    rfl
  | lose k =>
    show _ = Except.ok (π.net (w.drop k), [])
    rw [π.net_drop]
    rfl

/-- What is left of a run is a run. -/
theorem run {moves : List (Move N α' β)} (h : Run.run (Network.step sys') moves w = .ok (w', sent)) :
    Run.run (Network.step sys) (moves.map π.move) (π.net w) = .ok (π.net w', sent.map π.packet) := by
  induction moves generalizing w sent with
  | nil =>
    obtain ⟨rfl, rfl⟩ : w = w' ∧ [] = sent := by simpa using h
    rfl
  | cons m moves ih =>
    obtain ⟨w₁, ps, more, hm, hr, rfl⟩ := Run.run_cons_ok h
    rw [List.map_append]
    exact Run.run_cons (π.step hm) (ih hr)

end Projection

end Network
