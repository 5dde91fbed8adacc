import Mathlib.Order.Monotone.Basic
import PeerStreamer.Lib.Run

/-!
# Numbered readings

A program that reads a clock takes its answers from a stream, and its state has the number of the
next one.  It is sequential when it reads from there on, one answer after the other: then the
answers before and after those it takes do not matter, and neither does the number at which it
starts.

A driver may read the same clock between the steps of a sequential program (`Driven`).  Its readings
can be taken out of the stream: what it drives is a run of the program over the answers that are
left (`Driven.run`).
-/

namespace Readings

universe u

/-- A stream of answers, of which some can be left out. -/
class Answers (C : Type*) (τ : outParam Type*) where
  read : C → ℕ → τ
  thin : C → (f : ℕ → ℕ) → StrictMono f → C
  read_thin (c : C) (f : ℕ → ℕ) (h : StrictMono f) (i : ℕ) : read (thin c f h) i = read c (f i)

/-- A state with the number of the next answer. -/
class Positioned (σ : Type*) where
  pos : σ → ℕ
  move : ℕ → σ → σ
  pos_move (n : ℕ) (s : σ) : pos (move n s) = n
  move_pos (s : σ) : move (pos s) s = s
  move_move (m n : ℕ) (s : σ) : move m (move n s) = move m s

open Answers Positioned

instance : Positioned ℕ where
  pos n := n
  move n _ := n
  pos_move _ _ := rfl
  move_pos _ := rfl
  move_move _ _ _ := rfl

/-- A result before the state. -/
instance {α ρ : Type*} [Positioned ρ] : Positioned (α × ρ) where
  pos r := pos r.2
  move n r := (r.1, move n r.2)
  pos_move n r := pos_move n r.2
  move_pos r := Prod.ext rfl (move_pos r.2)
  move_move m n r := Prod.ext rfl (move_move m n r.2)

/-- Outputs behind the state. -/
instance {σ ο : Type*} [Positioned σ] : Positioned (σ × List ο) where
  pos r := pos r.1
  move n r := (move n r.1, r.2)
  pos_move n r := pos_move n r.1
  move_pos r := Prod.ext (move_pos r.1) rfl
  move_move m n r := Prod.ext (move_move m n r.1) rfl

variable {C τ ε σ α : Type*} {ρ π : Type u} [Answers C τ] [Positioned σ] [Positioned ρ]
  [Positioned π]

/-- `c'` has from `m` on the `k` answers that `c` has from `n` on. -/
def Agree (c : C) (n : ℕ) (c' : C) (m k : ℕ) : Prop := ∀ i < k, read c' (m + i) = read c (n + i)

theorem Agree.take {c c' : C} {n m j k : ℕ} (h : Agree c n c' m k) (hj : j ≤ k) :
    Agree c n c' m j :=
  fun i hi => h i (hi.trans_le hj)

theorem Agree.drop {c c' : C} {n n' m m' j k : ℕ} (h : Agree c n c' m (j + k))
    (hn : n' = n + j) (hm : m' = m + j) : Agree c n' c' m' k := by
  intro i hi
  have hanswer := h (j + i) (Nat.add_lt_add_left hi j)
  rwa [← Nat.add_assoc, ← Nat.add_assoc, ← hn, ← hm] at hanswer

/-- The program takes one answer after the other, from its position on. -/
def Sequential (F : C → σ → Except ε ρ) : Prop :=
  ∀ c s r, F c s = .ok r → pos s ≤ pos r ∧ ∀ c' m, Agree c (pos s) c' m (pos r - pos s) →
    F c' (move m s) = .ok (move (m + (pos r - pos s)) r)

/-! ## Rules -/

section Rules

/-- A program that takes no answer. -/
theorem Sequential.of_silent {f : σ → Except ε ρ}
    (h : ∀ s r, f s = .ok r → pos r = pos s ∧ ∀ m, f (move m s) = .ok (move m r)) :
    Sequential fun (_ : C) s => f s := by
  intro c s r hr
  obtain ⟨hpos, hmove⟩ := h s r hr
  refine ⟨hpos.ge, ?_⟩
  intro c' m _
  rw [hpos, Nat.sub_self, Nat.add_zero]
  exact hmove m

/-- A program that takes one answer. -/
theorem Sequential.of_read {f : τ → σ → Except ε ρ}
    (h : ∀ t s r, f t s = .ok r → pos r = pos s + 1 ∧ ∀ m, f t (move m s) = .ok (move (m + 1) r)) :
    Sequential fun (c : C) s => f (read c (pos s)) s := by
  intro c s r hr
  obtain ⟨hpos, hmove⟩ := h _ s r hr
  refine ⟨by omega, ?_⟩
  intro c' m hagree
  rw [hpos, Nat.add_sub_cancel_left] at hagree ⊢
  have hanswer := hagree 0 Nat.one_pos
  rw [Nat.add_zero, Nat.add_zero] at hanswer
  show f (read c' (pos (move m s))) (move m s) = _
  rw [pos_move, hanswer]
  exact hmove m

/-- Two programs one after the other. -/
theorem Sequential.bind {F : C → σ → Except ε ρ} {G : C → ρ → Except ε π} (hF : Sequential F)
    (hG : Sequential G) : Sequential fun c s => F c s >>= G c := by
  intro c s r hr
  rcases hone : F c s with e | q
  · simp [hone, Bind.bind, Except.bind] at hr
  have hrest : G c q = .ok r := by simpa [hone, Bind.bind, Except.bind] using hr
  obtain ⟨hle, hmove⟩ := hF c s q hone
  obtain ⟨hle', hmove'⟩ := hG c q r hrest
  refine ⟨hle.trans hle', ?_⟩
  intro c' m hagree
  have hall : pos r - pos s = pos q - pos s + (pos r - pos q) := by omega
  rw [hall] at hagree ⊢
  have hfirst := hmove c' m (hagree.take (Nat.le_add_right ..))
  have hsecond := hmove' c' _ (hagree.drop (Nat.add_sub_cancel' hle).symm rfl)
  rw [Nat.add_assoc] at hsecond
  show F c' (move m s) >>= G c' = _
  rw [hfirst]
  exact hsecond

/-- The first program does not fail. -/
theorem Sequential.comp {f : C → σ → ρ} {G : C → ρ → Except ε π}
    (hf : Sequential fun c s => (.ok (f c s) : Except ε ρ)) (hG : Sequential G) :
    Sequential fun c s => G c (f c s) :=
  Sequential.bind hf hG

/-- A program that does not look at a result before its state. -/
theorem Sequential.snd {F : C → σ → Except ε ρ} (hF : Sequential F) :
    Sequential fun c (r : α × σ) => F c r.2 :=
  fun c s r hr => hF c s.2 r hr

/-- A program that does not look at the outputs so far. -/
theorem Sequential.fst {ο : Type*} {F : C → σ → Except ε ρ} (hF : Sequential F) :
    Sequential fun c (r : σ × List ο) => F c r.1 :=
  fun c s r hr => hF c s.1 r hr

/-- What the program does may depend on a part of the state that has nothing to do with the
position. -/
theorem Sequential.cases {F : α → C → σ → Except ε ρ} {k : σ → α}
    (hk : ∀ m s, k (move m s) = k s) (h : ∀ a, Sequential (F a)) :
    Sequential fun c s => F (k s) c s := by
  intro c s r hr
  obtain ⟨hle, hmove⟩ := h (k s) c s r hr
  refine ⟨hle, ?_⟩
  intro c' m hagree
  show F (k (move m s)) c' (move m s) = _
  rw [hk]
  exact hmove c' m hagree

/-- A branch on such a part of the state. -/
theorem Sequential.branch {p : σ → Prop} [DecidablePred p] {f g : C → σ → ρ}
    (hp : ∀ m s, p (move m s) ↔ p s) (hf : Sequential fun c s => (.ok (f c s) : Except ε ρ))
    (hg : Sequential fun c s => (.ok (g c s) : Except ε ρ)) :
    Sequential fun c s => (.ok (if p s then f c s else g c s) : Except ε ρ) := by
  intro c s r hr
  obtain rfl := Except.ok.inj hr
  by_cases h : p s
  · have hmoved : ∀ m, p (move m s) := fun m => (hp m s).2 h
    simp only [if_pos h, if_pos (hmoved _)]
    exact hf c s _ rfl
  · have hmoved : ∀ m, ¬ p (move m s) := fun m hm => h ((hp m s).1 hm)
    simp only [if_neg h, if_neg (hmoved _)]
    exact hg c s _ rfl

/-- A branch on whether there is such a part. -/
theorem Sequential.option {β : Type*} {F f : C → σ → Except ε ρ} {k : σ → Option β}
    {g : β → C → σ → Except ε ρ} (hk : ∀ m s, k (move m s) = k s)
    (hnone : ∀ c s, k s = none → F c s = f c s)
    (hsome : ∀ c s b, k s = some b → F c s = g b c s)
    (hf : Sequential f) (hg : ∀ b, Sequential (g b)) : Sequential F := by
  intro c s r hr
  cases hks : k s with
  | none =>
    rw [hnone c s hks] at hr
    obtain ⟨hle, hmove⟩ := hf c s r hr
    refine ⟨hle, ?_⟩
    intro c' m hagree
    rw [hnone c' (move m s) ((hk m s).trans hks)]
    exact hmove c' m hagree
  | some b =>
    rw [hsome c s b hks] at hr
    obtain ⟨hle, hmove⟩ := hg b c s r hr
    refine ⟨hle, ?_⟩
    intro c' m hagree
    rw [hsome c' (move m s) b ((hk m s).trans hks)]
    exact hmove c' m hagree

/-- Two programs with outputs, which are collected. -/
theorem Sequential.append {ο : Type*} {F : C → σ → Except ε (σ × List ο)}
    {G : C → σ → Except ε (σ × List ο)} (hF : Sequential F) (hG : Sequential G) :
    Sequential fun c s => do
      let (s, out) ← F c s
      let (s, more) ← G c s
      return (s, out ++ more) := by
  have hcollect (out : List ο) : Sequential fun (_ : C) (q : σ × List ο) =>
      (.ok (q.1, out ++ q.2) : Except ε (σ × List ο)) := by
    apply Sequential.of_silent
    intro q r hr
    obtain rfl := Except.ok.inj hr
    exact ⟨rfl, fun _ => rfl⟩
  have hrest (out : List ο) : Sequential fun c (r : σ × List ο) =>
      G c r.1 >>= fun q => .ok (q.1, out ++ q.2) :=
    (hG.fst (ο := ο)).bind (hcollect out)
  have hsecond : Sequential fun c (r : σ × List ο) =>
      G c r.1 >>= fun q => .ok (q.1, r.2 ++ q.2) :=
    Sequential.cases (k := fun r : σ × List ο => r.2) (fun _ _ => rfl) hrest
  exact hF.bind hsecond

/-- A program that works on the position alone, within a state. -/
theorem Sequential.within {A S : Type u} [Positioned S] {f : C → ℕ → Except ε (A × ℕ)}
    (hf : Sequential f) :
    Sequential fun c (s : S) => f c (pos s) >>= fun r => .ok (r.1, move r.2 s) := by
  intro c s r hr
  rcases hone : f c (pos s) with e | q
  · simp [hone, Bind.bind, Except.bind] at hr
  obtain rfl : (q.1, move q.2 s) = r := by
    simpa [hone, Bind.bind, Except.bind] using hr
  obtain ⟨hle, hmove⟩ := hf c (pos s) q hone
  have hpos : pos (q.1, move q.2 s) = q.2 := pos_move _ s
  rw [hpos]
  refine ⟨hle, ?_⟩
  intro c' m hagree
  have hsame := hmove c' m hagree
  show f c' (pos (move m s)) >>= _ = _
  rw [pos_move, show f c' m = _ from hsame]
  show Except.ok (_, move _ (move m s)) = Except.ok (_, move _ (move _ s))
  rw [move_move, move_move]
  rfl

end Rules

/-! ## Drivers -/

section Driven

variable {ι ο : Type*} {step : C → ι → σ → Except ε (σ × List ο)}

theorem Sequential.run (hstep : ∀ i, Sequential fun c s => step c i s) (is : List ι) :
    Sequential fun c s => Run.run (step c) is s := by
  induction is with
  | nil =>
    apply Sequential.of_silent
    intro s r hr
    obtain rfl := Except.ok.inj hr
    exact ⟨rfl, fun _ => rfl⟩
  | cons i is ih => exact (hstep i).append ih

/-- Steps of the program, with readings of the driver between them. -/
inductive Driven (step : C → ι → σ → Except ε (σ × List ο)) (c : C) (s₀ : σ) :
    List ι → List ο → σ → Prop where
  | nil : Driven step c s₀ [] [] s₀
  | tick {is : List ι} {out : List ο} {s : σ} (h : Driven step c s₀ is out s) :
    Driven step c s₀ is out (move (pos s + 1) s)
  | step {is : List ι} {out more : List ο} {s s' : σ} {i : ι} (h : Driven step c s₀ is out s)
    (hi : step c i s = .ok (s', more)) : Driven step c s₀ (is ++ [i]) (out ++ more) s'

theorem Driven.run_append {c : C} {s₀ s s' : σ} {is js : List ι} {out more : List ο}
    (h : Driven step c s₀ is out s) (hr : Run.run (step c) js s = .ok (s', more)) :
    Driven step c s₀ (is ++ js) (out ++ more) s' := by
  induction js generalizing is out s more with
  | nil =>
    obtain ⟨rfl, rfl⟩ := Prod.mk.inj (Except.ok.inj hr)
    rw [List.append_nil, List.append_nil]
    exact h
  | cons j js ih =>
    obtain ⟨s₁, out₁, rest, hone, hrest, rfl⟩ := Run.run_cons_ok hr
    have hall := ih (h.step hone) hrest
    rwa [List.append_assoc, List.append_assoc, List.singleton_append] at hall

/-- What a driver drives is a run of the program, over the answers that the driver leaves. -/
theorem Driven.run (hstep : ∀ i, Sequential fun c s => step c i s) {c : C} {s₀ s : σ}
    {is : List ι} {out : List ο} (h : Driven step c s₀ is out s) :
    ∃ (f : ℕ → ℕ) (hf : StrictMono f) (m : ℕ), pos s₀ ≤ m ∧ (∀ i, f (m + i) = pos s + i) ∧
      Run.run (step (thin c f hf)) is s₀ = .ok (move m s, out) := by
  induction h with
  | nil =>
    refine ⟨id, strictMono_id, pos s₀, le_rfl, fun _ => rfl, ?_⟩
    rw [move_pos]
    rfl
  | @tick is out s h ih =>
    obtain ⟨f, hf, m, hle, hpos, hrun⟩ := ih
    -- the answer to the driver is left out
    have hg : StrictMono fun i => if i < m then f i else f i + 1 := by
      intro i j hij
      have hlt := hf hij
      dsimp only
      split_ifs <;> omega
    refine ⟨_, hg, m, hle, ?_, ?_⟩
    · intro i
      have hi := hpos i
      rw [if_neg (by omega), pos_move]
      omega
    · have hend : pos (move m s, out) = m := pos_move m s
      have hsame := (Sequential.run hstep is _ _ _ hrun).2 (thin c _ hg) (pos s₀) (by
        intro i hi
        rw [hend] at hi
        rw [read_thin, read_thin, if_pos (by omega)])
      rw [hend, Nat.add_sub_cancel' hle, move_pos] at hsame
      rw [move_move]
      exact hsame.trans (congrArg Except.ok (Prod.ext (move_move m m s) rfl))
  | @step is out more s s' i h hi ih =>
    obtain ⟨f, hf, m, hle, hpos, hrun⟩ := ih
    obtain ⟨hle', hmove⟩ := hstep i c s _ hi
    have hone := hmove (thin c f hf) m (by
      intro j _
      rw [read_thin, hpos])
    refine ⟨f, hf, m + (pos s' - pos s), hle.trans (Nat.le_add_right ..), ?_, ?_⟩
    · intro j
      change pos s ≤ pos s' at hle'
      rw [Nat.add_assoc, hpos]
      omega
    · exact Run.run_append hrun (Run.run_singleton hone)

end Driven

end Readings
