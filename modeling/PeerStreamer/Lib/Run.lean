import Mathlib.Data.List.Induction
import Mathlib.Tactic.Common

/-!
# Runs of a reactive program

A program reacts to each input by a new state and some outputs, or it fails.  A run feeds it a list
of inputs and collects the outputs.  `Along` says of a condition that it holds at every step of a
run, and `invariant` is the induction over the run: what holds at the start and is kept by every
step that meets the condition holds at the end.
-/

namespace Run

variable {σ ι ε ο : Type*}

/-- Feed the inputs one after the other. -/
def run (step : ι → σ → Except ε (σ × List ο)) : List ι → σ → Except ε (σ × List ο)
  | [], s => .ok (s, [])
  | i :: is, s => do
    let (s, out) ← step i s
    let (s, more) ← run step is s
    return (s, out ++ more)

variable {step : ι → σ → Except ε (σ × List ο)} {s₀ s s' : σ} {out out' : List ο} {is : List ι}

@[simp] theorem run_nil : run step [] s = .ok (s, []) := rfl

theorem run_cons {i : ι} {s₁ : σ} (h : step i s = .ok (s₁, out))
    (h' : run step is s₁ = .ok (s', out')) : run step (i :: is) s = .ok (s', out ++ out') := by
  simp only [run, h, h', bind, Except.bind, pure, Except.pure]

/-- The first step of a run. -/
theorem run_cons_ok {i : ι} (h : run step (i :: is) s = .ok (s', out')) :
    ∃ s₁ out₁ more, step i s = .ok (s₁, out₁) ∧ run step is s₁ = .ok (s', more) ∧
      out' = out₁ ++ more := by
  simp only [run, bind, Except.bind] at h
  rcases hi : step i s with _ | ⟨s₁, out₁⟩
  · rw [hi] at h
    cases h
  · rw [hi] at h
    rcases hr : run step is s₁ with _ | ⟨s₂, more⟩
    · simp only [hr] at h
      cases h
    · simp only [hr, pure, Except.pure, Except.ok.injEq, Prod.mk.injEq] at h
      exact ⟨s₁, out₁, more, rfl, h.1 ▸ hr, h.2.symm⟩

/-- A run splits where its inputs do. -/
theorem run_append_ok {is js : List ι} (h : run step (is ++ js) s = .ok (s', out')) :
    ∃ s₁ out₁ more, run step is s = .ok (s₁, out₁) ∧ run step js s₁ = .ok (s', more) ∧
      out' = out₁ ++ more := by
  induction is generalizing s out' with
  | nil => exact ⟨s, [], out', rfl, h, rfl⟩
  | cons i is ih =>
    obtain ⟨s₁, out₁, more, hi, hr, rfl⟩ := run_cons_ok h
    obtain ⟨s₂, out₂, rest, hr₂, hrest, rfl⟩ := ih hr
    exact ⟨s₂, out₁ ++ out₂, rest, run_cons hi hr₂, hrest, (List.append_assoc ..).symm⟩

theorem run_append {is js : List ι} {s₁ : σ} (h : run step is s = .ok (s₁, out))
    (h' : run step js s₁ = .ok (s', out')) : run step (is ++ js) s = .ok (s', out ++ out') := by
  induction is generalizing s out with
  | nil =>
    obtain ⟨rfl, rfl⟩ : s = s₁ ∧ [] = out := by simpa using h
    exact h'
  | cons i is ih =>
    obtain ⟨s₂, out₂, more, hi, hr, rfl⟩ := run_cons_ok h
    rw [List.append_assoc]
    exact run_cons hi (ih hr)

theorem run_singleton {i : ι} (h : step i s = .ok (s', out)) :
    run step [i] s = .ok (s', out) := by
  have hnil : run step [] s' = .ok (s', []) := run_nil
  have hcons := run_cons h hnil
  rwa [List.append_nil] at hcons

theorem run_singleton_ok {i : ι} (h : run step [i] s = .ok (s', out)) :
    step i s = .ok (s', out) := by
  obtain ⟨s₁, out₁, more, hi, hr, rfl⟩ := run_cons_ok h
  obtain ⟨rfl, rfl⟩ : s₁ = s' ∧ [] = more := by simpa using hr
  rw [hi, List.append_nil]

/-- The condition holds of the state and the input at every step of the run. -/
def Along (step : ι → σ → Except ε (σ × List ο)) (P : σ → ι → Prop) (is : List ι) (s₀ : σ) :
    Prop :=
  ∀ pre i, pre ++ [i] <+: is → ∀ s out, run step pre s₀ = .ok (s, out) → P s i

variable {P Q : σ → ι → Prop}

theorem Along.of_isPrefix {pre : List ι} (h : Along step P is s₀) (hpre : pre <+: is) :
    Along step P pre s₀ :=
  fun p i hp => h p i (hp.trans hpre)

theorem Along.and (h : Along step P is s₀) (h' : Along step Q is s₀) :
    Along step (fun s i => P s i ∧ Q s i) is s₀ :=
  fun p i hp s out hr => ⟨h p i hp s out hr, h' p i hp s out hr⟩

/-- A condition on the inputs alone. -/
theorem Along.of_forall (h : ∀ i ∈ is, ∀ s, P s i) : Along step P is s₀ :=
  fun _ i hp s _ _ => h i (hp.subset (by simp)) s

theorem along_congr (h : ∀ s i, P s i ↔ Q s i) : Along step P is s₀ ↔ Along step Q is s₀ := by
  unfold Along
  simp only [h]

/-- Two conditions that agree on what the run reaches. -/
theorem along_congr_of_reached
    (h : ∀ pre i, pre ++ [i] <+: is → ∀ s out, run step pre s₀ = .ok (s, out) → (P s i ↔ Q s i)) :
    Along step P is s₀ ↔ Along step Q is s₀ := by
  constructor
  · intro hP pre i hp s out hr
    exact (h pre i hp s out hr).1 (hP pre i hp s out hr)
  · intro hQ pre i hp s out hr
    exact (h pre i hp s out hr).2 (hQ pre i hp s out hr)

@[simp] theorem along_nil : Along step P [] s₀ :=
  fun _ _ hp => absurd (List.prefix_nil.1 hp) (by simp)

/-- A condition along a run holds at the first step and along the rest. -/
theorem along_cons {i : ι} : Along step P (i :: is) s ↔
    P s i ∧ ∀ s' out, step i s = .ok (s', out) → Along step P is s' := by
  constructor
  · intro h
    refine ⟨h [] i (List.prefix_append [i] is) s [] rfl, ?_⟩
    intro s' out hi pre j hp t out' hr
    exact h (i :: pre) j ((List.prefix_cons_inj i).2 hp) t _ (run_cons hi hr)
  · intro ⟨hP, h⟩ pre j hp t out hr
    cases pre with
    | nil =>
      obtain ⟨rfl, rfl⟩ : s = t ∧ [] = out := by simpa using hr
      obtain rfl : j = i := (List.cons_prefix_cons.1 hp).1
      exact hP
    | cons k pre =>
      obtain ⟨rfl, hp'⟩ := List.cons_prefix_cons.1 hp
      obtain ⟨s₁, out₁, more, hi, hr', -⟩ := run_cons_ok hr
      exact h s₁ out₁ hi pre j hp' t more hr'

theorem along_cons_of_ok {i : ι} (h : step i s = .ok (s', out)) :
    Along step P (i :: is) s ↔ P s i ∧ Along step P is s' := by
  rw [along_cons]
  refine and_congr_right fun _ => ⟨fun hrest => hrest s' out h, fun hrest s₁ out₁ h₁ => ?_⟩
  rw [h] at h₁
  cases h₁
  exact hrest

/-- What is said of a result, if there is one. -/
instance decidableForallOk {α : Type*} (x : Except ε α) (p : α → Prop) [DecidablePred p] :
    Decidable (∀ a, x = .ok a → p a) :=
  match x with
  | .ok a => decidable_of_iff (p a) ⟨fun h _ ha => Except.ok.inj ha ▸ h, fun h => h a rfl⟩
  | .error _ => .isTrue nofun

/-- A condition along a run is evaluated step by step. -/
instance decidableAlong [∀ s i, Decidable (P s i)] :
    (is : List ι) → (s : σ) → Decidable (Along step P is s)
  | [], _ => .isTrue along_nil
  | i :: is, s =>
    have : DecidablePred fun r : σ × List ο => Along step P is r.1 := fun r => decidableAlong is r.1
    decidable_of_iff (P s i ∧ ∀ r, step i s = .ok r → Along step P is r.1)
      ((and_congr_right fun _ => Prod.forall).trans along_cons.symm)

/-- Two conditions that agree wherever what they keep holds. -/
theorem along_congr_of_keep {Inv : σ → Prop} (h : ∀ s i, Inv s → (P s i ↔ Q s i))
    (keep : ∀ s i s' out, Inv s → P s i → step i s = .ok (s', out) → Inv s') (init : Inv s) :
    Along step P is s ↔ Along step Q is s := by
  induction is generalizing s with
  | nil => exact iff_of_true along_nil along_nil
  | cons i is ih =>
    rw [along_cons, along_cons, h s i init]
    refine and_congr_right fun hQ => ?_
    have hnext : ∀ s' out, step i s = .ok (s', out) → Inv s' :=
      fun s' out => keep s i s' out init ((h s i init).2 hQ)
    constructor
    · intro hrest s' out hi
      exact (ih (hnext s' out hi)).1 (hrest s' out hi)
    · intro hrest s' out hi
      exact (ih (hnext s' out hi)).2 (hrest s' out hi)

/-- A condition along a run holds along what comes first and at the last step. -/
theorem along_concat {i : ι} : Along step P (is ++ [i]) s₀ ↔
    Along step P is s₀ ∧ ∀ s out, run step is s₀ = .ok (s, out) → P s i := by
  constructor
  · intro h
    exact ⟨h.of_isPrefix (List.prefix_append ..), h is i (List.prefix_refl _)⟩
  · intro ⟨h, hP⟩ pre j hp s out hr
    rcases List.prefix_concat_iff.1 hp with heq | hp
    · obtain ⟨rfl, hj⟩ := List.append_inj' heq rfl
      obtain rfl : j = i := List.singleton_inj.1 hj
      exact hP s out hr
    · exact h pre j hp s out hr

/-- What holds at the start and is kept by every step that meets the condition holds at the end of
the run, of the inputs fed, the state and the outputs. -/
theorem invariant (Inv : List ι → σ → List ο → Prop) (init : Inv [] s₀ [])
    (keep : ∀ pre i s out s' more, Inv pre s out → P s i → step i s = .ok (s', more) →
      Inv (pre ++ [i]) s' (out ++ more))
    (along : Along step P is s₀) (h : run step is s₀ = .ok (s, out)) : Inv is s out := by
  induction is using List.reverseRecOn generalizing s out with
  | nil =>
    obtain ⟨rfl, rfl⟩ : s₀ = s ∧ [] = out := by simpa using h
    exact init
  | append_singleton is i ih =>
    obtain ⟨s₁, out₁, more, hr, hi, rfl⟩ := run_append_ok h
    have hinv := ih (along.of_isPrefix (List.prefix_append ..)) hr
    exact keep _ _ _ _ _ _ hinv (along is i (List.prefix_refl _) s₁ out₁ hr) (run_singleton_ok hi)

/-- `invariant` for steps that return whenever they meet the condition: so does the run. -/
theorem exists_run (Inv : List ι → σ → List ο → Prop) (init : Inv [] s₀ [])
    (keep : ∀ pre i s out, Inv pre s out → P s i →
      ∃ s' more, step i s = .ok (s', more) ∧ Inv (pre ++ [i]) s' (out ++ more))
    (along : Along step P is s₀) : ∃ s out, run step is s₀ = .ok (s, out) ∧ Inv is s out := by
  induction is using List.reverseRecOn with
  | nil => exact ⟨s₀, [], rfl, init⟩
  | append_singleton is i ih =>
    obtain ⟨s₁, out₁, hr, hinv⟩ := ih (along.of_isPrefix (List.prefix_append ..))
    obtain ⟨s', more, hi, hinv'⟩ :=
      keep is i s₁ out₁ hinv (along is i (List.prefix_refl _) s₁ out₁ hr)
    exact ⟨s', out₁ ++ more, run_append hr (run_singleton hi), hinv'⟩

end Run
