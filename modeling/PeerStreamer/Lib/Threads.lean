import Mathlib.Data.Finset.Basic
import Mathlib.Logic.Function.Basic
import Mathlib.Order.WellFounded
import PeerStreamer.Lib.Run

/-!
# Threads and mutexes

Each thread runs a program: some operations once, then one round after the other, of which it has
several to choose from.  Operations take and release mutexes and enter and leave calls, and the
threads take turns in any order; a thread that wants a mutex that is taken has to wait.

`Safe` is a discipline on the text of a program: mutexes are taken in order and released within the
round, and a call happens under its guards.  It is enough for mutual exclusion (`exclusive`) and for
the absence of deadlocks: whatever has happened, every thread can still come to each of its calls
(`exists_inside`).
-/

namespace Threads

variable {T L C : Type*}

inductive Op (L C : Type*) where
  | lock (l : L)
  | unlock (l : L)
  | enter (c : C)
  | leave (c : C)
  deriving DecidableEq, Repr

/-- A call between taking some mutexes and releasing them. -/
def guarded (ls : List L) (c : C) : List (Op L C) :=
  ls.map .lock ++ [.enter c, .leave c] ++ ls.reverse.map .unlock

/-- What a thread does first, and the rounds it goes on with. -/
structure Program (L C : Type*) where
  start : List (Op L C)
  rounds : List (List (Op L C))

/-- What each thread has still to do in its round, and who has which mutex. -/
structure State (T L C : Type*) where
  todo : T → List (Op L C)
  owner : L → Option T

def State.init (prog : T → Program L C) : State T L C := ⟨fun t => (prog t).start, fun _ => none⟩

/-- The thread cannot go on. -/
inductive Blocked where
  | blocked
  deriving DecidableEq, Repr

section Step

variable [DecidableEq T] [DecidableEq L]

/-- The mutexes after an operation. -/
def perform (t : T) (owner : L → Option T) : Op L C → Except Blocked (L → Option T)
  | .lock l =>
    match owner l with
    | none => .ok (Function.update owner l (some t))
    | some _ => .error .blocked
  | .unlock l => .ok (Function.update owner l none)
  | .enter _ | .leave _ => .ok owner

/-- One operation of a thread, or the choice of its next round. -/
def step (prog : T → Program L C) (m : T × ℕ) (s : State T L C) :
    Except Blocked (State T L C × List (T × Op L C)) :=
  match s.todo m.1 with
  | [] =>
    match (prog m.1).rounds[m.2]? with
    | none => .error .blocked
    | some ops => .ok ({ s with todo := Function.update s.todo m.1 ops }, [])
  | op :: ops =>
    match perform m.1 s.owner op with
    | .error e => .error e
    | .ok owner => .ok (⟨Function.update s.todo m.1 ops, owner⟩, [(m.1, op)])

end Step

/-- The thread is in a call. -/
def Inside (s : State T L C) (t : T) (c : C) : Prop := ∃ ops, s.todo t = .leave c :: ops

/-- The texts of a program. -/
def Program.bodies (p : Program L C) : List (List (Op L C)) := p.start :: p.rounds

def Program.calls (p : Program L C) : List C :=
  p.bodies.flatten.filterMap fun
    | .leave c => some c
    | _ => none

theorem Program.mem_calls {p : Program L C} {c : C} :
    c ∈ p.calls ↔ ∃ body ∈ p.bodies, .leave c ∈ body := by
  simp only [Program.calls, List.mem_filterMap, List.mem_flatten]
  constructor
  · rintro ⟨op, ⟨body, hbody, hop⟩, heq⟩
    cases op with
    | leave d =>
      obtain rfl := Option.some_inj.1 heq
      exact ⟨body, hbody, hop⟩
    | _ => cases heq
  · rintro ⟨body, hbody, hop⟩
    exact ⟨.leave c, ⟨body, hbody, hop⟩, rfl⟩

/-! ## The discipline -/

section Discipline

variable [LT L] [DecidableEq L] (guards : C → Finset L)

/-- A text that a thread may run while it has the mutexes `held`. -/
def Safe : Finset L → List (Op L C) → Prop
  | held, [] => held = ∅
  | held, .lock l :: ops => (∀ k ∈ held, k < l) ∧ Safe (insert l held) ops
  | held, .unlock l :: ops => l ∈ held ∧ Safe (held.erase l) ops
  | held, .enter c :: ops => guards c ⊆ held ∧ Safe held ops
  | held, .leave c :: ops => guards c ⊆ held ∧ Safe held ops

instance decidableSafe [DecidableLT L] :
    (held : Finset L) → (ops : List (Op L C)) → Decidable (Safe guards held ops)
  | held, [] => inferInstanceAs (Decidable (held = ∅))
  | held, .lock l :: ops =>
    have := decidableSafe (insert l held) ops
    inferInstanceAs (Decidable ((∀ k ∈ held, k < l) ∧ Safe guards (insert l held) ops))
  | held, .unlock l :: ops =>
    have := decidableSafe (held.erase l) ops
    inferInstanceAs (Decidable (l ∈ held ∧ Safe guards (held.erase l) ops))
  | held, .enter c :: ops =>
    have := decidableSafe held ops
    inferInstanceAs (Decidable (guards c ⊆ held ∧ Safe guards held ops))
  | held, .leave c :: ops =>
    have := decidableSafe held ops
    inferInstanceAs (Decidable (guards c ⊆ held ∧ Safe guards held ops))

def Program.Safe (p : Program L C) : Prop := ∀ ops ∈ p.bodies, Threads.Safe guards ∅ ops

instance [DecidableLT L] (p : Program L C) : Decidable (p.Safe guards) :=
  inferInstanceAs (Decidable (∀ ops ∈ p.bodies, Threads.Safe guards ∅ ops))

end Discipline

/-! ## What a step does -/

section Steps

variable [DecidableEq T] [DecidableEq L] {prog : T → Program L C} {s s' : State T L C} {t : T}
  {k : ℕ} {out : List (T × Op L C)}

/-- A step of thread `t`: the next round, or the next operation. -/
inductive Stepped (prog : T → Program L C) (s : State T L C) (t : T) : State T L C → Prop where
  | round {ops : List (Op L C)} (h : s.todo t = []) (hops : ops ∈ (prog t).rounds) :
    Stepped prog s t ⟨Function.update s.todo t ops, s.owner⟩
  | lock {l : L} {ops : List (Op L C)} (h : s.todo t = .lock l :: ops) (hfree : s.owner l = none) :
    Stepped prog s t ⟨Function.update s.todo t ops, Function.update s.owner l (some t)⟩
  | unlock {l : L} {ops : List (Op L C)} (h : s.todo t = .unlock l :: ops) :
    Stepped prog s t ⟨Function.update s.todo t ops, Function.update s.owner l none⟩
  | enter {c : C} {ops : List (Op L C)} (h : s.todo t = .enter c :: ops) :
    Stepped prog s t ⟨Function.update s.todo t ops, s.owner⟩
  | leave {c : C} {ops : List (Op L C)} (h : s.todo t = .leave c :: ops) :
    Stepped prog s t ⟨Function.update s.todo t ops, s.owner⟩

theorem stepped (h : step prog (t, k) s = .ok (s', out)) : Stepped prog s t s' := by
  unfold step at h
  dsimp only at h
  split at h
  · rename_i htodo
    split at h
    · cases h
    · rename_i ops hops
      cases h
      exact .round htodo (List.mem_of_getElem? hops)
  · rename_i op ops htodo
    cases op with
    | lock l =>
      cases hl : s.owner l with
      | none =>
        simp only [perform, hl] at h
        cases h
        exact .lock htodo hl
      | some _ =>
        simp only [perform, hl] at h
        cases h
    | unlock l =>
      cases h
      exact .unlock htodo
    | enter c =>
      cases h
      exact .enter htodo
    | leave c =>
      cases h
      exact .leave htodo

/-- Every such step can be taken. -/
theorem Stepped.exists_step (h : Stepped prog s t s') :
    ∃ k out, step prog (t, k) s = .ok (s', out) := by
  cases h with
  | round h hops =>
    obtain ⟨k, hk⟩ := List.getElem?_of_mem hops
    refine ⟨k, [], ?_⟩
    simp only [step, h, hk]
  | @lock l ops h hfree =>
    refine ⟨0, [(t, .lock l)], ?_⟩
    simp only [step, h, perform, hfree]
  | @unlock l ops h =>
    refine ⟨0, [(t, .unlock l)], ?_⟩
    simp only [step, h, perform]
  | @enter c ops h =>
    refine ⟨0, [(t, .enter c)], ?_⟩
    simp only [step, h, perform]
  | @leave c ops h =>
    refine ⟨0, [(t, .leave c)], ?_⟩
    simp only [step, h, perform]

end Steps

/-! ## Mutual exclusion -/

section Exclusion

variable [DecidableEq T] [DecidableEq L] [LT L] {prog : T → Program L C} {guards : C → Finset L}
  {s s' : State T L C} {t t' : T} {c c' : C}

/-- Each thread may run the rest of its round with the mutexes that it has, and the rest is part of
its program. -/
structure Ordered (prog : T → Program L C) (guards : C → Finset L) (s : State T L C) : Prop where
  safe : ∀ t, ∃ held, (∀ l, l ∈ held ↔ s.owner l = some t) ∧ Safe guards held (s.todo t)
  text : ∀ t, ∃ body ∈ (prog t).bodies, s.todo t <:+ body

omit [DecidableEq T] in
theorem Ordered.init (hprog : ∀ t, (prog t).Safe guards) : Ordered prog guards (.init prog) where
  safe t := ⟨∅, fun l => ⟨fun h => absurd h (Finset.notMem_empty l), fun h => nomatch h⟩,
    hprog t _ (List.mem_cons_self ..)⟩
  text _ := ⟨_, List.mem_cons_self .., List.suffix_refl _⟩

/-- The step of one thread leaves the other ones with what they have. -/
theorem Ordered.update (h : Ordered prog guards s) {ops : List (Op L C)} {owner : L → Option T}
    (hmine : ∃ held, (∀ l, l ∈ held ↔ owner l = some t) ∧ Safe guards held ops)
    (hothers : ∀ t' ≠ t, ∀ l, owner l = some t' ↔ s.owner l = some t')
    (htext : ∃ body ∈ (prog t).bodies, ops <:+ body) :
    Ordered prog guards ⟨Function.update s.todo t ops, owner⟩ where
  safe t' := by
    by_cases ht : t' = t
    · subst ht
      dsimp only
      rwa [Function.update_self]
    · obtain ⟨held, hheld, hsafe⟩ := h.safe t'
      dsimp only
      rw [Function.update_of_ne ht]
      exact ⟨held, fun l => (hheld l).trans (hothers t' ht l).symm, hsafe⟩
  text t' := by
    by_cases ht : t' = t
    · subst ht
      dsimp only
      rwa [Function.update_self]
    · dsimp only
      rw [Function.update_of_ne ht]
      exact h.text t'

omit [DecidableEq T] in
/-- What is left of a text after an operation. -/
theorem Ordered.tail (h : Ordered prog guards s) {op : Op L C} {ops : List (Op L C)}
    (htodo : s.todo t = op :: ops) : ∃ body ∈ (prog t).bodies, ops <:+ body := by
  obtain ⟨body, hbody, hsuffix⟩ := h.text t
  rw [htodo] at hsuffix
  exact ⟨body, hbody, (List.suffix_cons op ops).trans hsuffix⟩

theorem Ordered.step (hprog : ∀ t, (prog t).Safe guards) (h : Ordered prog guards s)
    (hs : Stepped prog s t s') : Ordered prog guards s' := by
  obtain ⟨held, hheld, hsafe⟩ := h.safe t
  cases hs with
  | @round ops htodo hops =>
    rw [htodo] at hsafe
    obtain rfl : held = ∅ := hsafe
    have hmem : ops ∈ (prog t).bodies := List.mem_cons_of_mem _ hops
    exact h.update ⟨∅, hheld, hprog t ops hmem⟩ (fun _ _ _ => Iff.rfl)
      ⟨ops, hmem, List.suffix_refl _⟩
  | @lock l ops htodo hfree =>
    rw [htodo] at hsafe
    refine h.update ⟨insert l held, fun k => ?_, hsafe.2⟩ (fun t' ht k => ?_) (h.tail htodo)
    · rw [Finset.mem_insert, hheld]
      by_cases hk : k = l
      · simp [hk]
      · simp [hk]
    · by_cases hk : k = l
      · simp [hk, hfree, Ne.symm ht]
      · simp [hk]
  | @unlock l ops htodo =>
    rw [htodo] at hsafe
    refine h.update ⟨held.erase l, fun k => ?_, hsafe.2⟩ (fun t' ht k => ?_) (h.tail htodo)
    · rw [Finset.mem_erase, hheld]
      by_cases hk : k = l
      · simp [hk]
      · simp [hk]
    · by_cases hk : k = l
      · -- the mutex was this thread's
        have hmine := (hheld l).1 hsafe.1
        simp [hk, hmine, Ne.symm ht]
      · simp [hk]
  | @enter c ops htodo =>
    rw [htodo] at hsafe
    exact h.update ⟨held, hheld, hsafe.2⟩ (fun _ _ _ => Iff.rfl) (h.tail htodo)
  | @leave c ops htodo =>
    rw [htodo] at hsafe
    exact h.update ⟨held, hheld, hsafe.2⟩ (fun _ _ _ => Iff.rfl) (h.tail htodo)

theorem Ordered.run (hprog : ∀ t, (prog t).Safe guards) (h : Ordered prog guards s)
    {moves : List (T × ℕ)} {out : List (T × Op L C)}
    (hr : Run.run (Threads.step prog) moves s = .ok (s', out)) : Ordered prog guards s' := by
  refine Run.invariant (P := fun _ _ => True) (fun _ s _ => Ordered prog guards s) h ?_
    (fun _ _ _ _ _ _ => trivial) hr
  intro pre m s out s' more hs _ hstep
  exact hs.step hprog (stepped hstep)

omit [DecidableEq T] in
/-- A thread in a call has the guards of the call. -/
theorem Ordered.guards_owned (h : Ordered prog guards s) (hc : Inside s t c) {l : L}
    (hl : l ∈ guards c) : s.owner l = some t := by
  obtain ⟨held, hheld, hsafe⟩ := h.safe t
  obtain ⟨ops, htodo⟩ := hc
  rw [htodo] at hsafe
  exact (hheld l).1 (hsafe.1 hl)

omit [DecidableEq T] in
theorem Ordered.mem_calls (h : Ordered prog guards s) (hc : Inside s t c) : c ∈ (prog t).calls := by
  obtain ⟨body, hbody, hsuffix⟩ := h.text t
  obtain ⟨ops, htodo⟩ := hc
  rw [htodo] at hsuffix
  exact Program.mem_calls.2 ⟨body, hbody, hsuffix.subset (List.mem_cons_self ..)⟩

omit [DecidableEq T] in
/-- Two threads are never at once in calls with a common guard. -/
theorem exclusive (h : Ordered prog guards s) (hne : t ≠ t') (hc : Inside s t c)
    (hc' : Inside s t' c') : Disjoint (guards c) (guards c') := by
  rw [Finset.disjoint_left]
  intro l hl hl'
  have hmine := h.guards_owned hc hl
  have htheirs := h.guards_owned hc' hl'
  exact hne (Option.some_inj.1 (hmine.symm.trans htheirs))

end Exclusion

/-! ## Progress -/

section Progress

variable [DecidableEq T] [DecidableEq L] [Preorder L] {prog : T → Program L C}
  {guards : C → Finset L} {s s' s'' : State T L C} {t : T} {c : C}

/-- Some moves lead from one state to the other. -/
def Leads (prog : T → Program L C) (s s' : State T L C) : Prop :=
  ∃ moves out, Run.run (step prog) moves s = .ok (s', out)

omit [Preorder L] in
theorem Leads.refl (s : State T L C) : Leads prog s s := ⟨[], [], rfl⟩

omit [Preorder L] in
theorem Leads.trans (h : Leads prog s s') (h' : Leads prog s' s'') : Leads prog s s'' := by
  obtain ⟨moves, out, hr⟩ := h
  obtain ⟨moves', out', hr'⟩ := h'
  exact ⟨_, _, Run.run_append hr hr'⟩

omit [Preorder L] in
theorem Stepped.leads (h : Stepped prog s t s') : Leads prog s s' := by
  obtain ⟨k, out, hk⟩ := h.exists_step
  exact ⟨[(t, k)], out, Run.run_singleton hk⟩

theorem Ordered.leads (hprog : ∀ t, (prog t).Safe guards) (h : Ordered prog guards s)
    (hl : Leads prog s s') : Ordered prog guards s' := by
  obtain ⟨moves, out, hr⟩ := hl
  exact h.run hprog hr

/-- The thread is left with what it had to do and with the mutexes it had. -/
structure Waits (t : T) (s s' : State T L C) : Prop where
  todo : s'.todo t = s.todo t
  owner : ∀ l, s'.owner l = some t ↔ s.owner l = some t

omit [DecidableEq T] [DecidableEq L] [Preorder L] in
theorem Waits.refl (t : T) (s : State T L C) : Waits t s s := ⟨rfl, fun _ => Iff.rfl⟩

omit [DecidableEq T] [DecidableEq L] [Preorder L] in
theorem Waits.trans (h : Waits t s s') (h' : Waits t s' s'') : Waits t s s'' :=
  ⟨h'.todo.trans h.todo, fun l => (h'.owner l).trans (h.owner l)⟩

/-- While one thread goes on, the other ones wait. -/
theorem Stepped.waits (h : Ordered prog guards s) (hs : Stepped prog s t s') {t' : T}
    (hne : t' ≠ t) : Waits t' s s' := by
  obtain ⟨held, hheld, hsafe⟩ := h.safe t
  cases hs with
  | round htodo hops => exact ⟨Function.update_of_ne hne .., fun _ => Iff.rfl⟩
  | @lock l ops htodo hfree =>
    refine ⟨Function.update_of_ne hne .., fun k => ?_⟩
    by_cases hk : k = l
    · simp [hk, hfree, Ne.symm hne]
    · simp [hk]
  | @unlock l ops htodo =>
    rw [htodo] at hsafe
    refine ⟨Function.update_of_ne hne .., fun k => ?_⟩
    by_cases hk : k = l
    · simp [hk, (hheld l).1 hsafe.1, Ne.symm hne]
    · simp [hk]
  | enter htodo => exact ⟨Function.update_of_ne hne .., fun _ => Iff.rfl⟩
  | leave htodo => exact ⟨Function.update_of_ne hne .., fun _ => Iff.rfl⟩

/-- All mutexes of the thread come before this one. -/
def Below (l : L) (s : State T L C) (t : T) : Prop := ∀ k, s.owner k = some t → k < l

omit [DecidableEq T] [DecidableEq L] in
theorem Below.waits {l : L} (h : Below l s t) (hw : Waits t s s') : Below l s' t :=
  fun k hk => h k ((hw.owner k).1 hk)

/-- A mutex that is taken can be released, while all threads wait that have only mutexes before it:
its owner goes on, and what it waits for comes later in the order. -/
theorem exists_release [WellFoundedGT L] (hprog : ∀ t, (prog t).Safe guards) (l : L) :
    ∀ s : State T L C, Ordered prog guards s → s.owner l ≠ none →
      ∃ s', Leads prog s s' ∧ s'.owner l = none ∧ ∀ t, Below l s t → Waits t s s' := by
  induction l using WellFoundedGT.induction with
  | ind l ih =>
    intro s h hl
    obtain ⟨t, hown⟩ := Option.ne_none_iff_exists'.1 hl
    -- the induction is on what the owner has still to do in its round
    obtain ⟨ops, htodo⟩ : ∃ ops, s.todo t = ops := ⟨_, rfl⟩
    clear hl
    induction ops generalizing s with
    | nil =>
      obtain ⟨held, hheld, hsafe⟩ := h.safe t
      rw [htodo] at hsafe
      obtain rfl : held = ∅ := hsafe
      exact absurd ((hheld l).2 hown) (Finset.notMem_empty l)
    | cons op ops ihops =>
      -- one operation of the owner, which keeps the mutex
      have hgo : ∀ s₀ s₁, Ordered prog guards s₀ → s₀.owner l = some t → Stepped prog s₀ t s₁ →
          s₁.owner l = some t → s₁.todo t = ops →
          ∃ s', Leads prog s₀ s' ∧ s'.owner l = none ∧ ∀ t', Below l s₀ t' → Waits t' s₀ s' := by
        intro s₀ s₁ h₀ hown₀ hs hown₁ htodo₁
        obtain ⟨s', hleads, hfree, hwaits⟩ := ihops s₁ (h₀.step hprog hs) hown₁ htodo₁
        refine ⟨s', hs.leads.trans hleads, hfree, fun t' ht' => ?_⟩
        have hne : t' ≠ t := by
          rintro rfl
          exact lt_irrefl l (ht' l hown₀)
        have hw := hs.waits h₀ hne
        exact hw.trans (hwaits t' (ht'.waits hw))
      obtain ⟨held, hheld, hsafe⟩ := h.safe t
      rw [htodo] at hsafe
      cases op with
      | lock k =>
        have hlt : l < k := hsafe.1 l ((hheld l).2 hown)
        have hstep : ∀ s₀ : State T L C, s₀.todo t = .lock k :: ops → s₀.owner k = none →
            Ordered prog guards s₀ → s₀.owner l = some t →
            ∃ s', Leads prog s₀ s' ∧ s'.owner l = none ∧
              ∀ t', Below l s₀ t' → Waits t' s₀ s' := by
          intro s₀ htodo₀ hfree₀ h₀ hown₀
          refine hgo s₀ _ h₀ hown₀ (.lock htodo₀ hfree₀) ?_ (Function.update_self ..)
          exact (Function.update_of_ne hlt.ne ..).trans hown₀
        by_cases hk : s.owner k = none
        · exact hstep s htodo hk h hown
        · -- the mutex that is waited for is released first, and this thread waits for it
          obtain ⟨s₀, hleads₀, hfree₀, hwaits₀⟩ := ih k hlt s h hk
          have hw := hwaits₀ t fun j hj => hsafe.1 j ((hheld j).2 hj)
          obtain ⟨s', hleads, hfree, hwaits⟩ := hstep s₀ (hw.todo.trans htodo) hfree₀
            (h.leads hprog hleads₀) ((hw.owner l).2 hown)
          refine ⟨s', hleads₀.trans hleads, hfree, fun t' ht' => ?_⟩
          have hw' := hwaits₀ t' fun j hj => (ht' j hj).trans hlt
          exact hw'.trans (hwaits t' (ht'.waits hw'))
      | unlock k =>
        by_cases hk : k = l
        · subst hk
          have hs : Stepped prog s t _ := .unlock htodo
          refine ⟨_, hs.leads, Function.update_self .., fun t' ht' => hs.waits h ?_⟩
          rintro rfl
          exact lt_irrefl k (ht' k hown)
        · refine hgo s _ h hown (.unlock htodo) ?_ (Function.update_self ..)
          exact (Function.update_of_ne (Ne.symm hk) ..).trans hown
      | enter c => exact hgo s _ h hown (.enter htodo) hown (Function.update_self ..)
      | leave c => exact hgo s _ h hown (.leave htodo) hown (Function.update_self ..)

/-- A thread can go on to any place in its round. -/
theorem exists_go [WellFoundedGT L] (hprog : ∀ t, (prog t).Safe guards) (t : T)
    (xs ys : List (Op L C)) (s : State T L C) (h : Ordered prog guards s)
    (htodo : s.todo t = xs ++ ys) : ∃ s', Leads prog s s' ∧ s'.todo t = ys := by
  induction xs generalizing s with
  | nil => exact ⟨s, .refl s, htodo⟩
  | cons op xs ih =>
    rw [List.cons_append] at htodo
    have hgo : ∀ s₀ s₁, Ordered prog guards s₀ → Stepped prog s₀ t s₁ → s₁.todo t = xs ++ ys →
        ∃ s', Leads prog s₀ s' ∧ s'.todo t = ys := by
      intro s₀ s₁ h₀ hs htodo₁
      obtain ⟨s', hleads, htodo'⟩ := ih s₁ (h₀.step hprog hs) htodo₁
      exact ⟨s', hs.leads.trans hleads, htodo'⟩
    cases op with
    | lock l =>
      by_cases hl : s.owner l = none
      · exact hgo s _ h (.lock htodo hl) (Function.update_self ..)
      · obtain ⟨held, hheld, hsafe⟩ := h.safe t
        rw [htodo] at hsafe
        obtain ⟨s₀, hleads₀, hfree₀, hwaits₀⟩ := exists_release hprog l s h hl
        have hw := hwaits₀ t fun j hj => hsafe.1 j ((hheld j).2 hj)
        obtain ⟨s', hleads, htodo'⟩ := hgo s₀ _ (h.leads hprog hleads₀)
          (.lock (hw.todo.trans htodo) hfree₀) (Function.update_self ..)
        exact ⟨s', hleads₀.trans hleads, htodo'⟩
    | unlock l => exact hgo s _ h (.unlock htodo) (Function.update_self ..)
    | enter c => exact hgo s _ h (.enter htodo) (Function.update_self ..)
    | leave c => exact hgo s _ h (.leave htodo) (Function.update_self ..)

/-- Whatever has happened, a thread can still come to each call of its rounds. -/
theorem exists_inside [WellFoundedGT L] (hprog : ∀ t, (prog t).Safe guards)
    (h : Ordered prog guards s) (t : T) {body : List (Op L C)} (hbody : body ∈ (prog t).rounds)
    (hc : .leave c ∈ body) : ∃ s', Leads prog s s' ∧ Inside s' t c := by
  obtain ⟨s₁, hleads₁, htodo₁⟩ := exists_go hprog t (s.todo t) [] s h (List.append_nil _).symm
  have h₁ := h.leads hprog hleads₁
  have hround : Stepped prog s₁ t _ := .round htodo₁ hbody
  obtain ⟨pre, post, rfl⟩ := List.append_of_mem hc
  obtain ⟨s₂, hleads₂, htodo₂⟩ := exists_go hprog t pre (.leave c :: post) _
    (h₁.step hprog hround) (Function.update_self ..)
  exact ⟨s₂, hleads₁.trans (hround.leads.trans hleads₂), post, htodo₂⟩

end Progress

end Threads
