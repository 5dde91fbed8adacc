import PeerStreamer.Lib.Network

/-!
# What parties believe of each other

A party learns what holds of another one from its messages, and takes for granted what it has told
it.  What holds of a party goes on to hold, no party reports of itself what does not hold, and what
a party is told holds of it from then on.

So what a party believes of another one holds of it, or the party has told it so in a message that
was not handled yet (`run_knowing`).
-/

namespace Network

variable {N σ α β M ε F : Type*}

/-- Facts about parties: which of them hold, which ones are believed of whom, and what a message
reports of its sender and tells its addressee. -/
structure Facts (N σ M F : Type*) where
  holds : σ → F → Prop
  believes : σ → N → F → Prop
  reports : M → F → Prop
  tells : M → F → Prop

namespace Facts

variable (K : Facts N σ M F)

/-- A party that goes from `s` to `s'` comes to believe only what it has heard or tells. -/
structure Learns (s s' : σ) (outs : List (N × M)) (heard : N → F → Prop) : Prop where
  holds : ∀ f, K.holds s f → K.holds s' f
  reports : ∀ o ∈ outs, ∀ f, K.reports o.2 f → K.holds s' f
  believes : ∀ n f, K.believes s' n f →
    K.believes s n f ∨ heard n f ∨ ∃ o ∈ outs, o.1 = n ∧ K.tells o.2 f

/-- Party `n` has told party `m`, by a message that is still on its way if none is ever lost. -/
def Told (lossless : Prop) (w : Net N σ M) (sent : List (Packet N M)) (n m : N) (f : F) : Prop :=
  ∃ p ∈ sent, p.src = n ∧ p.dst = m ∧ K.tells p.body f ∧ (lossless → p ∈ w.flight)

/-- What is reported by messages on their way holds, and what is believed holds or was told. -/
structure Sound (lossless : Prop) (w : Net N σ M) (sent : List (Packet N M)) : Prop where
  reports : ∀ p ∈ w.flight, ∀ f, K.reports p.body f → K.holds (w.states p.src) f
  believes : ∀ n m f, K.believes (w.states n) m f →
    K.holds (w.states m) f ∨ K.Told lossless w sent n m f

variable {K} {s s' s'' : σ} {outs more : List (N × M)} {heard : N → F → Prop}

theorem Learns.refl (s : σ) : K.Learns s s [] heard where
  holds _ hf := hf
  reports _ ho := absurd ho List.not_mem_nil
  believes _ _ hf := .inl hf

theorem Learns.append (h : K.Learns s s' outs heard) (h' : K.Learns s' s'' more heard) :
    K.Learns s s'' (outs ++ more) heard where
  holds f hf := h'.holds f (h.holds f hf)
  reports o ho f hf := by
    rcases List.mem_append.1 ho with ho | ho
    · exact h'.holds f (h.reports o ho f hf)
    · exact h'.reports o ho f hf
  believes n f hf := by
    rcases h'.believes n f hf with hf | hf | ⟨o, ho, hto, hf⟩
    · rcases h.believes n f hf with hf | hf | ⟨o, ho, hto, hf⟩
      · exact .inl hf
      · exact .inr (.inl hf)
      · exact .inr (.inr ⟨o, List.mem_append_left _ ho, hto, hf⟩)
    · exact .inr (.inl hf)
    · exact .inr (.inr ⟨o, List.mem_append_right _ ho, hto, hf⟩)

end Facts

/-- Parties that keep to `I`, get messages that keep to `J` and act as `A` allows. -/
structure Knowing (sys : System N σ α β M ε) (A : N → σ → α → Prop) (I : N → σ → Prop)
    (J : N → N → M → Prop) (K : Facts N σ M F) : Prop where
  act : ∀ n a s s' outs, A n s a → I n s → sys.act n a s = .ok (s', outs) →
    K.Learns s s' outs fun _ _ => False
  handle : ∀ n b src m s s' outs, I n s → J src n m → sys.handle n b src m s = .ok (s', outs) →
    K.Learns s s' outs fun q f => q = src ∧ K.reports m f
  heeds : ∀ n b src m s f, I n s → J src n m → K.tells m f →
    ∃ s' outs, sys.handle n b src m s = .ok (s', outs) ∧ K.holds s' f

section Runs

variable [DecidableEq N] {sys : System N σ α β M ε} {A : N → α → Prop} {B : N → σ → α → Prop}
  {I : N → σ → Prop} {J : N → N → M → Prop} {K : Facts N σ M F} {w w' : Net N σ M}
  {sent ps : List (Packet N M)} {m : Move N α β} {lossless : Prop}

namespace Facts

/-- What holds of the parties goes on to hold when one of them goes on. -/
theorem Learns.holds_post {n : N} {cause : Option ℕ} {s : σ} {outs : List (N × M)}
    {heard : N → F → Prop} (h : K.Learns (w.states n) s outs heard) (q : N) {f : F}
    (hf : K.holds (w.states q) f) : K.holds ((w.post n cause s outs).states q) f := by
  show K.holds (Function.update w.states n s q) f
  by_cases hq : q = n
  · subst hq
    rw [Function.update_self]
    exact h.holds f hf
  · rwa [Function.update_of_ne hq]

/-- When a party goes on, what is believed holds now or was told before. -/
theorem sound_post {n : N} {cause : Option ℕ} {s : σ} {outs : List (N × M)}
    {heard : N → F → Prop} (hlearns : K.Learns (w.states n) s outs heard)
    (hheard : ∀ q f, heard q f → K.holds (w.states q) f)
    (hreports : ∀ p ∈ w.flight, ∀ f, K.reports p.body f → K.holds (w.states p.src) f)
    (hbelieves : ∀ a b f, K.believes (w.states a) b f →
      K.holds ((w.post n cause s outs).states b) f ∨ K.Told lossless w sent a b f) :
    K.Sound lossless (w.post n cause s outs) (sent ++ packets n cause w.next outs) := by
  refine ⟨fun p hp f hf => ?_, fun a b f hf => ?_⟩
  · rcases List.mem_append.1 hp with hp | hp
    · exact hlearns.holds_post p.src (hreports p hp f hf)
    · obtain ⟨rfl, -, hmem⟩ := of_mem_packets hp
      show K.holds (Function.update w.states p.src s p.src) f
      rw [Function.update_self]
      exact hlearns.reports _ hmem f hf
  · have hold : K.believes (w.states a) b f →
        K.holds ((w.post n cause s outs).states b) f ∨
          K.Told lossless (w.post n cause s outs) (sent ++ packets n cause w.next outs) a b f := by
      intro hf
      rcases hbelieves a b f hf with hholds | ⟨p, hp, hsrc, hdst, htells, hflight⟩
      · exact .inl hholds
      · exact .inr ⟨p, List.mem_append_left _ hp, hsrc, hdst, htells,
          fun hl => List.mem_append_left _ (hflight hl)⟩
    have hstate : K.believes (Function.update w.states n s a) b f := hf
    by_cases ha : a = n
    · subst ha
      rw [Function.update_self] at hstate
      rcases hlearns.believes b f hstate with hbefore | hnew | ⟨o, ho, rfl, htells⟩
      · exact hold hbefore
      · exact .inl (hlearns.holds_post b (hheard b f hnew))
      · rw [← outbox_packets_self a cause w.next outs, mem_outbox] at ho
        obtain ⟨p, hp, hsrc, rfl⟩ := ho
        exact .inr ⟨p, List.mem_append_right _ hp, hsrc, rfl, htells,
          fun _ => List.mem_append_right _ hp⟩
    · rw [Function.update_of_ne ha] at hstate
      exact hold hstate

omit [DecidableEq N] in
/-- A packet that is taken off the net is the one at that place, or another one is left. -/
theorem Told.drop {n q : N} {f : F} (h : K.Told lossless w sent n q f) (k : ℕ) :
    K.Told lossless (w.drop k) sent n q f ∨
      lossless ∧ ∃ p, w.flight[k]? = some p ∧ p.dst = q ∧ K.tells p.body f := by
  obtain ⟨p, hp, hsrc, hdst, htells, hflight⟩ := h
  by_cases hdrop : lossless → p ∈ (w.drop k).flight
  · exact .inl ⟨p, hp, hsrc, hdst, htells, hdrop⟩
  · rw [Classical.not_imp] at hdrop
    obtain ⟨hl, hnot⟩ := hdrop
    obtain ⟨i, hi⟩ := List.mem_iff_getElem?.1 (hflight hl)
    have hik : i = k := by
      by_contra hne
      exact hnot (List.mem_eraseIdx_iff_getElem?.2 ⟨i, hne, hi⟩)
    exact .inr ⟨hl, p, hik ▸ hi, hdst, htells⟩

omit [DecidableEq N] in
theorem Sound.lose (h : K.Sound lossless w sent) (k : ℕ) (hl : ¬ lossless) :
    K.Sound lossless (w.drop k) sent := by
  refine ⟨fun p hp => h.reports p ((List.eraseIdx_sublist ..).subset hp), fun n q f hf => ?_⟩
  rcases h.believes n q f hf with hholds | htold
  · exact .inl hholds
  · exact .inr ((htold.drop k).resolve_right fun hlost => hl hlost.1)

end Facts

/-- A packet that is handled: what it tells holds of the party from then on. -/
theorem Knowing.deliver (hsys : Knowing sys B I J K) (hkept : Local.Kept I J w sent)
    (h : K.Sound lossless w sent) {k : ℕ} {b : β} {p : Packet N M} {s : σ}
    {outs : List (N × M)} (hp : w.flight[k]? = some p)
    (hh : sys.handle p.dst b p.src p.body (w.states p.dst) = .ok (s, outs)) :
    K.Sound lossless ((w.drop k).post p.dst (some p.num) s outs)
      (sent ++ packets p.dst (some p.num) w.next outs) := by
  have hmem := List.mem_of_getElem? hp
  have hlearns : K.Learns ((w.drop k).states p.dst) s outs fun q f =>
      q = p.src ∧ K.reports p.body f :=
    hsys.handle p.dst b p.src p.body _ s outs (hkept.states p.dst) (hkept.flight p hmem) hh
  refine Facts.sound_post hlearns ?_ ?_ ?_
  · rintro q f ⟨rfl, hf⟩
    exact h.reports p hmem f hf
  · intro p' hp'
    exact h.reports p' ((List.eraseIdx_sublist ..).subset hp')
  · intro n q f hf
    rcases h.believes n q f hf with hholds | htold
    · exact .inl (hlearns.holds_post q hholds)
    · rcases htold.drop k with htold | ⟨-, p', hp', rfl, htells⟩
      · exact .inr htold
      · obtain rfl := Option.some.inj (hp.symm.trans hp')
        obtain ⟨s', outs', hok, hholds⟩ :=
          hsys.heeds p.dst b p.src p.body _ f (hkept.states p.dst) (hkept.flight p hmem) htells
        obtain ⟨rfl, -⟩ := Prod.mk.inj (Except.ok.inj (hok.symm.trans hh))
        left
        show K.holds (Function.update w.states p.dst s' p.dst) f
        rwa [Function.update_self]

omit [DecidableEq N] in
/-- A packet that cannot be handled tells nothing. -/
theorem Knowing.deliverFailed (hsys : Knowing sys B I J K) (hkept : Local.Kept I J w sent)
    (h : K.Sound lossless w sent) {k : ℕ} {b : β} {p : Packet N M} {e : ε}
    (hp : w.flight[k]? = some p)
    (hh : sys.handle p.dst b p.src p.body (w.states p.dst) = .error e) :
    K.Sound lossless (w.drop k) sent := by
  have hmem := List.mem_of_getElem? hp
  refine ⟨fun p' hp' => h.reports p' ((List.eraseIdx_sublist ..).subset hp'), fun n q f hf => ?_⟩
  rcases h.believes n q f hf with hholds | htold
  · exact .inl hholds
  · rcases htold.drop k with htold | ⟨-, p', hp', rfl, htells⟩
    · exact .inr htold
    · obtain rfl := Option.some.inj (hp.symm.trans hp')
      obtain ⟨s', outs', hok, -⟩ :=
        hsys.heeds p.dst b p.src p.body _ f (hkept.states p.dst) (hkept.flight p hmem) htells
      cases hok.symm.trans hh

theorem Knowing.step (hsys : Knowing sys B I J K) (hkept : Local.Kept I J w sent)
    (h : K.Sound lossless w sent) (hm : m.Allowed fun n a => B n (w.states n) a)
    (hl : ∀ k, m = .lose k → ¬ lossless) (hs : Stepped sys w m w' ps) :
    K.Sound lossless w' (sent ++ ps) := by
  cases hs with
  | actFailed =>
    rwa [List.append_nil]
  | nothing =>
    rwa [List.append_nil]
  | deliverFailed hp hh =>
    rw [List.append_nil]
    exact hsys.deliverFailed hkept h hp hh
  | lose k =>
    rw [List.append_nil]
    exact h.lose k (hl k rfl)
  | @act n a s outs hact =>
    have hlearns := hsys.act n a _ s outs hm (hkept.states n) hact
    refine Facts.sound_post hlearns (fun _ _ hf => hf.elim) h.reports fun q r f hf => ?_
    exact (h.believes q r f hf).imp_left fun hholds => hlearns.holds_post r hholds
  | deliver hp hh => exact hsys.deliver hkept h hp hh

/-- In every run, what a party believes of another one holds of it or was told by the party; and if
no packet is lost, what was told and does not hold is still on its way. -/
theorem run_knowing (hlocal : LocalOn sys A I J) (hsys : Knowing sys B I J K)
    {moves : List (Move N α β)} {states : N → σ} (hmoves : ∀ m ∈ moves, m.Allowed A)
    (hacts : Run.Along (Network.step sys) (fun w m => m.Allowed fun n a => B n (w.states n) a)
      moves (Net.init states))
    (hinit : ∀ n, I n (states n))
    (hbelieves : ∀ n q f, K.believes (states n) q f → K.holds (states q) f)
    (h : Run.run (Network.step sys) moves (Net.init states) = .ok (w, sent)) :
    K.Sound (∀ k, .lose k ∉ moves) w sent := by
  have hmem : Run.Along (Network.step sys) (fun _ m => m.Allowed A ∧ m ∈ moves) moves
      (Net.init states) := .of_forall fun m hm _ => ⟨hmoves m hm, hm⟩
  have hinv : Local.Kept I J w sent ∧ K.Sound (∀ k, .lose k ∉ moves) w sent := by
    refine Run.invariant
      (fun _ w sent => Local.Kept I J w sent ∧ K.Sound (∀ k, .lose k ∉ moves) w sent)
      ⟨⟨hinit, by simp [Net.init], by simp⟩, by simp [Net.init], ?_⟩ ?_ (hmem.and hacts) h
    · intro n q f hf
      exact .inl (hbelieves n q f hf)
    · rintro pre m w sent w' more ⟨hkept, hsound⟩ ⟨⟨hA, hm⟩, hB⟩ hstep
      have hs := stepped hstep
      refine ⟨hlocal.step hkept hA hs, hsys.step hkept hsound hB ?_ hs⟩
      rintro k rfl hl
      exact hl k hm
  exact hinv.2

end Runs

end Network
