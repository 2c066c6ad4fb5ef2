import AeroVault.Lib.Runs

/-! Calls that share a state, one atomic statement at a time.

Each call has a phase of its own: what it has read and where it stands. A step lets one
call execute its next statement on the shared state; what the call does not control (the
clock, the reply of a server) comes with the step. Any list of steps is an interleaving.

Three rules: an assertion about the shared state and one call is kept by a step if the call's
own statements and those of every other call keep it (`Asserts.step`); a part of the shared
state that a call takes only while nothing of it is held has at most one owner (`Owned.step`);
and a counter that grows exactly when a call comes to satisfy a predicate counts the calls that
satisfy it (`Exactly.keep`, `Exactly.gain`). -/
namespace AeroVault.Lib

/-- What becomes of a statement: done, not done, or done with its reply lost. -/
inductive Reply
  | ok
  | failed
  | lost
  deriving DecidableEq

/-- The state that a statement leaves, which takes `s` to `s'` unless it fails. -/
def Reply.after {σ : Type*} (reply : Reply) (s s' : σ) : σ := if reply = .failed then s else s'

/-- The shared state, and the phase of each call. -/
structure World (σ l ι : Type*) where
  shared : σ
  phase : ι → l

namespace World

variable {σ l ι ε : Type*} [DecidableEq ι] (advance : ι → ε → σ → l → l × σ)

/-- The call `i.1` executes its next statement. -/
def step (w : World σ l ι) (i : ι × ε) : World σ l ι :=
  let next := advance i.1 i.2 w.shared (w.phase i.1)
  ⟨next.2, Function.update w.phase i.1 next.1⟩

variable {advance} {w : World σ l ι} {c c' : ι} {e : ε}

theorem shared_step : (step advance w (c, e)).shared = (advance c e w.shared (w.phase c)).2 := rfl

@[simp] theorem phase_step_self : (step advance w (c, e)).phase c = (advance c e w.shared (w.phase c)).1 :=
  Function.update_self ..

theorem phase_step_of_ne (h : c' ≠ c) : (step advance w (c, e)).phase c' = w.phase c' :=
  Function.update_of_ne h ..

/-- Every call's assertion holds of the shared state and the call's phase. -/
def Asserts (L : σ → ι → l → Prop) (w : World σ l ι) : Prop := ∀ c, L w.shared c (w.phase c)

/-- What a call's own statements and the others' statements keep, a step keeps. -/
theorem Asserts.step {L : σ → ι → l → Prop} (h : Asserts L w)
    (own : ∀ c e s p, L s c p → L (advance c e s p).2 c (advance c e s p).1)
    (others : ∀ c c' e s p p', c' ≠ c → L s c p → L s c' p' → L (advance c e s p).2 c' p')
    (i : ι × ε) : Asserts L (step advance w i) := by
  intro c'
  by_cases hc : c' = i.1
  · subst hc
    rw [phase_step_self]
    exact own _ _ _ _ (h i.1)
  · rw [phase_step_of_ne hc]
    exact others _ _ _ _ _ _ hc (h i.1) (h c')

/-- At most one call owns a part of the shared state, and the part is as its owner left it. -/
structure Owned (owns : l → Prop) (holds : σ → ι → l → Prop) (w : World σ l ι) : Prop where
  unique : ∀ c c', owns (w.phase c) → owns (w.phase c') → c = c'
  holds : ∀ c, owns (w.phase c) → holds w.shared c (w.phase c)

/-- The part stays owned if a call takes it only while nobody holds it, and a call that does not
own it leaves it as it is. -/
theorem Owned.step {owns : l → Prop} {holds : σ → ι → l → Prop} (h : Owned owns holds w)
    (own : owns (w.phase c) → owns (advance c e w.shared (w.phase c)).1 → holds w.shared c (w.phase c) →
      holds (advance c e w.shared (w.phase c)).2 c (advance c e w.shared (w.phase c)).1)
    (takes : ¬ owns (w.phase c) → owns (advance c e w.shared (w.phase c)).1 →
      (∀ c', ¬ holds w.shared c' (w.phase c')) ∧
        holds (advance c e w.shared (w.phase c)).2 c (advance c e w.shared (w.phase c)).1)
    (others : ¬ owns (w.phase c) → ∀ c', holds w.shared c' (w.phase c') →
      holds (advance c e w.shared (w.phase c)).2 c' (w.phase c')) :
    Owned owns holds (World.step advance w (c, e)) := by
  -- The only call that owns the part before and after a step of another is an owner already.
  have hself {c' : ι} (hc' : c' ≠ c) (hnow : owns (advance c e w.shared (w.phase c)).1) :
      ¬ owns (w.phase c') := by
    intro hother
    by_cases hold : owns (w.phase c)
    · exact hc' (h.unique _ _ hother hold)
    · exact (takes hold hnow).1 c' (h.holds c' hother)
  refine ⟨fun c₁ c₂ h₁ h₂ => ?_, fun c' hc' => ?_⟩
  · by_cases hc₁ : c₁ = c <;> by_cases hc₂ : c₂ = c
    · exact hc₁.trans hc₂.symm
    · rw [hc₁, phase_step_self] at h₁
      rw [phase_step_of_ne hc₂] at h₂
      exact absurd h₂ (hself hc₂ h₁)
    · rw [phase_step_of_ne hc₁] at h₁
      rw [hc₂, phase_step_self] at h₂
      exact absurd h₁ (hself hc₁ h₂)
    · rw [phase_step_of_ne hc₁] at h₁
      rw [phase_step_of_ne hc₂] at h₂
      exact h.unique _ _ h₁ h₂
  · by_cases hc : c' = c
    · subst hc
      rw [phase_step_self] at hc' ⊢
      by_cases hold : owns (w.phase c')
      · exact own hold hc' (h.holds c' hold)
      · exact (takes hold hc').2
    · rw [phase_step_of_ne hc] at hc' ⊢
      exact others (fun hold => hc (h.unique _ _ hc' hold)) c' (h.holds c' hc')

/-- Exactly `n` calls satisfy `P`. -/
def Exactly (P : ι → l → Prop) (n : Int) (w : World σ l ι) : Prop :=
  ∃ cs : Finset ι, (∀ c, c ∈ cs ↔ P c (w.phase c)) ∧ (cs.card : Int) = n

variable {P : ι → l → Prop} {n : Int}

omit [DecidableEq ι] in
theorem exactly_zero (h : ∀ c, ¬ P c (w.phase c)) : Exactly P 0 w :=
  ⟨∅, fun c => ⟨fun hc => absurd hc (Finset.notMem_empty c), fun hc => absurd hc (h c)⟩, by simp⟩

theorem Exactly.keep (h : Exactly P n w)
    (hsame : P c (advance c e w.shared (w.phase c)).1 ↔ P c (w.phase c)) :
    Exactly P n (step advance w (c, e)) := by
  obtain ⟨cs, hcs, hcr⟩ := h
  refine ⟨cs, fun x => ?_, hcr⟩
  by_cases hx : x = c
  · rw [hx, phase_step_self, hsame, hcs c]
  · rw [phase_step_of_ne hx, hcs x]

theorem Exactly.gain (h : Exactly P n w) (hnew : P c (advance c e w.shared (w.phase c)).1)
    (hold : ¬ P c (w.phase c)) : Exactly P (n + 1) (step advance w (c, e)) := by
  obtain ⟨cs, hcs, hcr⟩ := h
  have ho : c ∉ cs := fun hc => hold ((hcs c).mp hc)
  refine ⟨insert c cs, fun x => ?_, by rw [Finset.card_insert_of_notMem ho]; omega⟩
  by_cases hx : x = c
  · simp only [hx, Finset.mem_insert_self, phase_step_self, hnew]
  · rw [phase_step_of_ne hx, Finset.mem_insert, hcs x]
    simp only [hx, false_or]

omit [DecidableEq ι] in
theorem Exactly.card_le (h : Exactly P n w) {cs : Finset ι} (hcs : ∀ c ∈ cs, P c (w.phase c)) :
    (cs.card : Int) ≤ n := by
  obtain ⟨all, hall, hcr⟩ := h
  have hle := Finset.card_le_card fun c hc => (hall c).mpr (hcs c hc)
  omega

end World

end AeroVault.Lib
