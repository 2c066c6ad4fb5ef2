import Mathlib

/-! Runs of a deterministic machine, and what holds along them.

A machine is a step function on states; a run consumes a list of inputs. Two
things are said of a run: that a predicate holds in every state it passes
through (`Always`), and that every input meets a condition in the state it is
consumed in (`Each`). An invariant turns the second into the first, and when the
condition is exact on one step it is exact on whole runs (`always_iff_each`). -/
namespace AeroVault.Lib

variable {σ ι : Type*} (step : σ → ι → σ)

def run (s : σ) : List ι → σ
  | [] => s
  | i :: rest => run (step s i) rest

/-- `P` holds in every state of the run, the first and the last included. -/
def Always (P : σ → Prop) (s : σ) : List ι → Prop
  | [] => P s
  | i :: rest => P s ∧ Always P (step s i) rest

/-- Every input of the run meets `R` in the state it is consumed in. -/
def Each (R : σ → ι → Prop) (s : σ) : List ι → Prop
  | [] => True
  | i :: rest => R s i ∧ Each R (step s i) rest

instance decidableEach {R : σ → ι → Prop} [∀ s i, Decidable (R s i)] (s : σ) :
    (ins : List ι) → Decidable (Each step R s ins)
  | [] => isTrue True.intro
  | i :: rest => @instDecidableAnd (R s i) (Each step R (step s i) rest) _ (decidableEach (step s i) rest)

variable {step}

theorem run_append (s : σ) (ins ins' : List ι) :
    run step s (ins ++ ins') = run step (run step s ins) ins' := by
  induction ins generalizing s with
  | nil => rfl
  | cons i rest ih => exact ih _

variable {s : σ} {ins : List ι} {P Q J : σ → Prop} {R S W : σ → ι → Prop}

/-- An invariant of the steps holds after every run. -/
theorem run_keeps (hst : ∀ s i, J s → J (step s i)) (hs : J s) (ins : List ι) : J (run step s ins) := by
  induction ins generalizing s with
  | nil => exact hs
  | cons i rest ih => exact ih (hst s i hs)

theorem Each.trivial (s : σ) (ins : List ι) : Each step (fun _ _ => True) s ins := by
  induction ins generalizing s with
  | nil => exact .intro
  | cons i rest ih => exact ⟨.intro, ih _⟩

theorem each_append {ins' : List ι} :
    Each step R s (ins ++ ins') ↔ Each step R s ins ∧ Each step R (run step s ins) ins' := by
  induction ins generalizing s with
  | nil => simp [Each, run]
  | cons i rest ih => simp only [List.cons_append, Each, run, ih, and_assoc]

/-- Each input of a run, with the inputs before it. -/
theorem each_iff_split :
    Each step R s ins ↔ ∀ before i after, ins = before ++ i :: after → R (run step s before) i := by
  constructor
  · intro h before i after hins
    rw [hins, each_append] at h
    exact h.2.1
  · intro h
    induction ins generalizing s with
    | nil => exact .intro
    | cons i rest ih =>
      refine ⟨h [] i rest rfl, ih fun before j after hrs => ?_⟩
      exact h (i :: before) j after (by rw [hrs]; rfl)

theorem Each.mono (h : ∀ s i, R s i → S s i) (he : Each step R s ins) : Each step S s ins := by
  induction ins generalizing s with
  | nil => exact .intro
  | cons i rest ih => exact ⟨h s i he.1, ih he.2⟩

theorem Each.and (hr : Each step R s ins) (hs : Each step S s ins) :
    Each step (fun s i => R s i ∧ S s i) s ins := by
  induction ins generalizing s with
  | nil => exact .intro
  | cons i rest ih => exact ⟨⟨hr.1, hs.1⟩, ih hr.2 hs.2⟩

theorem Always.last (h : Always step P s ins) : P (run step s ins) := by
  induction ins generalizing s with
  | nil => exact h
  | cons i rest ih => exact ih h.2

theorem Always.first (h : Always step P s ins) : P s := by
  cases ins with
  | nil => exact h
  | cons i rest => exact h.1

theorem Always.mono (h : ∀ s, P s → Q s) (ha : Always step P s ins) : Always step Q s ins := by
  induction ins generalizing s with
  | nil => exact h s ha
  | cons i rest ih => exact ⟨h s ha.1, ih ha.2⟩

theorem Always.and (hp : Always step P s ins) (hq : Always step Q s ins) :
    Always step (fun s => P s ∧ Q s) s ins := by
  induction ins generalizing s with
  | nil => exact ⟨hp, hq⟩
  | cons i rest ih => exact ⟨⟨hp.1, hq.1⟩, ih hp.2 hq.2⟩

/-- An invariant that every admitted step preserves holds all along an admitted run. -/
theorem always_of_each (hst : ∀ s i, J s → R s i → J (step s i)) (hs : J s)
    (he : Each step R s ins) : Always step J s ins := by
  induction ins generalizing s with
  | nil => exact hs
  | cons i rest ih => exact ⟨hs, ih (hst s i hs he.1) he.2⟩

/-- In a run whose states all satisfy `J`, a step condition may assume it. -/
theorem Each.of_always (h : ∀ s i, J s → R s i → S s i)
    (ha : Always step J s ins) (he : Each step R s ins) : Each step S s ins := by
  induction ins generalizing s with
  | nil => exact .intro
  | cons i rest ih => exact ⟨h s i ha.first he.1, ih ha.2 he.2⟩

/-- **Exactness on one step is exactness on runs.** If, in states that satisfy the
invariant `J` and the property `P`, a well-formed step keeps `P` exactly when it
meets `R`, then a well-formed run keeps `P` throughout exactly when each of its
steps meets `R`. -/
theorem always_iff_each (hJ : ∀ s i, J s → W s i → J (step s i))
    (hP : ∀ s i, J s → P s → W s i → (P (step s i) ↔ R s i)) (hs : J s)
    (hp : P s) (hw : Each step W s ins) : Always step P s ins ↔ Each step R s ins := by
  induction ins generalizing s with
  | nil => exact ⟨fun _ => trivial, fun _ => hp⟩
  | cons i rest ih =>
    have hi := hP s i hs hp hw.1
    constructor
    · intro h
      have hnx := h.2.first
      exact ⟨hi.mp hnx, (ih (hJ s i hs hw.1) hnx hw.2).mp h.2⟩
    · intro h
      have hnx := hi.mpr h.1
      exact ⟨hp, (ih (hJ s i hs hw.1) hnx hw.2).mpr h.2⟩

/-- The same for a property of steps: two step conditions that agree under an
invariant agree along every well-formed run. -/
theorem each_iff_each {Q : σ → ι → Prop} (hJ : ∀ s i, J s → W s i → J (step s i))
    (hQ : ∀ s i, J s → W s i → (Q s i ↔ R s i)) (hs : J s)
    (hw : Each step W s ins) : Each step Q s ins ↔ Each step R s ins := by
  induction ins generalizing s with
  | nil => exact .rfl
  | cons i rest ih =>
    simp only [Each, hQ s i hs hw.1, ih (hJ s i hs hw.1) hw.2]

theorem each_congr {Q : σ → ι → Prop} (h : ∀ s i, Q s i ↔ R s i) : Each step Q s ins ↔ Each step R s ins :=
  ⟨.mono fun s i => (h s i).mp, .mono fun s i => (h s i).mpr⟩

/-- The same, if the invariant is kept by the steps that meet the condition. -/
theorem each_iff_each_of_kept {Q : σ → ι → Prop} (hJ : ∀ s i, J s → R s i → J (step s i))
    (hQ : ∀ s i, J s → (Q s i ↔ R s i)) (hs : J s) :
    Each step Q s ins ↔ Each step R s ins := by
  induction ins generalizing s with
  | nil => exact .rfl
  | cons i rest ih =>
    constructor
    · intro h
      have hi := (hQ s i hs).mp h.1
      exact ⟨hi, (ih (hJ s i hs hi)).mp h.2⟩
    · intro h
      exact ⟨(hQ s i hs).mpr h.1, (ih (hJ s i hs h.1)).mpr h.2⟩

end AeroVault.Lib
