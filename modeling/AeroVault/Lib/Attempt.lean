import Mathlib

/-! Programs that pass a state along and may stop with an error.

The state stands for whatever the program talks to: a call to an outside party is
any function of it. A program that stops keeps the state it reached, so a caller can
go on after the error (`observe`). `Returns x w a w'` says that `x`, run from `w`, ends
with the value `a` in `w'`; the lemmas about it take a run apart. `Keeps P x` is for what
holds also when `x` stops, `StopsIn P x` for what holds only then. -/
namespace AeroVault.Lib

variable {σ ε α β : Type}

variable {x : Except ε α} {f : α → Except ε β}

/-- A sequence without a state returns if both of its parts do. -/
@[simp] theorem bind_eq_ok {b : β} : x >>= f = .ok b ↔ ∃ a, x = .ok a ∧ f a = .ok b := by
  cases x with
  | error e => exact ⟨nofun, fun h => (nomatch h.choose_spec.1)⟩
  | ok a => exact ⟨fun h => ⟨a, rfl, h⟩, fun h => Except.ok.inj h.choose_spec.1 ▸ h.choose_spec.2⟩

abbrev Attempt (σ ε α : Type) := ExceptT ε (StateM σ) α

namespace Attempt

def runFrom (x : Attempt σ ε α) (w : σ) : Except ε α × σ := x.run w

def Returns (x : Attempt σ ε α) (w : σ) (a : α) (w' : σ) : Prop := runFrom x w = (.ok a, w')

/-- A call to an outside party. -/
def call (f : σ → Except ε α × σ) : Attempt σ ε α := ExceptT.mk f

/-- A value that needs no call, or an error. -/
def ofExcept (x : Except ε α) : Attempt σ ε α := ExceptT.mk fun w => (x, w)

/-- The result of a program as a value. -/
def observe (x : Attempt σ ε α) : Attempt σ ε (Except ε α) :=
  ExceptT.mk fun w => (.ok (runFrom x w).1, (runFrom x w).2)

/-- The program with its error wrapped. -/
def wrapError (f : ε → ε) (x : Attempt σ ε α) : Attempt σ ε α :=
  ExceptT.mk fun w => ((runFrom x w).1.mapError f, (runFrom x w).2)

variable {x : Attempt σ ε α} {f : α → Attempt σ ε β} {w w' : σ} {a : α} {b : β}

theorem runFrom_bind : runFrom (x >>= f) w =
    match runFrom x w with
    | (.ok a, v) => runFrom (f a) v
    | (.error e, v) => (.error e, v) := by
  show ExceptT.bind x f w = _
  simp only [ExceptT.bind, ExceptT.mk, bind, StateT.bind]
  cases hx : runFrom x w with
  | mk r v =>
    have hxw : x w = (r, v) := hx
    rw [hxw]
    cases r <;> rfl

@[simp] theorem returns_bind : Returns (x >>= f) w b w' ↔ ∃ a v, Returns x w a v ∧ Returns (f a) v b w' := by
  unfold Returns
  rw [runFrom_bind]
  cases hx : runFrom x w with
  | mk r v =>
    cases r with
    | error | ok => simp

@[simp] theorem returns_pure {a' : α} : Returns (pure a : Attempt σ ε α) w a' w' ↔ a' = a ∧ w' = w := by
  show ((.ok a : Except ε α), w) = (.ok a', w') ↔ _
  simp [eq_comm]

@[simp] theorem returns_throw {e : ε} : ¬ Returns (throw e : Attempt σ ε α) w a w' := by
  show ¬ ((.error e : Except ε α), w) = (.ok a, w')
  simp

@[simp] theorem returns_ofExcept {r : Except ε α} :
    Returns (ofExcept r : Attempt σ ε α) w a w' ↔ r = .ok a ∧ w' = w := by
  show (r, w) = (.ok a, w') ↔ _
  simp [eq_comm]

@[simp] theorem returns_observe {result : Except ε α} :
    Returns (observe x) w result w' ↔ runFrom x w = (result, w') := by
  show ((.ok (runFrom x w).1 : Except ε _), (runFrom x w).2) = (.ok result, w') ↔ _
  rw [Prod.ext_iff, Prod.ext_iff, Except.ok.injEq]

theorem returns_call {g : σ → Except ε α × σ} : Returns (call g) w a w' ↔ g w = (.ok a, w') := Iff.rfl

/-! ### Properties of the state that a program keeps -/

/-- However the program ends, it keeps `P`. -/
def Keeps (P : σ → Prop) (x : Attempt σ ε α) : Prop := ∀ w, P w → P (runFrom x w).2

variable {P : σ → Prop}

theorem Keeps.bind (hx : Keeps P x) (hf : ∀ a, Keeps P (f a)) : Keeps P (x >>= f) := by
  intro w hw
  have hv := hx w hw
  rw [runFrom_bind]
  cases hrun : runFrom x w with
  | mk result v =>
    rw [hrun] at hv
    cases result with
    | error e => exact hv
    | ok a => exact hf a v hv

theorem keeps_pure (a : α) : Keeps P (pure a : Attempt σ ε α) := fun _ hw => hw

theorem keeps_throw (e : ε) : Keeps P (throw e : Attempt σ ε α) := fun _ hw => hw

theorem keeps_ofExcept (r : Except ε α) : Keeps P (ofExcept r : Attempt σ ε α) := fun _ hw => hw

theorem keeps_call {g : σ → Except ε α × σ} (h : ∀ w, P w → P (g w).2) : Keeps P (call g) := h

/-- If the program stops, then with `P` as before. -/
def StopsIn (P : σ → Prop) (x : Attempt σ ε α) : Prop :=
  ∀ w, P w → ∀ e w', runFrom x w = (.error e, w') → P w'

theorem Keeps.stopsIn_bind (hx : Keeps P x) (hf : ∀ a w v, P w → Returns x w a v → StopsIn P (f a)) :
    StopsIn P (x >>= f) := by
  intro w hw e w' h
  have hv := hx w hw
  rw [runFrom_bind] at h
  cases hrun : runFrom x w with
  | mk result v =>
    rw [hrun] at hv h
    cases result with
    | error e' =>
      cases h
      exact hv
    | ok a => exact hf a w v hw hrun v hv e w' h

end Attempt

/-! ### Checks -/

/-- An error under a condition. -/
def refuseIf (c : Prop) [Decidable c] (e : ε) : Except ε Unit := if c then .error e else .ok ()

variable {e : ε}

@[simp] theorem refuseIf_ok {c : Prop} [Decidable c] {u : Unit} : refuseIf c e = .ok u ↔ ¬ c := by
  unfold refuseIf
  split_ifs with h
  · simp [h]
  · simp [h]

@[simp] theorem refuseIf_error {c : Prop} [Decidable c] {e' : ε} : refuseIf c e = .error e' ↔ c ∧ e = e' := by
  unfold refuseIf
  split_ifs with h
  · simp [h]
  · simp [h]

variable {a : α}

@[simp] theorem pure_ne_error : (pure a : Except ε α) ≠ .error e := nofun

theorem checked_error_iff : x >>= f = .error e ↔ x = .error e ∨ ∃ a, x = .ok a ∧ f a = .error e := by
  cases x with
  | error e' =>
    show (.error e' : Except ε β) = .error e ↔ _
    simp
  | ok a =>
    show f a = .error e ↔ _
    simp

@[simp] theorem wrapped_ok_iff {ε' : Type} {wrap : ε → ε'} : x.mapError wrap = .ok a ↔ x = .ok a := by
  cases x with
  | error | ok => simp [Except.mapError]

theorem wrapped_error_iff {ε' : Type} {wrap : ε → ε'} {e' : ε'} :
    x.mapError wrap = .error e' ↔ ∃ e, x = .error e ∧ wrap e = e' := by
  cases x with
  | error | ok => simp [Except.mapError]

/-- A loop of checks. -/
theorem forM_eq_ok {f : α → Except ε Unit} {l : List α} (h : l.forM f = .ok ()) (ha : a ∈ l) :
    f a = .ok () := by
  induction l with
  | nil => cases ha
  | cons a' l ih =>
    obtain ⟨_, hf, hrs⟩ := bind_eq_ok.mp (show (f a' >>= fun _ => l.forM f) = .ok () from h)
    rcases List.mem_cons.mp ha with rfl | ha
    · exact hf
    · exact ih hrs ha

/-- A loop that appends what passes a test. -/
theorem foldlM_append_filter {step : List α → α → Except ε (List α)} {p : α → Bool} {l : List α}
    (h : ∀ a ∈ l, ∀ out, step out a = .ok (if p a then out ++ [a] else out)) (out : List α) :
    l.foldlM step out = .ok (out ++ l.filter p) := by
  induction l generalizing out with
  | nil =>
    rw [List.filter_nil, List.append_nil]
    rfl
  | cons a l ih =>
    have hrs := ih fun b hb => h b (List.mem_cons_of_mem _ hb)
    rw [List.foldlM_cons, h a List.mem_cons_self]
    show l.foldlM step (if p a then out ++ [a] else out) = _
    rw [hrs, List.filter_cons]
    cases p a <;> simp

end AeroVault.Lib
