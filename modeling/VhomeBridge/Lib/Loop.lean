import Mathlib.Data.List.Basic

/-! Counted loops whose body may fail, with rules for an invariant, for two loops whose states stay
related, and for a loop on the images of another one's states. -/

namespace VhomeBridge.Lib

variable {σ τ α β : Type*}

theorem rel_bind {R : σ → τ → Prop} {S : α → β → Prop} {x : Option σ} {y : Option τ}
    {f : σ → Option α} {g : τ → Option β} (h : Option.Rel R x y)
    (hfg : ∀ s t, R s t → Option.Rel S (f s) (g t)) : Option.Rel S (x.bind f) (y.bind g) := by
  cases h with
  | some h => exact hfg _ _ h
  | none => exact .none

/-- `n` turns of a loop, the counter starting at `i`. -/
def forRange (body : Nat → σ → Option σ) : (n i : Nat) → σ → Option σ
  | 0, _, s => some s
  | n + 1, i, s => (body i s).bind (forRange body n (i + 1))

/-- A loop whose body completes each turn and keeps `I`, which may speak about the counter. -/
theorem forRange_keeps {body : Nat → σ → Option σ} (I : Nat → σ → Prop) {n i : Nat} {s : σ}
    (start : I i s)
    (turn : ∀ k s, i ≤ k → k < i + n → I k s → ∃ s', body k s = some s' ∧ I (k + 1) s') :
    ∃ s', forRange body n i s = some s' ∧ I (i + n) s' := by
  induction n generalizing i s with
  | zero => exact ⟨s, rfl, start⟩
  | succ n ih =>
    obtain ⟨s', hbody, hkeep⟩ := turn i s (Nat.le_refl i) (by omega) start
    obtain ⟨t, hloop, ht⟩ := ih hkeep fun k s hk hlt => turn k s (by omega) (by omega)
    refine ⟨t, ?_, ?_⟩
    · rw [forRange, hbody, Option.bind_some, hloop]
    · rwa [show i + (n + 1) = i + 1 + n by omega]

/-- A loop whose body keeps `I` whenever it completes. -/
theorem forRange_holds {body : Nat → σ → Option σ} {I : σ → Prop} {n i : Nat} {s s' : σ}
    (turn : ∀ k s s', body k s = some s' → I s → I s') (h : forRange body n i s = some s')
    (start : I s) : I s' := by
  induction n generalizing i s with
  | zero =>
    obtain rfl := Option.some.inj h
    exact start
  | succ n ih =>
    obtain ⟨t, hbody, hloop⟩ := Option.bind_eq_some_iff.mp h
    exact ih hloop (turn i s t hbody start)

/-- A loop on the images of states that keep `I`. -/
theorem forRange_map {body : Nat → σ → Option σ} (body' : Nat → τ → Option τ) (g : τ → σ)
    (I : τ → Prop) (turn : ∀ i t, I t → body i (g t) = (body' i t).map g)
    (keep : ∀ i t t', body' i t = some t' → I t → I t') {n i : Nat} {t : τ} (start : I t) :
    forRange body n i (g t) = (forRange body' n i t).map g := by
  induction n generalizing i t with
  | zero => rfl
  | succ n ih =>
    rw [forRange, forRange, turn i t start]
    cases hbody : body' i t with
    | none => rfl
    | some t' => exact ih (keep i t t' hbody start)

/-- Two loops whose bodies keep their states related, and fail together. -/
theorem forRange_rel {R : σ → τ → Prop} {body : Nat → σ → Option σ} {body' : Nat → τ → Option τ}
    (turn : ∀ i s t, R s t → Option.Rel R (body i s) (body' i t)) (n i : Nat) {s : σ} {t : τ}
    (h : R s t) : Option.Rel R (forRange body n i s) (forRange body' n i t) := by
  induction n generalizing i s t with
  | zero => exact .some h
  | succ n ih => exact rel_bind (turn i s t h) fun _ _ h => ih (i + 1) h

/-- A loop on the images of the states of another: the image may fail, before a turn or after it. -/
theorem forRange_comm {image : τ → Option σ} {body : Nat → σ → Option σ}
    {body' : Nat → τ → Option τ}
    (turn : ∀ i t, (image t).bind (body i) = (body' i t).bind image) (n i : Nat) (t : τ) :
    (image t).bind (forRange body n i) = (forRange body' n i t).bind image := by
  induction n generalizing i t with
  | zero =>
    rw [forRange, Option.bind_some]
    exact Option.bind_fun_some (image t)
  | succ n ih =>
    calc (image t).bind (forRange body (n + 1) i)
        = ((image t).bind (body i)).bind (forRange body n (i + 1)) := (Option.bind_assoc ..).symm
      _ = (body' i t).bind fun t => (image t).bind (forRange body n (i + 1)) := by
          rw [turn, Option.bind_assoc]
      _ = (body' i t).bind fun t => (forRange body' n (i + 1) t).bind image := by
          rw [funext fun t => ih (i + 1) t]
      _ = (forRange body' (n + 1) i t).bind image := by
          rw [forRange, Option.bind_assoc]

end VhomeBridge.Lib
