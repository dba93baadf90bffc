import Mathlib.Data.List.Induction

/-! Runs of labelled transition systems.  A system is a partial function `step s e` from a state
and a label to the next state, `none` where the label is not enabled.  A run takes a list of labels
in order.  The rules here carry an invariant, a history or a decreasing measure from one step to a
run, and `Guarded` restricts a system to the steps that meet a condition. -/

namespace VhomeBridge.Lib

variable {σ ε : Type*}

/-- `Run step s es t`: the labels `es`, taken in order, lead from `s` to `t`. -/
inductive Run (step : σ → ε → σ → Prop) (s : σ) : List ε → σ → Prop
  | nil : Run step s [] s
  | snoc {es : List ε} {t u : σ} {e : ε} :
      Run step s es t → step t e u → Run step s (es ++ [e]) u

/-- The transition relation of a partial step function. -/
def Steps (f : σ → ε → Option σ) (s : σ) (e : ε) (t : σ) : Prop := f s e = some t

/-- The steps of `step` that meet the condition `G` on the state before and the label. -/
def Guarded (step : σ → ε → σ → Prop) (G : σ → ε → Prop) (s : σ) (e : ε) (t : σ) : Prop :=
  step s e t ∧ G s e

/-- `f` with a label enabled only where the test `g` passes. -/
def restrict (f : σ → ε → Option σ) (g : σ → ε → Bool) (s : σ) (e : ε) : Option σ :=
  if g s e then f s e else none

/-- The state after the labels `es`, or `none` if one of them is not enabled. -/
def exec (f : σ → ε → Option σ) (s : σ) : List ε → Option σ
  | [] => some s
  | e :: es => (f s e).bind fun t => exec f t es

/-- What `f` says of each label, from the labels before it; `ds` come before the first. -/
def told {β : Type*} (f : List ε → ε → List β) (ds : List ε) : List ε → List β
  | [] => []
  | e :: es => f ds e ++ told f (ds ++ [e]) es

theorem told_snoc {β : Type*} (f : List ε → ε → List β) (ds es : List ε) (e : ε) :
    told f ds (es ++ [e]) = told f ds es ++ f (ds ++ es) e := by
  induction es generalizing ds with
  | nil => simp [told]
  | cons d es ih =>
    rw [List.cons_append, told, told, ih, List.append_assoc, List.append_assoc]
    rfl

/-- Each label is one that `E` allows after those before it. -/
def Allowed (E : List ε → ε → Prop) (es : List ε) : Prop := ∀ ds e, ds ++ [e] <+: es → E ds e

section

variable {E : List ε → ε → Prop}

theorem allowed_nil : Allowed E [] := fun ds e h => by simp at h

theorem allowed_snoc {es : List ε} {e : ε} :
    Allowed E (es ++ [e]) ↔ Allowed E es ∧ E es e := by
  constructor
  · exact fun h => ⟨fun ds d hds => h ds d (hds.trans (List.prefix_append es [e])),
      h es e (List.prefix_refl _)⟩
  · rintro ⟨h, he⟩ ds d hds
    rcases List.prefix_concat_iff.mp hds with heq | hds
    · obtain ⟨rfl, hd⟩ := List.append_inj' heq rfl
      obtain rfl := List.singleton_inj.mp hd
      exact he
    · exact h ds d hds

end

theorem exec_snoc (f : σ → ε → Option σ) (s : σ) (es : List ε) (e : ε) :
    exec f s (es ++ [e]) = (exec f s es).bind fun t => f t e := by
  induction es generalizing s with
  | nil =>
    simp only [List.nil_append, exec, Option.bind_some, Option.bind_fun_some]
  | cons d es ih =>
    rw [List.cons_append, exec, exec, Option.bind_assoc]
    exact congrArg _ (funext ih)

namespace Run

variable {step : σ → ε → σ → Prop} {s t u : σ} {es ds : List ε} {e : ε}

theorem single (h : step s e t) : Run step s [e] t := by
  simpa using snoc nil h

theorem trans (h1 : Run step s es t) (h2 : Run step t ds u) : Run step s (es ++ ds) u := by
  induction h2 with
  | nil => simpa using h1
  | snoc _ hstep ih => simpa [List.append_assoc] using snoc ih hstep

theorem cons (h : step s e t) (run : Run step t es u) : Run step s (e :: es) u :=
  trans (single h) run

/-- A property that each step keeps holds at the end of a run if it holds at the start. -/
theorem invariant {I : σ → Prop} (run : Run step s es t) (start : I s)
    (keep : ∀ a e b, I a → step a e b → I b) : I t := by
  induction run with
  | nil => exact start
  | snoc _ hstep ih => exact keep _ _ _ ih hstep

/-- The invariant rule for a property of the labels taken so far and the state they lead to. -/
theorem history {I : List ε → σ → Prop} (run : Run step s es t) (start : I [] s)
    (keep : ∀ ds a e b, I ds a → step a e b → I (ds ++ [e]) b) : I es t := by
  induction run with
  | nil => exact start
  | snoc _ hstep ih => exact keep _ _ _ _ ih hstep

theorem mono {step' : σ → ε → σ → Prop} (h : ∀ a e b, step a e b → step' a e b)
    (run : Run step s es t) : Run step' s es t := by
  induction run with
  | nil => exact nil
  | snoc _ hstep ih => exact snoc ih (h _ _ _ hstep)

/-- A measure that every step from a state in `I` decreases strictly has decreased after a run by
at least the number of its steps. -/
theorem measure {I : σ → Prop} {m : σ → Nat} (run : Run step s es t) (start : I s)
    (keep : ∀ a e b, I a → step a e b → I b)
    (less : ∀ a e b, I a → step a e b → m b < m a) : m t + es.length ≤ m s := by
  induction run with
  | nil => simp
  | snoc run hstep ih =>
    have hI := run.invariant start keep
    have := less _ _ _ hI hstep
    simp only [List.length_append, List.length_singleton]
    omega

theorem of_exec {f : σ → ε → Option σ} (h : exec f s es = some t) : Run (Steps f) s es t := by
  induction es generalizing s with
  | nil =>
    obtain rfl : s = t := by simpa [exec] using h
    exact nil
  | cons e es ih =>
    simp only [exec, Option.bind_eq_some_iff] at h
    obtain ⟨a, ha, hrun⟩ := h
    exact cons ha (ih hrun)

/-- The labels lead somewhere exactly if each is allowed, where an invariant of the labels and the
state tells from the labels alone which are enabled. -/
theorem exec_isSome_iff {f : σ → ε → Option σ} {I : List ε → σ → Prop} {E : List ε → ε → Prop}
    (start : I [] s) (keep : ∀ ds a e b, I ds a → f a e = some b → I (ds ++ [e]) b)
    (enabled : ∀ ds a e, I ds a → ((f a e).isSome ↔ E ds e)) (es : List ε) :
    (exec f s es).isSome ↔ Allowed E es := by
  induction es using List.reverseRecOn with
  | nil => exact iff_of_true rfl allowed_nil
  | append_singleton es e ih =>
    rw [allowed_snoc, ← ih, exec_snoc]
    cases hes : exec f s es with
    | none => simp
    | some a =>
      have hI : I es a := (of_exec hes).history start keep
      rw [Option.bind_some, enabled es a e hI]
      simp

/-- The computed run of a restricted system is a run whose steps meet what the test decides. -/
theorem of_exec_restrict {f : σ → ε → Option σ} {g : σ → ε → Bool} {G : σ → ε → Prop}
    (hg : ∀ a e, g a e = true → G a e) (h : exec (restrict f g) s es = some t) :
    Run (Guarded (Steps f) G) s es t := by
  apply (of_exec h).mono
  intro a e b hstep
  simp only [Steps, restrict] at hstep
  split at hstep
  · rename_i htest
    exact ⟨hstep, hg a e htest⟩
  · contradiction

end Run

end VhomeBridge.Lib
