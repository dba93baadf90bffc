import Mathlib.Data.List.Infix

/-! Streams of marks that open a session, close it or fall into it.  A machine that carries whether
a session is open puts out a stream that alternates exactly if it puts out each mark where the mark
is allowed. -/

namespace VhomeBridge.Lib

inductive Mark
  | opens
  | inside
  | closes
  deriving DecidableEq

namespace Mark

/-- Whether a session is open after a mark, if `o` says whether one is before it. -/
def after (o : Bool) : Mark → Bool
  | opens => true
  | inside => o
  | closes => false

/-- A session is opened only while none is open, and the other marks need one. -/
def Allowed (o : Bool) : Mark → Prop
  | opens => o = false
  | inside => o = true
  | closes => o = true

instance (o : Bool) : DecidablePred (Allowed o)
  | opens => inferInstanceAs (Decidable (o = false))
  | inside => inferInstanceAs (Decidable (o = true))
  | closes => inferInstanceAs (Decidable (o = true))

end Mark

/-- The last mark that is not `inside` is `opens`. -/
def isOpen (marks : List Mark) : Bool := marks.foldl Mark.after false

/-- `opens` and `closes` alternate, `opens` first, and `inside` comes only after an `opens` and
before the next `closes`. -/
def Alternates (marks : List Mark) : Prop :=
  ∀ before m after, marks = before ++ m :: after → m.Allowed (isOpen before)

variable {α σ ε : Type*}

/-- Every place of a list that ends with `x` is one of the rest, or that of `x`. -/
theorem forall_split_snoc {l : List α} {x : α} (P : List α → α → Prop) :
    (∀ before a after, l ++ [x] = before ++ a :: after → P before a) ↔
      (∀ before a after, l = before ++ a :: after → P before a) ∧ P l x := by
  constructor
  · intro h
    refine ⟨?_, h l x [] rfl⟩
    rintro before a after rfl
    exact h before a (after ++ [x]) (by simp)
  · rintro ⟨hl, hx⟩ before a after heq
    obtain rfl | ⟨init, y, rfl⟩ := List.eq_nil_or_concat' after
    · obtain ⟨rfl, rfl⟩ := List.append_singleton_inj.mp heq
      exact hx
    · rw [← List.cons_append, ← List.append_assoc] at heq
      exact hl before a init (List.append_singleton_inj.mp heq).1

theorem filterMap_snoc {β : Type*} (f : α → Option β) (l : List α) (a : α) :
    (l ++ [a]).filterMap f = l.filterMap f ++ (f a).toList := by
  rw [List.filterMap_append]
  cases hf : f a <;> simp [hf]

theorem Alternates.nil : Alternates [] := fun before m after h => by simp at h

@[simp] theorem isOpen_snoc (marks : List Mark) (m : Mark) :
    isOpen (marks ++ [m]) = m.after (isOpen marks) := by
  rw [isOpen, List.foldl_append]
  rfl

theorem Alternates.snoc_iff {marks : List Mark} {m : Mark} :
    Alternates (marks ++ [m]) ↔ Alternates marks ∧ m.Allowed (isOpen marks) :=
  forall_split_snoc fun before (m : Mark) => m.Allowed (isOpen before)

/-! ### Machines -/

/-- The state and the marks after a list of inputs, from a machine that puts out at most one mark
for each. -/
def emits (step : σ → ε → σ × Option Mark) (s : σ) (inputs : List ε) : σ × List Mark :=
  inputs.foldl (fun t e => ((step t.1 e).1, t.2 ++ (step t.1 e).2.toList)) (s, [])

theorem emits_snoc (step : σ → ε → σ × Option Mark) (s : σ) (inputs : List ε) (e : ε) :
    emits step s (inputs ++ [e]) =
      ((step (emits step s inputs).1 e).1,
        (emits step s inputs).2 ++ (step (emits step s inputs).1 e).2.toList) := by
  rw [emits, List.foldl_append]
  rfl

section Flag

variable {step : σ → ε → σ × Option Mark} {flag : σ → Bool} {s : σ}

/-- A flag that follows the marks says whether a session is open. -/
theorem flag_eq_isOpen (start : flag s = false)
    (follows : ∀ t e, flag (step t e).1 = (step t e).2.elim (flag t) fun m => m.after (flag t))
    (inputs : List ε) : flag (emits step s inputs).1 = isOpen (emits step s inputs).2 := by
  induction inputs using List.reverseRecOn with
  | nil => exact start
  | append_singleton inputs e ih =>
    rw [emits_snoc, follows]
    cases h : (step (emits step s inputs).1 e).2 with
    | none => simp [ih]
    | some m => simp [ih]

theorem alternates_emits_iff (start : flag s = false)
    (follows : ∀ t e, flag (step t e).1 = (step t e).2.elim (flag t) fun m => m.after (flag t))
    (inputs : List ε) :
    Alternates (emits step s inputs).2 ↔ ∀ before e after, inputs = before ++ e :: after →
      ∀ m, (step (emits step s before).1 e).2 = some m →
        m.Allowed (flag (emits step s before).1) := by
  induction inputs using List.reverseRecOn with
  | nil => exact iff_of_true Alternates.nil fun before e after h => by simp at h
  | append_singleton inputs e ih =>
    have hflag := flag_eq_isOpen start follows inputs
    have hlast : Alternates (emits step s (inputs ++ [e])).2 ↔ Alternates (emits step s inputs).2 ∧
        ∀ m, (step (emits step s inputs).1 e).2 = some m →
          m.Allowed (flag (emits step s inputs).1) := by
      rw [emits_snoc, hflag]
      cases h : (step (emits step s inputs).1 e).2 with
      | none => simp
      | some m => simpa using Alternates.snoc_iff
    rw [hlast, ih]
    exact (forall_split_snoc fun before e => ∀ m, (step (emits step s before).1 e).2 = some m →
      m.Allowed (flag (emits step s before).1)).symm

end Flag

end VhomeBridge.Lib
