import Mathlib.Data.List.Chain

/-! Streaks at the end of a history: the last entries each follow the one before by a relation.  A
counter that goes up where the relation holds, and starts again at 1 where it fails, measures the
longest streak. -/

namespace VhomeBridge.Lib

variable {α : Type*} {R S : α → α → Prop} {P : List α → Prop} {ts us vs : List α} {t u : α}
  {n c : Nat}

/-- The last `n` entries of `ts` follow each other by `R`. -/
def Streak (R : α → α → Prop) (n : Nat) (ts : List α) : Prop :=
  ∃ l, l.length = n ∧ l <:+ ts ∧ l.IsChain R

namespace Streak

theorem mono (h : ∀ a b, R a b → S a b) (streak : Streak R n ts) : Streak S n ts := by
  obtain ⟨l, hlen, hsuffix, hchain⟩ := streak
  exact ⟨l, hlen, hsuffix, hchain.imp fun a b => h a b⟩

theorem length_le (streak : Streak R n ts) : n ≤ ts.length := by
  obtain ⟨l, rfl, hsuffix, -⟩ := streak
  exact hsuffix.length_le

theorem one (ts : List α) (t : α) : Streak R 1 (ts ++ [t]) :=
  ⟨[t], rfl, List.suffix_append ts [t], List.isChain_singleton t⟩

/-- A streak of two or more ends with two entries that are related. -/
theorem snoc_iff : Streak R (n + 2) (ts ++ [t, u]) ↔ R t u ∧ Streak R (n + 1) (ts ++ [t]) := by
  constructor
  · rintro ⟨l, hlen, hsuffix, hchain⟩
    rw [List.append_cons, List.suffix_concat_iff] at hsuffix
    obtain rfl | ⟨k, rfl, hk⟩ := hsuffix
    · simp at hlen
    obtain rfl | ⟨j, rfl, hj⟩ := List.suffix_concat_iff.mp hk
    · simp at hlen
    rw [List.append_assoc, List.singleton_append, List.isChain_append_cons_cons] at hchain
    obtain ⟨hleft, hrel, -⟩ := hchain
    exact ⟨hrel, j ++ [t], by simpa using hlen, hk, hleft⟩
  · rintro ⟨hrel, l, hlen, hsuffix, hchain⟩
    obtain rfl | ⟨j, rfl, hj⟩ := List.suffix_concat_iff.mp hsuffix
    · simp at hlen
    refine ⟨j ++ [t, u], by simpa using hlen, ?_, ?_⟩
    · rwa [List.append_cons, List.append_cons ts, List.suffix_append_self_iff]
    · rw [List.isChain_append_cons_cons]
      exact ⟨hchain, hrel, List.isChain_singleton u⟩

/-- The last two entries of a streak of two or more. -/
theorem last (streak : Streak R (n + 2) ts) : ∃ us t u, ts = us ++ [t, u] ∧ R t u := by
  have hlen := streak.length_le
  obtain ⟨vs, u, rfl⟩ := List.eq_nil_or_concat' ts |>.resolve_left (by rintro rfl; simp at hlen)
  obtain ⟨us, t, rfl⟩ := List.eq_nil_or_concat' vs |>.resolve_left (by rintro rfl; simp at hlen)
  rw [List.append_assoc, List.singleton_append] at streak ⊢
  exact ⟨us, t, u, rfl, (snoc_iff.mp streak).1⟩

end Streak

/-! ### The counter -/

/-- `c` is the length of the longest streak at the end of `ts`. -/
def Counts (R : α → α → Prop) (c : Nat) (ts : List α) : Prop :=
  ∀ n, Streak R (n + 1) ts ↔ n < c

namespace Counts

theorem nil : Counts R 0 [] := by
  intro n
  refine ⟨fun h => ?_, fun h => absurd h (Nat.not_lt_zero n)⟩
  have := h.length_le
  simp at this

theorem one : Counts R 1 [t] := by
  intro n
  constructor
  · intro h
    have := h.length_le
    simpa using this
  · intro h
    obtain rfl : n = 0 := by omega
    exact Streak.one [] t

theorem succ (counts : Counts R c (ts ++ [t])) (h : R t u) :
    Counts R (c + 1) (ts ++ [t, u]) := by
  intro n
  cases n with
  | zero =>
    rw [List.append_cons]
    exact iff_of_true (Streak.one _ u) (Nat.succ_pos c)
  | succ n => rw [Streak.snoc_iff, counts n, and_iff_right h, Nat.add_lt_add_iff_right]

theorem restart (h : ¬R t u) : Counts R 1 (ts ++ [t, u]) := by
  intro n
  cases n with
  | zero =>
    rw [List.append_cons]
    exact iff_of_true (Streak.one _ u) Nat.one_pos
  | succ n =>
    rw [Streak.snoc_iff]
    exact iff_of_false (fun hstreak => h hstreak.1) (by omega)

end Counts

/-! ### The first history with a property -/

/-- `P` holds of the history `ts` and of no shorter one before it. -/
def First (P : List α → Prop) (ts : List α) : Prop := P ts ∧ ∀ us, us <+: ts → P us → us = ts

namespace First

theorem exists_init (h : P ts) : ∃ us, us <+: ts ∧ First P us := by
  induction hn : ts.length using Nat.strong_induction_on generalizing ts with
  | _ n ih =>
    by_cases hfirst : ∃ us, us <+: ts ∧ P us ∧ us ≠ ts
    · obtain ⟨us, hle, hP, hne⟩ := hfirst
      have hlt : us.length < n := by
        rw [← hn]
        exact hle.length_le.lt_of_ne fun heq => hne (hle.eq_of_length heq)
      obtain ⟨vs, hvs, hfirst⟩ := ih us.length hlt hP rfl
      exact ⟨vs, hvs.trans hle, hfirst⟩
    · push Not at hfirst
      exact ⟨ts, List.prefix_refl ts, h, hfirst⟩

/-- Of two prefixes of one history the first with `P` is no longer than another with `P`. -/
theorem isPrefix (h : First P us) (hvs : P vs) (hu : us <+: ts) (hv : vs <+: ts) : us <+: vs := by
  rcases List.prefix_or_prefix_of_prefix hu hv with hle | hle
  · exact hle
  · exact (h.2 vs hle hvs).symm ▸ List.prefix_refl vs

/-- A streak that takes all of the history is the first of its length. -/
theorem of_length (streak : Streak R n ts) (hlen : ts.length = n) : First (Streak R n) ts := by
  refine ⟨streak, fun us hus h => hus.eq_of_length ?_⟩
  have := h.length_le
  have := hus.length_le
  omega

end First

end VhomeBridge.Lib
