import VhomeBridge.Lib.Streak
import Mathlib.Data.BitVec

/-! The button task: five quick presses switch the pairing mode and restart the gateway. -/

namespace VhomeBridge

open Lib

/-- `button_event_t`. -/
structure ButtonEvent where
  pin : BitVec 8
  event : BitVec 8

/-- `BUTTON`, the pin. -/
def button : BitVec 8 := 18

/-- `BUTTON_DOWN`. -/
def buttonDown : BitVec 8 := 1

/-- `Flag_quick_pair` and `Flag_compatible_pair`.  The source never sets both. -/
structure PairFlags where
  quickPair : Bool
  compatiblePair : Bool
  exclusive : ¬(quickPair = true ∧ compatiblePair = true)
  deriving DecidableEq

/-- The change of the pairing mode before the restart. -/
def PairFlags.toggle (f : PairFlags) : PairFlags :=
  if f.quickPair = false then ⟨true, false, by simp⟩
  else if f.compatiblePair = false then ⟨false, true, by simp⟩
  else f

/-- The local variables of `button_task` and the flags. -/
structure ButtonTask where
  pressCount : Nat
  capture : BitVec 32
  flags : PairFlags

/-- An event taken from the queue and what `esp_timer_get_time` returns at it, in microseconds.  A
receive that times out changes nothing. -/
structure Received where
  ev : ButtonEvent
  time : Nat

def ButtonTask.start (flags : PairFlags) : ButtonTask := ⟨0, 0, flags⟩

/-- The count and the stored time after a press. -/
def ButtonTask.count (s : ButtonTask) (time : Nat) : ButtonTask :=
  -- 64-bit milliseconds against a sum of 32 bits
  let pressCount := if (s.capture + 1000).toNat < time / 1000 then 0 else s.pressCount
  { s with pressCount := pressCount + 1, capture := BitVec.ofNat 32 (time / 1000) }

/-- A `BUTTON_DOWN` event of the button at a time.  The error is the restart, with the flags that
it leaves. -/
def ButtonTask.press (s : ButtonTask) (time : Nat) : Except PairFlags ButtonTask :=
  let s := s.count time
  if s.pressCount = 5 then throw s.flags.toggle else pure s

def Received.IsPress (r : Received) : Prop := r.ev.pin = button ∧ r.ev.event = buttonDown

instance : DecidablePred Received.IsPress := fun r =>
  inferInstanceAs (Decidable (r.ev.pin = button ∧ r.ev.event = buttonDown))

/-- A turn of the loop of `button_task` that receives an event. -/
def ButtonTask.turn (s : ButtonTask) (r : Received) : Except PairFlags ButtonTask :=
  if r.IsPress then s.press r.time else pure s

/-- `button_task` on the events of the queue. -/
def buttonTask (flags : PairFlags) (events : List Received) : Except PairFlags ButtonTask :=
  events.foldlM ButtonTask.turn (ButtonTask.start flags)

/-- After the events `before` the task restarts at `e`, leaving `flags'`. -/
def RestartsAt (flags : PairFlags) (before : List Received) (e : Received) (flags' : PairFlags) :
    Prop :=
  ∃ s, buttonTask flags before = .ok s ∧ s.turn e = .error flags'

/-- The times of the presses. -/
def pressTimes (events : List Received) : List Nat :=
  (events.filter fun r => decide r.IsPress).map Received.time

theorem pressTimes_append (xs ys : List Received) :
    pressTimes (xs ++ ys) = pressTimes xs ++ pressTimes ys := by
  rw [pressTimes, List.filter_append, List.map_append]
  rfl

theorem pressTimes_press {e : Received} (h : e.IsPress) : pressTimes [e] = [e.time] := by
  simp [pressTimes, h]

theorem pressTimes_other {e : Received} (h : ¬e.IsPress) : pressTimes [e] = [] := by
  simp [pressTimes, h]

/-! ### One press -/

/-- At most 1000 ms, in microseconds. -/
def WithinSecond (t u : Nat) : Prop := u ≤ t + 1000000

instance : DecidableRel WithinSecond := fun t u =>
  inferInstanceAs (Decidable (u ≤ t + 1000000))

/-- At most 1000 between the times in whole milliseconds. -/
def WithinMillis (t u : Nat) : Prop := u / 1000 ≤ t / 1000 + 1000

/-- A press at `t` is so early that the time limit of the next press fits in 32 bits. -/
def Early (t : Nat) : Prop := t / 1000 + 1000 < 2 ^ 32

instance : DecidablePred Early := fun t => inferInstanceAs (Decidable (t / 1000 + 1000 < 2 ^ 32))

/-- The press at `u` adds to the count of a press at `t`. -/
def Quick (t u : Nat) : Prop := WithinMillis t u ∧ Early t

theorem Quick.within {t u : Nat} (h : Quick t u) : WithinMillis t u := h.1

theorem WithinSecond.within {t u : Nat} (h : WithinSecond t u) : WithinMillis t u := by
  rw [WithinSecond] at h
  rw [WithinMillis]
  omega

/-- The test of the source: a time before 2³² ms is compared with the stored time plus 1000 where
that sum fits in 32 bits, and every press from there on fails it. -/
theorem capture_lt_iff {t u : Nat} (h : t ≤ u) :
    (BitVec.ofNat 32 (t / 1000) + 1000).toNat < u / 1000 ↔ ¬Quick t u := by
  rw [BitVec.toNat_add, BitVec.toNat_ofNat, Quick, WithinMillis, Early]
  have hlit : BitVec.toNat (1000 : BitVec 32) = 1000 := rfl
  have hle : t / 1000 ≤ u / 1000 := Nat.div_le_div_right h
  rw [hlit]
  omega

/-- The state of `button_task` after presses at the times `ts`, none of them the fifth in a row. -/
structure Follows (flags : PairFlags) (ts : List Nat) (s : ButtonTask) : Prop where
  counts : Counts Quick s.pressCount ts
  capture : ∀ us t, ts = us ++ [t] → s.capture = BitVec.ofNat 32 (t / 1000)
  flags : s.flags = flags

namespace Follows

variable {flags : PairFlags} {ts : List Nat} {s : ButtonTask}

theorem start (flags : PairFlags) : Follows flags [] (ButtonTask.start flags) :=
  ⟨Counts.nil, fun us t h => by simp at h, rfl⟩

/-- A press counts on from the one before, or starts the count again. -/
theorem count (h : Follows flags ts s) {u : Nat} (hchain : (ts ++ [u]).IsChain (· < ·)) :
    Follows flags (ts ++ [u]) (s.count u) := by
  refine ⟨?_, fun us t heq => ?_, h.flags⟩
  · rw [ButtonTask.count]
    obtain rfl | ⟨us, t, rfl⟩ := List.eq_nil_or_concat' ts
    · have hnone : s.pressCount = 0 := by
        by_contra hne
        have := ((h.counts 0).mpr (by omega)).length_le
        simp at this
      simpa [hnone] using Counts.one
    · rw [List.append_assoc, List.singleton_append] at hchain ⊢
      have hlt : t < u := (List.isChain_append_cons_cons.mp hchain).2.1
      rw [h.capture us t rfl]
      by_cases hquick : Quick t u
      · rw [if_neg ((capture_lt_iff hlt.le).not.mpr (not_not_intro hquick))]
        exact h.counts.succ hquick
      · rw [if_pos ((capture_lt_iff hlt.le).mpr hquick)]
        exact Counts.restart hquick
  · obtain ⟨-, rfl⟩ := List.append_singleton_inj.mp heq
    rfl

/-- The count is 5 at the fifth press in a row and not before. -/
theorem pressCount_eq_five (h : Follows flags ts s) (hle : s.pressCount ≤ 5) :
    s.pressCount = 5 ↔ Streak Quick 5 ts := by
  rw [h.counts 4]
  omega

end Follows

theorem ButtonTask.count_le (s : ButtonTask) (time : Nat) :
    (s.count time).pressCount ≤ s.pressCount + 1 := by
  rw [count]
  dsimp only
  split <;> omega

/-! ### Runs -/

theorem buttonTask_snoc (flags : PairFlags) (before : List Received) (e : Received) :
    buttonTask flags (before ++ [e]) = buttonTask flags before >>= fun s => s.turn e := by
  rw [buttonTask, List.foldlM_append]
  simp only [List.foldlM_cons, List.foldlM_nil, bind_pure]
  rfl

theorem ButtonTask.turn_press {s : ButtonTask} {e : Received} (h : e.IsPress) :
    s.turn e = s.press e.time := if_pos h

theorem ButtonTask.turn_other {s : ButtonTask} {e : Received} (h : ¬e.IsPress) :
    s.turn e = .ok s := if_neg h

/-- The task still waits, and no press so far was the fifth in a row, or it has restarted after
one that was. -/
theorem buttonTask_cases (flags : PairFlags) (events : List Received)
    (hchain : (pressTimes events).IsChain (· < ·)) :
    (∃ s, buttonTask flags events = .ok s ∧ Follows flags (pressTimes events) s ∧
      s.pressCount < 5 ∧ ∀ us, us <+: pressTimes events → ¬Streak Quick 5 us) ∨
    (∃ f, buttonTask flags events = .error f) ∧
      ∃ us, us <+: pressTimes events ∧ Streak Quick 5 us := by
  induction events using List.reverseRecOn with
  | nil =>
    refine .inl ⟨_, rfl, Follows.start flags, Nat.succ_pos 4, fun us hus hstreak => ?_⟩
    have := hstreak.length_le.trans hus.length_le
    simp [pressTimes] at this
  | append_singleton before e ih =>
    rw [pressTimes_append] at hchain ⊢
    rw [buttonTask_snoc]
    obtain ⟨s, hs, hfollows, hfew, hnone⟩ | ⟨⟨f, hf⟩, us, hus, hstreak⟩ := ih hchain.left_of_append
    · rw [hs]
      by_cases hpress : e.IsPress
      · rw [pressTimes_press hpress] at hchain ⊢
        have hcount := hfollows.count hchain
        have hle := s.count_le e.time
        have hfive := hcount.pressCount_eq_five (by omega)
        have hturn : (Except.ok s >>= fun s => s.turn e) = s.press e.time :=
          ButtonTask.turn_press hpress
        rw [hturn, ButtonTask.press]
        by_cases hstreak : Streak Quick 5 (pressTimes before ++ [e.time])
        · exact .inr ⟨⟨_, if_pos (hfive.mpr hstreak)⟩, _, List.prefix_refl _, hstreak⟩
        · refine .inl ⟨_, if_neg (hfive.not.mpr hstreak), hcount, ?_, fun us hus => ?_⟩
          · have := hfive.not.mpr hstreak
            omega
          · obtain rfl | hus := List.prefix_concat_iff.mp hus
            · exact hstreak
            · exact hnone us hus
      · rw [pressTimes_other hpress, List.append_nil]
        exact .inl ⟨s, ButtonTask.turn_other hpress, hfollows, hfew, hnone⟩
    · rw [hf]
      exact .inr ⟨⟨f, rfl⟩, us, hus.trans (List.prefix_append _ _), hstreak⟩

/-- The task restarts at the first press that is the fifth in a row by its own test, with the mode
switched. -/
theorem restartsAt_iff (flags : PairFlags) (before : List Received) (e : Received)
    (flags' : PairFlags) (hchain : (pressTimes (before ++ [e])).IsChain (· < ·)) :
    RestartsAt flags before e flags' ↔
      (e.IsPress ∧ First (Streak Quick 5) (pressTimes (before ++ [e]))) ∧
        flags' = flags.toggle := by
  rw [pressTimes_append] at hchain ⊢
  have hcases := buttonTask_cases flags before hchain.left_of_append
  constructor
  · rintro ⟨s, hs, hturn⟩
    obtain ⟨t, ht, hfollows, hfew, hnone⟩ | ⟨⟨f, hf⟩, -⟩ := hcases
    · obtain rfl : s = t := Except.ok.inj (hs.symm.trans ht)
      have hpress : e.IsPress := by
        by_contra hother
        rw [ButtonTask.turn_other hother] at hturn
        cases hturn
      rw [pressTimes_press hpress] at hchain ⊢
      have hcount := hfollows.count hchain
      have hfive := hcount.pressCount_eq_five ((s.count_le e.time).trans (by omega))
      rw [ButtonTask.turn_press hpress, ButtonTask.press] at hturn
      by_cases hstreak : (s.count e.time).pressCount = 5
      · rw [if_pos hstreak, hcount.flags] at hturn
        refine ⟨⟨hpress, hfive.mp hstreak, fun us hus hlt => ?_⟩, (Except.error.inj hturn).symm⟩
        obtain rfl | hus := List.prefix_concat_iff.mp hus
        · rfl
        · exact absurd hlt (hnone us hus)
      · rw [if_neg hstreak] at hturn
        cases hturn
    · rw [hf] at hs
      cases hs
  · rintro ⟨⟨hpress, hfirst⟩, rfl⟩
    rw [pressTimes_press hpress] at hchain hfirst
    obtain ⟨s, hs, hfollows, hfew, -⟩ | ⟨-, us, hus, hstreak⟩ := hcases
    · have hcount := hfollows.count hchain
      have hfive := hcount.pressCount_eq_five ((s.count_le e.time).trans (by omega))
      refine ⟨s, hs, ?_⟩
      rw [ButtonTask.turn_press hpress, ButtonTask.press, if_pos (hfive.mpr hfirst.1), hcount.flags]
      rfl
    · have heq := hfirst.2 us (hus.trans (List.prefix_append _ _)) hstreak
      have hlen := hus.length_le
      rw [heq, List.length_append, List.length_singleton] at hlen
      omega

/-! ### The limit of 1000 ms -/

/-- A streak by the test of the source is one in whole milliseconds whose last press but one is
early. -/
theorem streak_quick_iff {n : Nat} {us : List Nat} {t u : Nat}
    (hchain : (us ++ [t, u]).IsChain (· < ·)) :
    Streak Quick (n + 2) (us ++ [t, u]) ↔
      Streak WithinMillis (n + 2) (us ++ [t, u]) ∧ Early t := by
  rw [Streak.snoc_iff, Streak.snoc_iff]
  induction n generalizing us t u with
  | zero => simp [Quick, Streak.one]
  | succ n ih =>
    obtain rfl | ⟨vs, s, rfl⟩ := List.eq_nil_or_concat' us
    · have hshort : ∀ R : Nat → Nat → Prop, ¬Streak R (n + 2) ([] ++ [t]) := by
        intro R hstreak
        have := hstreak.length_le
        simp at this
      exact iff_of_false (fun h => hshort _ h.2) fun h => hshort _ h.1.2
    · rw [List.append_assoc, List.singleton_append] at hchain
      have hlt : s < t := (List.isChain_append_cons_cons.mp hchain).2.1
      have hinit : (vs ++ [s, t]).IsChain (· < ·) := by
        refine hchain.prefix ⟨[u], ?_⟩
        rw [List.append_assoc]
        rfl
      have hearly : Early t → Early s := fun h => by
        rw [Early] at h ⊢
        omega
      rw [List.append_assoc, List.singleton_append, Streak.snoc_iff, Streak.snoc_iff, ih hinit,
        Quick]
      constructor
      · rintro ⟨⟨hrel, ht⟩, hstreak, -⟩
        exact ⟨⟨hrel, hstreak⟩, ht⟩
      · rintro ⟨⟨hrel, hstreak⟩, ht⟩
        exact ⟨⟨hrel, ht⟩, hstreak, hearly ht⟩

/-- The first five presses that are quick in whole milliseconds decide: if they come before the
stored time plus 1000 exceeds 32 bits they must be quick to the microsecond, and if not, then no
five presses may be. -/
def InTime (ts : List Nat) : Prop :=
  ∀ us t u, us ++ [t, u] <+: ts → First (Streak WithinMillis 5) (us ++ [t, u]) →
    (Early t → Streak WithinSecond 5 (us ++ [t, u])) ∧
    (¬Early t → ∀ vs, vs <+: ts → ¬Streak WithinSecond 5 vs)

theorem increasing_before {us ts : List Nat} (hchain : ts.IsChain (· < ·)) (h : us <+: ts) :
    us.IsChain (· < ·) := hchain.prefix h

/-- In increasing times, a press before an early one is early. -/
theorem Early.of_le {us vs : List Nat} {t u s v : Nat}
    (hchain : (vs ++ [s, v]).IsChain (· < ·)) (h : us ++ [t, u] <+: vs ++ [s, v])
    (hs : Early s) : Early t := by
  rw [List.append_cons vs] at hchain h
  have hpairwise := List.pairwise_append.mp hchain.left_of_append.pairwise
  have hle : t ≤ s := by
    obtain heq | hle := List.prefix_concat_iff.mp h
    · rw [List.append_cons us] at heq
      have hleft := (List.append_singleton_inj.mp heq).1
      exact (List.append_singleton_inj.mp hleft).2.le
    · have hmem : t ∈ vs := by
        rw [List.append_cons us] at hle
        obtain heq | hle := List.prefix_concat_iff.mp hle
        · rw [← (List.append_singleton_inj.mp heq).1]
          simp
        · exact hle.subset (by simp)
      exact (hpairwise.2.2 t hmem s (by simp)).le
  rw [Early] at hs ⊢
  omega

/-- The task is right on the presses at `ts` exactly where it is in time. -/
theorem first_iff_inTime {ts : List Nat} (hchain : ts.IsChain (· < ·)) :
    (∀ us, us <+: ts → (First (Streak Quick 5) us ↔ First (Streak WithinSecond 5) us)) ↔
      InTime ts := by
  have quickMillis : ∀ us, Streak Quick 5 us → Streak WithinMillis 5 us :=
    fun us => Streak.mono fun a b => Quick.within
  have secondMillis : ∀ us, Streak WithinSecond 5 us → Streak WithinMillis 5 us :=
    fun us => Streak.mono fun a b => WithinSecond.within
  constructor
  · intro hright us t u hus hfirst
    have hquick := streak_quick_iff (n := 3) (increasing_before hchain hus)
    constructor
    · intro hearly
      have hcode : First (Streak Quick 5) (us ++ [t, u]) :=
        ⟨hquick.mpr ⟨hfirst.1, hearly⟩, fun vs hvs h => hfirst.2 vs hvs (quickMillis vs h)⟩
      exact ((hright _ hus).mp hcode).1
    · intro hlate vs hvs hsecond
      obtain ⟨ws, hws, hfirstSecond⟩ := First.exists_init hsecond
      have hwts := hws.trans hvs
      have hcode := ((hright ws hwts).mpr hfirstSecond).1
      have hle := hfirst.isPrefix (secondMillis ws hfirstSecond.1) hus hwts
      obtain ⟨xs, s, v, rfl, -, hs⟩ := hcode.last
      exact hlate (Early.of_le (increasing_before hchain hwts) hle hs)
  · intro htime us hus
    constructor
    · intro hfirst
      obtain ⟨ms, hms, hmillis⟩ := First.exists_init (quickMillis us hfirst.1)
      obtain ⟨xs, s, v, rfl, -, hs⟩ := hfirst.1.last
      obtain ⟨ys, t, u, rfl, -⟩ := hmillis.1.last
      have hearly := Early.of_le (increasing_before hchain hus) hms hs
      have hsecond := (htime ys t u (hms.trans hus) hmillis).1 hearly
      have hcode := (streak_quick_iff (n := 3) (increasing_before hchain (hms.trans hus))).mpr
        ⟨hmillis.1, hearly⟩
      rw [hfirst.2 _ hms hcode] at hsecond hmillis
      exact ⟨hsecond, fun vs hvs h => hmillis.2 vs hvs (secondMillis vs h)⟩
    · intro hfirst
      obtain ⟨ms, hms, hmillis⟩ := First.exists_init (secondMillis us hfirst.1)
      obtain ⟨ys, t, u, rfl, -⟩ := hmillis.1.last
      have hcases := htime ys t u (hms.trans hus) hmillis
      have hearly : Early t := by
        by_contra hlate
        exact hcases.2 hlate us hus hfirst.1
      have hcode := (streak_quick_iff (n := 3) (increasing_before hchain (hms.trans hus))).mpr
        ⟨hmillis.1, hearly⟩
      rw [hfirst.2 _ hms (hcases.1 hearly)] at hcode hmillis
      exact ⟨hcode, fun vs hvs h => hmillis.2 vs hvs (quickMillis vs h)⟩

/-! ### The task -/

/-- At each event the task switches the mode and restarts if and only if the event is the first
press that is the fifth of five presses each at most 1000 ms after the one before. -/
def TogglesAtFifth (flags : PairFlags) (events : List Received) : Prop :=
  ∀ before e after, events = before ++ e :: after → ∀ flags',
    RestartsAt flags before e flags' ↔
      (e.IsPress ∧ First (Streak WithinSecond 5) (pressTimes (before ++ [e]))) ∧
        flags' = flags.toggle

/-- Every nonempty history of presses ends at a press. -/
theorem exists_press {events : List Received} {us ws : List Nat} {t : Nat}
    (h : pressTimes events = us ++ [t] ++ ws) :
    ∃ before e after, events = before ++ e :: after ∧ e.IsPress ∧
      pressTimes (before ++ [e]) = us ++ [t] := by
  rw [pressTimes, List.append_assoc, List.map_eq_append_iff] at h
  obtain ⟨xs, ys, hfilter, rfl, htail⟩ := h
  obtain ⟨e, zs, rfl, rfl, -⟩ := List.map_eq_cons_iff.mp htail
  obtain ⟨as, bs, rfl, rfl, hrest⟩ := List.filter_eq_append_iff.mp hfilter
  obtain ⟨cs, ds, rfl, hcs, hpress, -⟩ := List.filter_eq_cons_iff.mp hrest
  have he : e.IsPress := by simpa using hpress
  refine ⟨as ++ cs, e, ds, by simp, he, ?_⟩
  have hskip : cs.filter (fun r => decide r.IsPress) = [] :=
    List.filter_eq_nil_iff.mpr fun a ha => by simpa using hcs a ha
  simp [pressTimes, hskip, he]

/-- `button_task` switches the mode and restarts at the first fifth press in a row, and only
there, exactly where the presses are in time. -/
theorem togglesAtFifth_iff (flags : PairFlags) (events : List Received)
    (hchain : (pressTimes events).IsChain (· < ·)) :
    TogglesAtFifth flags events ↔ InTime (pressTimes events) := by
  rw [← first_iff_inTime hchain]
  constructor
  · intro hright us ⟨ws, hws⟩
    obtain rfl | ⟨vs, t, rfl⟩ := List.eq_nil_or_concat' us
    · have hshort : ∀ R : Nat → Nat → Prop, ¬First (Streak R 5) [] := by
        intro R hfirst
        have := hfirst.1.length_le
        simp at this
      exact iff_of_false (hshort _) (hshort _)
    · obtain ⟨before, e, after, rfl, hpress, htimes⟩ := exists_press hws.symm
      have hcode := restartsAt_iff flags before e flags.toggle <| by
        rw [htimes]
        exact hchain.prefix ⟨ws, hws⟩
      have hspec := hright before e after rfl flags.toggle
      rw [htimes] at hcode hspec
      simpa [hpress] using hcode.symm.trans hspec
  · rintro hright before e after rfl flags'
    have hinit : pressTimes (before ++ [e]) <+: pressTimes (before ++ e :: after) := by
      have hsplit : before ++ e :: after = before ++ [e] ++ after := List.append_cons ..
      rw [hsplit, pressTimes_append (before ++ [e])]
      exact List.prefix_append _ _
    rw [restartsAt_iff flags before e flags' (increasing_before hchain hinit), hright _ hinit]

/-- A press of the button. -/
def pressAt (time : Nat) : Received := ⟨⟨button, buttonDown⟩, time⟩

/-- Five presses, 0.4 s apart, in the first seconds. -/
theorem togglesAtFifth_quick :
    [1000000, 1400000, 1800000, 2200000, 2600000].IsChain (· < ·) ∧
      (TogglesAtFifth ⟨false, false, by simp⟩
          ([1000000, 1400000, 1800000, 2200000, 2600000].map pressAt) ↔
        InTime [1000000, 1400000, 1800000, 2200000, 2600000]) :=
  ⟨by decide, togglesAtFifth_iff ⟨false, false, by simp⟩
    ([1000000, 1400000, 1800000, 2200000, 2600000].map pressAt) (by decide)⟩

/-- Five presses, 0.1 s apart, when the gateway has been up for 2³² ms: it does not restart. -/
theorem not_togglesAtFifth :
    ¬∀ flags events, (pressTimes events).IsChain (· < ·) → TogglesAtFifth flags events := by
  intro h
  let flags : PairFlags := ⟨false, false, by simp⟩
  let first := [4294967296000, 4294967396000, 4294967496000]
  let before := (first ++ [4294967596000]).map pressAt
  let e := pressAt 4294967696000
  have hchain : (pressTimes (before ++ [e])).IsChain (· < ·) := by decide
  have hstreak : Streak WithinSecond 5 (pressTimes (before ++ [e])) :=
    ⟨_, rfl, List.suffix_refl _, by decide⟩
  have hrestart := (h flags (before ++ [e]) hchain before e [] rfl flags.toggle).mpr
    ⟨⟨⟨rfl, rfl⟩, First.of_length hstreak rfl⟩, rfl⟩
  have hcode : Streak Quick 5 (first ++ [4294967596000, 4294967696000]) :=
    ((restartsAt_iff flags before e flags.toggle hchain).mp hrestart).1.2.1
  have hearly := ((streak_quick_iff (n := 3) hchain).mp hcode).2
  exact absurd hearly (by decide)

end VhomeBridge
