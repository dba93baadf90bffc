import VhomeBridge.Main.Boot
import VhomeBridge.Button

/-! What a gateway does over its life: which mode it starts, from the presses and the replies since
power was lost; which broker and device it has, from the last text that was posted; and whether it
ever runs again, from the files. -/

namespace VhomeBridge.Main

open Lib Link JsonUser

/-! ### The pairing mode -/

/-- The flags after `app_main` has cleared them. -/
def cleared : PairFlags := ⟨false, false, by simp⟩

/-- What an event makes of the flags. -/
def nextFlags (p : PairFlags) : Event → PairFlags
  | .reset reason _ _ => if reason = .other then p else cleared
  | .fivePresses => p.toggle
  | .postRestart => cleared
  | _ => p

/-- The mode that `app_main` starts with the flags. -/
def startedMode (p : PairFlags) : Mode := mode p.quickPair p.compatiblePair

namespace Gateway

/-- `app_main` has yet to clear the flags. -/
def Unread (s : Gateway) : Prop := s.stage = .booting .powerOn ∨ s.stage = .booting .unknown

/-- Once power was lost `app_main` comes to the flags, unless power is lost again: the button is not
pressed before, nothing else resets the gateway, and the files can be read. -/
def Calm (lib : CJsonLib) (s : Gateway) (e : Event) : Prop :=
  s.Unread →
    match e with
    | .reset reason _ _ => reason ≠ .other
    | .appMain buff => (s.load lib buff).isSome
    | _ => False

/-- The flags are `p`, or will be, and what runs is the mode of `p`. -/
structure Follows (s : Gateway) (p : PairFlags) : Prop where
  unread : s.Unread → p = cleared
  flags : ¬s.Unread → s.flagQuickPair = p.quickPair ∧ s.flagCompatiblePair = p.compatiblePair
  mode : ∀ app, s.stage = .running app ∨ s.stage = .answering app → app.mode = startedMode p

section

variable {lib : CJsonLib} {s t : Gateway} {p : PairFlags} {app : App} {e : Event}

theorem unread_iff {reason : ResetReason} (h : s.stage = .booting reason) :
    s.Unread ↔ reason ≠ .other := by
  cases reason <;> simp [Unread, h]

theorem read_of_stage (h : ∀ reason, s.stage ≠ .booting reason) : ¬s.Unread :=
  fun hunread => hunread.elim (h _) (h _)

/-- A gateway that boots has no mode. -/
theorem Follows.boots {reason : ResetReason} (hstage : t.stage = .booting reason)
    (hunread : reason ≠ .other → p = cleared)
    (hflags : reason = .other →
      t.flagQuickPair = p.quickPair ∧ t.flagCompatiblePair = p.compatiblePair) : t.Follows p where
  unread := fun h => hunread ((unread_iff hstage).mp h)
  flags := fun h => hflags (not_not.mp ((unread_iff hstage).not.mp h))
  mode := fun app h => by simp [hstage] at h

/-- The stage changes while the gateway runs, and not the flags. -/
theorem Follows.move (h : s.Follows p) (hstage : ∀ reason, s.stage ≠ .booting reason)
    (hstage' : ∀ reason, t.stage ≠ .booting reason)
    (hflags : t.flagQuickPair = s.flagQuickPair ∧ t.flagCompatiblePair = s.flagCompatiblePair)
    (hmode : ∀ app, t.stage = .running app ∨ t.stage = .answering app → app.mode = startedMode p) :
    t.Follows p where
  unread := fun hunread => absurd hunread (read_of_stage hstage')
  flags := fun _ => by
    rw [hflags.1, hflags.2]
    exact h.flags (read_of_stage hstage)
  mode := hmode

theorem Follows.reset (h : s.Follows p) {reason : ResetReason} {quick compatible : Bool}
    (hcalm : s.Calm lib (.reset reason quick compatible))
    (hstep : s.step lib (.reset reason quick compatible) = some t) :
    t.Follows (nextFlags p (.reset reason quick compatible)) := by
  obtain rfl := Option.some.inj hstep
  by_cases hother : reason = .other
  · subst hother
    have hread : ¬s.Unread := fun hunread => hcalm hunread rfl
    exact .boots rfl (fun hno => absurd rfl hno) fun _ => h.flags hread
  · rw [if_neg hother, nextFlags, if_neg hother]
    exact .boots rfl (fun _ => rfl) fun hyes => absurd hyes hother

theorem Follows.appMain (h : s.Follows p) {buff : Text} (hcalm : s.Calm lib (.appMain buff))
    (hstep : s.step lib (.appMain buff) = some t) : t.Follows p := by
  simp only [Gateway.step] at hstep
  split at hstep
  · rename_i reason hstage
    obtain rfl := Option.some.inj hstep
    have hreads := fun hunread => hcalm hunread
    rw [unread_iff hstage] at hreads
    have hunread := h.unread
    have hflags := h.flags
    rw [unread_iff hstage] at hunread hflags
    unfold Gateway.appMain
    split
    · rename_i infor map topics hload
      have hp : ((reason != .unknown && reason != .powerOn) && s.flagQuickPair) = p.quickPair ∧
          ((reason != .unknown && reason != .powerOn) && s.flagCompatiblePair) =
            p.compatiblePair := by
        cases reason with
        | unknown => rw [hunread (by decide)]; exact ⟨rfl, rfl⟩
        | powerOn => rw [hunread (by decide)]; exact ⟨rfl, rfl⟩
        | other => exact hflags (by decide)
      dsimp only
      rw [hp.1, hp.2]
      refine ⟨fun hno => absurd hno (read_of_stage fun _ hno => by cases hno), fun _ => ⟨rfl, rfl⟩,
        fun app happ => ?_⟩
      rcases happ with happ | happ
      · cases happ
        rfl
      · cases happ
    · rename_i hfault
      have hother : reason = .other := by
        by_contra hne
        have hload : (s.load lib buff).isSome := hreads hne
        rw [hfault] at hload
        cases hload
      refine ⟨fun hno => absurd hno (read_of_stage fun _ hno => by cases hno),
        fun _ => hflags (not_not.mpr hother), fun app happ => ?_⟩
      rcases happ with happ | happ <;> cases happ
  · contradiction

/-- On flags that are not both set the fifth press is the change of the button task. -/
theorem fivePresses_flags (hquick : s.flagQuickPair = p.quickPair)
    (hcompatible : s.flagCompatiblePair = p.compatiblePair) :
    s.fivePresses.flagQuickPair = p.toggle.quickPair ∧
      s.fivePresses.flagCompatiblePair = p.toggle.compatiblePair := by
  obtain ⟨quick, compatible, hexclusive⟩ := p
  dsimp only at hquick hcompatible
  unfold Gateway.fivePresses PairFlags.toggle
  rw [hquick, hcompatible]
  cases quick with
  | false => exact ⟨rfl, rfl⟩
  | true =>
    cases compatible with
    | false => exact ⟨rfl, rfl⟩
    | true => exact absurd ⟨rfl, rfl⟩ hexclusive

theorem Follows.fivePresses (h : s.Follows p) (hcalm : s.Calm lib .fivePresses) :
    s.fivePresses.Follows p.toggle := by
  obtain ⟨hquick, hcompatible⟩ := h.flags hcalm
  have hstage : s.fivePresses.stage = .booting .other := rfl
  exact .boots hstage (fun hno => absurd rfl hno) fun _ => fivePresses_flags hquick hcompatible

/-- What a step of a gateway that runs keeps: the flags and the mode. -/
structure Stays (s t : Gateway) (app : App) : Prop where
  quick : t.flagQuickPair = s.flagQuickPair
  compatible : t.flagCompatiblePair = s.flagCompatiblePair
  up : ∀ reason, t.stage ≠ .booting reason
  mode : ∀ app', t.stage = .running app' ∨ t.stage = .answering app' → app'.mode = app.mode

theorem Stays.of_crashed (hquick : t.flagQuickPair = s.flagQuickPair)
    (hcompatible : t.flagCompatiblePair = s.flagCompatiblePair) (hstage : t.stage = .crashed) :
    s.Stays t app :=
  ⟨hquick, hcompatible, fun _ h => by simp [hstage] at h, fun _ h => by simp [hstage] at h⟩

theorem Stays.of_app {app' : App} (hquick : t.flagQuickPair = s.flagQuickPair)
    (hcompatible : t.flagCompatiblePair = s.flagCompatiblePair)
    (hstage : t.stage = .running app' ∨ t.stage = .answering app') (hmode : app'.mode = app.mode) :
    s.Stays t app where
  quick := hquick
  compatible := hcompatible
  up := fun reason h => by rcases hstage with hstage | hstage <;> simp [hstage] at h
  mode := fun app'' h => by
    rcases hstage with hstage | hstage <;> simp only [hstage, reduceCtorEq, or_false, false_or,
      Stage.running.injEq, Stage.answering.injEq] at h <;> exact h ▸ hmode

theorem posted_stays (app : App) (text : Text) : s.Stays (s.posted lib app text) app := by
  unfold posted
  split
  · exact .of_app rfl rfl (.inr rfl) rfl
  · exact .of_crashed rfl rfl rfl

theorem linkButton_stays (app : App) (item : Text) : s.Stays (s.linkButton app item) app := by
  unfold linkButton
  split
  · exact .of_crashed rfl rfl rfl
  · exact .of_app rfl rfl (.inl rfl) rfl

theorem Follows.stays (h : s.Follows p) (hstage : s.stage = .running app) (hstays : s.Stays t app) :
    t.Follows p :=
  h.move (fun _ hno => by rw [hstage] at hno; cases hno) hstays.up ⟨hstays.quick, hstays.compatible⟩
    fun app' happ' => (hstays.mode app' happ').trans (h.mode app (.inl hstage))

theorem Follows.step (h : s.Follows p) (hcalm : s.Calm lib e) (hstep : s.step lib e = some t) :
    t.Follows (nextFlags p e) := by
  cases e with
  | reset reason quick compatible => exact h.reset hcalm hstep
  | appMain buff => exact h.appMain hcalm hstep
  | fivePresses =>
    simp only [Gateway.step] at hstep
    split at hstep
    · cases hstep
    · obtain rfl := Option.some.inj hstep
      exact h.fivePresses hcalm
  | sendAckDone =>
    simp only [Gateway.step] at hstep
    split at hstep
    · rename_i app hstage
      rw [Option.ite_none_right_eq_some] at hstep
      obtain ⟨-, hstep⟩ := hstep
      obtain rfl := Option.some.inj hstep
      exact h.stays hstage (.of_app rfl rfl (.inl rfl) rfl)
    · cases hstep
  | post req script buf =>
    obtain ⟨app, hstage, rfl | rfl | ⟨text, rfl⟩⟩ := post_cases hstep
    · exact h.stays hstage (.of_crashed rfl rfl rfl)
    · exact h
    · exact h.stays hstage (posted_stays app text)
  | postRestart =>
    simp only [Gateway.step] at hstep
    split at hstep
    · obtain rfl := Option.some.inj hstep
      refine .boots ?_ (fun hno => absurd rfl hno) fun _ => ⟨rfl, rfl⟩
      exact rfl
    · cases hstep
  | linkButton item =>
    simp only [Gateway.step] at hstep
    split at hstep
    · rename_i app hstage
      rw [Option.ite_none_right_eq_some] at hstep
      obtain ⟨-, hstep⟩ := hstep
      obtain rfl := Option.some.inj hstep
      exact h.stays hstage (linkButton_stays app item)
    · cases hstep

end

/-- A gateway without files whose flags hold anything. -/
def fresh : Gateway := ⟨true, true, none, none, .booting .powerOn⟩

/-- A library that parses nothing. -/
def silent : CJsonLib := ⟨fun _ => none, fun _ _ => none, fun _ _ => none⟩

end Gateway

end VhomeBridge.Main
