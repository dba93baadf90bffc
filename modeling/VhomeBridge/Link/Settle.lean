import VhomeBridge.Link.Ids

/-! The tasks of the links come to rest.  Once no more link events are put on the queue, each step
of a task is one of those that are left, whichever task takes it, and a task can take one as long
as some are left. -/

namespace VhomeBridge.Link

open Lib Ble

/-- An id that fits `idButton[40]` and, for a BLE node, has all the characters that are read. -/
structure Usable (id : Text) : Prop where
  fits : id.length < 40
  ble : isBle id = true → 6 ≤ id.length

instance : DecidablePred Usable := fun id =>
  decidable_of_iff (id.length < 40 ∧ (isBle id = true → 6 ≤ id.length))
    ⟨fun h => ⟨h.1, h.2⟩, fun h => ⟨h.fits, h.ble⟩⟩

/-- The lists of the map are made of such ids. -/
def UsableLists (map : MapStr) : Prop :=
  ∀ node ∈ map.buckets.items, ∀ id ∈ strtok [] node.value, Usable id

instance : DecidablePred UsableLists := fun map =>
  inferInstanceAs (Decidable (∀ node ∈ map.buckets.items, ∀ id ∈ strtok [] node.value, Usable id))

namespace Tasks

/-- The steps that a link event on the queue leads to before its items are on the command queues. -/
def stepsFor (map : MapStr) (item : LinkButton) : Nat :=
  1 + ((mapGet map item.idButton).map fun ids => 2 * (strtok [] ids).length + 1).getD 0

/-- The steps that are left. -/
def left (map : MapStr) (s : Tasks) : Nat :=
  (s.queueIdButton.map (stepsFor map)).sum +
    (s.sending.map fun p => 2 * p.2.length + 1).getD 0 + s.queueCmdZigbee.length +
    s.queueCmdBLE.length

/-- No link event is put on the queue, and there is room for what `sendIdButton` puts on the
others. -/
def Alone (s : Tasks) : Event → Prop
  | .put _ _ => False
  | e => s.HasRoom e

instance (s : Tasks) : DecidablePred s.Alone
  | .put _ _ => .isFalse id
  | .sendIdButton => inferInstanceAs (Decidable (s.HasRoom .sendIdButton))
  | .sendCommandZigbee => inferInstanceAs (Decidable (s.HasRoom .sendCommandZigbee))
  | .sendCommandBLE => inferInstanceAs (Decidable (s.HasRoom .sendCommandBLE))

section

variable {map : MapStr} {es : List Event} {s s' : Tasks} {e : Event}

theorem left_eq_zero_iff : s.left map = 0 ↔ s.Quiet := by
  have hsending : (s.sending.map fun p => 2 * p.2.length + 1).getD 0 = 0 ↔ s.sending = none := by
    cases s.sending <;> simp
  have hid : (s.queueIdButton.map (stepsFor map)).sum = 0 ↔ s.queueIdButton = [] := by
    cases s.queueIdButton with
    | nil => simp
    | cons i queue =>
      simp only [List.map_cons, List.sum_cons, stepsFor, reduceCtorEq, iff_false]
      omega
  simp only [left, Nat.add_eq_zero_iff, hsending, hid, List.length_eq_zero_iff, Quiet, and_assoc]

/-- Every step is one of those that are left. -/
theorem left_step (h : Guarded (Steps (step map)) Alone s e s') : s'.left map + 1 = s.left map := by
  obtain ⟨hstep, halone⟩ := h
  cases e with
  | put => exact halone.elim
  | sendIdButton =>
    have hzigbee (i : LinkButton) : send 50 s.queueCmdZigbee i = s.queueCmdZigbee ++ [i] :=
      if_pos halone.1
    have hble (i : LinkButton) : send 50 s.queueCmdBLE i = s.queueCmdBLE ++ [i] := if_pos halone.2
    obtain ⟨i, token, tokens, hsending, -, rfl⟩ | ⟨i, token, tokens, hsending, -, rfl⟩ |
      ⟨i, hsending, rfl⟩ | ⟨i, queue, hsending, hqueue, rfl⟩ := step_sendIdButton hstep
    · simp only [left, hsending, hble, Option.map_some, Option.getD_some, List.length_cons,
        List.length_append, List.length_nil]
      omega
    · simp only [left, hsending, hzigbee, Option.map_some, Option.getD_some, List.length_cons,
        List.length_append, List.length_nil]
      omega
    · simp only [left, hsending, Option.map_some, Option.map_none, Option.getD_some,
        Option.getD_none, List.length_nil]
      omega
    · -- the steps for the event are those for its list and the one that looks it up
      cases hget : mapGet map i.idButton with
      | none =>
        simp only [left, stepsFor, hsending, hqueue, hget, List.map_cons, List.sum_cons,
          Option.map_none, Option.getD_none]
        omega
      | some ids =>
        simp only [left, stepsFor, hsending, hqueue, hget, List.map_cons, List.sum_cons,
          Option.map_none, Option.map_some, Option.getD_none, Option.getD_some]
        omega
  | sendCommandZigbee =>
    obtain ⟨i, queue, line, hqueue, -, rfl⟩ := step_sendCommandZigbee hstep
    simp only [left, hqueue, List.length_cons]
    omega
  | sendCommandBLE =>
    obtain ⟨i, queue, call, hqueue, -, rfl⟩ := step_sendCommandBLE hstep
    simp only [left, hqueue, List.length_cons]
    omega

/-! ### A task can go on -/

/-- What is under way leads to no fault. -/
structure Sound (s : Tasks) : Prop where
  queueIdButton : ∀ i ∈ s.queueIdButton, i.stateButton.length ≤ 4
  sending : ∀ p ∈ s.sending,
    p.1.stateButton.length ≤ 4 ∧ ∀ id ∈ p.2, id ≠ [] ∧ Usable id
  queueCmdZigbee : ∀ i ∈ s.queueCmdZigbee, i.stateButton.length ≤ 4 ∧ i.idButton ≠ []
  queueCmdBLE : ∀ i ∈ s.queueCmdBLE, i.idButton ≠ [] ∧ 6 ≤ i.idButton.length

theorem sound_start : Sound start := by
  constructor <;> simp [start]

theorem usable_of_mapGet (hmap : UsableLists map) {id ids : Text} (h : mapGet map id = some ids) :
    ∀ word ∈ strtok [] ids, word ≠ [] ∧ Usable word := by
  obtain ⟨node, hmem, rfl⟩ := exists_node_of_mapGet h
  exact fun word hword =>
    ⟨(isWord_of_mem_strtok List.not_mem_nil hword).2, hmap node hmem word hword⟩

theorem Sound.sendIdButton (hmap : UsableLists map) (h : s.Sound)
    (hroom : s.HasRoom .sendIdButton) (hstep : step map s .sendIdButton = some s') : s'.Sound := by
  have hzigbee (i : LinkButton) : send 50 s.queueCmdZigbee i = s.queueCmdZigbee ++ [i] :=
    if_pos hroom.1
  have hble (i : LinkButton) : send 50 s.queueCmdBLE i = s.queueCmdBLE ++ [i] := if_pos hroom.2
  obtain ⟨i, token, tokens, hsending, htoken, rfl⟩ | ⟨i, token, tokens, hsending, htoken, rfl⟩ |
    ⟨i, hsending, rfl⟩ | ⟨i, queue, hsending, hqueue, rfl⟩ := step_sendIdButton hstep
  · obtain ⟨hstate, htokens⟩ := h.sending _ hsending
    obtain ⟨⟨hne, husable⟩, hrest⟩ := List.forall_mem_cons.mp htokens
    refine { h with sending := ?_, queueCmdBLE := ?_ }
    · rintro p ⟨⟩
      exact ⟨hstate, hrest⟩
    · dsimp only
      rw [hble]
      refine List.forall_mem_append.mpr ⟨h.queueCmdBLE, ?_⟩
      rw [List.forall_mem_singleton]
      exact ⟨hne, husable.ble htoken⟩
  · obtain ⟨hstate, htokens⟩ := h.sending _ hsending
    obtain ⟨⟨hne, husable⟩, hrest⟩ := List.forall_mem_cons.mp htokens
    refine { h with sending := ?_, queueCmdZigbee := ?_ }
    · rintro p ⟨⟩
      exact ⟨hstate, hrest⟩
    · dsimp only
      rw [hzigbee]
      refine List.forall_mem_append.mpr ⟨h.queueCmdZigbee, ?_⟩
      rw [List.forall_mem_singleton]
      exact ⟨hstate, hne⟩
  · exact { h with sending := by rintro p ⟨⟩ }
  · have hid := h.queueIdButton
    rw [hqueue, List.forall_mem_cons] at hid
    refine { h with queueIdButton := hid.2, sending := ?_ }
    intro p hp
    obtain ⟨ids, hids, rfl⟩ := Option.map_eq_some_iff.mp hp
    exact ⟨hid.1, usable_of_mapGet hmap hids⟩

theorem Sound.step (hmap : UsableLists map) (h : s.Sound)
    (hstep : Guarded (Steps (Tasks.step map)) HasRoom s e s') : s'.Sound := by
  obtain ⟨hstep, hroom⟩ := hstep
  cases e with
  | put id on =>
    obtain rfl := Option.some.inj hstep
    refine { h with queueIdButton := ?_ }
    have hsend : send 100 s.queueIdButton (item id on) = s.queueIdButton ++ [item id on] :=
      if_pos hroom
    dsimp only
    rw [hsend]
    refine List.forall_mem_append.mpr ⟨h.queueIdButton, ?_⟩
    rw [List.forall_mem_singleton]
    cases on with
    | true => exact (by decide : "on".toList.length ≤ 4)
    | false => exact (by decide : "off".toList.length ≤ 4)
  | sendIdButton => exact h.sendIdButton hmap hroom hstep
  | sendCommandZigbee =>
    obtain ⟨i, queue, line, hqueue, -, rfl⟩ := step_sendCommandZigbee hstep
    exact { h with queueCmdZigbee := (List.forall_mem_cons.mp (hqueue ▸ h.queueCmdZigbee)).2 }
  | sendCommandBLE =>
    obtain ⟨i, queue, call, hqueue, -, rfl⟩ := step_sendCommandBLE hstep
    exact { h with queueCmdBLE := (List.forall_mem_cons.mp (hqueue ▸ h.queueCmdBLE)).2 }

/-- The commands go out first, and then there is room for more. -/
theorem Sound.goesOn (h : s.Sound) (hbusy : ¬s.Quiet) :
    ∃ e s', Guarded (Steps (Tasks.step map)) Alone s e s' := by
  cases hzigbee : s.queueCmdZigbee with
  | cons i queue =>
    obtain ⟨hstate, hid⟩ := h.queueCmdZigbee i (hzigbee ▸ List.mem_cons_self)
    obtain ⟨endpoint, hendpoint⟩ := Option.isSome_iff_exists.mp (List.getLast?_isSome.mpr hid)
    have hline : (Link.sendCommandZigbee i).isSome := by
      have htake := List.length_take_le 6 i.idButton
      rw [Link.sendCommandZigbee, hendpoint]
      show (intoBuffer 100 _).isSome = true
      rw [intoBuffer, if_pos]
      · rfl
      · simp only [List.length_append, String.length_toList, List.length_singleton]
        have hcommand : "custom action-onoff ".length = 20 := by decide
        have hspace : " ".length = 1 := by decide
        have hnewline : "\n".length = 1 := by decide
        omega
    obtain ⟨line, hline⟩ := Option.isSome_iff_exists.mp hline
    refine ⟨.sendCommandZigbee, { s with queueCmdZigbee := queue, uart := s.uart ++ [line] }, ?_,
      trivial⟩
    rw [Steps, Tasks.step, hzigbee]
    show (Link.sendCommandZigbee i).bind _ = _
    rw [hline]
    rfl
  | nil =>
    cases hble : s.queueCmdBLE with
    | cons i queue =>
      obtain ⟨hid, hlength⟩ := h.queueCmdBLE i (hble ▸ List.mem_cons_self)
      obtain ⟨endpoint, hendpoint⟩ := Option.isSome_iff_exists.mp (List.getLast?_isSome.mpr hid)
      have hcall : (Link.sendCommandBLE i).isSome := by
        rw [Link.sendCommandBLE, hendpoint]
        show (if i.idButton.length < 6 then none else some _).isSome = true
        rw [if_neg (by omega)]
        rfl
      obtain ⟨call, hcall⟩ := Option.isSome_iff_exists.mp hcall
      refine ⟨.sendCommandBLE, { s with queueCmdBLE := queue, calls := s.calls ++ [call] }, ?_,
        trivial⟩
      rw [Steps, Tasks.step, hble]
      show (Link.sendCommandBLE i).bind _ = _
      rw [hcall]
      rfl
    | nil =>
      have hroom : s.Alone .sendIdButton := by
        constructor
        · simp [hzigbee]
        · simp [hble]
      have hsome : (s.step map .sendIdButton).isSome := by
        rw [Tasks.step]
        cases hsending : s.sending with
        | some p =>
          obtain ⟨i, tokens⟩ := p
          cases tokens with
          | nil => rfl
          | cons token tokens =>
            obtain ⟨-, husable⟩ := (h.sending _ hsending).2 token List.mem_cons_self
            show ((intoBuffer 40 token).bind _).isSome = true
            rw [intoBuffer, if_pos husable.fits, Option.bind_some]
            cases isBle token <;> rfl
        | none =>
          cases hqueue : s.queueIdButton with
          | nil => exact absurd ⟨hqueue, hsending, hzigbee, hble⟩ hbusy
          | cons i queue => rfl
      obtain ⟨s', hs'⟩ := Option.isSome_iff_exists.mp hsome
      exact ⟨.sendIdButton, s', hs', hroom⟩

/-! ### Rest -/

theorem Alone.hasRoom (h : s.Alone e) : s.HasRoom e := by
  cases e with
  | put => exact h.elim
  | _ => exact h

/-- The tasks by themselves account for the same link events as before. -/
theorem Accounted.alone (h : Accounted map es s)
    (hstep : Guarded (Steps (Tasks.step map)) Alone s e s') : Accounted map es s' := by
  obtain ⟨hstep, halone⟩ := hstep
  cases e with
  | put => exact halone.elim
  | sendIdButton => exact h.sendIdButton halone hstep
  | sendCommandZigbee => exact h.sendCommandZigbee hstep
  | sendCommandBLE => exact h.sendCommandBLE hstep

/-- The commands out when all is quiet are those out before, and then those on the queues and those
to come. -/
theorem Accounted.of_quiet {t : Tasks} (hs : Accounted map es s) (ht : Accounted map es t)
    (hquiet : t.Quiet) :
    t.uart.map some = s.uart.map some ++
        (s.queueCmdZigbee ++ zigbee (s.coming map)).map Link.sendCommandZigbee ∧
      t.calls.map some = s.calls.map some ++
        (s.queueCmdBLE ++ ble (s.coming map)).map Link.sendCommandBLE := by
  obtain ⟨hid, hsending, hzigbee, hble⟩ := hquiet
  have hcoming : t.coming map = [] := by simp [coming, hsending, hid]
  have huart := ht.uart
  have hcalls := ht.calls
  rw [hzigbee, hcoming] at huart
  rw [hble, hcoming] at hcalls
  constructor
  · rw [hs.uart, ← huart]
    simp [zigbee]
  · rw [hs.calls, ← hcalls]
    simp [ble]

/-- Wherever a run has led, once no more link events come the tasks go on for exactly the steps that
are left, in whatever order they take turns, and then the same commands are out. -/
theorem settles (hmap : UsableLists map)
    (run : Run (Guarded (Steps (Tasks.step map)) HasRoom) start es s) {ds : List Event} {t : Tasks}
    (rest : Run (Guarded (Steps (Tasks.step map)) Alone) s ds t) :
    ds.length ≤ s.left map ∧ (t.Quiet ↔ ds.length = s.left map) ∧
      (t.Quiet ∨ ∃ d u, Guarded (Steps (Tasks.step map)) Alone t d u) ∧
        (t.Quiet → t.uart.map some = s.uart.map some ++
            (s.queueCmdZigbee ++ zigbee (s.coming map)).map Link.sendCommandZigbee ∧
          t.calls.map some = s.calls.map some ++
            (s.queueCmdBLE ++ ble (s.coming map)).map Link.sendCommandBLE) := by
  have haccounted : Accounted map es s :=
    run.history accounted_start fun _ _ _ _ h hstep => h.step hstep
  have hsound : s.Sound := run.invariant sound_start fun _ _ _ h hstep => h.step hmap hstep
  obtain ⟨hleft, haccounted', hsound'⟩ : ds.length + t.left map = s.left map ∧
      Accounted map es t ∧ t.Sound := by
    refine rest.history (I := fun ds t => ds.length + t.left map = s.left map ∧
      Accounted map es t ∧ t.Sound) ⟨Nat.zero_add _, haccounted, hsound⟩ ?_
    rintro ds a e b ⟨hleft, ha, hsound⟩ hstep
    refine ⟨?_, ha.alone hstep, hsound.step hmap ⟨hstep.1, hstep.2.hasRoom⟩⟩
    have := left_step hstep
    rw [List.length_append, List.length_singleton]
    omega
  refine ⟨by omega, ?_, or_iff_not_imp_left.mpr hsound'.goesOn, haccounted.of_quiet haccounted'⟩
  have hquiet : t.left map = 0 ↔ t.Quiet := left_eq_zero_iff
  rw [← hquiet]
  omega

/-- A switch with a BLE lamp and a Zigbee lamp. -/
def bothLamps : MapStr :=
  (mapSet mapInit "0x1A2Bzigbee1".toList "0x0005ble2 0x0006zigbee1 ".toList 26).getD mapInit

/-- The link event is looked up. -/
def lookedUp : Tasks :=
  ⟨[], some (item "0x1A2Bzigbee1".toList true, ["0x0005ble2".toList, "0x0006zigbee1".toList]),
    [], [], [], []⟩

/-- Both commands are out. -/
def lampsOn : Tasks :=
  ⟨[], none, [], [], ["custom action-onoff on 0x0006 1\n".toList], [⟨5, 1, 1, true⟩]⟩

/-- Both tasks that send commands have their turn before `sendIdButton` is done. -/
theorem settles_bothLamps :
    exec (restrict (Tasks.step bothLamps) fun s e => decide (s.HasRoom e)) start
        [.put "0x1A2Bzigbee1".toList true, .sendIdButton] = some lookedUp ∧
      exec (restrict (Tasks.step bothLamps) fun s e => decide (s.Alone e)) lookedUp
        [.sendIdButton, .sendCommandBLE, .sendIdButton, .sendCommandZigbee, .sendIdButton] =
          some lampsOn ∧ lampsOn.Quiet := by
  have hmap : UsableLists bothLamps := by decide +kernel
  have hs : exec (restrict (Tasks.step bothLamps) fun s e => decide (s.HasRoom e)) start
      [.put "0x1A2Bzigbee1".toList true, .sendIdButton] = some lookedUp := by decide +kernel
  have ht : exec (restrict (Tasks.step bothLamps) fun s e => decide (s.Alone e)) lookedUp
      [.sendIdButton, .sendCommandBLE, .sendIdButton, .sendCommandZigbee, .sendIdButton] =
        some lampsOn := by decide +kernel
  have hsettles := settles hmap (Run.of_exec_restrict (fun _ _ => of_decide_eq_true) hs)
    (Run.of_exec_restrict (fun _ _ => of_decide_eq_true) ht)
  exact ⟨hs, ht, hsettles.2.1.mpr (by decide +kernel)⟩

end

end Tasks

end VhomeBridge.Link
