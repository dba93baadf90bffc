import VhomeBridge.Lib.Run
import VhomeBridge.Ble.GenericClient

/-! The states published after a join.  The loop of `ble_mesh_config_client_cb` asks each endpoint
for its state and takes the next byte of `queueGetStateOnoffBLE`, on which the generic callback puts
the state of every answer, without its address.  What is published for an endpoint is what the
endpoint returned if every answer reaches an empty queue while the loop waits for it. -/

namespace VhomeBridge.Ble

open Lib

/-- The loop after a join: the endpoints it has yet to publish, the first of them asked already if
`waiting`. -/
structure StateLoop where
  globalNode : NodeInfor
  todo : List Nat
  waiting : Bool

/-- The loop, the queue with the address that each byte came from, the addresses asked and not
answered, the answers so far, and the outputs of the loop. -/
structure GetState where
  loop : Option StateLoop
  queue : List (Word × Octet)
  asked : List Word
  returned : List (Word × Octet)
  outs : List Out

inductive GetStateEvent
  | join (globalNode : NodeInfor)
  | query
  | receive
  | giveUp
  | done
  | answer (linkButton : Bool) (param : GenericParam) (node : Option Node)

def queueLength : Nat := 50

def queuedStates (outs : List GenericOut) : List Octet :=
  outs.filterMap fun
    | .queueGetStateOnoffBLE onoffStatus => some onoffStatus
    | _ => none

def Out.onoffGet? : Out → Option Word
  | .onoffGet addr => some addr
  | _ => none

namespace GetState

def step (s : GetState) : GetStateEvent → Option GetState
  | .join g =>
    if s.loop.isNone then
      some { s with loop := some ⟨g, List.range' 1 g.elementNum.toNat, false⟩ }
    else none
  | .query =>
    match s.loop with
    | some ⟨g, i :: todo, false⟩ =>
      some { s with
        loop := some ⟨g, i :: todo, true⟩
        asked := s.asked ++ (queryState g i).onoffGet?.toList
        outs := s.outs ++ [queryState g i] }
    | _ => none
  | .receive =>
    match s.loop, s.queue with
    | some ⟨g, i :: todo, true⟩, (_, v) :: queue =>
      some { s with
        loop := some ⟨g, todo, false⟩, queue := queue
        outs := s.outs ++ publishState g i (some v) }
    | _, _ => none
  | .giveUp =>
    match s.loop, s.queue with
    | some ⟨g, i :: todo, true⟩, [] =>
      some { s with
        loop := some ⟨g, todo, false⟩, outs := s.outs ++ publishState g i none }
    | _, _ => none
  | .done =>
    match s.loop with
    | some ⟨_, [], _⟩ => some { s with loop := none }
    | _ => none
  | .answer linkButton param node =>
    if param.addr ∈ s.asked ∧ param.opcode = .onoffGet then
      let states := queuedStates (bleMeshGenericClientCb linkButton 0 .getState param node).2
      some { s with
        queue := (s.queue ++ states.map (param.addr, ·)).take queueLength
        asked := s.asked.erase param.addr
        returned := s.returned ++ [(param.addr, param.presentOnoff)] }
    else none

def start : GetState := ⟨none, [], [], [], []⟩

def awaited (s : GetState) : Option Word :=
  match s.loop with
  | some ⟨g, i :: _, true⟩ => (queryState g i).onoffGet?
  | _ => none

/-- An answer that puts a state on the queue finds the queue empty and the loop waiting for it. -/
def Timely (s : GetState) : GetStateEvent → Prop
  | .answer linkButton param node =>
    queuedStates (bleMeshGenericClientCb linkButton 0 .getState param node).2 ≠ [] →
      s.queue = [] ∧ s.awaited = some param.addr
  | _ => True

instance (s : GetState) (e : GetStateEvent) : Decidable (s.Timely e) :=
  match e with
  | .answer _ _ _ => inferInstanceAs (Decidable (_ → _))
  | .join _ | .query | .receive | .giveUp | .done => .isTrue trivial

/-- The state in a record was returned by the endpoint that the record names. -/
def Returned (returned : List (Word × Octet)) (record : Action) : Prop :=
  (record.nodeId + (record.endpoint - 1).setWidth 16, record.param) ∈ returned

/-- Each record published is of a state that its endpoint returned, and the queue holds at most the
answer to the query that the loop waits for. -/
structure Inv (s : GetState) : Prop where
  published : ∀ record, .action record ∈ s.outs → Returned s.returned record
  queued : ∀ item ∈ s.queue, s.queue = [item] ∧ item ∈ s.returned ∧ s.awaited = some item.1
  endpoints : ∀ l, s.loop = some l → ∀ i ∈ l.todo, 0 < i

theorem queryState_addr (g : NodeInfor) {i : Nat} (hi : 0 < i) :
    (queryState g i).onoffGet? =
      some (g.unicastAddr + (BitVec.ofNat 8 i - 1).setWidth 16) := by
  have : ((BitVec.ofNat 16 (i - 1)).setWidth 8).setWidth 16 =
      (BitVec.ofNat 8 i - 1).setWidth 16 := by
    apply BitVec.eq_of_toNat_eq
    have hone : (1 : Octet).toNat = 1 := rfl
    simp only [BitVec.toNat_setWidth, BitVec.toNat_ofNat, BitVec.toNat_sub, hone]
    omega
  simp only [queryState, bleMeshCommandGet, Out.onoffGet?, this]

theorem start_inv : Inv start where
  published := by intro record h; contradiction
  queued := by intro item h; contradiction
  endpoints := by intro l h; contradiction

theorem queuedStates_cb (linkButton : Bool) (param : GenericParam) (node : Option Node) :
    queuedStates (bleMeshGenericClientCb linkButton 0 .getState param node).2 = [] ∨
      queuedStates (bleMeshGenericClientCb linkButton 0 .getState param node).2 =
        [param.presentOnoff] := by
  by_cases herr : param.errorCode = 0
  · cases node with
    | none => simp [bleMeshGenericClientCb, herr, queuedStates]
    | some node =>
      cases linkButton <;> cases hopcode : param.opcode <;>
        simp [bleMeshGenericClientCb, herr, hopcode, queuedStates]
  · simp [bleMeshGenericClientCb, herr, queuedStates]

theorem Inv.next {s : GetState} (h : Inv s) {g : NodeInfor} {i : Nat} {todo : List Nat}
    (hloop : s.loop = some ⟨g, i :: todo, true⟩) {onoffStatus : Option Octet}
    (hreturned : ∀ v, onoffStatus = some v → Returned s.returned
      ⟨g.unicastAddr, BitVec.ofNat 8 i, genOnoffStatus, v⟩) :
    Inv { s with
      loop := some ⟨g, todo, false⟩, queue := []
      outs := s.outs ++ publishState g i onoffStatus } where
  published := by
    intro record hrecord
    rcases List.mem_append.mp hrecord with hrecord | hrecord
    · exact h.published record hrecord
    · simp only [publishState, Option.mem_toList, Option.map_eq_some_iff] at hrecord
      obtain ⟨v, hv, heq⟩ := hrecord
      obtain rfl := Out.action.inj heq
      exact hreturned v hv
  queued := by intro item hitem; contradiction
  endpoints := by
    rintro l ⟨⟩ k hk
    exact h.endpoints _ hloop k (List.mem_cons_of_mem i hk)

/-- An answer is returned, and queued if it is the one that the loop waits for. -/
theorem Inv.answer {s : GetState} (h : Inv s) (linkButton : Bool) (param : GenericParam)
    (node : Option Node) (ok : s.Timely (.answer linkButton param node)) (asked : List Word) :
    Inv { s with
      queue := (s.queue ++
        (queuedStates (bleMeshGenericClientCb linkButton 0 .getState param node).2).map
          (param.addr, ·)).take queueLength
      asked := asked
      returned := s.returned ++ [(param.addr, param.presentOnoff)] } := by
  have hpublished : ∀ record, .action record ∈ s.outs →
      Returned (s.returned ++ [(param.addr, param.presentOnoff)]) record :=
    fun record hrecord => List.mem_append_left _ (h.published record hrecord)
  rcases queuedStates_cb linkButton param node with hstates | hstates
  · rw [hstates]
    refine ⟨hpublished, fun item hitem => ?_, h.endpoints⟩
    have hold : item ∈ s.queue := by simpa using List.mem_of_mem_take hitem
    obtain ⟨hqueue, hmem, hwait⟩ := h.queued item hold
    refine ⟨?_, List.mem_append_left _ hmem, hwait⟩
    rw [hqueue]
    rfl
  · obtain ⟨hqueue, hwait⟩ := ok (by rw [hstates]; simp)
    rw [hstates, hqueue]
    refine ⟨hpublished, fun item hitem => ?_, h.endpoints⟩
    obtain rfl : item = (param.addr, param.presentOnoff) := by
      simpa using List.mem_of_mem_take hitem
    exact ⟨rfl, by simp, hwait⟩

theorem step_inv {s t : GetState} {e : GetStateEvent} (h : Inv s) (hstep : s.step e = some t)
    (ok : s.Timely e) : Inv t := by
  obtain ⟨loop, queue, asked, returned, outs⟩ := s
  cases e with
  | join g =>
    simp only [step, Option.ite_none_right_eq_some] at hstep
    obtain ⟨hnone, hstep⟩ := hstep
    obtain rfl : loop = none := by simpa using hnone
    obtain rfl := Option.some.inj hstep
    refine ⟨h.published, fun item hitem => ?_, ?_⟩
    · obtain ⟨-, -, hwait⟩ := h.queued item hitem
      contradiction
    · rintro l ⟨⟩ i hi
      have := List.mem_range'.mp hi
      omega
  | query =>
    match loop with
    | some ⟨g, i :: todo, false⟩ =>
      obtain rfl := Option.some.inj hstep
      refine ⟨fun record hrecord => ?_, fun item hitem => ?_, ?_⟩
      · apply h.published record
        simpa [queryState, bleMeshCommandGet] using hrecord
      · obtain ⟨-, -, hwait⟩ := h.queued item hitem
        contradiction
      · rintro l ⟨⟩ k hk
        exact h.endpoints _ rfl k hk
    | none | some ⟨_, [], _⟩ | some ⟨_, _ :: _, true⟩ => simp [step] at hstep
  | receive =>
    match loop, queue with
    | some ⟨g, i :: todo, true⟩, item :: queue =>
      obtain rfl := Option.some.inj hstep
      obtain ⟨hqueue, hmem, hwait⟩ := h.queued item (by simp)
      obtain rfl : queue = [] := by simpa using hqueue
      have haddr : (queryState g i).onoffGet? = some item.1 := hwait
      apply h.next rfl
      intro v hv
      obtain rfl := Option.some.inj hv
      rw [queryState_addr g (h.endpoints _ rfl i (by simp)), Option.some.injEq] at haddr
      rw [Returned, haddr]
      exact hmem
    | none, _ | some ⟨_, [], _⟩, _ | some ⟨_, _, false⟩, _ | some ⟨_, _ :: _, true⟩, [] =>
      simp [step] at hstep
  | giveUp =>
    match loop, queue with
    | some ⟨g, i :: todo, true⟩, [] =>
      obtain rfl := Option.some.inj hstep
      exact h.next rfl fun v hv => by contradiction
    | none, _ | some ⟨_, [], _⟩, _ | some ⟨_, _, false⟩, _ | some ⟨_, _ :: _, true⟩, _ :: _ =>
      simp [step] at hstep
  | done =>
    match loop with
    | some ⟨g, [], waiting⟩ =>
      obtain rfl := Option.some.inj hstep
      refine ⟨h.published, fun item hitem => ?_, fun l hl => by contradiction⟩
      obtain ⟨-, -, hwait⟩ := h.queued item hitem
      contradiction
    | none | some ⟨_, _ :: _, _⟩ => simp [step] at hstep
  | answer linkButton param node =>
    simp only [step, Option.ite_none_right_eq_some] at hstep
    obtain ⟨-, hstep⟩ := hstep
    obtain rfl := Option.some.inj hstep
    exact h.answer linkButton param node ok _

/-- In every run in which each answer that is queued finds the queue empty and the loop waiting for
it, each record published is of a state that its endpoint returned to a query. -/
theorem published_of_timely (es : List GetStateEvent) (s : GetState)
    (run : Run (Guarded (Steps step) Timely) start es s) :
    ∀ record, .action record ∈ s.outs → Returned s.returned record :=
  (run.invariant start_inv fun _ _ _ h hstep => step_inv h hstep.1 hstep.2).published

def switchInfor : NodeInfor := { blankNode with unicastAddr := 5, elementNum := 2 }

def switchAnswer (addr : Word) (presentOnoff : Octet) : GetStateEvent :=
  .answer true ⟨0, .onoffGet, addr, presentOnoff, 0x8204⟩ (some firstNode)

theorem published_of_timely_switch :
    ∃ s, Run (Guarded (Steps step) Timely) start
        [.join switchInfor, .query, switchAnswer 5 1, .receive, .query, .giveUp, .done] s ∧
      .action ⟨5, 1, genOnoffStatus, 1⟩ ∈ s.outs ∧
      ∀ record, .action record ∈ s.outs → Returned s.returned record := by
  have hexec : (exec (restrict step fun s e => decide (s.Timely e)) start
      [.join switchInfor, .query, switchAnswer 5 1, .receive, .query, .giveUp, .done]).map
        (fun s => decide (.action ⟨5, 1, genOnoffStatus, 1⟩ ∈ s.outs)) = some true := by decide
  obtain ⟨s, hs, hmem⟩ := Option.map_eq_some_iff.mp hexec
  have run := Run.of_exec_restrict (G := Timely) (fun _ _ => of_decide_eq_true) hs
  exact ⟨s, run, of_decide_eq_true hmem, published_of_timely _ s run⟩

/-- The first endpoint answers late: its state is published for the second. -/
theorem lateAnswer_published :
    ∃ s, Run (Steps step) start
        [.join switchInfor, .query, .giveUp, switchAnswer 5 1, .query, .receive] s ∧
      ∃ record, .action record ∈ s.outs ∧ ¬ Returned s.returned record := by
  have hexec : (exec step start
      [.join switchInfor, .query, .giveUp, switchAnswer 5 1, .query, .receive]).map
        (fun s => decide (.action ⟨5, 2, genOnoffStatus, 1⟩ ∈ s.outs ∧ s.returned = [(5, 1)])) =
          some true := by decide
  obtain ⟨s, hs, hmem⟩ := Option.map_eq_some_iff.mp hexec
  obtain ⟨hout, hreturned⟩ := of_decide_eq_true hmem
  refine ⟨s, Run.of_exec hs, _, hout, ?_⟩
  rw [Returned, hreturned]
  decide

end GetState

end VhomeBridge.Ble
