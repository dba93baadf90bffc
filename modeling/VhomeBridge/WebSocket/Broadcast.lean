import VhomeBridge.WebSocket.Sessions

/-! The loops over the clients.  Each turn of a loop concerns one client, so a loop is known by what
its body does with a client: the clients after it, what it puts out and what it returns. -/

namespace VhomeBridge.WebSocket

open Lib

namespace Server

/-- What a body does with a client: the client after it, what is put out, and whether it counts. -/
structure Effect where
  client : WsClient
  outputs : List Output
  counts : Bool

/-- The body has the effect `act` on each client, and no other effect on the clients and the log. -/
def HasEffect (body : Server → Num → Netconn → Server × Bool)
    (act : Num → Netconn → WsClient → Effect) : Prop :=
  ∀ (s : Server) num conn, (s.clients num).conn = some conn →
    (body s num conn).1.clients =
        Function.update s.clients num (act num conn (s.clients num)).client ∧
      (body s num conn).1.log = s.log ++ (act num conn (s.clients num)).outputs ∧
      (body s num conn).2 = (act num conn (s.clients num)).counts

/-- What a loop does with a client. -/
def visit (test : WsClient → Bool) (act : Num → Netconn → WsClient → Effect) (num : Num)
    (client : WsClient) : Effect :=
  match client.conn with
  | none => ⟨client, [], false⟩
  | some conn => if test client then act num conn client else ⟨client, [], false⟩

section Loop

variable {body : Server → Num → Netconn → Server × Bool}
  {act : Num → Netconn → WsClient → Effect}

theorem forClient_eq (test : WsClient → Bool) (h : HasEffect body act) (t : Server × Nat) (i : Num) :
    (forClient test body t i).1.clients =
        Function.update t.1.clients i (visit test act i (t.1.clients i)).client ∧
      (forClient test body t i).1.log = t.1.log ++ (visit test act i (t.1.clients i)).outputs ∧
      (forClient test body t i).2 =
        t.2 + if (visit test act i (t.1.clients i)).counts then 1 else 0 := by
  cases hconn : (t.1.clients i).conn with
  | none => simp [forClient, visit, hconn]
  | some conn =>
    by_cases htest : test (t.1.clients i) = true
    · obtain ⟨hclients, hlog, hcounts⟩ := h t.1 i conn hconn
      simp only [forClient, visit, hconn, htest, if_true, hcounts]
      refine ⟨hclients, hlog, ?_⟩
      split <;> rfl
    · simp [forClient, visit, hconn, htest]

theorem foldl_forClient_eq (test : WsClient → Bool) (h : HasEffect body act) (is : List Num)
    (hnodup : is.Nodup) (t : Server × Nat) :
    (∀ j, (is.foldl (forClient test body) t).1.clients j =
        if j ∈ is then (visit test act j (t.1.clients j)).client else t.1.clients j) ∧
      (is.foldl (forClient test body) t).1.log =
        t.1.log ++ is.flatMap (fun i => (visit test act i (t.1.clients i)).outputs) ∧
      (is.foldl (forClient test body) t).2 =
        t.2 + is.countP (fun i => (visit test act i (t.1.clients i)).counts) := by
  induction is generalizing t with
  | nil => simp
  | cons i is ih =>
    obtain ⟨hi, hnodup⟩ := List.nodup_cons.mp hnodup
    obtain ⟨hclients, hlog, hcount⟩ := forClient_eq test h t i
    obtain ⟨ihclients, ihlog, ihcount⟩ := ih hnodup (forClient test body t i)
    have hrest : ∀ j ∈ is, (forClient test body t i).1.clients j = t.1.clients j := by
      intro j hj
      rw [hclients]
      refine Function.update_of_ne ?_ ..
      rintro rfl
      exact hi hj
    have hself : (forClient test body t i).1.clients i =
        (visit test act i (t.1.clients i)).client := by
      rw [hclients]
      exact Function.update_self ..
    refine ⟨fun j => ?_, ?_, ?_⟩
    · rw [List.foldl_cons, ihclients]
      by_cases hj : j ∈ is
      · rw [if_pos hj, if_pos (List.mem_cons_of_mem _ hj), hrest j hj]
      · rw [if_neg hj]
        by_cases hji : j = i
        · subst hji
          rw [if_pos List.mem_cons_self, hself]
        · rw [if_neg (by simp [hji, hj]), hclients]
          exact Function.update_of_ne hji ..
    · have houtputs : is.flatMap (fun j => (visit test act j
          ((forClient test body t i).1.clients j)).outputs) =
          is.flatMap fun j => (visit test act j (t.1.clients j)).outputs :=
        List.flatMap_congr fun j hj => by rw [hrest j hj]
      rw [List.foldl_cons, ihlog, hlog, houtputs, List.flatMap_cons, List.append_assoc]
    · have hcounts : is.countP (fun j => (visit test act j
          ((forClient test body t i).1.clients j)).counts) =
          is.countP fun j => (visit test act j (t.1.clients j)).counts :=
        List.countP_congr fun j hj => by rw [hrest j hj]
      rw [List.foldl_cons, ihcount, hcount, hcounts, List.countP_cons]
      omega

/-- A loop visits each client once, in order. -/
theorem forClients_eq (test : WsClient → Bool) (h : HasEffect body act) (s : Server) :
    (∀ j, (s.forClients test body).1.clients j = (visit test act j (s.clients j)).client) ∧
      (s.forClients test body).1.log =
        s.log ++ (List.finRange 10).flatMap (fun i => (visit test act i (s.clients i)).outputs) ∧
      (s.forClients test body).2 =
        (List.finRange 10).countP fun i => (visit test act i (s.clients i)).counts := by
  obtain ⟨hclients, hlog, hcount⟩ :=
    foldl_forClient_eq test h (List.finRange 10) (List.nodup_finRange 10) (s, 0)
  refine ⟨fun j => ?_, hlog, by rw [forClients, hcount, Nat.zero_add]⟩
  rw [forClients, hclients, if_pos (List.mem_finRange j)]

end Loop

/-! ### The functions of the server -/

/-- A client that was disconnected. -/
def lost (client : WsClient) : WsClient :=
  { client with
    conn := none
    url := none
    lastOpcode := Opcode.cont
    contin := if client.len = 0 then client.contin else none
    len := 0 }

/-- What is put out for a client that is disconnected. -/
def goodbye (num : Num) (conn : Netconn) (call : Call) : List Output :=
  [.call num conn call, .write conn (WebSocket.wsSend Opcode.close [] none), .close conn]

def removeEffect (num : Num) (conn : Netconn) (client : WsClient) : Effect :=
  ⟨lost client, goodbye num conn .disconnectInternal, true⟩

def sendEffect (opcode : BitVec 4) (msg : List Byte) (ok : Num → Bool) (num : Num)
    (conn : Netconn) (client : WsClient) : Effect :=
  if ok num then ⟨client, [.write conn (WebSocket.wsSend opcode msg none)], true⟩
  else ⟨lost client,
    .write conn (WebSocket.wsSend opcode msg none) :: goodbye num conn .disconnectError, false⟩

theorem removeBody_effect : HasEffect removeBody removeEffect := by
  intro s num conn _
  refine ⟨rfl, ?_, rfl⟩
  simp [removeBody, disconnect, scallback, wsDisconnectClient, wsSend, put, setClient, removeEffect,
    goodbye]

theorem sendBody_effect (opcode : BitVec 4) (msg : List Byte) (ok : Num → Bool) :
    HasEffect (sendBody opcode msg ok) (sendEffect opcode msg ok) := by
  intro s num conn _
  rw [sendBody, sendEffect]
  by_cases hok : ok num = true
  · rw [if_pos hok, if_pos hok]
    refine ⟨?_, rfl, rfl⟩
    exact (Function.update_eq_self num s.clients).symm
  · rw [if_neg hok, if_neg hok]
    refine ⟨rfl, ?_, rfl⟩
    simp [disconnect, scallback, wsDisconnectClient, wsSend, put, setClient, goodbye]

/-- A message is sent to the clients that pass a test: each gets one frame, in the order of their
numbers, and those to which it cannot be written are disconnected.  The number of the others is
returned. -/
structure Sent (opcode : BitVec 4) (msg : List Byte) (ok : Num → Bool) (test : WsClient → Bool)
    (s : Server) (t : Server × Nat) : Prop where
  clients : ∀ j, t.1.clients j =
    if (s.clients j).conn.isSome ∧ test (s.clients j) ∧ ¬ok j then lost (s.clients j)
    else s.clients j
  log : t.1.log = s.log ++ (List.finRange 10).flatMap fun j =>
    match (s.clients j).conn with
    | none => []
    | some conn =>
      if test (s.clients j) then
        .write conn (WebSocket.wsSend opcode msg none) ::
          if ok j then [] else goodbye j conn .disconnectError
      else []
  count : t.2 = (List.finRange 10).countP fun j =>
    (t.1.clients j).conn.isSome && test (t.1.clients j)

theorem sent_forClients (opcode : BitVec 4) (msg : List Byte) (ok : Num → Bool)
    (test : WsClient → Bool) (s : Server) :
    Sent opcode msg ok test s (s.forClients test (sendBody opcode msg ok)) := by
  obtain ⟨hclients, hlog, hcount⟩ :=
    forClients_eq test (sendBody_effect opcode msg ok) s
  have hclient : ∀ j, (s.forClients test (sendBody opcode msg ok)).1.clients j =
      if (s.clients j).conn.isSome ∧ test (s.clients j) ∧ ¬ok j then lost (s.clients j)
      else s.clients j := by
    intro j
    rw [hclients, visit]
    cases hconn : (s.clients j).conn with
    | none => simp
    | some conn =>
      by_cases htest : test (s.clients j) = true
      · by_cases hok : ok j = true <;> simp [htest, hok, sendEffect]
      · simp [htest]
  refine ⟨hclient, ?_, ?_⟩
  · rw [hlog]
    refine congrArg (s.log ++ ·) (List.flatMap_congr fun j _ => ?_)
    rw [visit]
    cases hconn : (s.clients j).conn with
    | none => rfl
    | some conn =>
      by_cases htest : test (s.clients j) = true
      · by_cases hok : ok j = true <;> simp [htest, hok, sendEffect]
      · simp [htest]
  · rw [hcount]
    refine List.countP_congr fun j _ => ?_
    rw [hclient, visit]
    cases hconn : (s.clients j).conn with
    | none => simp [hconn]
    | some conn =>
      by_cases htest : test (s.clients j) = true
      · by_cases hok : ok j = true <;> simp [htest, hok, sendEffect, lost, hconn]
      · simp [htest]

/-- `ws_server_send_text_all` and the other functions that send to all clients, or to those of a
url. -/
theorem sent_to_clients (opcode : BitVec 4) (msg : List Byte) (ok : Num → Bool) (url : Text)
    (s : Server) :
    Sent opcode msg ok (fun _ => true) s (s.sendAll opcode msg ok) ∧
      (s.sendAll opcode msg ok).2 = (s.sendAll opcode msg ok).1.wsServerLenAll ∧
      Sent opcode msg ok (fun client => client.url = some url) s
        (s.sendClients opcode url msg ok) := by
  have hall := sent_forClients opcode msg ok (fun _ => true) s
  refine ⟨hall, ?_, sent_forClients opcode msg ok _ s⟩
  rw [sendAll, hall.count, wsServerLenAll]
  exact List.countP_congr fun j _ => by simp

end Server

/-! ### The url of a client -/

/-- A client has a url while it has a connection. -/
def Server.Paired (s : Server) : Prop :=
  ∀ i, (s.clients i).peer.2.isSome = (s.clients i).peer.1.isSome

section Paired

variable {heap : Heap} {s t : Server} {e : Label} {es : List Label}

/-- A step in which clients at most lose their connection. -/
theorem Server.Paired.keep (h : s.Paired)
    (hpeer : ∀ i, (t.clients i).peer = (none, none) ∨ (t.clients i).peer = (s.clients i).peer) :
    t.Paired := by
  intro i
  rcases hpeer i with hnone | hsame
  · rw [hnone]
    rfl
  · rw [hsame, h i]

theorem Server.Paired.proceed (h : s.Paired) (num : Num) (conn : Netconn) {read : Read}
    (hread : read.client.peer = (s.clients num).peer) : (s.proceed num conn read).Paired := by
  refine h.keep fun i => ?_
  by_cases hi : i = num
  · subst hi
    rw [← hread]
    exact proceed_peer ..
  · rw [proceed_of_ne hi]
    exact .inr rfl

theorem Server.Paired.step (h : s.Paired) (hstep : s.step heap e = some t) : t.Paired := by
  cases e with
  | receive conn buf | eof conn | lost =>
    rw [Server.step, Option.ite_none_right_eq_some, Option.some.injEq] at hstep
    obtain ⟨-, rfl⟩ := hstep
    exact h
  | notify =>
    rw [Server.step] at hstep
    split at hstep
    · rw [Option.ite_none_right_eq_some, Option.some.injEq] at hstep
      obtain ⟨-, rfl⟩ := hstep
      exact h
    · cases hstep
  | reject conn =>
    obtain rfl := Option.some.inj hstep
    exact h
  | turn =>
    rw [Server.step] at hstep
    split at hstep
    · rename_i conn queue _ _
      obtain rfl := Option.some.inj hstep
      rw [Server.turn]
      split
      · exact h
      · rename_i num _
        dsimp only
        split
        · refine h.keep fun i => .inr ?_
          by_cases hi : i = num
          · subst hi
            rw [setClient_self]
            rfl
          · rw [setClient_of_ne _ _ hi]
        · exact h
    · cases hstep
  | recv =>
    rw [Server.step] at hstep
    split at hstep
    · cases hstep
    · rename_i num conn r _
      split at hstep
      · cases hstep
      · rename_i buf bufs _
        obtain ⟨read, hread, hstep⟩ := Option.bind_eq_some_iff.mp hstep
        obtain rfl := Option.some.inj hstep
        have hpaired : Paired { s with mbox := Function.update s.mbox conn bufs } := h
        exact hpaired.proceed num conn (wsReadPiece_peer hread)
  | fail =>
    rw [Server.step] at hstep
    split at hstep
    · cases hstep
    · rename_i num conn r _
      rw [Option.ite_none_right_eq_some] at hstep
      obtain ⟨-, hstep⟩ := hstep
      cases r with
      | none =>
        obtain rfl := Option.some.inj hstep
        exact h
      | some r =>
        obtain ⟨read, hread, hstep⟩ := Option.bind_eq_some_iff.mp hstep
        obtain rfl := Option.some.inj hstep
        exact h.proceed num conn (wsReadMore_peer hread)
  | api a =>
    rw [Server.step, Option.ite_none_right_eq_some, Option.some.injEq] at hstep
    obtain ⟨-, rfl⟩ := hstep
    cases ha : a.brings with
    | none =>
      refine h.keep fun i => ((api_acts s ha).clients i).imp_right ?_
      rintro ⟨p, hp⟩
      rw [hp]
      rfl
    | some conn =>
      obtain ⟨url, handshake, rfl⟩ := Api.eq_add ha
      rcases addClient_cases s conn url handshake with hfull | ⟨i, -, hadd⟩
      · rw [api, hfull]
        exact h
      · rw [api, hadd]
        intro j
        by_cases hj : j = i
        · subst hj
          rw [setClient_self]
          rfl
        · rw [setClient_of_ne _ _ hj]
          exact h j

theorem Server.start_paired : Server.start.Paired := fun _ => rfl

/-- `ws_server_remove_clients` and `ws_server_len_url` take the clients of every other url: those
of the url that they are given keep their connection. -/
theorem remove_others (run : Run (Steps (Server.step heap)) Server.start es t) (url : Text) :
    (∀ j conn, ((t.wsServerRemoveClients url).1.clients j).conn = some conn ↔
        (t.clients j).conn = some conn ∧ (t.clients j).url = some url) ∧
      (t.wsServerRemoveClients url).2 = t.wsServerLenUrl url ∧
      (t.wsServerRemoveClients url).1.wsServerLenUrl url = 0 := by
  have hpaired := run.invariant Server.start_paired fun _ _ _ h hstep => h.step hstep
  obtain ⟨hclients, -, hcount⟩ := Server.forClients_eq (fun client => client.url ≠ some url)
    Server.removeBody_effect t
  have hcases : ∀ j, (t.clients j).conn = none ∧ (t.clients j).url = none ∨
      ∃ conn u, (t.clients j).conn = some conn ∧ (t.clients j).url = some u := by
    intro j
    have hj : (t.clients j).url.isSome = (t.clients j).conn.isSome := hpaired j
    cases hconn : (t.clients j).conn with
    | none =>
      rw [hconn] at hj
      exact .inl ⟨rfl, by simpa using hj⟩
    | some conn =>
      rw [hconn] at hj
      obtain ⟨u, hu⟩ := Option.isSome_iff_exists.mp hj
      exact .inr ⟨conn, u, rfl, hu⟩
  have hvisit : ∀ j, Server.visit (fun client => client.url ≠ some url) Server.removeEffect j
      (t.clients j) = if (t.clients j).url.any (· ≠ url) then
        ⟨Server.lost (t.clients j),
          (t.clients j).conn.elim [] fun conn => Server.goodbye j conn .disconnectInternal, true⟩
      else ⟨t.clients j, [], false⟩ := by
    intro j
    rcases hcases j with ⟨hconn, hurl⟩ | ⟨conn, u, hconn, hurl⟩
    · simp [Server.visit, hconn, hurl]
    · by_cases hu : u = url <;> simp [Server.visit, hconn, hurl, hu, Server.removeEffect]
  have hclient : ∀ j, (t.wsServerRemoveClients url).1.clients j =
      if (t.clients j).url.any (· ≠ url) then Server.lost (t.clients j) else t.clients j := by
    intro j
    rw [Server.wsServerRemoveClients, hclients, hvisit]
    split <;> rfl
  refine ⟨fun j conn => ?_, ?_, ?_⟩
  · rw [hclient]
    rcases hcases j with ⟨hconn, hurl⟩ | ⟨conn', u, hconn, hurl⟩
    · simp [hconn, hurl]
    · by_cases hu : u = url <;> simp [hconn, hurl, hu, Server.lost]
  · rw [Server.wsServerRemoveClients, hcount, Server.wsServerLenUrl]
    refine List.countP_congr fun j _ => ?_
    rw [hvisit]
    by_cases hother : (t.clients j).url.any (· ≠ url) = true
    · rw [if_pos hother]
      exact iff_of_true rfl hother
    · rw [if_neg hother]
      exact iff_of_false Bool.false_ne_true hother
  · rw [Server.wsServerLenUrl, List.countP_eq_zero]
    intro j _
    rw [hclient]
    split
    · simp [Server.lost]
    · assumption

theorem remove_others_two :
    ∃ t, Run (Steps (Server.step heap100)) Server.start
        [.api (.add 7 ['a'] []), .api (.add 8 ['b'] [])] t ∧ t.wsServerLenUrl ['a'] = 1 ∧
      (t.wsServerRemoveClients ['a']).2 = t.wsServerLenUrl ['a'] := by
  have hexec : (exec (Server.step heap100) Server.start
      [.api (.add 7 ['a'] []), .api (.add 8 ['b'] [])]).map (fun t => t.wsServerLenUrl ['a']) =
        some 1 := by decide +kernel
  obtain ⟨t, ht, hlen⟩ := Option.map_eq_some_iff.mp hexec
  exact ⟨t, Run.of_exec ht, hlen, (remove_others (Run.of_exec ht) ['a']).2.1⟩

end Paired

end VhomeBridge.WebSocket
