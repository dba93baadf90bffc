import VhomeBridge.WebSocket.Server

/-! Every step of the server is made of moves of its table: with them a client is told in order of
each connection that it gets and loses, and a connection is left alone once it is closed. -/

namespace VhomeBridge.WebSocket

open Lib

namespace Server

def table (s : Server) : Table := ⟨fun i => (s.clients i).conn, s.log⟩

/-- Moves that bring the connections `conns` lead from the table of `s` to that of `t`. -/
def Moves (s t : Server) (conns : List Netconn) : Prop :=
  ∃ ms, Run (Steps Table.step) s.table ms t.table ∧ ms.filterMap Move.brings = conns

/-- What the loops over the clients do: some clients lose their connection, and of the others at
most the mark that they were pinged is set.  No client is told of something that came in. -/
structure Acts (s t : Server) : Prop where
  moves : s.Moves t []
  clients : ∀ i, (t.clients i).peer = (none, none) ∨
    ∃ p, t.clients i = { s.clients i with ping := p }
  incoming : ∀ conn, incoming conn t.log = incoming conn s.log
  queue : t.queue = s.queue
  mbox : t.mbox = s.mbox
  pending : t.pending = s.pending
  reading : t.reading = s.reading
  watched : ∀ conn, s.watched conn = false → t.watched conn = false

/-- The client that is read has the connection that it is read from. -/
def Reads (s : Server) : Prop :=
  ∀ num conn r, s.reading = some (num, conn, r) → (s.clients num).conn = some conn

section Moves

variable {s t u : Server} {num : Num} {conn : Netconn} {call : Call} {client : WsClient}
  {conns more : List Netconn}

theorem Moves.refl (s : Server) : s.Moves s [] := ⟨[], .nil, rfl⟩

theorem Moves.of_table (h : t.table = s.table) : s.Moves t [] := ⟨[], h ▸ .nil, rfl⟩

theorem Moves.trans (h1 : s.Moves t conns) (h2 : t.Moves u more) : s.Moves u (conns ++ more) := by
  obtain ⟨ms, run, rfl⟩ := h1
  obtain ⟨ms', run', rfl⟩ := h2
  exact ⟨ms ++ ms', run.trans run', List.filterMap_append⟩

theorem Moves.single (m : Move) (h : s.table.step m = some t.table) :
    s.Moves t m.brings.toList := by
  refine ⟨[m], .single h, ?_⟩
  cases hm : m.brings <;> simp [hm]

theorem table_setClient (s : Server) (num : Num) (client : WsClient) :
    (s.setClient num client).table = s.table.setConn num client.conn := by
  rw [table, Table.setConn, Table.mk.injEq]
  exact ⟨Function.comp_update WsClient.conn s.clients num client, rfl⟩

theorem table_setClient_same (h : client.conn = (s.clients num).conn) :
    (s.setClient num client).table = s.table := by
  rw [table_setClient, h, Table.setConn, Table.mk.injEq]
  exact ⟨Function.update_eq_self num s.table.conns, rfl⟩

theorem scallback_moves (hconn : (s.clients num).conn = some conn) (hmark : call.mark = .inside) :
    s.Moves (s.scallback num conn call) [] :=
  .single (.call num conn call) (if_pos ⟨hconn, hmark⟩)

theorem wsSend_moves (hconn : (s.clients num).conn = some conn) (opcode : BitVec 4)
    (msg : List Byte) : s.Moves (s.wsSend conn opcode msg) [] :=
  .single (.write num conn _) (if_pos hconn)

theorem disconnect_moves (hconn : (s.clients num).conn = some conn) (hmark : call.mark = .closes) :
    s.Moves (s.disconnect num conn call) [] := by
  refine .single (.disconnect num conn call (WebSocket.wsSend Opcode.close [] none))
    ((if_pos ⟨hconn, hmark⟩).trans ?_)
  rw [disconnect, wsDisconnectClient, table_setClient]
  simp [table, Table.put, Table.setConn, put, wsSend, scallback]

end Moves

section Acts

variable {s t u : Server} {num : Num} {conn : Netconn} {call : Call} {ok : Num → Bool}

theorem Acts.refl (s : Server) : s.Acts s where
  moves := .refl s
  clients := fun i => .inr ⟨(s.clients i).ping, rfl⟩
  incoming := fun _ => rfl
  queue := rfl
  mbox := rfl
  pending := rfl
  reading := rfl
  watched := fun _ h => h

theorem Acts.trans (h1 : s.Acts t) (h2 : t.Acts u) : s.Acts u where
  moves := h1.moves.trans h2.moves
  clients := by
    intro i
    rcases h2.clients i with hnone | ⟨p, hp⟩
    · exact .inl hnone
    · rcases h1.clients i with hnone | ⟨q, hq⟩
      · rw [hp]
        exact .inl hnone
      · exact .inr ⟨p, by rw [hp, hq]⟩
  incoming := fun conn => (h2.incoming conn).trans (h1.incoming conn)
  queue := h2.queue.trans h1.queue
  mbox := h2.mbox.trans h1.mbox
  pending := h2.pending.trans h1.pending
  reading := h2.reading.trans h1.reading
  watched := fun conn h => h2.watched conn (h1.watched conn h)

theorem Acts.client (h : s.Acts t) (i : Num) :
    (t.clients i).conn = none ∨ ∃ p, t.clients i = { s.clients i with ping := p } :=
  (h.clients i).imp_left (congrArg Prod.fst)

theorem wsSend_acts (hconn : (s.clients num).conn = some conn) (opcode : BitVec 4)
    (msg : List Byte) : s.Acts (s.wsSend conn opcode msg) where
  moves := wsSend_moves hconn opcode msg
  clients := fun i => .inr ⟨(s.clients i).ping, rfl⟩
  incoming := fun c => (incoming_append c s.log _).trans (List.append_nil _)
  queue := rfl
  mbox := rfl
  pending := rfl
  reading := rfl
  watched := fun _ h => h

theorem setPing_acts (s : Server) (num : Num) (p : Bool) :
    s.Acts (s.setClient num { s.clients num with ping := p }) where
  moves := .of_table (table_setClient_same rfl)
  clients := by
    intro i
    by_cases hi : i = num
    · subst hi
      exact .inr ⟨p, setClient_self ..⟩
    · exact .inr ⟨(s.clients i).ping, setClient_of_ne _ _ hi⟩
  incoming := fun _ => rfl
  queue := rfl
  mbox := rfl
  pending := rfl
  reading := rfl
  watched := fun _ h => h

theorem disconnect_acts (hconn : (s.clients num).conn = some conn) (hmark : call.mark = .closes)
    (hincoming : call.incoming = false) : s.Acts (s.disconnect num conn call) where
  moves := disconnect_moves hconn hmark
  clients := by
    intro i
    by_cases hi : i = num
    · subst hi
      exact .inl (congrArg WsClient.peer (setClient_self ..))
    · exact .inr ⟨(s.clients i).ping, setClient_of_ne _ _ hi⟩
  incoming := by
    intro c
    simp [disconnect, wsDisconnectClient, setClient, put, wsSend, scallback, hincoming]
  queue := rfl
  mbox := rfl
  pending := rfl
  reading := rfl
  watched := by
    intro c hc
    by_cases heq : c = conn
    · subst heq
      exact Function.update_self ..
    · exact (Function.update_of_ne heq ..).trans hc

theorem removeBody_acts (hconn : (s.clients num).conn = some conn) :
    s.Acts (s.removeBody num conn).1 :=
  disconnect_acts hconn rfl rfl

theorem sendBody_acts (opcode : BitVec 4) (msg : List Byte) (ok : Num → Bool)
    (hconn : (s.clients num).conn = some conn) : s.Acts (s.sendBody opcode msg ok num conn).1 := by
  have hsend := wsSend_acts hconn opcode msg
  rw [sendBody]
  split
  · exact hsend
  · have hconn' : ((s.wsSend conn opcode msg).clients num).conn = some conn := hconn
    exact hsend.trans (disconnect_acts hconn' rfl rfl)

theorem pingBody_acts (ok : Num → Bool) (hconn : (s.clients num).conn = some conn) :
    s.Acts (s.pingBody ok num conn).1 := by
  have hsend := sendBody_acts Opcode.ping [] ok hconn
  rw [pingBody]
  split
  · exact hsend.trans (setPing_acts _ num true)
  · exact hsend

/-- A loop does what its body does for each client. -/
theorem forClients_acts (test : WsClient → Bool)
    {body : Server → Num → Netconn → Server × Bool}
    (hbody : ∀ (s : Server) num conn, (s.clients num).conn = some conn → s.Acts (body s num conn).1)
    (s : Server) : s.Acts (s.forClients test body).1 := by
  have hloop : ∀ (is : List Num) (t : Server × Nat), s.Acts t.1 →
      s.Acts (is.foldl (forClient test body) t).1 := by
    intro is
    induction is with
    | nil => exact fun t ht => ht
    | cons i is ih =>
      intro t ht
      apply ih
      rw [forClient]
      split
      · exact ht
      · rename_i conn hconn
        split
        · exact ht.trans (hbody t.1 i conn hconn)
        · exact ht
  exact hloop _ _ (.refl s)

end Acts

section Step

variable {s t : Server} {num i : Num} {conn : Netconn} {client : WsClient} {read : Read}

/-- A client is added where no client has a connection, if there is such a place. -/
theorem addClient_cases (s : Server) (conn : Netconn) (url : Text) (handshake : List Byte) :
    (s.addClient conn url handshake).1 = { s with
        watched := Function.update s.watched conn true
        log := s.log ++ [.write conn handshake] } ∨
      ∃ i, (s.clients i).conn = none ∧ (s.addClient conn url handshake).1 =
        ({ s with
          watched := Function.update s.watched conn true
          log := s.log ++ [.write conn handshake] ++ [.call i conn .connect] } : Server).setClient
            i (wsConnectClient conn url) := by
  rw [addClient]
  split
  · exact .inl rfl
  · rename_i i hfree
    have hnone := List.find?_some hfree
    exact .inr ⟨i, Option.isNone_iff_eq_none.mp hnone, rfl⟩

theorem addClient_moves (s : Server) (conn : Netconn) (url : Text) (handshake : List Byte) :
    s.Moves (s.addClient conn url handshake).1 [conn] := by
  rcases addClient_cases s conn url handshake with hfull | ⟨i, hnone, hadd⟩
  · rw [hfull]
    exact .single (.full conn handshake) rfl
  · rw [hadd]
    refine .single (.add i conn handshake) ((if_pos hnone).trans ?_)
    rw [table_setClient, Table.put, List.append_assoc]
    rfl

/-- The functions that take the mutex, apart from the one that adds a client. -/
theorem api_acts (s : Server) {a : Api} (ha : a.brings = none) : s.Acts (s.api a) := by
  cases a with
  | add conn url handshake => cases ha
  | removeClient num =>
    rw [api, wsServerRemoveClient]
    split
    · exact .refl s
    · exact removeBody_acts ‹_›
  | removeClients url => exact forClients_acts _ (fun _ _ _ h => removeBody_acts h) s
  | removeAll => exact forClients_acts _ (fun _ _ _ h => removeBody_acts h) s
  | sendClient opcode num msg ok =>
    rw [api, sendClient]
    split
    · exact .refl s
    · exact sendBody_acts opcode msg ok ‹_›
  | sendClients opcode url msg ok =>
    exact forClients_acts _ (fun _ _ _ h => sendBody_acts opcode msg ok h) s
  | sendAll opcode msg ok =>
    exact forClients_acts _ (fun _ _ _ h => sendBody_acts opcode msg ok h) s
  | ping ok => exact forClients_acts _ (fun _ _ _ h => pingBody_acts ok h) s

theorem handleRead_moves (hconn : (s.clients num).conn = some conn)
    (hclient : client.conn = some conn) (received : Option (WsHeader × List Byte)) :
    s.Moves (s.handleRead num conn client received) [] := by
  have hset : s.Moves (s.setClient num client) [] :=
    .of_table (table_setClient_same (hclient.trans hconn.symm))
  have hconn' : ((s.setClient num client).clients num).conn = some conn := by
    rw [setClient_self, hclient]
  cases received with
  | none => exact hset
  | some received =>
    obtain ⟨header, msg⟩ := received
    suffices hrest : (s.setClient num client).Moves
        (s.handleRead num conn client (some (header, msg))) [] from hset.trans hrest
    rw [handleRead]
    split
    · exact scallback_moves hconn' rfl
    · split
      · exact scallback_moves hconn' rfl
      · split
        · exact (wsSend_moves hconn' Opcode.pong msg).trans (scallback_moves hconn' rfl)
        · split
          · split
            · refine (scallback_moves hconn' rfl).trans (.of_table (table_setClient_same ?_))
              exact hclient.trans hconn'.symm
            · exact .refl _
          · split
            · exact disconnect_moves hconn' rfl
            · exact .refl _

theorem proceed_moves {read : Read} (hconn : (s.clients num).conn = some conn)
    (hread : read.client.conn = some conn) : s.Moves (s.proceed num conn read) [] := by
  cases read with
  | waits client r => exact .of_table (table_setClient_same (hread.trans hconn.symm))
  | returns client received => exact handleRead_moves (s := { s with reading := none }) hconn hread _

theorem handleRead_of_ne (hi : i ≠ num) (received : Option (WsHeader × List Byte)) :
    (s.handleRead num conn client received).clients i = s.clients i := by
  cases received with
  | none => exact setClient_of_ne s client hi
  | some received =>
    rw [handleRead]
    repeat' split
    all_goals simp [disconnect, wsDisconnectClient, wsSend, scallback, put, setClient, hi]

/-- The client loses its connection, or at most its mark that it was pinged. -/
theorem handleRead_peer (s : Server) (num : Num) (conn : Netconn) (client : WsClient)
    (received : Option (WsHeader × List Byte)) :
    ((s.handleRead num conn client received).clients num).peer = (none, none) ∨
      ∃ p, (s.handleRead num conn client received).clients num = { client with ping := p } := by
  cases received with
  | none => exact .inr ⟨client.ping, setClient_self ..⟩
  | some received =>
    rw [handleRead]
    split
    · exact .inr ⟨client.ping, setClient_self ..⟩
    · split
      · exact .inr ⟨client.ping, setClient_self ..⟩
      · split
        · exact .inr ⟨client.ping, setClient_self ..⟩
        · split
          · split
            · exact .inr ⟨false, setClient_self ..⟩
            · exact .inr ⟨client.ping, setClient_self ..⟩
          · split
            · exact .inl (congrArg WsClient.peer (setClient_self ..))
            · exact .inr ⟨client.ping, setClient_self ..⟩

theorem handleRead_self (s : Server) (num : Num) (conn : Netconn) (client : WsClient)
    (received : Option (WsHeader × List Byte)) :
    ((s.handleRead num conn client received).clients num).conn = none ∨
      ∃ p, (s.handleRead num conn client received).clients num = { client with ping := p } :=
  (handleRead_peer s num conn client received).imp_left (congrArg Prod.fst)

@[simp] theorem handleRead_reading (s : Server) (num : Num) (conn : Netconn) (client : WsClient)
    (received : Option (WsHeader × List Byte)) :
    (s.handleRead num conn client received).reading = s.reading := by
  cases received with
  | none => rfl
  | some received =>
    rw [handleRead]
    repeat' split
    all_goals rfl

theorem proceed_of_ne (hi : i ≠ num) : (s.proceed num conn read).clients i = s.clients i := by
  cases read with
  | waits client r => exact setClient_of_ne s client hi
  | returns client received => exact handleRead_of_ne hi received

theorem proceed_peer (s : Server) (num : Num) (conn : Netconn) (read : Read) :
    ((s.proceed num conn read).clients num).peer = (none, none) ∨
      ((s.proceed num conn read).clients num).peer = read.client.peer := by
  cases read with
  | waits client r => exact .inr (congrArg WsClient.peer (setClient_self ..))
  | returns client received =>
    refine (handleRead_peer { s with reading := none } num conn client received).imp_right ?_
    rintro ⟨p, hp⟩
    rw [proceed, hp]
    rfl

theorem find_conn (h : s.find conn = some num) : (s.clients num).conn = some conn := by
  simpa using List.find?_some h

theorem turn_moves (s : Server) (conn : Netconn) : s.Moves (s.turn conn) [] := by
  rw [turn]
  split
  · exact .refl s
  · dsimp only
    split
    · exact .of_table (table_setClient_same rfl)
    · exact .of_table rfl

theorem turn_reads (hidle : s.reading = none) : (s.turn conn).Reads := by
  rw [turn]
  split
  · intro num c r hr
    rw [hidle] at hr
    cases hr
  · rename_i num hfind
    dsimp only
    split
    · intro n c r hr
      rw [setClient, hidle] at hr
      cases hr
    · intro n c r hr
      obtain ⟨rfl, rfl, -⟩ : num = n ∧ conn = c ∧ none = r := by simpa using hr
      exact find_conn hfind

theorem proceed_reads {read : Read} (hread : read.client.conn = some conn) :
    (s.proceed num conn read).Reads := by
  cases read with
  | waits client r =>
    intro n c r' hr
    obtain ⟨rfl, rfl, -⟩ : num = n ∧ conn = c ∧ some r = r' := by simpa [proceed] using hr
    rw [proceed, setClient_self]
    exact hread
  | returns client received =>
    intro n c r' hr
    rw [proceed, handleRead_reading] at hr
    cases hr

end Step

end Server

theorem Api.eq_add {a : Api} {conn : Netconn} (h : a.brings = some conn) :
    ∃ url handshake, a = .add conn url handshake := by
  cases a with
  | add c url handshake =>
    obtain rfl := Option.some.inj h
    exact ⟨url, handshake, rfl⟩
  | _ => cases h

theorem Server.step_moves {heap : Heap} {s t : Server} {e : Label} (hreads : s.Reads)
    (h : s.step heap e = some t) : s.Moves t e.brings.toList ∧ t.Reads := by
  cases e with
  | receive conn buf =>
    rw [step, Option.ite_none_right_eq_some, Option.some.injEq] at h
    obtain ⟨-, rfl⟩ := h
    exact ⟨.of_table rfl, hreads⟩
  | eof conn =>
    rw [step, Option.ite_none_right_eq_some, Option.some.injEq] at h
    obtain ⟨-, rfl⟩ := h
    exact ⟨.of_table rfl, hreads⟩
  | notify =>
    rw [step] at h
    split at h
    · rw [Option.ite_none_right_eq_some, Option.some.injEq] at h
      obtain ⟨-, rfl⟩ := h
      exact ⟨.of_table rfl, hreads⟩
    · cases h
  | lost =>
    rw [step, Option.ite_none_right_eq_some, Option.some.injEq] at h
    obtain ⟨-, rfl⟩ := h
    exact ⟨.of_table rfl, hreads⟩
  | turn =>
    rw [step] at h
    split at h
    · rename_i conn queue hidle _
      obtain rfl := Option.some.inj h
      exact ⟨turn_moves { s with queue := queue } conn, turn_reads hidle⟩
    · cases h
  | recv =>
    rw [step] at h
    split at h
    · cases h
    · rename_i num conn r hreading
      have hconn := hreads num conn r hreading
      split at h
      · cases h
      · rename_i buf bufs hmbox
        obtain ⟨read, hread, h⟩ := Option.bind_eq_some_iff.mp h
        obtain rfl := Option.some.inj h
        have hkeep : read.client.conn = some conn := (wsReadPiece_conn hread).trans hconn
        exact ⟨proceed_moves (s := { s with mbox := Function.update s.mbox conn bufs }) hconn hkeep,
          proceed_reads hkeep⟩
  | fail =>
    rw [step] at h
    split at h
    · cases h
    · rename_i num conn r hreading
      have hconn := hreads num conn r hreading
      rw [Option.ite_none_right_eq_some] at h
      obtain ⟨-, h⟩ := h
      cases r with
      | none =>
        obtain rfl := Option.some.inj h
        exact ⟨.of_table rfl, fun n c r hr => by cases hr⟩
      | some r =>
        obtain ⟨read, hread, h⟩ := Option.bind_eq_some_iff.mp h
        obtain rfl := Option.some.inj h
        have hkeep : read.client.conn = some conn := (wsReadMore_conn hread).trans hconn
        exact ⟨proceed_moves hconn hkeep, proceed_reads hkeep⟩
  | reject conn =>
    obtain rfl := Option.some.inj h
    exact ⟨.single (.reject conn) rfl, hreads⟩
  | api a =>
    rw [step, Option.ite_none_right_eq_some, Option.some.injEq] at h
    obtain ⟨hidle, rfl⟩ := h
    rw [Option.isNone_iff_eq_none] at hidle
    cases ha : a.brings with
    | none =>
      have hacts := api_acts s ha
      rw [Label.brings, ha]
      refine ⟨hacts.moves, fun n c r hr => ?_⟩
      rw [hacts.reading, hidle] at hr
      cases hr
    | some conn =>
      obtain ⟨url, handshake, rfl⟩ := Api.eq_add ha
      refine ⟨addClient_moves s conn url handshake, fun n c r hr => ?_⟩
      have hreading : (s.api (.add conn url handshake)).reading = s.reading := by
        rw [api, addClient]
        split <;> rfl
      rw [hreading, hidle] at hr
      cases hr

/-! ### Runs -/

section Runs

variable {heap : Heap} {s t : Server} {es : List Label}

theorem Server.run_moves (hreads : s.Reads) (run : Run (Steps (Server.step heap)) s es t) :
    s.Moves t (es.filterMap Label.brings) ∧ t.Reads := by
  induction run with
  | nil => exact ⟨.refl s, hreads⟩
  | @snoc es a b e run hstep ih =>
    obtain ⟨hmoves, hreads'⟩ := ih
    obtain ⟨hmove, hreads''⟩ := step_moves hreads' hstep
    refine ⟨?_, hreads''⟩
    rw [filterMap_snoc]
    exact hmoves.trans hmove

theorem Server.start_reads : Server.start.Reads := fun num conn r h => by cases h

/-- In every run a client is told of a connection that it gets, then of what comes in over it, and
then once that it is gone, before it is told of the next; and it has a connection exactly while it
has last been told that it got one. -/
theorem told_in_order (run : Run (Steps (Server.step heap)) Server.start es t) (num : Num) :
    Alternates (marks num t.log) ∧ isOpen (marks num t.log) = (t.clients num).conn.isSome := by
  obtain ⟨⟨ms, moves, -⟩, -⟩ := Server.run_moves Server.start_reads run
  exact Table.told_start.run moves num

/-- A connection is added, pinged and removed, and another one is added. -/
def visits : List Label :=
  [.api (.add 7 [] []), .api (.ping fun _ => true), .api (.removeClient 0), .api (.add 8 [] [])]

theorem told_in_order_visits :
    ∃ t, Run (Steps (Server.step heap100)) Server.start visits t ∧
      marks 0 t.log = [.opens, .closes, .opens] ∧
      Alternates (marks 0 t.log) ∧ isOpen (marks 0 t.log) = (t.clients 0).conn.isSome := by
  have hexec : (exec (Server.step heap100) Server.start visits).map (fun t => marks 0 t.log) =
      some [.opens, .closes, .opens] := by decide +kernel
  obtain ⟨t, ht, hmarks⟩ := Option.map_eq_some_iff.mp hexec
  exact ⟨t, Run.of_exec ht, hmarks, told_in_order (Run.of_exec ht) 0⟩

theorem Server.run_known (run : Run (Steps (Server.step heap)) Server.start es t)
    (hnew : (es.filterMap Label.brings).Nodup) :
    t.table.Known (es.filterMap Label.brings) := by
  obtain ⟨⟨ms, moves, hbrings⟩, -⟩ := Server.run_moves Server.start_reads run
  rw [← hbrings] at hnew ⊢
  exact Table.known_start.run hnew moves

/-- Where no connection is handed to the server twice, no two clients have one connection, and
nothing is done with a connection after it is closed: no call of the callback, no write and no
second close. -/
theorem closed_last (run : Run (Steps (Server.step heap)) Server.start es t)
    (hnew : (es.filterMap Label.brings).Nodup) :
    ClosedLast t.log ∧
      (∀ num conn, (t.clients num).conn = some conn → .close conn ∉ t.log ∧
        ∀ num', (t.clients num').conn = some conn → num' = num) := by
  have hknown := Server.run_known run hnew
  exact ⟨hknown.closed, fun num conn hconn => ⟨hknown.opened num conn hconn,
    fun num' hconn' => hknown.distinct num' num conn hconn' hconn⟩⟩

theorem closed_last_visits :
    ∃ t, Run (Steps (Server.step heap100)) Server.start visits t ∧ .close 7 ∈ t.log ∧
      ClosedLast t.log := by
  have hexec : (exec (Server.step heap100) Server.start visits).map (fun t =>
      decide (Output.close 7 ∈ t.log)) = some true := by decide +kernel
  obtain ⟨t, ht, hclose⟩ := Option.map_eq_some_iff.mp hexec
  have run := Run.of_exec ht
  exact ⟨t, run, of_decide_eq_true hclose, (closed_last run (by decide)).1⟩

end Runs

end VhomeBridge.WebSocket
