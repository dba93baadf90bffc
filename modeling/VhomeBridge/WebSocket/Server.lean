import VhomeBridge.WebSocket.Table

/-! The server of the web sockets.  The stack puts what arrives for a connection into its mailbox and
then calls `background_callback`, which queues the connection for `ws_server_task`; the task reads a
frame from it and calls the callback of the client.  The other functions of the server change the
table of the clients while the task does not hold the mutex. -/

namespace VhomeBridge.WebSocket

open Lib

/-- `WEBSOCKET_SERVER_QUEUE_SIZE` -/
def queueSize : Nat := 1024

/-- The clients and `xwebsocket_queue`, and of the stack the mailbox of each connection, whether
its callback is `background_callback`, and the connection that it is about to call it for.  While
`ws_server_task` is in `handle_read` it has the number, its `conn` and what `ws_read` has of a frame
after its first piece. -/
structure Server where
  clients : Num → WsClient
  queue : List Netconn
  mbox : Netconn → List Netbuf
  watched : Netconn → Bool
  pending : Option Netconn
  reading : Option (Num × Netconn × Option Reading)
  log : List Output

/-- `ws_connect_client` -/
def wsConnectClient (conn : Netconn) (url : Text) : WsClient :=
  ⟨some conn, some url, false, Opcode.cont, none, 0, 0⟩

namespace Server

/-- The server when `ws_server_task` has made its queue. -/
def start : Server where
  clients := fun _ => ⟨none, none, false, Opcode.cont, none, 0, 0⟩
  queue := []
  mbox := fun _ => []
  watched := fun _ => false
  pending := none
  reading := none
  log := []

def put (s : Server) (o : Output) : Server := { s with log := s.log ++ [o] }

def setClient (s : Server) (num : Num) (client : WsClient) : Server :=
  { s with clients := Function.update s.clients num client }

@[simp] theorem setClient_self (s : Server) (num : Num) (client : WsClient) :
    (s.setClient num client).clients num = client := Function.update_self ..

theorem setClient_of_ne (s : Server) {num i : Num} (client : WsClient) (hi : i ≠ num) :
    (s.setClient num client).clients i = s.clients i := Function.update_of_ne hi ..

/-- `scallback` of a client with a connection. -/
def scallback (s : Server) (num : Num) (conn : Netconn) (call : Call) : Server :=
  s.put (.call num conn call)

/-- `ws_send` without a mask. -/
def wsSend (s : Server) (conn : Netconn) (opcode : BitVec 4) (msg : List Byte) : Server :=
  s.put (.write conn (WebSocket.wsSend opcode msg none))

/-- `ws_disconnect_client` on a client with a connection. -/
def wsDisconnectClient (s : Server) (num : Num) (conn : Netconn) : Server :=
  let client := s.clients num
  let s := (s.wsSend conn Opcode.close []).put (.close conn)
  { s with watched := Function.update s.watched conn false }.setClient num
    { client with
      conn := none
      url := none
      lastOpcode := Opcode.cont
      contin := if client.len = 0 then client.contin else none
      len := 0 }

/-- A call of the callback and `ws_disconnect_client`. -/
def disconnect (s : Server) (num : Num) (conn : Netconn) (call : Call) : Server :=
  (s.scallback num conn call).wsDisconnectClient num conn

/-- `handle_read` on what `ws_read` has returned. -/
def handleRead (s : Server) (num : Num) (conn : Netconn) (client : WsClient)
    (received : Option (WsHeader × List Byte)) : Server :=
  let s := s.setClient num client
  match received with
  | none => s
  | some (_, msg) =>
    if client.lastOpcode = Opcode.bin then s.scallback num conn (.bin msg)
    else if client.lastOpcode = Opcode.text then s.scallback num conn (.text msg)
    else if client.lastOpcode = Opcode.ping then
      (s.wsSend conn Opcode.pong msg).scallback num conn (.ping msg)
    else if client.lastOpcode = Opcode.pong then
      if client.ping then (s.scallback num conn .pong).setClient num { client with ping := false }
      else s
    else if client.lastOpcode = Opcode.close then s.disconnect num conn .disconnectExternal
    else s

/-- `ws_read` is back, or it waits for another piece. -/
def proceed (s : Server) (num : Num) (conn : Netconn) : Read → Server
  | .waits client r => { s.setClient num client with reading := some (num, conn, some r) }
  | .returns client msg => { s with reading := none }.handleRead num conn client msg

/-- The client with a connection. -/
def find (s : Server) (conn : Netconn) : Option Num :=
  (List.finRange 10).find? fun i => (s.clients i).conn = some conn

/-- The turn of `ws_server_task` for a connection that it has taken out of the queue, as far as the
first `netconn_recv`. -/
def turn (s : Server) (conn : Netconn) : Server :=
  match s.find conn with
  | none => s
  | some num =>
    let client := s.clients num
    if client.unfinished ≠ 0 then
      s.setClient num { client with unfinished := client.unfinished - 1 }
    else { s with reading := some (num, conn, none) }

/-- The number of a client without a connection. -/
def free (s : Server) : Option Num :=
  (List.finRange 10).find? fun i => (s.clients i).conn.isNone

/-- `ws_server_add_client_protocol` once `prepare_response` has made the handshake. -/
def addClient (s : Server) (conn : Netconn) (url : Text) (handshake : List Byte) :
    Server × Option Num :=
  let s := { s with watched := Function.update s.watched conn true }.put (.write conn handshake)
  match s.free with
  | none => (s, none)
  | some i => ((s.setClient i (wsConnectClient conn url)).scallback i conn .connect, some i)

/-- `ws_server_add_client_protocol` where `prepare_response` fails. -/
def reject (s : Server) (conn : Netconn) : Server := s.put (.close conn)

/-- A loop over the clients, at one that counts if the body says so, and is passed over if it has
no connection or does not pass the test. -/
def forClient (test : WsClient → Bool) (body : Server → Num → Netconn → Server × Bool)
    (t : Server × Nat) (i : Num) : Server × Nat :=
  match (t.1.clients i).conn with
  | none => t
  | some conn =>
    if test (t.1.clients i) then
      let u := body t.1 i conn
      (u.1, if u.2 then t.2 + 1 else t.2)
    else t

def forClients (test : WsClient → Bool) (body : Server → Num → Netconn → Server × Bool)
    (s : Server) : Server × Nat :=
  (List.finRange 10).foldl (forClient test body) (s, 0)

/-- The body of the loops that remove clients. -/
def removeBody (s : Server) (num : Num) (conn : Netconn) : Server × Bool :=
  (s.disconnect num conn .disconnectInternal, true)

def wsServerRemoveClient (s : Server) (num : Num) : Server × Bool :=
  match (s.clients num).conn with
  | none => (s, false)
  | some conn => s.removeBody num conn

/-- `strcmp` is not zero where the texts differ. -/
def wsServerRemoveClients (s : Server) (url : Text) : Server × Nat :=
  s.forClients (fun client => client.url ≠ some url) removeBody

def wsServerRemoveAll (s : Server) : Server × Nat := s.forClients (fun _ => true) removeBody

/-- The body of the loops that send a message.  `ok` says for which clients `netconn_write`
succeeds. -/
def sendBody (opcode : BitVec 4) (msg : List Byte) (ok : Num → Bool) (s : Server) (num : Num)
    (conn : Netconn) : Server × Bool :=
  let s := s.wsSend conn opcode msg
  if ok num then (s, true) else (s.disconnect num conn .disconnectError, false)

/-- `_send_client_from_callback` -/
def sendClient (opcode : BitVec 4) (num : Num) (msg : List Byte) (ok : Num → Bool) (s : Server) :
    Server × Bool :=
  match (s.clients num).conn with
  | none => (s, false)
  | some conn => s.sendBody opcode msg ok num conn

/-- `_send_clients_from_callback` -/
def sendClients (opcode : BitVec 4) (url : Text) (msg : List Byte) (ok : Num → Bool) (s : Server) :
    Server × Nat :=
  s.forClients (fun client => client.url = some url) (sendBody opcode msg ok)

/-- `_send_all_from_callback` -/
def sendAll (opcode : BitVec 4) (msg : List Byte) (ok : Num → Bool) (s : Server) : Server × Nat :=
  s.forClients (fun _ => true) (sendBody opcode msg ok)

/-- The body of the loop of `ws_server_ping`. -/
def pingBody (ok : Num → Bool) (s : Server) (num : Num) (conn : Netconn) : Server × Bool :=
  let u := s.sendBody Opcode.ping [] ok num conn
  if u.2 then (u.1.setClient num { u.1.clients num with ping := true }, true) else u

def wsServerPing (ok : Num → Bool) (s : Server) : Server × Nat :=
  s.forClients (fun _ => true) (pingBody ok)

/-- `ws_server_len_url`: `strcmp` is not zero where the texts differ. -/
def wsServerLenUrl (s : Server) (url : Text) : Nat :=
  (List.finRange 10).countP fun i => (s.clients i).url.any fun u => u ≠ url

def wsServerLenAll (s : Server) : Nat :=
  (List.finRange 10).countP fun i => (s.clients i).conn.isSome

end Server

/-! ### Steps -/

/-- A function of the server that another task calls, with what `netconn_write` makes of it. -/
inductive Api
  | add (conn : Netconn) (url : Text) (handshake : List Byte)
  | removeClient (num : Num)
  | removeClients (url : Text)
  | removeAll
  | sendClient (opcode : BitVec 4) (num : Num) (msg : List Byte) (ok : Num → Bool)
  | sendClients (opcode : BitVec 4) (url : Text) (msg : List Byte) (ok : Num → Bool)
  | sendAll (opcode : BitVec 4) (msg : List Byte) (ok : Num → Bool)
  | ping (ok : Num → Bool)

/-- The connection that a function is given. -/
def Api.brings : Api → Option Netconn
  | add conn _ _ => some conn
  | _ => none

def Server.api (s : Server) : Api → Server
  | .add conn url handshake => (s.addClient conn url handshake).1
  | .removeClient num => (s.wsServerRemoveClient num).1
  | .removeClients url => (s.wsServerRemoveClients url).1
  | .removeAll => s.wsServerRemoveAll.1
  | .sendClient opcode num msg ok => (s.sendClient opcode num msg ok).1
  | .sendClients opcode url msg ok => (s.sendClients opcode url msg ok).1
  | .sendAll opcode msg ok => (s.sendAll opcode msg ok).1
  | .ping ok => (s.wsServerPing ok).1

/-- What can happen next. -/
inductive Label
  /-- A piece of the stream of a connection arrives. -/
  | receive (conn : Netconn) (buf : Netbuf)
  /-- `background_callback` queues the connection. -/
  | notify
  /-- The queue stays full for as long as `background_callback` waits. -/
  | lost
  /-- The peer closes a connection. -/
  | eof (conn : Netconn)
  /-- `ws_server_task` takes a connection out of the queue. -/
  | turn
  /-- `netconn_recv` in `ws_read` gives a piece. -/
  | recv
  /-- `netconn_recv` in `ws_read` fails, which it does only where no piece is there. -/
  | fail
  | reject (conn : Netconn)
  | api (a : Api)

def Label.brings : Label → Option Netconn
  | reject conn => some conn
  | api a => a.brings
  | _ => none

/-- A step, `none` where it cannot be taken, or where `ws_read` writes outside of its block. -/
def Server.step (heap : Heap) (s : Server) : Label → Option Server
  | .receive conn buf =>
    if s.pending.isNone then
      some { s with
        mbox := Function.update s.mbox conn (s.mbox conn ++ [buf])
        pending := if s.watched conn then some conn else none }
    else none
  | .eof conn =>
    if s.pending.isNone then
      some { s with pending := if s.watched conn then some conn else none }
    else none
  | .notify =>
    match s.pending with
    | some conn =>
      if s.queue.length < queueSize then
        some { s with queue := s.queue ++ [conn], pending := none }
      else none
    | none => none
  | .lost =>
    if s.pending.isSome ∧ queueSize ≤ s.queue.length then some { s with pending := none } else none
  | .turn =>
    match s.reading, s.queue with
    | none, conn :: queue => some ({ s with queue := queue }.turn conn)
    | _, _ => none
  | .recv =>
    match s.reading with
    | none => none
    | some (num, conn, r) =>
      match s.mbox conn with
      | [] => none
      | buf :: bufs => do
        let read ← wsReadPiece heap (s.clients num) buf r
        some ({ s with mbox := Function.update s.mbox conn bufs }.proceed num conn read)
  | .fail =>
    match s.reading with
    | none => none
    | some (num, conn, r) =>
      if s.mbox conn = [] then
        match r with
        | none => some { s with reading := none }
        | some r => do
          let read ← wsReadMore heap (s.clients num) r none
          some (s.proceed num conn read)
      else none
  | .reject conn => some (s.reject conn)
  | .api a => if s.reading.isNone then some (s.api a) else none

end VhomeBridge.WebSocket
