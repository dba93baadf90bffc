import VhomeBridge.Lib.Run
import VhomeBridge.Lib.Session
import VhomeBridge.WebSocket.Read

/-! What the server of the web sockets is for: a table that says which connection each client has,
and what is done with them.  A client is told of a connection when it gets one, of what comes in
over it, and once when it is gone; nothing is done with a connection after it is closed.  The moves
here are what the functions of the server are made of. -/

namespace VhomeBridge.WebSocket

open Lib

/-- `WEBSOCKET_SERVER_MAX_CLIENTS` clients. -/
abbrev Num := Fin 10

/-- What the callback of a client is called with: `WEBSOCKET_TYPE_t`, and the message. -/
inductive Call
  | connect
  | disconnectExternal
  | disconnectInternal
  | disconnectError
  | text (msg : List Byte)
  | bin (msg : List Byte)
  | ping (msg : List Byte)
  | pong
  deriving DecidableEq

namespace Call

def mark : Call → Mark
  | connect => .opens
  | disconnectExternal | disconnectInternal | disconnectError => .closes
  | text _ | bin _ | ping _ | pong => .inside

/-- The calls that a frame of the peer leads to, apart from the one for a `PONG`, which is made
only after a ping. -/
def incoming : Call → Bool
  | text _ | bin _ | ping _ | disconnectExternal => true
  | _ => false

end Call

/-- What the server does: a call of the callback, for the connection that the client has, a write to
a connection, and `netconn_close` with `netconn_delete`. -/
inductive Output
  | call (num : Num) (conn : Netconn) (call : Call)
  | write (conn : Netconn) (bytes : List Byte)
  | close (conn : Netconn)
  deriving DecidableEq

namespace Output

def conn : Output → Netconn
  | call _ conn _ | write conn _ | close conn => conn

/-- What a call tells a client. -/
def mark (num : Num) : Output → Option Mark
  | call n _ c => if n = num then some c.mark else none
  | _ => none

def incoming (conn : Netconn) : Output → Option Call
  | call _ c told => if c = conn ∧ told.incoming then some told else none
  | _ => none

end Output

/-- What a client has been told that came in over a connection. -/
def incoming (conn : Netconn) (log : List Output) : List Call :=
  log.filterMap (Output.incoming conn)

@[simp] theorem incoming_append (conn : Netconn) (log more : List Output) :
    incoming conn (log ++ more) = incoming conn log ++ incoming conn more := List.filterMap_append

@[simp] theorem incoming_nil (conn : Netconn) : incoming conn [] = [] := rfl

@[simp] theorem incoming_write (conn c : Netconn) (bytes : List Byte) (os : List Output) :
    incoming conn (.write c bytes :: os) = incoming conn os := rfl

@[simp] theorem incoming_close (conn c : Netconn) (os : List Output) :
    incoming conn (.close c :: os) = incoming conn os := rfl

@[simp] theorem incoming_call (conn c : Netconn) (num : Num) (told : Call) (os : List Output) :
    incoming conn (.call num c told :: os) =
      (if c = conn ∧ told.incoming then [told] else []) ++ incoming conn os := by
  rw [incoming, List.filterMap_cons, Output.incoming]
  by_cases htold : c = conn ∧ told.incoming
  · rw [if_pos htold, if_pos htold]
    rfl
  · rw [if_neg htold, if_neg htold]
    rfl

/-- What client `num` is told. -/
def marks (num : Num) (log : List Output) : List Mark := log.filterMap (Output.mark num)

@[simp] theorem marks_append (num : Num) (log more : List Output) :
    marks num (log ++ more) = marks num log ++ marks num more := List.filterMap_append

@[simp] theorem marks_nil (num : Num) : marks num [] = [] := rfl

@[simp] theorem marks_write (num : Num) (conn : Netconn) (bytes : List Byte) (os : List Output) :
    marks num (.write conn bytes :: os) = marks num os := rfl

@[simp] theorem marks_close (num : Num) (conn : Netconn) (os : List Output) :
    marks num (.close conn :: os) = marks num os := rfl

@[simp] theorem marks_call (num n : Num) (conn : Netconn) (c : Call) (os : List Output) :
    marks num (.call n conn c :: os) = (if n = num then [c.mark] else []) ++ marks num os := by
  rw [marks, List.filterMap_cons, Output.mark]
  by_cases hn : n = num
  · rw [if_pos hn, if_pos hn]
    rfl
  · rw [if_neg hn, if_neg hn]
    rfl

/-- Nothing is done with a connection after it is closed. -/
def ClosedLast (log : List Output) : Prop :=
  ∀ before o after, log = before ++ o :: after → Output.close o.conn ∉ before

namespace ClosedLast

variable {log os : List Output} {o : Output} {conn : Netconn}

theorem nil : ClosedLast [] := fun before o after h => by simp at h

theorem snoc_iff : ClosedLast (log ++ [o]) ↔ ClosedLast log ∧ Output.close o.conn ∉ log :=
  forall_split_snoc fun before (o : Output) => Output.close o.conn ∉ before

/-- A connection that is not closed is used, and is not closed then either. -/
theorem append (h : ClosedLast log) (hopen : .close conn ∉ log)
    (hos : ∀ o ∈ os, o.conn = conn ∧ o ≠ .close conn) :
    ClosedLast (log ++ os) ∧ .close conn ∉ log ++ os := by
  induction os generalizing log with
  | nil => simpa using ⟨h, hopen⟩
  | cons o os ih =>
    obtain ⟨⟨hconn, hnot⟩, hrest⟩ := List.forall_mem_cons.mp hos
    have hlog : ClosedLast (log ++ [o]) := snoc_iff.mpr ⟨h, by rwa [hconn]⟩
    have hopen' : .close conn ∉ log ++ [o] := by
      rw [List.mem_append, List.mem_singleton, not_or]
      exact ⟨hopen, hnot.symm⟩
    rw [List.append_cons]
    exact ih hlog hopen' hrest

end ClosedLast

/-- The connection of each client, and what has been done. -/
structure Table where
  conns : Num → Option Netconn
  log : List Output

inductive Move
  /-- A connection is answered and given to a client. -/
  | add (num : Num) (conn : Netconn) (handshake : List Byte)
  /-- A connection is answered, and there is no client for it. -/
  | full (conn : Netconn) (handshake : List Byte)
  | reject (conn : Netconn)
  | call (num : Num) (conn : Netconn) (call : Call)
  | write (num : Num) (conn : Netconn) (bytes : List Byte)
  | disconnect (num : Num) (conn : Netconn) (call : Call) (bytes : List Byte)

/-- The connection that a move brings to the server. -/
def Move.brings : Move → Option Netconn
  | add _ conn _ | full conn _ | reject conn => some conn
  | _ => none

namespace Table

def put (t : Table) (os : List Output) : Table := { t with log := t.log ++ os }

def setConn (t : Table) (num : Num) (conn : Option Netconn) : Table :=
  { t with conns := Function.update t.conns num conn }

def step (t : Table) : Move → Option Table
  | .add num conn handshake =>
    if t.conns num = none then
      some ((t.setConn num (some conn)).put [.write conn handshake, .call num conn .connect])
    else none
  | .full conn handshake => some (t.put [.write conn handshake])
  | .reject conn => some (t.put [.close conn])
  | .call num conn call =>
    if t.conns num = some conn ∧ call.mark = .inside then some (t.put [.call num conn call])
    else none
  | .write num conn bytes =>
    if t.conns num = some conn then some (t.put [.write conn bytes]) else none
  | .disconnect num conn call bytes =>
    if t.conns num = some conn ∧ call.mark = .closes then
      some ((t.setConn num none).put [.call num conn call, .write conn bytes, .close conn])
    else none

def start : Table := ⟨fun _ => none, []⟩

@[simp] theorem setConn_self (t : Table) (num : Num) (conn : Option Netconn) :
    (t.setConn num conn).conns num = conn := Function.update_self ..

theorem setConn_of_ne (t : Table) {num n : Num} (conn : Option Netconn) (hn : n ≠ num) :
    (t.setConn num conn).conns n = t.conns n := Function.update_of_ne hn ..

/-- The client has a connection while it is told so. -/
def Told (t : Table) : Prop :=
  ∀ num, Alternates (marks num t.log) ∧ isOpen (marks num t.log) = (t.conns num).isSome

/-- A table with the connections that have come to the server. -/
structure Known (conns : List Netconn) (t : Table) : Prop where
  log : ∀ o ∈ t.log, o.conn ∈ conns
  here : ∀ num conn, t.conns num = some conn → conn ∈ conns
  opened : ∀ num conn, t.conns num = some conn → .close conn ∉ t.log
  distinct : ∀ num num' conn, t.conns num = some conn → t.conns num' = some conn → num = num'
  closed : ClosedLast t.log

section Told

variable {t t' : Table} {num : Num}

theorem told_start : start.Told := fun _ => ⟨Alternates.nil, rfl⟩

theorem Told.silent (h : t.Told) (hlog : ∀ n, marks n t'.log = marks n t.log)
    (hconns : ∀ n, (t'.conns n).isSome = (t.conns n).isSome) : t'.Told := by
  intro n
  rw [hlog, hconns]
  exact h n

/-- One client is told something. -/
theorem Told.tell (h : t.Told) (num : Num) {m : Mark}
    (hlog : ∀ n, marks n t'.log = marks n t.log ++ if num = n then [m] else [])
    (hallowed : m.Allowed (t.conns num).isSome)
    (hconns : ∀ n, (t'.conns n).isSome =
      if num = n then m.after (t.conns n).isSome else (t.conns n).isSome) : t'.Told := by
  intro n
  obtain ⟨halt, hopen⟩ := h n
  rw [hlog, hconns]
  by_cases hn : num = n
  · subst hn
    rw [if_pos rfl, if_pos rfl, isOpen_snoc, hopen]
    refine ⟨Alternates.snoc_iff.mpr ⟨halt, ?_⟩, rfl⟩
    rwa [hopen]
  · rw [if_neg hn, if_neg hn, List.append_nil]
    exact ⟨halt, hopen⟩

theorem isSome_setConn (conn : Option Netconn) (n : Num) :
    ((t.setConn num conn).conns n).isSome =
      if num = n then conn.isSome else (t.conns n).isSome := by
  by_cases hn : num = n
  · subst hn
    rw [setConn_self, if_pos rfl]
  · rw [setConn_of_ne t conn (Ne.symm hn), if_neg hn]

theorem Told.step {m : Move} (h : t.Told) (hstep : t.step m = some t') : t'.Told := by
  cases m with
  | add num conn handshake =>
    rw [Table.step, Option.ite_none_right_eq_some, Option.some.injEq] at hstep
    obtain ⟨hnone, rfl⟩ := hstep
    refine h.tell num (m := .opens) (fun n => ?_) (by simp [Mark.Allowed, hnone])
      fun n => isSome_setConn ..
    simp [put, setConn, Call.mark]
  | full conn handshake =>
    obtain rfl := Option.some.inj hstep
    exact h.silent (fun n => by simp [put]) fun n => rfl
  | reject conn =>
    obtain rfl := Option.some.inj hstep
    exact h.silent (fun n => by simp [put]) fun n => rfl
  | call num conn call =>
    rw [Table.step, Option.ite_none_right_eq_some, Option.some.injEq] at hstep
    obtain ⟨⟨hconn, hmark⟩, rfl⟩ := hstep
    refine h.tell num (m := .inside) (fun n => ?_) (by simp [Mark.Allowed, hconn])
      fun n => ?_
    · simp [put, hmark]
    · simp [put, Mark.after]
  | write num conn bytes =>
    rw [Table.step, Option.ite_none_right_eq_some, Option.some.injEq] at hstep
    obtain ⟨hconn, rfl⟩ := hstep
    exact h.silent (fun n => by simp [put]) fun n => rfl
  | disconnect num conn call bytes =>
    rw [Table.step, Option.ite_none_right_eq_some, Option.some.injEq] at hstep
    obtain ⟨⟨hconn, hmark⟩, rfl⟩ := hstep
    refine h.tell num (m := .closes) (fun n => ?_) (by simp [Mark.Allowed, hconn])
      fun n => isSome_setConn ..
    simp [put, setConn, hmark]

end Told

section Known

variable {t t' : Table} {conns : List Netconn} {conn : Netconn} {os : List Output}

theorem known_start : start.Known [] where
  log := fun o ho => absurd ho List.not_mem_nil
  here := fun num conn h => by cases h
  opened := fun num conn h => by cases h
  distinct := fun num num' conn h => by cases h
  closed := ClosedLast.nil

/-- A connection that is not closed is used. -/
theorem Known.put (h : t.Known conns) (hconn : conn ∈ conns) (hopen : .close conn ∉ t.log)
    (hos : ∀ o ∈ os, o.conn = conn ∧ o ≠ .close conn) : (t.put os).Known conns where
  log := by
    intro o ho
    rcases List.mem_append.mp ho with ho | ho
    · exact h.log o ho
    · rw [(hos o ho).1]
      exact hconn
  here := h.here
  opened := by
    intro num c hc hclose
    rcases List.mem_append.mp hclose with hclose | hclose
    · exact h.opened num c hc hclose
    · obtain rfl : c = conn := (hos _ hclose).1
      exact (hos _ hclose).2 rfl
  distinct := h.distinct
  closed := (h.closed.append hopen hos).1

theorem Known.close (h : t.Known conns) (hconn : conn ∈ conns) (hopen : .close conn ∉ t.log)
    (hgone : ∀ num, t.conns num ≠ some conn) : (t.put [.close conn]).Known conns where
  log := by
    intro o ho
    rcases List.mem_append.mp ho with ho | ho
    · exact h.log o ho
    · obtain rfl := List.mem_singleton.mp ho
      exact hconn
  here := h.here
  opened := by
    intro num c hc hclose
    rcases List.mem_append.mp hclose with hclose | hclose
    · exact h.opened num c hc hclose
    · rw [List.mem_singleton, Output.close.injEq] at hclose
      exact hgone num (hclose ▸ hc)
  distinct := h.distinct
  closed := ClosedLast.snoc_iff.mpr ⟨h.closed, hopen⟩

theorem Known.more (h : t.Known conns) (more : List Netconn) : t.Known (conns ++ more) where
  log := fun o ho => List.mem_append_left _ (h.log o ho)
  here := fun num c hc => List.mem_append_left _ (h.here num c hc)
  opened := h.opened
  distinct := h.distinct
  closed := h.closed

theorem Known.fresh (h : t.Known conns) (hconn : conn ∉ conns) : .close conn ∉ t.log :=
  fun hclose => hconn (h.log _ hclose)

theorem Known.remove (h : t.Known conns) (num : Num) : (t.setConn num none).Known conns := by
  have hold : ∀ n c, (t.setConn num none).conns n = some c → t.conns n = some c := by
    intro n c hc
    by_cases hn : n = num
    · subst hn
      rw [setConn_self] at hc
      cases hc
    · rwa [setConn_of_ne t none hn] at hc
  exact ⟨h.log, fun n c hc => h.here n c (hold n c hc), fun n c hc => h.opened n c (hold n c hc),
    fun n n' c hc hc' => h.distinct n n' c (hold n c hc) (hold n' c hc'), h.closed⟩

theorem Known.insert (h : t.Known conns) (num : Num) (hconn : conn ∉ conns) :
    (t.setConn num (some conn)).Known (conns ++ [conn]) := by
  have hcases : ∀ n c, (t.setConn num (some conn)).conns n = some c →
      n = num ∧ c = conn ∨ t.conns n = some c := by
    intro n c hc
    by_cases hn : n = num
    · subst hn
      rw [setConn_self, Option.some.injEq] at hc
      exact .inl ⟨rfl, hc.symm⟩
    · rw [setConn_of_ne t _ hn] at hc
      exact .inr hc
  refine ⟨(h.more _).log, fun n c hc => ?_, fun n c hc => ?_, fun n n' c hc hc' => ?_, h.closed⟩
  · rcases hcases n c hc with ⟨-, rfl⟩ | hc
    · exact List.mem_append_right _ (List.mem_singleton.mpr rfl)
    · exact List.mem_append_left _ (h.here n c hc)
  · rcases hcases n c hc with ⟨-, rfl⟩ | hc
    · exact h.fresh hconn
    · exact h.opened n c hc
  · rcases hcases n c hc with ⟨rfl, rfl⟩ | hold
    · rcases hcases n' c hc' with ⟨rfl, -⟩ | hold'
      · rfl
      · exact absurd (h.here n' c hold') hconn
    · rcases hcases n' c hc' with ⟨-, rfl⟩ | hold'
      · exact absurd (h.here n c hold) hconn
      · exact h.distinct n n' c hold hold'

theorem Known.step {m : Move} (h : t.Known conns) (hnew : ∀ conn ∈ m.brings, conn ∉ conns)
    (hstep : t.step m = some t') : t'.Known (conns ++ m.brings.toList) := by
  cases m with
  | add num conn handshake =>
    rw [Table.step, Option.ite_none_right_eq_some, Option.some.injEq] at hstep
    obtain ⟨hnone, rfl⟩ := hstep
    have hconn := hnew conn rfl
    exact (h.insert num hconn).put (by simp) (h.fresh hconn) (by simp [Output.conn])
  | full conn handshake =>
    obtain rfl := Option.some.inj hstep
    exact (h.more [conn]).put (by simp) (h.fresh (hnew conn rfl)) (by simp [Output.conn])
  | reject conn =>
    obtain rfl := Option.some.inj hstep
    have hconn := hnew conn rfl
    exact (h.more [conn]).close (by simp) (h.fresh hconn)
      fun num hc => hconn (h.here num conn hc)
  | call num conn call =>
    rw [Table.step, Option.ite_none_right_eq_some, Option.some.injEq] at hstep
    obtain ⟨⟨hconn, -⟩, rfl⟩ := hstep
    exact (h.put (h.here num conn hconn) (h.opened num conn hconn) (by simp [Output.conn])).more []
  | write num conn bytes =>
    rw [Table.step, Option.ite_none_right_eq_some, Option.some.injEq] at hstep
    obtain ⟨hconn, rfl⟩ := hstep
    exact (h.put (h.here num conn hconn) (h.opened num conn hconn) (by simp [Output.conn])).more []
  | disconnect num conn call bytes =>
    rw [Table.step, Option.ite_none_right_eq_some, Option.some.injEq] at hstep
    obtain ⟨⟨hconn, -⟩, rfl⟩ := hstep
    have hhere := h.here num conn hconn
    have hopen := h.opened num conn hconn
    have hgone : ∀ n, (t.setConn num none).conns n ≠ some conn := by
      intro n hc
      by_cases hn : n = num
      · subst hn
        rw [setConn_self] at hc
        cases hc
      · rw [setConn_of_ne t none hn] at hc
        exact hn (h.distinct n num conn hc hconn)
    have huse : ∀ o ∈ [Output.call num conn call, .write conn bytes],
        o.conn = conn ∧ o ≠ .close conn := by simp [Output.conn]
    have hused := (h.remove num).put hhere hopen huse
    have hclosed := hused.close hhere (h.closed.append hopen huse).2 hgone
    simpa [Table.put, Move.brings] using hclosed

end Known

/-! ### Runs -/

theorem Told.run {t t' : Table} {ms : List Move} (h : t.Told) (run : Run (Steps Table.step) t ms t') :
    t'.Told :=
  run.invariant h fun _ _ _ ha hstep => ha.step hstep

theorem Known.run {t t' : Table} {conns : List Netconn} {ms : List Move} (h : t.Known conns)
    (hnew : (conns ++ ms.filterMap Move.brings).Nodup) (run : Run (Steps Table.step) t ms t') :
    t'.Known (conns ++ ms.filterMap Move.brings) := by
  induction run with
  | nil => simpa using h
  | @snoc ms a b m run hstep ih =>
    rw [filterMap_snoc, ← List.append_assoc] at hnew ⊢
    have hbefore := ih (List.nodup_append.mp hnew).1
    refine hbefore.step (fun conn hconn hin => ?_) hstep
    exact (List.nodup_append.mp hnew).2.2 conn hin conn (Option.mem_toList.mpr hconn) rfl

end Table

end VhomeBridge.WebSocket
