import VhomeBridge.WebSocket.Stream

/-! The events of a connection.  There is one in the queue for each piece in the mailbox and for each
that `ws_read` took in behind the first of a frame, which `unfinished` counts.  So the task finds a
piece whenever it starts to read, and when no event is left nothing is unread. -/

namespace VhomeBridge.WebSocket

open Lib

/-- The events of a connection that are still to be answered with the first piece of a frame, or
with a piece that was read before. -/
def Server.events (s : Server) (c : Netconn) : Nat :=
  s.queue.count c + (if s.pending = some c then 1 else 0) + begun (s.readingOf c)

/-- Pieces arrive only once the server has taken the connection, the peer does not close it, and the
queue is never full for long. -/
def Noticed (c : Netconn) (s : Server) (e : Label) : Prop :=
  match e with
  | .receive conn _ => conn = c → s.watched c = true
  | .eof conn => conn ≠ c
  | .lost => s.pending ≠ some c
  | _ => True

instance (c : Netconn) (s : Server) : DecidablePred (Noticed c s)
  | .receive conn _ => inferInstanceAs (Decidable (conn = c → s.watched c = true))
  | .eof conn => inferInstanceAs (Decidable (conn ≠ c))
  | .lost => inferInstanceAs (Decidable (s.pending ≠ some c))
  | .notify | .turn | .recv | .fail | .reject _ | .api _ => inferInstanceAs (Decidable True)

/-- The events of a connection against its pieces. -/
structure Settled (c : Netconn) (s : Server) (brought : Prop) : Prop where
  new : ¬brought → s.mbox c = [] ∧ s.events c = 0 ∧ s.watched c = false
  even : ∀ i, (s.clients i).conn = some c →
    s.events c = (s.mbox c).length + (s.clients i).unfinished.toNat

namespace Server

variable {s : Server} {num i : Num} {conn c : Netconn} {read : Read}

/-- What `ws_read` and `handle_read` leave alone. -/
theorem proceed_frame (s : Server) (num : Num) (conn : Netconn) (read : Read) :
    (s.proceed num conn read).mbox = s.mbox ∧ (s.proceed num conn read).queue = s.queue ∧
      (s.proceed num conn read).pending = s.pending := by
  cases read with
  | waits client r => exact ⟨rfl, rfl, rfl⟩
  | returns client received => exact handleRead_frame ..

theorem proceed_self (s : Server) (num : Num) (conn : Netconn) (read : Read) :
    ((s.proceed num conn read).clients num).conn = none ∨
      ∃ p, (s.proceed num conn read).clients num = { read.client with ping := p } := by
  cases read with
  | waits client r => exact .inr ⟨client.ping, setClient_self ..⟩
  | returns client received => exact handleRead_self ..

theorem begun_proceed (s : Server) (num : Num) (conn : Netconn) (read : Read) :
    begun ((s.proceed num conn read).readingOf c) = 0 := by
  cases read with
  | waits client r =>
    have hreading : (s.proceed num conn (.waits client r)).reading = some (num, conn, some r) := rfl
    rw [readingOf_some hreading]
    split <;> rfl
  | returns client received =>
    have hreading : (s.proceed num conn (.returns client received)).reading = none :=
      handleRead_reading ..
    rw [readingOf_none hreading]
    rfl

theorem proceed_watched (hoff : s.watched c = false) :
    (s.proceed num conn read).watched c = false := by
  cases read with
  | waits client r => exact hoff
  | returns client received =>
    cases received with
    | none => exact hoff
    | some received =>
      rw [proceed, handleRead]
      repeat' split
      all_goals first
        | exact hoff
        | (by_cases hc : c = conn
           · subst hc
             exact Function.update_self ..
           · exact (Function.update_of_ne hc ..).trans hoff)

end Server

section Settled

variable {heap : Heap} {c conn : Netconn} {fs : List Frame} {future : List Netbuf} {s t : Server}
  {brought : Prop} {num : Num} {buf : Netbuf} {bufs : List Netbuf}

/-- A step that leaves the connection alone. -/
theorem Settled.same (h : Settled c s brought) (hmbox : t.mbox c = s.mbox c)
    (hevents : t.events c = s.events c) (hwatched : s.watched c = false → t.watched c = false)
    (hclient : ∀ i, (t.clients i).conn = some c → (s.clients i).conn = some c ∧
      (t.clients i).unfinished = (s.clients i).unfinished) : Settled c t brought where
  new := by
    intro hnot
    obtain ⟨hempty, hnone, hoff⟩ := h.new hnot
    exact ⟨hmbox.trans hempty, hevents.trans hnone, hwatched hoff⟩
  even := by
    intro i hi
    obtain ⟨hconn, hunfinished⟩ := hclient i hi
    rw [hevents, hmbox, hunfinished, h.even i hconn]

theorem Settled.acts (h : Settled c s brought) (hacts : s.Acts t) : Settled c t brought := by
  have hevents : t.events c = s.events c := by
    have hreading : t.readingOf c = s.readingOf c := by
      rw [Server.readingOf, Server.readingOf, hacts.reading]
    rw [Server.events, Server.events, hacts.queue, hacts.pending, hreading]
  refine h.same (congrFun hacts.mbox c) hevents (hacts.watched c) fun i hi => ?_
  rcases hacts.client i with hnone | ⟨p, hp⟩
  · rw [hnone] at hi
    cases hi
  · rw [hp] at hi ⊢
    exact ⟨hi, rfl⟩

theorem Settled.receive (h : Settled c s brought) (hpending : s.pending = none)
    (hnoticed : conn = c → s.watched c = true) :
    Settled c { s with
      mbox := Function.update s.mbox conn (s.mbox conn ++ [buf])
      pending := if s.watched conn then some conn else none } brought := by
  by_cases hc : conn = c
  · subst hc
    have hon := hnoticed rfl
    refine ⟨fun hnot => ?_, fun i hi => ?_⟩
    · rw [(h.new hnot).2.2] at hon
      cases hon
    · have heven := h.even i hi
      simp only [Server.events, Server.readingOf, hpending, hon, if_true, Function.update_self,
        List.length_append, List.length_singleton, reduceCtorEq, if_false] at heven ⊢
      omega
  · refine h.same (Function.update_of_ne (Ne.symm hc) ..) ?_ id fun i hi => ⟨hi, rfl⟩
    have hnot : (if s.watched conn then some conn else none) ≠ some c := by
      split
      · exact fun heq => hc (Option.some.inj heq)
      · exact (Option.some_ne_none c).symm
    simp [Server.events, Server.readingOf, hpending, hnot]

theorem Settled.turn (h : Settled c s brought) (hidle : s.reading = none) {queue : List Netconn}
    (hqueue : s.queue = conn :: queue)
    (hdistinct : ∀ i j, (s.clients i).conn = some c → (s.clients j).conn = some c → i = j) :
    Settled c ({ s with queue := queue }.turn conn) brought := by
  have hof : s.readingOf c = none := Server.readingOf_none hidle
  by_cases hc : conn = c
  · subst hc
    have hevents : s.events conn =
        queue.count conn + 1 + if s.pending = some conn then 1 else 0 := by
      rw [Server.events, hqueue, hof, List.count_cons_self]
      rfl
    have hbrought : ¬¬brought := fun hnot => by
      have hzero := (h.new hnot).2.1
      omega
    refine ⟨fun hnot => absurd hnot hbrought, fun i hi => ?_⟩
    rw [Server.turn] at hi ⊢
    cases hfind : ({ s with queue := queue } : Server).find conn with
    | none =>
      rw [hfind] at hi
      have hnone := List.find?_eq_none.mp hfind i (List.mem_finRange i)
      simp only [decide_eq_true_eq] at hnone
      exact absurd hi hnone
    | some num =>
      have hnum : (s.clients num).conn = some conn := Server.find_conn hfind
      have heven := h.even num hnum
      rw [hevents] at heven
      simp only [hfind] at hi ⊢
      by_cases hzero : (s.clients num).unfinished = 0
      · rw [if_neg (not_not.mpr hzero)] at hi ⊢
        obtain rfl := hdistinct i num hi hnum
        have hread : ({ s with queue := queue, reading := some (i, conn, none) } :
            Server).readingOf conn = some none := (Server.readingOf_some rfl).trans (if_pos rfl)
        rw [Server.events, hread]
        change queue.count conn + (if s.pending = some conn then 1 else 0) + 1 =
          (s.mbox conn).length + (s.clients i).unfinished.toNat
        omega
      · rw [if_pos hzero] at hi ⊢
        have hi' : i = num := by
          by_contra hne
          rw [Server.setClient_of_ne _ _ hne] at hi
          exact hne (hdistinct i num hi hnum)
        subst hi'
        have hless : ((s.clients i).unfinished - 1).toNat + 1 = (s.clients i).unfinished.toNat := by
          bv_omega
        have hread : (({ s with queue := queue } : Server).setClient i { s.clients i with
            unfinished := (s.clients i).unfinished - 1 }).readingOf conn = none :=
          Server.readingOf_none hidle
        rw [Server.setClient_self, Server.events, hread]
        change queue.count conn + (if s.pending = some conn then 1 else 0) + 0 =
          (s.mbox conn).length + ((s.clients i).unfinished - 1).toNat
        omega
  · have hcount : s.queue.count c = queue.count c := by
      rw [hqueue, List.count_cons_of_ne hc]
    have hevents : ∀ (u : Server), u.queue = queue → u.pending = s.pending →
        u.readingOf c = none → u.events c = s.events c := by
      intro u hq hp hr
      rw [Server.events, Server.events, hq, hp, hr, hof, hcount]
    rw [Server.turn]
    split
    · exact h.same rfl (hevents _ rfl rfl hof) id fun i hi => ⟨hi, rfl⟩
    · rename_i num hfind
      have hnum : (s.clients num).conn = some conn := Server.find_conn hfind
      dsimp only
      split
      · refine h.same rfl (hevents _ rfl rfl (Server.readingOf_none hidle)) id fun i hi => ?_
        have hne : i ≠ num := by
          rintro rfl
          rw [Server.setClient_self] at hi
          exact hc (Option.some.inj (hnum.symm.trans hi))
        rw [Server.setClient_of_ne _ _ hne] at hi ⊢
        exact ⟨hi, rfl⟩
      · refine h.same rfl (hevents _ rfl rfl ?_) id fun i hi => ⟨hi, rfl⟩
        rw [Server.readingOf_some rfl, if_neg hc]

/-- `ws_read` goes on with another connection. -/
theorem Settled.proceed_other (h : Settled c s brought) {read : Read} (hc : conn ≠ c)
    (hread : read.client.conn = some conn) (hof : s.readingOf c = none) :
    Settled c (s.proceed num conn read) brought := by
  obtain ⟨hbox, hqueue, hpending⟩ := Server.proceed_frame s num conn read
  have hevents : (s.proceed num conn read).events c = s.events c := by
    rw [Server.events, Server.events, Server.begun_proceed, hqueue, hpending, hof]
    rfl
  refine h.same (congrFun hbox c) hevents (fun hoff => Server.proceed_watched hoff) fun i hi => ?_
  have hne : i ≠ num := by
    rintro rfl
    rcases Server.proceed_self s i conn read with hnone | ⟨p, hp⟩
    · rw [hnone] at hi
      cases hi
    · rw [hp] at hi
      exact hc (Option.some.inj (hread.symm.trans hi))
  rw [Server.proceed_of_ne hne] at hi ⊢
  exact ⟨hi, rfl⟩

theorem Settled.recv (h : Settled c s brought) {r : Option Reading} {read : Read}
    (hreading : s.reading = some (num, conn, r)) (hconn : (s.clients num).conn = some conn)
    (hread : read.client.conn = some conn) (hmbox : s.mbox conn = buf :: bufs)
    (hdistinct : ∀ i j, (s.clients i).conn = some c → (s.clients j).conn = some c → i = j)
    (hself : conn = c → brought ∧ read.client.unfinished.toNat + begun (some r) =
      (s.clients num).unfinished.toNat + 1) :
    Settled c ({ s with mbox := Function.update s.mbox conn bufs }.proceed num conn read)
      brought := by
  obtain ⟨hbox, hqueue, hpending⟩ :=
    Server.proceed_frame { s with mbox := Function.update s.mbox conn bufs } num conn read
  have hbegun := Server.begun_proceed (c := c) { s with mbox := Function.update s.mbox conn bufs }
    num conn read
  have hof : s.readingOf c = if conn = c then some r else none := Server.readingOf_some hreading
  by_cases hc : conn = c
  · subst hc
    obtain ⟨hbrought, hunfinished⟩ := hself rfl
    refine ⟨fun hnot => absurd hbrought hnot, fun i hi => ?_⟩
    have hi' : i = num := by
      by_contra hne
      rw [Server.proceed_of_ne hne] at hi
      exact hne (hdistinct i num hi hconn)
    subst hi'
    have heven := h.even i hconn
    rcases Server.proceed_self { s with mbox := Function.update s.mbox conn bufs } i conn read with
      hnone | ⟨p, hp⟩
    · rw [hnone] at hi
      cases hi
    · have hboxc : ({ s with mbox := Function.update s.mbox conn bufs }.proceed i conn read).mbox
          conn = bufs := by
        rw [hbox]
        exact Function.update_self ..
      rw [Server.events, hof, if_pos rfl, hmbox, List.length_cons] at heven
      rw [Server.events, hbegun, hqueue, hpending, hboxc, hp]
      change s.queue.count conn + (if s.pending = some conn then 1 else 0) + 0 =
        bufs.length + read.client.unfinished.toNat
      omega
  · rw [if_neg hc] at hof
    have hsame : Settled c { s with mbox := Function.update s.mbox conn bufs } brought :=
      h.same (Function.update_of_ne (Ne.symm hc) ..) rfl id fun i hi => ⟨hi, rfl⟩
    exact hsame.proceed_other hc hread hof

/-- The connection is handed to the server. -/
theorem Settled.add_self (h : Settled c s brought) (url : Text) (handshake : List Byte)
    (hnew : ¬brought) (hgone : ∀ i, (s.clients i).conn ≠ some c) :
    Settled c (s.addClient c url handshake).1 True := by
  obtain ⟨hempty, hnone, -⟩ := h.new hnew
  refine ⟨fun hnot => absurd trivial hnot, fun i hi => ?_⟩
  rcases Server.addClient_cases s c url handshake with hfull | ⟨j, -, hadd⟩
  · rw [hfull] at hi
    exact absurd hi (hgone i)
  · rw [hadd] at hi ⊢
    have hij : i = j := by
      by_contra hne
      rw [Server.setClient_of_ne _ _ hne] at hi
      exact hgone i hi
    subst hij
    rw [Server.setClient_self]
    change s.events c = (s.mbox c).length + 0
    rw [hnone, hempty]
    rfl

theorem Settled.add_other (h : Settled c s brought) (hc : conn ≠ c) (url : Text)
    (handshake : List Byte) : Settled c (s.addClient conn url handshake).1 brought := by
  have hwatched : s.watched c = false → Function.update s.watched conn true c = false :=
    fun hoff => (Function.update_of_ne (Ne.symm hc) ..).trans hoff
  rcases Server.addClient_cases s conn url handshake with hfull | ⟨j, -, hadd⟩
  · rw [hfull]
    exact h.same rfl rfl hwatched fun i hi => ⟨hi, rfl⟩
  · rw [hadd]
    refine h.same rfl rfl hwatched fun i hi => ?_
    have hne : i ≠ j := by
      rintro rfl
      rw [Server.setClient_self] at hi
      exact hc (Option.some.inj hi)
    rw [Server.setClient_of_ne _ _ hne] at hi ⊢
    exact ⟨hi, rfl⟩

theorem Settled.iff {brought' : Prop} (h : Settled c s brought) (hiff : brought' ↔ brought) :
    Settled c s brought' :=
  ⟨fun hnot => h.new (mt hiff.mpr hnot), h.even⟩

/-- `netconn_recv` fails for another connection only: there is a piece of this one whenever the task
starts to read. -/
theorem Settled.fail (h : Settled c s brought) (hserves : Serves heap c fs future s brought)
    {r : Option Reading} (hreading : s.reading = some (num, conn, r))
    (hconn : (s.clients num).conn = some conn)
    (hdistinct : ∀ i j, (s.clients i).conn = some c → (s.clients j).conn = some c → i = j)
    (hwhole : (s.readingOf c).join.isNone) (ht : s.step heap .fail = some t) :
    Settled c t brought := by
  have hof : s.readingOf c = if conn = c then some r else none := Server.readingOf_some hreading
  rw [Server.step, hreading, Option.ite_none_right_eq_some] at ht
  obtain ⟨hmbox, ht⟩ := ht
  by_cases hc : conn = c
  · exfalso
    subst hc
    rw [if_pos rfl] at hof
    cases r with
    | some r =>
      rw [hof] at hwhole
      cases hwhole
    | none =>
      cases hserves with
      | before hnew hgone => exact hgone num hconn
      | after hbrought hgone => exact hgone num hconn
      | @during i rest hbrought hconn' hheld hlog =>
        obtain rfl := hdistinct i num hconn' hconn
        obtain ⟨-, -, hprogress⟩ := hheld
        rw [hof] at hprogress
        cases hprogress with
        | first hzero =>
          have heven := h.even i hconn
          rw [Server.events, hof, hmbox, hzero] at heven
          simp [begun] at heven
  · rw [if_neg hc] at hof
    cases r with
    | none =>
      obtain rfl := Option.some.inj ht
      refine h.same rfl ?_ id fun i hi => ⟨hi, rfl⟩
      rw [Server.events, Server.events, hof]
      rfl
    | some r =>
      obtain ⟨read, hread, ht⟩ := Option.bind_eq_some_iff.mp ht
      obtain rfl := Option.some.inj ht
      exact h.proceed_other hc ((wsReadMore_conn hread).trans hconn) hof

end Settled

section Runs

variable {heap : Heap} {c : Netconn} {fs : List Frame} {pieces future : List Netbuf} {s t : Server}
  {e : Label} {es : List Label} {conns : List Netconn}

/-- The steps that lose nothing of a connection. -/
def Kept (c : Netconn) (s : Server) (e : Label) : Prop := Whole c s e ∧ Noticed c s e

instance (c : Netconn) (s : Server) : DecidablePred (Kept c s) :=
  fun e => inferInstanceAs (Decidable (Whole c s e ∧ Noticed c s e))

theorem Settled.step (h : Settled c s (c ∈ conns))
    (hserves : Serves heap c fs future s (c ∈ conns)) (hreads : s.Reads)
    (hknown : s.table.Known conns) (hnew : (conns ++ e.brings.toList).Nodup) (hkept : Kept c s e)
    (hstep : s.step heap e = some t) : Settled c t (c ∈ conns ++ e.brings.toList) := by
  have hdistinct : ∀ i j, (s.clients i).conn = some c → (s.clients j).conn = some c → i = j :=
    fun i j hi hj => hknown.distinct i j c hi hj
  have hsilent : e.brings = none → Settled c t (c ∈ conns) →
      Settled c t (c ∈ conns ++ e.brings.toList) := by
    intro he ht
    rwa [he, Option.toList_none, List.append_nil]
  cases e with
  | receive conn buf =>
    rw [Server.step, Option.ite_none_right_eq_some, Option.some.injEq] at hstep
    obtain ⟨hpending, rfl⟩ := hstep
    exact hsilent rfl (h.receive (Option.isNone_iff_eq_none.mp hpending) hkept.2)
  | eof conn =>
    rw [Server.step, Option.ite_none_right_eq_some, Option.some.injEq] at hstep
    obtain ⟨hpending, rfl⟩ := hstep
    rw [Option.isNone_iff_eq_none] at hpending
    refine hsilent rfl (h.same rfl ?_ id fun i hi => ⟨hi, rfl⟩)
    have hnot : (if s.watched conn then some conn else none) ≠ some c := by
      split
      · exact fun heq => hkept.2 (Option.some.inj heq)
      · exact (Option.some_ne_none c).symm
    rw [Server.events, Server.events, hpending, if_neg hnot, if_neg (Option.some_ne_none c).symm]
    rfl
  | notify =>
    rw [Server.step] at hstep
    split at hstep
    · rename_i conn hpending
      rw [Option.ite_none_right_eq_some, Option.some.injEq] at hstep
      obtain ⟨-, rfl⟩ := hstep
      refine hsilent rfl (h.same rfl ?_ id fun i hi => ⟨hi, rfl⟩)
      rw [Server.events, Server.events, hpending, List.count_append]
      by_cases hc : conn = c
      · subst hc
        simp [Server.readingOf]
      · simp [hc, Server.readingOf]
    · cases hstep
  | lost =>
    rw [Server.step, Option.ite_none_right_eq_some, Option.some.injEq] at hstep
    obtain ⟨-, rfl⟩ := hstep
    refine hsilent rfl (h.same rfl ?_ id fun i hi => ⟨hi, rfl⟩)
    rw [Server.events, Server.events, if_neg hkept.2, if_neg (Option.some_ne_none c).symm]
    rfl
  | turn =>
    rw [Server.step] at hstep
    split at hstep
    · rename_i conn queue hidle hqueue
      obtain rfl := Option.some.inj hstep
      exact hsilent rfl (h.turn hidle hqueue hdistinct)
    · cases hstep
  | recv =>
    rw [Server.step] at hstep
    split at hstep
    · cases hstep
    · rename_i num conn r hreading
      split at hstep
      · cases hstep
      · rename_i buf bufs hmbox
        obtain ⟨read, hread, hstep⟩ := Option.bind_eq_some_iff.mp hstep
        obtain rfl := Option.some.inj hstep
        have hconn := hreads num conn r hreading
        refine hsilent rfl (h.recv hreading hconn ((wsReadPiece_conn hread).trans hconn) hmbox
          hdistinct fun hc => ?_)
        subst hc
        have hof : s.readingOf conn = some r := (Server.readingOf_some hreading).trans (if_pos rfl)
        cases hserves with
        | before _ hgone => exact absurd hconn (hgone num)
        | after _ hgone => exact absurd hconn (hgone num)
        | @during i rest hbrought hconn' hheld hlog =>
          obtain rfl := hdistinct i num hconn' hconn
          rw [hof, hmbox, List.cons_append] at hheld
          obtain ⟨read', hread', hunfinished, -⟩ := hheld.piece
          obtain rfl : read = read' := Option.some.inj (hread.symm.trans hread')
          exact ⟨hbrought, hunfinished⟩
  | fail =>
    cases hreading : s.reading with
    | none =>
      rw [Server.step, hreading] at hstep
      cases hstep
    | some reading =>
      obtain ⟨num, conn, r⟩ := reading
      exact hsilent rfl (h.fail hserves hreading (hreads num conn r hreading) hdistinct hkept.1 hstep)
  | reject conn =>
    obtain rfl := Option.some.inj hstep
    have hsame : Settled c (s.reject conn) (c ∈ conns) := h.same rfl rfl id fun i hi => ⟨hi, rfl⟩
    by_cases hc : conn = c
    · subst hc
      have hnot : conn ∉ conns := fun hmem =>
        (List.nodup_append.mp hnew).2.2 conn hmem conn (by simp [Label.brings]) rfl
      refine ⟨fun hnot => absurd (by simp [Label.brings]) hnot, fun i hi => ?_⟩
      exact absurd (hknown.here i conn hi) hnot
    · exact hsame.iff (by simp [Label.brings, Ne.symm hc])
  | api a =>
    rw [Server.step, Option.ite_none_right_eq_some, Option.some.injEq] at hstep
    obtain ⟨-, rfl⟩ := hstep
    cases ha : a.brings with
    | none => exact hsilent ha (h.acts (Server.api_acts s ha))
    | some conn =>
      obtain ⟨url, handshake, rfl⟩ := Api.eq_add ha
      by_cases hc : conn = c
      · subst hc
        have hnot : conn ∉ conns := fun hmem =>
          (List.nodup_append.mp hnew).2.2 conn hmem conn (by simp [Label.brings, Api.brings]) rfl
        exact (h.add_self url handshake hnot fun i hi => hnot (hknown.here i conn hi)).iff
          (by simp [Label.brings, Api.brings])
      · exact (h.add_other hc url handshake).iff (by simp [Label.brings, Api.brings, Ne.symm hc])

theorem Settled.run (run : Run (Guarded (Steps (Server.step heap)) (Kept c)) Server.start es t)
    (hnew : (es.filterMap Label.brings).Nodup) (hfits : FitsAll heap (wsConnectClient c []) fs)
    (hstreams : Streams fs pieces) (harrivals : arrivals c es <+: pieces) :
    Settled c t (c ∈ es.filterMap Label.brings) := by
  induction run with
  | nil => exact ⟨fun _ => ⟨rfl, rfl, rfl⟩, fun i hi => by cases hi⟩
  | @snoc es a b e run hstep ih =>
    rw [filterMap_snoc] at hnew ⊢
    rw [arrivals_append] at harrivals
    have hbefore := (List.nodup_append.mp hnew).1
    have hprefix := (List.prefix_append _ _).trans harrivals
    obtain ⟨future, hfuture⟩ := hprefix
    have run1 : Run (Guarded (Steps (Server.step heap)) (Whole c)) Server.start es a :=
      run.mono fun _ _ _ h => ⟨h.1, h.2.1⟩
    have run2 : Run (Steps (Server.step heap)) Server.start es a := run.mono fun _ _ _ h => h.1
    exact (ih hbefore ⟨future, hfuture⟩).step (Serves.run run1 hbefore hfits hstreams hfuture)
      (Server.run_moves Server.start_reads run2).2 (Server.run_known run2 hbefore) hnew hstep.2
      hstep.1

/-- Once all the pieces have arrived and no event of the connection is left, the client has been
told of every frame. -/
theorem delivered_all (run : Run (Guarded (Steps (Server.step heap)) (Kept c)) Server.start es t)
    (hnew : (es.filterMap Label.brings).Nodup) (hfits : FitsAll heap (wsConnectClient c []) fs)
    (hstreams : Streams fs (arrivals c es)) {i : Num} (hconn : (t.clients i).conn = some c)
    (hqueue : c ∉ t.queue) (hpending : t.pending ≠ some c) (hreading : t.readingOf c = none) :
    incoming c t.log = deliveries fs := by
  have run1 : Run (Guarded (Steps (Server.step heap)) (Whole c)) Server.start es t :=
    run.mono fun _ _ _ h => ⟨h.1, h.2.1⟩
  have hsettled := Settled.run run hnew hfits hstreams List.prefix_rfl
  cases Serves.run run1 hnew hfits hstreams (List.append_nil _) with
  | before _ hgone => exact absurd hconn (hgone i)
  | after _ hgone => exact absurd hconn (hgone i)
  | @during j rest _ hconn' hheld hlog =>
    have hevents : t.events c = 0 := by
      rw [Server.events, List.count_eq_zero.mpr hqueue, if_neg hpending, hreading]
      rfl
    have hempty : t.mbox c = [] := by
      have heven := hsettled.even j hconn'
      rw [hevents] at heven
      exact List.length_eq_zero_iff.mp (by omega)
    obtain ⟨-, -, hprogress⟩ := hheld
    rw [hreading, hempty] at hprogress
    generalize htodo : [] ++ [] = todo at hprogress
    cases hprogress with
    | idle hstreams' =>
      cases hstreams' with
      | nil => simpa [deliveries] using hlog
      | cons hcarries =>
        obtain ⟨buf, more, -, rfl, -⟩ := hcarries.first
        cases htodo

theorem delivered_all_twoPieces :
    ∃ t, Run (Guarded (Steps (Server.step heap100)) (Kept 7)) Server.start twoPieces t ∧
      (t.clients 0).conn = some 7 ∧ incoming 7 t.log = deliveries [maskedHi] := by
  have hexec : (exec (restrict (Server.step heap100) fun s e => decide (Kept 7 s e)) Server.start
      twoPieces).map (fun t => ((t.clients 0).conn, t.queue, t.pending, (t.readingOf 7).isNone)) =
        some (some 7, [], none, true) := by decide +kernel
  obtain ⟨t, ht, hend⟩ := Option.map_eq_some_iff.mp hexec
  simp only [Prod.mk.injEq] at hend
  obtain ⟨hconn, hqueue, hpending, hreading⟩ := hend
  have run := Run.of_exec_restrict (G := Kept 7) (fun _ _ => of_decide_eq_true) ht
  exact ⟨t, run, hconn, delivered_all run (by decide) maskedHi_fits maskedHi_streams hconn
    (by simp [hqueue]) (by simp [hpending]) (Option.isNone_iff_eq_none.mp hreading)⟩

/-- While the task reads from the connection it does not wait for long, and it does not write
outside of the block: where it is to read the first piece of a frame one is there, and once all has
arrived every other one is too; and a piece that is there can be taken. -/
theorem never_stuck (run : Run (Guarded (Steps (Server.step heap)) (Kept c)) Server.start es t)
    (hnew : (es.filterMap Label.brings).Nodup) (hfits : FitsAll heap (wsConnectClient c []) fs)
    (hstreams : Streams fs pieces) (harrivals : arrivals c es <+: pieces) {num : Num}
    {r : Option Reading} (hreading : t.reading = some (num, c, r)) :
    (r = none ∨ arrivals c es = pieces → t.mbox c ≠ []) ∧
      (t.mbox c ≠ [] → (t.step heap .recv).isSome) := by
  have run1 : Run (Guarded (Steps (Server.step heap)) (Whole c)) Server.start es t :=
    run.mono fun _ _ _ h => ⟨h.1, h.2.1⟩
  have run2 : Run (Steps (Server.step heap)) Server.start es t := run.mono fun _ _ _ h => h.1
  have hsettled := Settled.run run hnew hfits hstreams harrivals
  have hconn := (Server.run_moves Server.start_reads run2).2 num c r hreading
  have hof : t.readingOf c = some r := (Server.readingOf_some hreading).trans (if_pos rfl)
  obtain ⟨future, hfuture⟩ := harrivals
  cases Serves.run run1 hnew hfits hstreams hfuture with
  | before _ hgone => exact absurd hconn (hgone num)
  | after _ hgone => exact absurd hconn (hgone num)
  | @during i rest _ hconn' hheld hlog =>
    obtain rfl := (Server.run_known run2 hnew).distinct i num c hconn' hconn
    rw [hof] at hheld
    refine ⟨fun hwait hempty => ?_, fun hthere => ?_⟩
    · have heven := hsettled.even i hconn
      rw [Server.events, hof, hempty] at heven
      obtain ⟨-, -, hprogress⟩ := hheld
      rw [hempty, List.nil_append] at hprogress
      generalize htodo : future = todo at hprogress
      cases hprogress with
      | first hzero =>
        rw [hzero] at heven
        simp [begun] at heven
      | amid =>
        rcases hwait with hnone | hall
        · cases hnone
        · have hnil : future = [] := by simpa [hall] using hfuture
          rw [hnil] at htodo
          cases htodo
    · obtain ⟨buf, bufs, hmbox⟩ := List.exists_cons_of_ne_nil hthere
      rw [hmbox, List.cons_append] at hheld
      obtain ⟨read, hread, -⟩ := hheld.piece
      simp only [Server.step, hreading, hmbox, hread, Bind.bind, Option.bind_some, Option.isSome_some]

/-- The task waits for the second piece, which is there. -/
theorem never_stuck_twoPieces :
    ∃ t, Run (Guarded (Steps (Server.step heap100)) (Kept 7)) Server.start (twoPieces.take 6) t ∧
      t.mbox 7 ≠ [] ∧ (t.step heap100 .recv).isSome := by
  have hexec : (exec (restrict (Server.step heap100) fun s e => decide (Kept 7 s e)) Server.start
      (twoPieces.take 6)).map (fun t => t.reading.map fun r => (r.1, r.2.1)) =
        some (some (0, 7)) := by decide +kernel
  obtain ⟨t, ht, hend⟩ := Option.map_eq_some_iff.mp hexec
  obtain ⟨⟨num, conn, r⟩, hreading, hnum⟩ := Option.map_eq_some_iff.mp hend
  obtain ⟨rfl, rfl⟩ : num = 0 ∧ conn = 7 := by simpa using hnum
  have run := Run.of_exec_restrict (G := Kept 7) (fun _ _ => of_decide_eq_true) ht
  obtain ⟨hthere, hstep⟩ := never_stuck run (by decide) maskedHi_fits maskedHi_streams
    List.prefix_rfl hreading
  exact ⟨t, run, hthere (.inr rfl), hstep (hthere (.inr rfl))⟩

end Runs

end VhomeBridge.WebSocket
