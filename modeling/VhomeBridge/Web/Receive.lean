import VhomeBridge.Web.WebServer
import Mathlib.Data.List.TakeWhile

/-! What the receive loop of the form handlers leaves in the buffer.  Each piece is written to the
start of the buffer, over the one before it, so a text is whole only if it comes in one piece; and
`POST_handler` does not end it. -/

namespace VhomeBridge.Web

open Lib

def Recv.piece? : Recv → Option Text
  | .data piece => some piece
  | .timeout => none
  | .fail => none

/-- The pieces in which a body is delivered. -/
def pieces (script : List Recv) : List Text := script.filterMap Recv.piece?

/-- The calls deliver the whole body, in pieces of at most `size` bytes, with timeouts in
between. -/
structure Delivers (size : Nat) (body : Text) (script : List Recv) : Prop where
  whole : (pieces script).flatten = body
  piece : ∀ p ∈ pieces script, p ≠ [] ∧ p.length ≤ size
  ok : Recv.fail ∉ script

/-- The buffer after the pieces. -/
def overlay (ps : List Text) (buf : Tape Char) : Tape Char :=
  ps.foldl (fun buf p => buf.write 0 p) buf

theorem overlay_of_ge {ps : List Text} {k : Nat} (h : ∀ p ∈ ps, p.length ≤ k) (buf : Tape Char) :
    overlay ps buf k = buf k := by
  induction ps generalizing buf with
  | nil => rfl
  | cons p ps ih =>
    have hp : p.length ≤ k := h p (by simp)
    calc overlay (p :: ps) buf k
        = overlay ps (buf.write 0 p) k := rfl
      _ = buf.write 0 p k := ih (fun q hq => h q (by simp [hq])) _
      _ = buf k := Tape.write_of_ge (by omega)

theorem flatten_eq_nil {ps : List Text} (hne : ∀ p ∈ ps, p ≠ []) (h : ps.flatten = []) :
    ps = [] :=
  List.eq_nil_iff_forall_not_mem.mpr fun p hp => hne p hp (List.flatten_eq_nil_iff.mp h p hp)

/-- The pieces of a delivery that is not in one piece are shorter than the whole. -/
theorem piece_lt {ps : List Text} (hne : ∀ p ∈ ps, p ≠ []) (h : ps ≠ [ps.flatten]) :
    ∀ p ∈ ps, p.length < ps.flatten.length := by
  intro p hp
  obtain ⟨qs, rs, rfl⟩ := List.append_of_mem hp
  have hother : qs ++ rs ≠ [] := by
    intro hnil
    obtain ⟨rfl, rfl⟩ := List.append_eq_nil_iff.mp hnil
    simp at h
  obtain ⟨q, hq⟩ := List.exists_mem_of_ne_nil _ hother
  have hlen : 0 < q.length := List.length_pos_iff.mpr (hne q (by
    rw [List.mem_append, List.mem_cons]
    rw [List.mem_append] at hq
    exact hq.imp_right .inr))
  have hle : q.length ≤ (qs ++ rs).flatten.length :=
    (List.sublist_flatten_of_mem hq).length_le
  rw [List.flatten_append, List.length_append] at hle
  rw [List.flatten_append, List.flatten_cons, List.length_append, List.length_append]
  omega

/-! ### The loop -/

theorem receive_nonpos (size : Nat) (script : List Recv) {remaining : Int} (h : remaining ≤ 0)
    (buf : Tape Char) : receive size script remaining buf = some (.done buf) := by
  have hnot : ¬0 < remaining := by omega
  cases script with
  | nil => simp [receive, hnot]
  | cons r script => cases r <;> simp [receive, hnot]

theorem receive_pieces {size : Nat} {script : List Recv}
    (hpiece : ∀ p ∈ pieces script, p ≠ [] ∧ p.length ≤ size) (hok : Recv.fail ∉ script)
    {remaining : Int} (hrem : remaining = (pieces script).flatten.length) (buf : Tape Char) :
    receive size script remaining buf = some (.done (overlay (pieces script) buf)) := by
  induction script generalizing remaining buf with
  | nil =>
    rw [receive_nonpos size _ (by simpa [pieces] using hrem.le)]
    rfl
  | cons r script ih =>
    have hok' : Recv.fail ∉ script := fun h => hok (List.mem_cons_of_mem _ h)
    cases r with
    | data piece =>
      have hpieces : pieces (.data piece :: script) = piece :: pieces script := rfl
      rw [hpieces] at hpiece hrem ⊢
      obtain ⟨hne, hle⟩ := hpiece piece (by simp)
      have hlen := List.length_pos_iff.mpr hne
      rw [List.flatten_cons, List.length_append, Nat.cast_add] at hrem
      have hstore : buf.store size 0 piece = some (buf.write 0 piece) := Tape.store_of_le (by omega)
      rw [receive, if_pos (by omega), hstore, Option.bind_eq_bind, Option.bind_some,
        ih (fun p hp => hpiece p (List.mem_cons_of_mem _ hp)) hok' (by omega)]
      rfl
    | timeout =>
      have hpieces : pieces (.timeout :: script) = pieces script := rfl
      rw [hpieces] at hpiece hrem ⊢
      by_cases hpos : 0 < remaining
      · rw [receive, if_pos hpos]
        exact ih hpiece hok' hrem buf
      · have hnil : (pieces script).flatten = [] := List.length_eq_zero_iff.mp (by omega)
        rw [flatten_eq_nil (fun p hp => (hpiece p hp).1) hnil, receive, if_neg hpos]
        rfl
    | fail => exact absurd (List.mem_cons_self ..) hok

theorem Request.remaining_of_lt {req : Request} (h : req.body.length < 2 ^ 31) :
    req.remaining = req.body.length := by
  rw [Request.remaining, BitVec.toInt_eq_toNat_cond, BitVec.toNat_ofNat]
  split <;> omega

/-- A length that is a positive `int` is the length of the body. -/
theorem Request.remaining_of_pos {req : Request} (h : 0 < req.remaining) :
    req.remaining = req.body.length := by
  have hsmall := req.small
  rw [Request.remaining, BitVec.toInt_eq_toNat_cond, BitVec.toNat_ofNat] at h ⊢
  split at h
  · rw [if_pos ‹_›]
    omega
  · omega

theorem Request.remaining_pos {req : Request} (h : req.body.length < 2 ^ 31) :
    0 < req.remaining ↔ req.body ≠ [] := by
  rw [Request.remaining_of_lt h, ← List.length_pos_iff]
  omega

/-- The buffer that a delivery leaves: the pieces over what was there, or, for a body whose length
is no positive `int`, what was there. -/
theorem receive_delivers {size : Nat} {req : Request} {script : List Recv}
    (h : Delivers size req.body script) (buf : Tape Char) :
    ∃ m, receive size script req.remaining buf = some (.done m) ∧
      (m = overlay (pieces script) buf ∨ m = buf) := by
  by_cases hpos : 0 < req.remaining
  · have hrem := Request.remaining_of_pos hpos
    rw [← h.whole] at hrem
    exact ⟨_, receive_pieces h.piece h.ok hrem buf, .inl rfl⟩
  · exact ⟨buf, receive_nonpos size script (by omega) buf, .inr rfl⟩

/-- Behind the body the buffer is as it was. -/
theorem receive_behind {size : Nat} {req : Request} {script : List Recv}
    (h : Delivers size req.body script) (buf : Tape Char) :
    ∃ m, receive size script req.remaining buf = some (.done m) ∧
      ∀ k, req.body.length ≤ k → m k = buf k := by
  obtain ⟨m, hm, rfl | rfl⟩ := receive_delivers h buf
  · refine ⟨_, hm, fun k hk => overlay_of_ge (fun p hp => ?_) buf⟩
    have := (List.sublist_flatten_of_mem hp).length_le
    rw [h.whole] at this
    omega
  · exact ⟨m, hm, fun _ _ => rfl⟩

/-! ### The texts -/

/-- The handler uses the body if it fits the buffer with a terminator, and fails if it does not,
whatever the buffer held. -/
def Exact (size : Nat) (body : Text) (handler : Tape Char → Option (Outcome Text)) : Prop :=
  if body.length < size then ∀ buf, handler buf = some (.done body)
  else ∀ buf, handler buf = some .failed

theorem postText_done {req : Request} {script : List Recv} {buf m : Tape Char}
    (hm : receive 200 script req.remaining buf = some (.done m)) :
    postText req script buf = (m.string '\x00' 200 0).bind fun text => some (.done text) := by
  rw [postText, hm]
  rfl

/-- `POST_handler` ends no body, and rejects none. -/
theorem not_exact_post {req : Request} {script : List Recv} (h : Delivers 200 req.body script) :
    ¬Exact 200 req.body (postText req script) := by
  intro hexact
  rw [Exact] at hexact
  obtain ⟨m, hm, hbehind⟩ := receive_behind h fun _ => 'x'
  split at hexact
  · have htext := hexact fun _ => 'x'
    rw [postText_done hm] at htext
    obtain ⟨s, hs, hdone⟩ := Option.bind_eq_some_iff.mp htext
    obtain rfl : s = req.body := by simpa using hdone
    obtain ⟨-, hholds, -⟩ := Tape.string_some hs
    have hend := (Tape.holds_append.mp hholds).2 0 '\x00' rfl
    rw [Nat.add_zero, Nat.zero_add, hbehind _ (Nat.le_refl _)] at hend
    exact absurd hend (by decide)
  · have htext := hexact fun _ => 'x'
    rw [postText_done hm] at htext
    obtain ⟨s, -, hdone⟩ := Option.bind_eq_some_iff.mp htext
    simp at hdone

theorem apPostText_body {req : Request} {script : List Recv} {buf m : Tape Char}
    (hpos : 0 < req.remaining) (hm : receive 100 script req.remaining buf = some (.done m)) :
    apPostText req script buf = (m.store 100 req.body.length ['\x00']).bind fun buf =>
      (buf.string '\x00' 100 0).bind fun text => some (.done text) := by
  rw [apPostText, if_pos hpos, hm]
  rfl

theorem apPostText_uri {req : Request} (script : List Recv) (buf : Tape Char)
    (hnot : ¬0 < req.remaining) :
    apPostText req script buf = (buf.store 100 0 req.uri).bind fun buf =>
      (buf.store 100 req.uri.length ['\x00']).bind fun buf =>
        (buf.string '\x00' 100 0).bind fun text => some (.done text) := by
  rw [apPostText, if_neg hnot]
  rfl

/-- A text that is not rejected. -/
theorem apPostText_ne_failed {req : Request} {script : List Recv}
    (h : Delivers 100 req.body script) (buf : Tape Char) :
    apPostText req script buf ≠ some .failed := by
  intro htext
  by_cases hpos : 0 < req.remaining
  · obtain ⟨m, hm, -⟩ := receive_delivers h buf
    rw [apPostText_body hpos hm] at htext
    obtain ⟨_, -, htext⟩ := Option.bind_eq_some_iff.mp htext
    obtain ⟨s, -, hdone⟩ := Option.bind_eq_some_iff.mp htext
    simp at hdone
  · rw [apPostText_uri script buf hpos] at htext
    obtain ⟨_, -, htext⟩ := Option.bind_eq_some_iff.mp htext
    obtain ⟨_, -, htext⟩ := Option.bind_eq_some_iff.mp htext
    obtain ⟨s, -, hdone⟩ := Option.bind_eq_some_iff.mp htext
    simp at hdone

/-- An empty body: the text is the URI. -/
theorem apPostText_empty {req : Request} (script : List Recv) (buf : Tape Char)
    (hbody : req.body = []) : apPostText req script buf ≠ some (.done req.body) := by
  intro htext
  have hlen : req.body.length < 2 ^ 31 := by simp [hbody]
  rw [apPostText_uri script buf ((Request.remaining_pos hlen).not.mpr (by simp [hbody]))] at htext
  obtain ⟨m, hm, htext⟩ := Option.bind_eq_some_iff.mp htext
  obtain ⟨m', hm', htext⟩ := Option.bind_eq_some_iff.mp htext
  obtain ⟨s, hs, hdone⟩ := Option.bind_eq_some_iff.mp htext
  obtain rfl : s = req.body := by simpa using hdone
  rw [Tape.store, Option.ite_none_right_eq_some, Option.some.injEq] at hm hm'
  obtain ⟨hroom, rfl⟩ := hm
  obtain ⟨hroom', rfl⟩ := hm'
  have hholds := (Tape.holds_write (m := buf) (i := 0) (l := req.uri)).write_append
    (t := ['\x00'])
  rw [Nat.zero_add] at hholds
  rw [List.length_singleton] at hroom'
  have hread := hholds.string_append (show 0 + req.uri.length < 100 by omega)
  rw [hs, Option.some.injEq, hbody, eq_comm, Tape.takeWhile_ne req.uri_string] at hread
  exact req.uri_path hread

/-- The buffer after a body that fits, in whatever pieces. -/
theorem apPostText_short {req : Request} {script : List Recv} (h : Delivers 100 req.body script)
    (hne : req.body ≠ []) (hlen : req.body.length < 100) (buf : Tape Char) :
    apPostText req script buf = (((overlay (pieces script) buf).write req.body.length
      ['\x00']).string '\x00' 100 0).bind fun text => some (.done text) := by
  have hsmall : req.body.length < 2 ^ 31 := by omega
  have hrem : req.remaining = (pieces script).flatten.length := by
    rw [h.whole, Request.remaining_of_lt hsmall]
  have hstore : (overlay (pieces script) buf).store 100 req.body.length ['\x00'] =
      some ((overlay (pieces script) buf).write req.body.length ['\x00']) := Tape.store_of_le hlen
  rw [apPostText_body ((Request.remaining_pos hsmall).mpr hne)
    (receive_pieces h.piece h.ok hrem buf), hstore, Option.bind_some]

/-- `AP_POST_handler` is right about a nonempty body without NUL that fits and comes in one
piece. -/
theorem exact_apPost_iff {req : Request} {script : List Recv} (h : Delivers 100 req.body script) :
    Exact 100 req.body (apPostText req script) ↔ req.body ≠ [] ∧ '\x00' ∉ req.body ∧
      req.body.length < 100 ∧ pieces script = [req.body] := by
  constructor
  · intro hexact
    rw [Exact] at hexact
    split at hexact
    · rename_i hlen
      have hne : req.body ≠ [] := fun hnil =>
        apPostText_empty script (fun _ => 'x') hnil (hexact fun _ => 'x')
      have held : ∀ buf : Tape Char, ((overlay (pieces script) buf).write req.body.length
          ['\x00']).Holds 0 req.body ∧ '\x00' ∉ req.body := by
        intro buf
        have htext := hexact buf
        rw [apPostText_short h hne hlen] at htext
        obtain ⟨s, hs, hdone⟩ := Option.bind_eq_some_iff.mp htext
        obtain rfl : s = req.body := by simpa using hdone
        obtain ⟨-, hholds, hnul⟩ := Tape.string_some hs
        exact ⟨(Tape.holds_append.mp hholds).1, hnul⟩
      refine ⟨hne, (held fun _ => 'x').2, hlen, ?_⟩
      by_contra hpieces
      have hpos := List.length_pos_iff.mpr hne
      have hlt := piece_lt (fun p hp => (h.piece p hp).1) (by rwa [h.whole])
      rw [h.whole] at hlt
      -- no piece reaches the last byte of the body
      have hlast : ∀ c : Char, req.body[req.body.length - 1]? = some c → ∀ x, x = c := by
        intro c hc x
        have hcell := (held fun _ => x).1 _ c hc
        rwa [Nat.zero_add, Tape.write_of_lt (by omega), overlay_of_ge fun p hp => ?_] at hcell
        have := hlt p hp
        omega
      have hget := List.getElem?_eq_getElem (show req.body.length - 1 < req.body.length by omega)
      exact absurd ((hlast _ hget 'x').trans (hlast _ hget 'y').symm) (by decide)
    · exact absurd (hexact fun _ => 'x') (apPostText_ne_failed h _)
  · rintro ⟨hne, hnul, hlen, hpieces⟩
    rw [Exact, if_pos hlen]
    intro buf
    have hholds := (Tape.holds_write (m := buf) (i := 0) (l := req.body)).write_append
      (t := ['\x00'])
    rw [Nat.zero_add] at hholds
    have hread := hholds.string_append (show 0 + req.body.length < 100 by omega)
    rw [Tape.takeWhile_ne hnul] at hread
    rw [apPostText_short h hne hlen, hpieces]
    exact congrArg (Option.bind · _) hread

/-- However a body is delivered, `POST_handler` is wrong about it, and `AP_POST_handler` is right
exactly about a nonempty body without NUL that fits its buffer and comes in one piece. -/
theorem handlers_exact_iff (req : Request) (script script' : List Recv)
    (h : Delivers 200 req.body script) (h' : Delivers 100 req.body script') :
    ¬Exact 200 req.body (postText req script) ∧
      (Exact 100 req.body (apPostText req script') ↔ req.body ≠ [] ∧ '\x00' ∉ req.body ∧
        req.body.length < 100 ∧ pieces script' = [req.body]) :=
  ⟨not_exact_post h, exact_apPost_iff h'⟩

/-- A request of the form for the network. -/
def formRequest (body : Text) (h : body.length < 2 ^ 32) : Request where
  uri := "/wi".toList
  contentType := "application/x-www-form-urlencoded".toList
  body := body
  uri_path := by decide
  uri_string := by decide
  small := h

def homeRequest : Request := formRequest "s1=home&p1=password1&save=1".toList (by decide)

theorem homeRequest_delivers {size : Nat} (h : 27 ≤ size) :
    Delivers size homeRequest.body [.timeout, .data homeRequest.body] where
  whole := List.append_nil _
  piece := fun p hp => by
    obtain rfl := List.mem_singleton.mp hp
    exact ⟨by decide, h⟩
  ok := by simp

theorem handlers_exact_home :
    ¬Exact 200 homeRequest.body (postText homeRequest [.timeout, .data homeRequest.body]) ∧
      Exact 100 homeRequest.body (apPostText homeRequest [.timeout, .data homeRequest.body]) :=
  (handlers_exact_iff homeRequest _ _ (homeRequest_delivers (by decide))
    (homeRequest_delivers (by decide))).imp_right fun h =>
      h.mpr ⟨by decide, by decide, by decide, rfl⟩

/-- The same body: what `POST_handler` takes for its text ends where the stack happens to hold a
zero. -/
theorem not_handlers_exact :
    ¬∀ (req : Request) (script script' : List Recv), Delivers 200 req.body script →
      Delivers 100 req.body script' → Exact 200 req.body (postText req script) ∧
        Exact 100 req.body (apPostText req script') := fun h =>
  not_exact_post (homeRequest_delivers (by decide))
    (h homeRequest _ _ (homeRequest_delivers (by decide)) (homeRequest_delivers (by decide))).1

end VhomeBridge.Web
