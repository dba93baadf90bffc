import VhomeBridge.Zigbee.Transfer

/-! When `zigbee_fota_task` commits an image to the chip.  The `EOT` packet follows a download that
finished, whatever `fwrite` stored of it, so the packets before it carry all the bytes received
exactly when no call of `fwrite` in a finishing download was short. -/

namespace VhomeBridge.Zigbee

open Lib

/-- A buffer that a finishing download received, and the number of its bytes that `fwrite` took. -/
structure Chunk where
  buf : List Byte
  fwrite : Nat

def Chunk.Full (c : Chunk) : Prop := c.buf.length ≤ c.fwrite

/-- The chunks of a download that brings the countdown to 0 within the given turns. -/
def finishing (imageDataRemaining : Nat) (turns : List Turn) : Option (List Chunk) :=
  if imageDataRemaining = 0 then some []
  else
    match turns with
    | [] => none
    | turn :: turns =>
      match turn.read with
      | .zero connectionLost => if connectionLost then none else finishing imageDataRemaining turns
      | .error => none
      | .data first rest =>
        let buf := (first :: rest).take (dataMaxLen imageDataRemaining)
        (finishing (imageDataRemaining - buf.length) turns).map (⟨buf, turn.fwrite⟩ :: ·)

def received (chunks : List Chunk) : List Byte := (chunks.map Chunk.buf).flatten

def stored (chunks : List Chunk) : List Byte :=
  (chunks.map fun c => c.buf.take c.fwrite).flatten

theorem finishing_zero (turns : List Turn) : finishing 0 turns = some [] := by
  rw [finishing.eq_def, if_pos rfl]

theorem finishing_cons {imageDataRemaining : Nat} (h : imageDataRemaining ≠ 0) (turn : Turn)
    (turns : List Turn) :
    finishing imageDataRemaining (turn :: turns) =
      match turn.read with
      | .zero connectionLost => if connectionLost then none else finishing imageDataRemaining turns
      | .error => none
      | .data first rest =>
        let buf := (first :: rest).take (dataMaxLen imageDataRemaining)
        (finishing (imageDataRemaining - buf.length) turns).map (⟨buf, turn.fwrite⟩ :: ·) := by
  rw [finishing.eq_def, if_neg h]

/-- The download ends with the stored bytes of the chunks if it finishes, and otherwise not with a
complete file. -/
theorem download_eq (imageDataRemaining : Nat) (file : List Byte) (turns : List Turn) :
    (∀ chunks, finishing imageDataRemaining turns = some chunks →
      download imageDataRemaining file turns = .complete (file ++ stored chunks)) ∧
    (finishing imageDataRemaining turns = none →
      ∀ stored, download imageDataRemaining file turns ≠ .complete stored) := by
  induction turns generalizing imageDataRemaining file with
  | nil =>
    by_cases h : imageDataRemaining = 0
    · subst h
      simp [finishing, download, stored]
    · simp [finishing, download, h]
  | cons turn turns ih =>
    by_cases h : imageDataRemaining = 0
    · subst h
      simp [finishing_zero, download.eq_def, stored]
    rw [finishing_cons h, download.eq_def, if_neg h]
    obtain ⟨read, fwrite⟩ := turn
    cases read with
    | zero connectionLost =>
      cases connectionLost with
      | true => simp
      | false => exact ih imageDataRemaining file
    | error => simp
    | data first rest =>
      simp only
      generalize (first :: rest).take (dataMaxLen imageDataRemaining) = buf
      obtain ⟨hsome, hnone⟩ := ih (imageDataRemaining - buf.length) (file ++ buf.take fwrite)
      cases hfin : finishing (imageDataRemaining - buf.length) turns with
      | none => exact ⟨by simp, fun _ => hnone hfin⟩
      | some chunks =>
        refine ⟨?_, by simp⟩
        rintro _ ⟨⟩
        rw [hsome chunks hfin]
        simp [stored, List.append_assoc]

theorem length_received {imageDataRemaining : Nat} {turns : List Turn} {chunks : List Chunk}
    (h : finishing imageDataRemaining turns = some chunks) :
    (received chunks).length = imageDataRemaining := by
  induction turns generalizing imageDataRemaining chunks with
  | nil =>
    by_cases h0 : imageDataRemaining = 0
    · subst h0
      obtain rfl : [] = chunks := by simpa [finishing] using h
      rfl
    · simp [finishing, h0] at h
  | cons turn turns ih =>
    by_cases h0 : imageDataRemaining = 0
    · subst h0
      obtain rfl : [] = chunks := by simpa [finishing_zero] using h
      rfl
    rw [finishing_cons h0] at h
    obtain ⟨read, fwrite⟩ := turn
    cases read with
    | zero connectionLost =>
      simp only at h
      split at h
      · contradiction
      · exact ih h
    | error => simp at h
    | data first rest =>
      simp only [Option.map_eq_some_iff] at h
      obtain ⟨chunks, hfin, rfl⟩ := h
      have hmax : dataMaxLen imageDataRemaining ≤ imageDataRemaining := by
        unfold dataMaxLen
        split <;> omega
      have hlen : ((first :: rest).take (dataMaxLen imageDataRemaining)).length ≤
          imageDataRemaining := Nat.le_trans (List.length_take_le _ _) hmax
      have htail := ih hfin
      simp only [received, List.map_cons, List.flatten_cons, List.length_append] at htail ⊢
      omega

/-- What is stored is at most what is received, and all of it exactly when every chunk is stored
whole. -/
theorem stored_eq_received_iff (chunks : List Chunk) :
    (stored chunks).length ≤ (received chunks).length ∧
    (stored chunks = received chunks ↔ ∀ c ∈ chunks, c.Full) := by
  induction chunks with
  | nil => simp [stored, received]
  | cons c chunks ih =>
    obtain ⟨hle, hiff⟩ := ih
    have hlen : (c.buf.take c.fwrite).length ≤ c.buf.length := List.length_take_le' _ _
    simp only [stored, received, List.map_cons, List.flatten_cons, List.length_append] at hle hiff ⊢
    refine ⟨by omega, ?_⟩
    rw [List.forall_mem_cons]
    constructor
    · intro heq
      have htotal := congrArg List.length heq
      simp only [List.length_append] at htotal
      have hfull : (c.buf.take c.fwrite).length = c.buf.length := by omega
      have htake : c.buf.take c.fwrite = c.buf :=
        List.take_of_length_le (by rw [List.length_take] at hfull; omega)
      rw [htake] at heq
      refine ⟨?_, hiff.mp (List.append_cancel_left heq)⟩
      rw [List.length_take] at hfull
      unfold Chunk.Full
      omega
    · rintro ⟨hc, hcs⟩
      rw [List.take_of_length_le hc, hiff.mpr hcs]

/-! ### Commit -/

namespace FotaEnv

/-- The server has content and both calls of `fopen` succeed. -/
def Opens (env : FotaEnv) : Prop :=
  env.httpInit = true ∧ env.httpOpen = true ∧ 0 < env.contentLength ∧ env.fopenWrite = true ∧
    env.fopenRead = true

def chunks (env : FotaEnv) : Option (List Chunk) := finishing env.contentLength.toNat env.turns

/-- An `EOT` packet is written only after data packets that carry all `content_length` bytes
received from the server, in order. -/
def CommitsOnlyWhole (env : FotaEnv) : Prop :=
  ∀ acks before e after, zigbeeFotaWrites env acks = before ++ e :: after → e.header = eot →
    ∃ chunks, env.chunks = some chunks ∧ (received chunks).length = env.contentLength ∧
      (before.map XmodemPacket.data).flatten = received chunks

/-- No call of `fwrite` is short in a download that finishes. -/
def WritesWhole (env : FotaEnv) : Prop :=
  env.Opens → ∀ chunks, env.chunks = some chunks → ∀ c ∈ chunks, c.Full

end FotaEnv

/-- The task sends the stored bytes of a download that finishes, and nothing otherwise. -/
theorem zigbeeFotaTask_cases (env : FotaEnv) :
    (∃ chunks, env.Opens ∧ env.chunks = some chunks ∧
      zigbeeFotaTask env = sendImage env.contentLength (stored chunks)) ∨
    (¬(env.Opens ∧ ∃ chunks, env.chunks = some chunks) ∧ zigbeeFotaTask env = []) := by
  by_cases hopens : env.Opens
  · obtain ⟨hinit, hopen, hlength, hwrite, hread⟩ := hopens
    obtain ⟨hsome, hnone⟩ := download_eq env.contentLength.toNat [] env.turns
    cases hfin : env.chunks with
    | some chunks =>
      refine .inl ⟨chunks, ⟨hinit, hopen, hlength, hwrite, hread⟩, rfl, ?_⟩
      have hdown := hsome chunks hfin
      rw [List.nil_append] at hdown
      simp [zigbeeFotaTask, hinit, hopen, hwrite, hread, hdown, Int.not_le.mpr hlength]
    | none =>
      refine .inr ⟨by simp, ?_⟩
      have hdown := hnone hfin
      cases hresult : download env.contentLength.toNat [] env.turns with
      | complete file => exact absurd hresult (hdown file)
      | failed => simp [zigbeeFotaTask, hresult]
      | running => simp [zigbeeFotaTask, hresult]
  · refine .inr ⟨fun h => hopens h.1, ?_⟩
    unfold zigbeeFotaTask
    split
    · rfl
    split
    · rfl
    split
    · rfl
    split
    · rfl
    rename_i hinit hopen hlength hwrite
    split
    · rfl
    · rfl
    split
    · rfl
    · rename_i hread
      exact absurd ⟨by simpa using hinit, by simpa using hopen, by omega, by simpa using hwrite,
        by simpa using hread⟩ hopens

theorem length_stored_le {env : FotaEnv} {chunks : List Chunk} (hopens : env.Opens)
    (h : env.chunks = some chunks) : ((stored chunks).length : Int) ≤ env.contentLength := by
  have hle := (stored_eq_received_iff chunks).1
  have hlen := length_received h
  have hpos := hopens.2.2.1
  omega

/-- An `EOT` packet in a prefix of the packets of a file is the last of them, and the packets before
it carry the file. -/
theorem sendImage_before_eot {contentLength : Int} {file : List Byte}
    (h : file.length ≤ contentLength) {acks : Nat} {before after : List XmodemPacket}
    {e : XmodemPacket} (hwrites : (sendImage contentLength file).take acks = before ++ e :: after)
    (he : e.header = eot) : (before.map XmodemPacket.data).flatten = file := by
  obtain ⟨ps, last, hsend, hcarries, -⟩ := sendImage_eq contentLength file h
  have hprefix : before ++ [e] <+: ps ++ [last] := by
    rw [← hsend]
    refine List.IsPrefix.trans ?_ (List.take_prefix acks _)
    rw [hwrites]
    exact ⟨after, by simp⟩
  have hnot : ¬before ++ [e] <+: ps := by
    intro hp
    have hmem : e ∈ ps := hp.subset (by simp)
    have := hcarries.header e hmem
    rw [he] at this
    exact absurd this (by decide)
  have heq : before ++ [e] = ps ++ [last] := (List.prefix_concat_iff.mp hprefix).resolve_right hnot
  rw [(List.append_inj' heq rfl).1, hcarries.data, blocks_flatten (by decide)]

/-- The task commits only whole images exactly when no call of `fwrite` is short in a download that
finishes. -/
theorem commitsOnlyWhole_iff (env : FotaEnv) : env.CommitsOnlyWhole ↔ env.WritesWhole := by
  constructor
  · intro hcommit hopens chunks hchunks
    have hlen := length_stored_le hopens hchunks
    obtain ⟨ps, e, hsend, hcarries, he⟩ := sendImage_eq env.contentLength (stored chunks) hlen
    have htask : zigbeeFotaTask env = ps ++ [e] := by
      rcases zigbeeFotaTask_cases env with ⟨_, -, hsame, htask⟩ | ⟨hnot, -⟩
      · obtain rfl := Option.some.inj (hchunks.symm.trans hsame)
        rw [htask, hsend]
      · exact absurd ⟨hopens, chunks, hchunks⟩ hnot
    have hwrites : zigbeeFotaWrites env ps.length = ps ++ e :: [] := by
      rw [zigbeeFotaWrites, htask, List.take_of_length_le (by simp)]
    obtain ⟨_, hsame, -, hdata⟩ := hcommit _ _ _ _ hwrites he
    obtain rfl := Option.some.inj (hchunks.symm.trans hsame)
    rw [hcarries.data, blocks_flatten (by decide)] at hdata
    exact (stored_eq_received_iff chunks).2.mp hdata
  · intro hwhole acks before e after hwrites he
    rcases zigbeeFotaTask_cases env with ⟨chunks, hopens, hchunks, htask⟩ | ⟨-, htask⟩
    · have hlen := length_stored_le hopens hchunks
      rw [zigbeeFotaWrites, htask] at hwrites
      have hreceived := length_received hchunks
      have hpos := hopens.2.2.1
      refine ⟨chunks, hchunks, by omega, ?_⟩
      rw [sendImage_before_eot hlen hwrites he]
      exact (stored_eq_received_iff chunks).2.mpr (hwhole hopens chunks hchunks)
    · simp [zigbeeFotaWrites, htask] at hwrites

def fullSpiffs : FotaEnv where
  httpInit := true
  httpOpen := true
  contentLength := 1
  fopenWrite := true
  turns := [⟨.data 0x41 [], 0⟩]
  fopenRead := true

/-- With the file system full, the `EOT` packet is sent with no data packet before it. -/
theorem fullSpiffs_commits : ¬∀ env : FotaEnv, env.CommitsOnlyWhole := by
  intro hall
  have hwrites : zigbeeFotaWrites fullSpiffs 0 = [] ++ (xmodemTransmit 1 [] 0 eot).1 :: [] := by
    simp [zigbeeFotaWrites, zigbeeFotaTask, fullSpiffs, download, dataMaxLen, zigbeeOtaBufSize,
      sendImage, sendFile]
  obtain ⟨chunks, hchunks, -, hdata⟩ := hall fullSpiffs 0 _ _ _ hwrites rfl
  have hone : chunks = [⟨[0x41], 0⟩] := by
    simpa [FotaEnv.chunks, fullSpiffs, finishing, dataMaxLen, zigbeeOtaBufSize] using hchunks.symm
  subst hone
  exact absurd hdata (by decide)

end VhomeBridge.Zigbee
