import VhomeBridge.Lib.Threshold
import VhomeBridge.Text

/-! `esp_ota_task`: the update of the gateway.  While the image comes in the task publishes how much
of it is there, each time five percent more than the last time are due. -/

namespace VhomeBridge.Ota

open Lib

/-- What the OTA library answers: whether the update begins, the size of the image, whether its
description can be read, how much of it is there after each `esp_https_ota_perform` that is in
progress, whether the one that leaves the loop returned `ESP_OK` (`none` while there was none),
whether all data came, and whether the update is finished. -/
structure OtaEnv where
  begins : Bool
  imageSize : Int
  imgDesc : Bool
  lens : List Int
  result : Option Bool
  complete : Bool
  finishes : Bool

inductive OtaCall
  | begin (url : Text)
  | getImgDesc
  | perform
  | publish (percent : Int)
  | finish
  | abort
  | espRestart
  | vTaskDelete
  deriving DecidableEq

def OtaCall.percent? : OtaCall → Option Int
  | publish percent => some percent
  | _ => none

/-- `URL_OTA`. -/
def urlOta : Text := "http://202.191.56.104:5551/uploads/SmartGateway.bin".toList

/-- `len * 100 / total_size_ota` in `int`: a product that is too large and a division by zero are
faults. -/
def percent (total len : Int) : Option Int :=
  if total ≠ 0 ∧ -2147483648 ≤ len * 100 ∧ len * 100 ≤ 2147483647 then
    some ((len * 100).tdiv total)
  else none

/-- The loop until `esp_https_ota_perform` is no longer in progress. -/
def performs (total : Int) : Int → List Int → Option (List OtaCall)
  | _, [] => some []
  | thresholdPercent, len :: lens => do
    let p ← percent total len
    if thresholdPercent ≤ p then
      return .perform :: .publish p :: (← performs total (thresholdPercent + 5) lens)
    else return .perform :: (← performs total thresholdPercent lens)

/-- What follows the loop. -/
def ends (env : OtaEnv) : List OtaCall :=
  match env.result with
  | none => []
  | some err =>
    .perform ::
      if env.complete then
        if err && env.finishes then [.finish, .espRestart] else [.finish, .vTaskDelete]
      else [.abort, .vTaskDelete]

/-- `esp_ota_task` with its parameter, as the calls it makes. -/
def espOtaTask (env : OtaEnv) (pvParameter : Option Text) : Option (List OtaCall) := do
  let url ← intoBuffer 100 (pvParameter.getD urlOta)
  if !env.begins then return [.begin url, .vTaskDelete]
  else if !env.imgDesc then return [.begin url, .getImgDesc, .abort, .vTaskDelete]
  else return .begin url :: .getImgDesc :: (← performs env.imageSize 0 env.lens) ++ ends env

/-- The percentages that are published. -/
def percents (calls : List OtaCall) : List Int := calls.filterMap OtaCall.percent?

/-- The library never says that more has come than the image has, and the size times 100 is an
`int`. -/
structure OtaEnv.Sane (env : OtaEnv) : Prop where
  positive : 0 < env.imageSize
  small : env.imageSize * 100 ≤ 2147483647
  within : ∀ len ∈ env.lens, 0 ≤ len ∧ len ≤ env.imageSize

section

variable {total len threshold : Int} {lens : List Int} {env : OtaEnv} {url : Option Text}

theorem percent_eq (hpos : 0 < total) (hsmall : total * 100 ≤ 2147483647) (hlen : 0 ≤ len)
    (hle : len ≤ total) : percent total len = some (len * 100 / total) := by
  rw [percent, if_pos ⟨by omega, by omega, by omega⟩, Int.tdiv_eq_ediv_of_nonneg (by omega)]

/-- The loop does not fault, and publishes what is due. -/
theorem performs_eq (hpos : 0 < total) (hsmall : total * 100 ≤ 2147483647)
    (hwithin : ∀ len ∈ lens, 0 ≤ len ∧ len ≤ total) (threshold : Int) :
    ∃ calls, performs total threshold lens = some calls ∧
      percents calls = reported 5 threshold (lens.map fun len => len * 100 / total) := by
  induction lens generalizing threshold with
  | nil => exact ⟨[], rfl, rfl⟩
  | cons len lens ih =>
    rw [List.forall_mem_cons] at hwithin
    have hp := percent_eq hpos hsmall hwithin.1.1 hwithin.1.2
    simp only [performs, hp, Option.bind_eq_bind, Option.bind_some, List.map_cons, reported]
    split
    · obtain ⟨calls, hcalls, hpercents⟩ := ih hwithin.2 (threshold + 5)
      rw [hcalls]
      exact ⟨_, rfl, congrArg (_ :: ·) hpercents⟩
    · obtain ⟨calls, hcalls, hpercents⟩ := ih hwithin.2 threshold
      rw [hcalls]
      exact ⟨_, rfl, hpercents⟩

theorem percents_ends (env : OtaEnv) : percents (ends env) = [] := by
  unfold ends
  split
  · rfl
  · split
    · split <;> rfl
    · rfl

/-- The task publishes what is due of the parts that have come, if it gets to the loop. -/
theorem espOtaTask_eq (hsane : env.Sane) (hurl : (url.getD urlOta).length < 100) :
    ∃ calls, espOtaTask env url = some calls ∧
      percents calls = if env.begins ∧ env.imgDesc then
        reported 5 0 (env.lens.map fun len => len * 100 / env.imageSize) else [] := by
  obtain ⟨calls, hcalls, hpercents⟩ := performs_eq hsane.positive hsane.small hsane.within 0
  simp only [espOtaTask, intoBuffer, hurl, if_true, Option.bind_eq_bind, Option.bind_some, hcalls]
  cases env.begins with
  | false => exact ⟨_, rfl, rfl⟩
  | true =>
    cases env.imgDesc with
    | false => exact ⟨_, rfl, rfl⟩
    | true =>
      refine ⟨_, rfl, ?_⟩
      show percents (calls ++ ends env) = _
      rw [percents, List.filterMap_append, ← percents, ← percents, percents_ends, hpercents,
        List.append_nil, if_pos ⟨rfl, rfl⟩]

/-- However the parts of the image come, the task does not fault and publishes at most 21 times, the
`k`th time, counted from 0, with at least `5 * k` percent and at most 100. -/
theorem percents_bounded (hsane : env.Sane) (hurl : (url.getD urlOta).length < 100) :
    ∃ calls, espOtaTask env url = some calls ∧ (percents calls).length ≤ 21 ∧
      ∀ (k : Nat) (p : Int), (percents calls)[k]? = some p → 5 * k ≤ p ∧ p ≤ 100 := by
  obtain ⟨calls, hcalls, hpercents⟩ := espOtaTask_eq hsane hurl
  have hbounds : ∀ (k : Nat) (p : Int),
      (percents calls)[k]? = some p → 5 * k ≤ p ∧ p ≤ 100 := by
    intro k p hk
    rw [hpercents] at hk
    split at hk
    · have hlow := le_of_reported hk
      have hmem := (reported_sublist _ _ _).subset (List.mem_of_getElem? hk)
      obtain ⟨len, hlen, rfl⟩ := List.mem_map.mp hmem
      refine ⟨by omega, Int.ediv_le_of_le_mul hsane.positive ?_⟩
      have := (hsane.within len hlen).2
      omega
    · simp at hk
  refine ⟨calls, hcalls, ?_, hbounds⟩
  by_contra hmany
  have hk : (percents calls)[21]? = some (percents calls)[21] := List.getElem?_eq_getElem (by omega)
  have := hbounds 21 _ hk
  omega

/-- An image of a megabyte in two parts. -/
def twoParts : OtaEnv := ⟨true, 1048576, true, [400000, 1000000], some true, true, true⟩

theorem percents_bounded_twoParts :
    ∃ calls, espOtaTask twoParts none = some calls ∧ (percents calls).length ≤ 21 ∧
      ∀ (k : Nat) (p : Int), (percents calls)[k]? = some p → 5 * k ≤ p ∧ p ≤ 100 :=
  percents_bounded ⟨by decide, by decide, by decide⟩ (by decide)

/-- The parts come in order, none with a twentieth of the image or more. -/
def OtaEnv.Steady (env : OtaEnv) : Prop :=
  (0 :: env.lens).IsChain fun len len' => len ≤ len' ∧ (len' - len) * 20 < env.imageSize

instance (env : OtaEnv) : Decidable env.Steady :=
  inferInstanceAs (Decidable ((0 :: env.lens).IsChain _))

theorem gradual_percents (hpos : 0 < total)
    (h : (len :: lens).IsChain fun len len' => len ≤ len' ∧ (len' - len) * 20 < total) :
    Gradual 5 ((len :: lens).map fun len => len * 100 / total) := by
  rw [Gradual, List.isChain_map]
  refine h.imp fun len len' hnext => ?_
  obtain ⟨hle, hpart⟩ := hnext
  have hmono : len * 100 / total ≤ len' * 100 / total := Int.ediv_le_ediv hpos (by omega)
  have hstep : len' * 100 / total ≤ len * 100 / total + 5 := by
    rw [← Int.add_mul_ediv_right _ _ (by omega)]
    exact Int.ediv_le_ediv hpos (by omega)
  exact ⟨hmono, by omega⟩

/-- The percentages start in the first band. -/
theorem OtaEnv.Steady.gradual (hsteady : env.Steady) (hpos : 0 < env.imageSize) :
    Gradual 5 (-5 :: env.lens.map fun len => len * 100 / env.imageSize) := by
  rw [Steady] at hsteady
  cases hlens : env.lens with
  | nil => exact List.isChain_singleton _
  | cons len lens =>
    rw [hlens, List.isChain_cons_cons] at hsteady
    obtain ⟨⟨hnonneg, hfirst⟩, hrest⟩ := hsteady
    have hlow : 0 ≤ len * 100 / env.imageSize := Int.ediv_nonneg (by omega) (by omega)
    have hhigh : len * 100 / env.imageSize < 5 := Int.ediv_lt_of_lt_mul hpos (by omega)
    rw [Gradual, List.map_cons, List.isChain_cons_cons]
    exact ⟨⟨by omega, by omega⟩, gradual_percents hpos hrest⟩

/-- Parts that come steadily are reported once for each five percent, as soon as these are there. -/
theorem percents_each_band (hsane : env.Sane) (hsteady : env.Steady) (hbegins : env.begins = true)
    (hdesc : env.imgDesc = true) (hurl : (url.getD urlOta).length < 100) :
    ∃ calls, espOtaTask env url = some calls ∧
      ∃ n : Nat, (percents calls).map (· / 5) = (List.range n).map Nat.cast ∧
        ∀ len, env.lens.getLast? = some len → (n : Int) = len * 100 / env.imageSize / 5 + 1 := by
  obtain ⟨calls, hcalls, hpercents⟩ := espOtaTask_eq hsane hurl
  rw [if_pos ⟨hbegins, hdesc⟩] at hpercents
  refine ⟨calls, hcalls, ?_⟩
  obtain ⟨n, hbands, hlast⟩ := reported_bands (by decide) (hsteady.gradual hsane.positive)
  refine ⟨n, ?_, fun len hlen => ?_⟩
  · rw [hpercents]
    refine hbands.trans (List.map_congr_left fun k _ => ?_)
    omega
  · obtain ⟨front, hfront⟩ := List.getLast?_eq_some_iff.mp hlen
    simp only [hfront, List.map_append, List.map_cons, List.map_nil, ← List.cons_append,
      List.getLast_append_singleton] at hlast
    omega

/-- An image of a megabyte in 32 parts. -/
def steady : OtaEnv :=
  ⟨true, 1048576, true, (List.range 32).map fun k => 32768 * (k + 1), some true, true, true⟩

/-- The last part makes a hundred percent, which are the 21st report. -/
theorem percents_each_band_steady :
    ∃ calls, espOtaTask steady none = some calls ∧
      (percents calls).map (· / 5) = (List.range 21).map Nat.cast := by
  obtain ⟨calls, hcalls, n, hbands, hn⟩ := @percents_each_band steady none
    ⟨by decide, by decide, by decide⟩ (by decide) rfl rfl (by decide)
  have hlast := hn 1048576 (by decide)
  obtain rfl : n = 21 := by
    have : (1048576 : Int) * 100 / steady.imageSize / 5 + 1 = 21 := by decide
    omega
  exact ⟨calls, hcalls, hbands⟩

end

end VhomeBridge.Ota
