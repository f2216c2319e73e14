import DockerEngine.Lib.Bytes

/-!
# The capabilities of a container

`TweakCapabilities` of `daemon/execdriver/utils.go`: the capabilities of a container from the default ones and
the options `--cap-add` and `--cap-drop`. Names are compared without regard to letter case, by their lower
case, and come out in upper case.

`tweakCapabilities_exact` says which names come out and when the call fails. Its defaults have no name twice in
different letter case, and none is `all`: the loop over them drops neither (`tweakCapabilities_repeats`).

`strings.ToLower` and `strings.ToUpper` are any functions that are right on ASCII text (`Casing`), and sets of
names are compared as the code compares them, by their lower case.
-/

namespace DockerEngine.Execdriver

open Bytes List

/-! ## Letter case -/

/-- The lower case of a letter of ASCII. -/
def asciiLower (b : UInt8) : UInt8 := if 65 ≤ b ∧ b ≤ 90 then b + 32 else b

/-- The upper case of a letter of ASCII. -/
def asciiUpper (b : UInt8) : UInt8 := if 97 ≤ b ∧ b ≤ 122 then b - 32 else b

/-- `strings.ToLower` and `strings.ToUpper`. Beside the letters of ASCII only the Kelvin sign and the capital I
with a dot have a lower case in ASCII, and these two are upper case. -/
structure Casing where
  lower : Bytes → Bytes
  upper : Bytes → Bytes
  lower_ascii : ∀ s, (∀ b ∈ s, b < 128) → lower s = s.map asciiLower
  upper_ascii : ∀ s, (∀ b ∈ s, b < 128) → upper s = s.map asciiUpper
  lower_upper : ∀ s, (∀ b ∈ lower s, b < 128) → lower (upper s) = lower s

theorem asciiLower_asciiUpper (b : UInt8) : asciiLower (asciiUpper b) = asciiLower b := by
  unfold asciiLower asciiUpper
  grind

/-- The functions with the letters of ASCII for the only letters. -/
def Casing.ascii : Casing where
  lower := map asciiLower
  upper := map asciiUpper
  lower_ascii _ _ := rfl
  upper_ascii _ _ := rfl
  lower_upper s _ := by
    rw [map_map]
    exact map_congr_left fun b _ => asciiLower_asciiUpper b

/-! ## The known capabilities -/

/-- `Cap.String` of the capabilities in `capability.List`, each at the place of its number. -/
def capNames : List Bytes :=
  ["chown", "dac_override", "dac_read_search", "fowner", "fsetid", "kill", "setgid", "setuid", "setpcap",
    "linux_immutable", "net_bind_service", "net_broadcast", "net_admin", "net_raw", "ipc_lock", "ipc_owner",
    "sys_module", "sys_rawio", "sys_chroot", "sys_ptrace", "sys_pacct", "sys_admin", "sys_boot", "sys_nice",
    "sys_resource", "sys_time", "sys_tty_config", "mknod", "lease", "audit_write", "audit_control", "setfcap",
    "mac_override", "mac_admin", "syslog", "wake_alarm", "block_suspend", "audit_read"].map text

/-- `CapabilityMapping`. -/
structure CapabilityMapping where
  key : Bytes
  value : Nat
  deriving DecidableEq, Repr

variable (capLastCap : Nat)

section Tweak

variable (go : Casing)

/-- `capabilityList`, where `CAP_LAST_CAP` is 63 if the kernel does not tell its last capability. -/
def capabilityList (capLastCap : Nat) : List CapabilityMapping :=
  let last := if capLastCap = 63 then 36 else capLastCap
  (capNames.zipIdx.filter fun c => c.2 ≤ last).map fun c => ⟨go.upper c.1, c.2⟩

/-- `GetAllCapabilities`. -/
def getAllCapabilities (capLastCap : Nat) : List Bytes := (capabilityList go capLastCap).map CapabilityMapping.key

/-- `stringutils.InSlice`. -/
def inSlice (slice : List Bytes) (s : Bytes) : Bool := slice.any fun ss => go.lower s == go.lower ss

/-- The test for the name `all`. -/
def isAll (cap : Bytes) : Bool := go.lower cap == text "all"

/-! ## `TweakCapabilities` -/

/-- The errors of `TweakCapabilities`. -/
inductive TweakErr where
  /-- "Unknown capability drop: %q". -/
  | unknownDrop (cap : Bytes)
  /-- "Unknown capability to add: %q". -/
  | unknownAdd (cap : Bytes)
  deriving DecidableEq, Repr

/-- The loop that looks for invalid names in the drop list. -/
def checkDrops (allCaps : List Bytes) : List Bytes → Except TweakErr Unit
  | [] => .ok ()
  | cap :: drops =>
    if isAll go cap then checkDrops allCaps drops
    else if inSlice go allCaps cap then checkDrops allCaps drops
    else .error (.unknownDrop cap)

/-- The loop that adds back the capabilities that are not dropped. -/
def addBasics (drops newCaps : List Bytes) : List Bytes → List Bytes
  | [] => newCaps
  | cap :: basics =>
    if isAll go cap then addBasics drops newCaps basics
    else if inSlice go drops cap then addBasics drops newCaps basics
    else addBasics drops (newCaps ++ [go.upper cap]) basics

/-- The loop over the additions. -/
def addAdds (allCaps newCaps : List Bytes) : List Bytes → Except TweakErr (List Bytes)
  | [] => .ok newCaps
  | cap :: adds =>
    if isAll go cap then addAdds allCaps newCaps adds
    else if inSlice go allCaps cap then
      addAdds allCaps (if inSlice go newCaps cap then newCaps else newCaps ++ [go.upper cap]) adds
    else .error (.unknownAdd cap)

/-- The list before the additions, where `all` is handled. -/
def startCaps (allCaps basics adds drops : List Bytes) : List Bytes :=
  let basics := if inSlice go adds (text "all") then allCaps else basics
  if inSlice go drops (text "all") then [] else addBasics go drops [] basics

/-- `TweakCapabilities`. -/
def tweakCapabilities (capLastCap : Nat) (basics adds drops : List Bytes) : Except TweakErr (List Bytes) := do
  let allCaps := getAllCapabilities go capLastCap
  checkDrops go allCaps drops
  addAdds go allCaps (startCaps go allCaps basics adds drops) adds

/-! ## Names up to letter case -/

/-- The names of a list, without their letter case. -/
def folded (l : List Bytes) : List Bytes := l.map go.lower

variable {go} {cap : Bytes}

theorem mem_folded_cons {cap n : Bytes} {l : List Bytes} :
    n ∈ folded go (cap :: l) ↔ n = go.lower cap ∨ n ∈ folded go l := mem_cons

variable {allCaps slice : List Bytes}

theorem inSlice_iff {s : Bytes} : inSlice go slice s ↔ go.lower s ∈ folded go slice := by
  simp only [inSlice, folded, any_eq_true, beq_iff_eq, mem_map]
  exact exists_congr fun ss => and_congr_right fun _ => eq_comm

theorem isAll_iff : isAll go cap ↔ go.lower cap = text "all" := beq_iff_eq

/-- What is tested against `all` as an element is tested as a name. -/
theorem inSlice_all : inSlice go slice (text "all") ↔ text "all" ∈ folded go slice := by
  have hall : go.lower (text "all") = text "all" := by
    rw [go.lower_ascii _ (by decide +kernel)]
    decide +kernel
  rw [inSlice_iff, hall]

/-- The known names are ASCII, distinct and other than `all`. -/
theorem capNames_fit : (∀ n ∈ capNames, (∀ b ∈ n, b < 128) ∧ n.map asciiLower = n ∧ n ≠ text "all") ∧
    capNames.Nodup := by
  have hall : (capNames.all fun n => n.all (· < 128) && n.map asciiLower == n && n != text "all") := by
    decide +kernel
  refine ⟨fun n hn => ?_, by decide +kernel⟩
  simpa [and_assoc] using all_eq_true.mp hall n hn

/-- The known capabilities are, up to letter case, a part of the list of names. -/
theorem folded_getAllCapabilities : (folded go (getAllCapabilities go capLastCap)).Sublist capNames := by
  have hname : ∀ n ∈ capNames, go.lower (go.upper n) = n := by
    intro n hn
    obtain ⟨hascii, hlower, -⟩ := capNames_fit.1 n hn
    have hfold : go.lower n = n := (go.lower_ascii n hascii).trans hlower
    rw [go.lower_upper n (by rw [hfold]; exact hascii), hfold]
  have hfolded : folded go (getAllCapabilities go capLastCap) =
      (capNames.zipIdx.filter fun c => c.2 ≤ if capLastCap = 63 then 36 else capLastCap).map Prod.fst := by
    simp only [folded, getAllCapabilities, capabilityList, map_map]
    refine map_congr_left fun c hc => hname c.1 ?_
    exact fst_mem_of_mem_zipIdx (mem_filter.mp hc).1
  rw [hfolded]
  have hsub := (filter_sublist (p := fun c : Bytes × Nat => c.2 ≤ if capLastCap = 63 then 36 else capLastCap)
    (l := capNames.zipIdx)).map Prod.fst
  rwa [zipIdx_map_fst] at hsub

/-- A known name keeps its lower case when it is written in upper case. -/
theorem lower_upper_of_known {capLastCap : Nat}
    (h : go.lower cap ∈ folded go (getAllCapabilities go capLastCap)) : go.lower (go.upper cap) = go.lower cap :=
  go.lower_upper cap (capNames_fit.1 _ ((folded_getAllCapabilities capLastCap).subset h)).1

/-! ## The loops -/

/-- A name of an option that the code does not know. -/
def Unknown (go : Casing) (allCaps : List Bytes) (cap : Bytes) : Prop :=
  go.lower cap ≠ text "all" ∧ go.lower cap ∉ folded go allCaps

theorem unknown_iff : Unknown go allCaps cap ↔ ¬ isAll go cap ∧ ¬ inSlice go allCaps cap := by
  rw [Unknown, isAll_iff, inSlice_iff]

theorem checkDrops_eq_ok_iff {drops : List Bytes} :
    checkDrops go allCaps drops = .ok () ↔ ∀ cap ∈ drops, ¬ Unknown go allCaps cap := by
  induction drops with
  | nil => simp [checkDrops]
  | cons cap drops ih =>
    rw [forall_mem_cons, ← ih, unknown_iff, checkDrops]
    by_cases hall : isAll go cap
    · simp [hall]
    · by_cases hknown : inSlice go allCaps cap
      · simp [hknown]
      · simp [hall, hknown]

theorem addBasics_eq (drops basics newCaps : List Bytes) : addBasics go drops newCaps basics =
    newCaps ++ (basics.filter fun cap => !isAll go cap && !inSlice go drops cap).map go.upper := by
  induction basics generalizing newCaps with
  | nil => simp [addBasics]
  | cons cap basics ih =>
    rw [addBasics]
    by_cases hall : isAll go cap
    · simp [hall, ih]
    · by_cases hdrop : inSlice go drops cap
      · simp [hall, hdrop, ih]
      · simp [hall, hdrop, ih]

/-- One addition: the name is in the list afterwards, once. -/
theorem addOne_spec {newCaps : List Bytes} (hupper : go.lower (go.upper cap) = go.lower cap)
    (hnd : (folded go newCaps).Nodup) :
    (folded go (if inSlice go newCaps cap then newCaps else newCaps ++ [go.upper cap])).Nodup ∧
      ∀ n, n ∈ folded go (if inSlice go newCaps cap then newCaps else newCaps ++ [go.upper cap]) ↔
        n ∈ folded go newCaps ∨ n = go.lower cap := by
  split
  next hin =>
    rw [inSlice_iff] at hin
    exact ⟨hnd, fun n => ⟨.inl, fun h => h.elim id fun heq => heq ▸ hin⟩⟩
  next hnew =>
    rw [inSlice_iff] at hnew
    have hfold : folded go (newCaps ++ [go.upper cap]) = folded go newCaps ++ [go.lower cap] := by
      simp [folded, hupper]
    rw [hfold]
    refine ⟨nodup_append.mpr ⟨hnd, by simp, fun a ha b hb hab => ?_⟩, fun n => by simp⟩
    exact hnew (mem_singleton.mp hb ▸ hab ▸ ha)

theorem addAdds_eq_ok_iff (allCaps adds newCaps : List Bytes) :
    (∃ caps, addAdds go allCaps newCaps adds = .ok caps) ↔ ∀ cap ∈ adds, ¬ Unknown go allCaps cap := by
  induction adds generalizing newCaps with
  | nil => simp [addAdds]
  | cons cap adds ih =>
    rw [forall_mem_cons, unknown_iff, addAdds]
    by_cases hall : isAll go cap
    · simp [hall, ih]
    · by_cases hknown : inSlice go allCaps cap
      · simp [hall, hknown, ih]
      · simp [hall, hknown]

/-- What the loop over the additions makes of the list so far. -/
theorem addAdds_spec
    (hknown : ∀ cap, go.lower cap ∈ folded go allCaps → go.lower (go.upper cap) = go.lower cap) (adds : List Bytes) :
    ∀ {newCaps caps : List Bytes}, (folded go newCaps).Nodup → addAdds go allCaps newCaps adds = .ok caps →
      (folded go caps).Nodup ∧ (∀ c ∈ caps, c ∈ newCaps ∨ ∃ n, c = go.upper n) ∧
        ∀ n, n ∈ folded go caps ↔ n ∈ folded go newCaps ∨ n ∈ folded go adds ∧ n ≠ text "all" := by
  induction adds with
  | nil =>
    intro newCaps caps hnd hok
    cases hok
    exact ⟨hnd, fun c => .inl, fun n => by simp [folded]⟩
  | cons cap adds ih =>
    intro newCaps caps hnd hok
    simp only [mem_folded_cons]
    rw [addAdds] at hok
    split at hok
    next hall =>
      obtain ⟨hcaps, hfrom, hmem⟩ := ih hnd hok
      refine ⟨hcaps, hfrom, fun n => (hmem n).trans ?_⟩
      rw [isAll_iff.mp hall]
      exact or_congr_right ⟨fun h => ⟨.inr h.1, h.2⟩, fun h => ⟨h.1.resolve_left h.2, h.2⟩⟩
    next hall =>
      have hne : go.lower cap ≠ text "all" := fun h => hall (isAll_iff.mpr h)
      split at hok
      next hin =>
        obtain ⟨hnd', hmem'⟩ := addOne_spec (hknown cap (inSlice_iff.mp hin)) hnd
        obtain ⟨hcaps, hfrom, hmem⟩ := ih hnd' hok
        refine ⟨hcaps, fun c hc => ?_, fun n => ?_⟩
        · rcases hfrom c hc with h | h
          · split at h
            · exact .inl h
            · exact (mem_append.mp h).imp_right fun h => ⟨cap, mem_singleton.mp h⟩
          · exact .inr h
        · rw [hmem, hmem']
          constructor
          · rintro ((h | rfl) | ⟨h, hn⟩)
            · exact .inl h
            · exact .inr ⟨.inl rfl, hne⟩
            · exact .inr ⟨.inr h, hn⟩
          · rintro (h | ⟨rfl | h, hn⟩)
            · exact .inl (.inl h)
            · exact .inl (.inr rfl)
            · exact .inr ⟨h, hn⟩
      next => cases hok

end Tweak

/-! ## The result -/

/-- Default capabilities: no name is there twice, in whatever letter case, none is `all`, and each is, in upper
case, still the same name. -/
structure Defaults (go : Casing) (basics : List Bytes) : Prop where
  distinct : (folded go basics).Nodup
  no_all : text "all" ∉ folded go basics
  regular : ∀ cap ∈ basics, go.lower (go.upper cap) = go.lower cap

/-- The names, up to letter case, that a container is to have: none if `all` is dropped, else all known ones if
`all` is added and the defaults if not, without the dropped ones; and the ones that are added by name. -/
def Expected (go : Casing) (allCaps basics adds drops : List Bytes) (n : Bytes) : Prop :=
  text "all" ∉ folded go drops ∧ n ∉ folded go drops ∧
      (if text "all" ∈ folded go adds then n ∈ folded go allCaps else n ∈ folded go basics) ∨
    n ∈ folded go adds ∧ n ≠ text "all"

section Result

variable {go : Casing}

/-- The list that the additions start from. -/
theorem addBasics_spec {basics drops : List Bytes} (h : Defaults go basics) :
    (folded go (addBasics go drops [] basics)).Nodup ∧ (∀ c ∈ addBasics go drops [] basics, ∃ n, c = go.upper n) ∧
      ∀ n, n ∈ folded go (addBasics go drops [] basics) ↔ n ∉ folded go drops ∧ n ∈ folded go basics := by
  have hfold : folded go (addBasics go drops [] basics) = (folded go basics).filter fun n => n ∉ folded go drops := by
    have hfilter : (basics.filter fun cap => !isAll go cap && !inSlice go drops cap) =
        basics.filter ((fun n => decide (n ∉ folded go drops)) ∘ go.lower) := by
      refine filter_congr fun cap hcap => ?_
      have hall : ¬ isAll go cap := fun hall =>
        h.no_all (isAll_iff.mp hall ▸ mem_map_of_mem hcap)
      rw [Bool.eq_iff_iff]
      simp [hall, ← inSlice_iff]
    rw [addBasics_eq, nil_append, hfilter]
    simp only [folded, map_map, filter_map]
    exact map_congr_left fun cap hcap => h.regular cap (mem_filter.mp hcap).1
  refine ⟨?_, ?_, fun n => ?_⟩
  · rw [hfold]
    exact h.distinct.filter _
  · rw [addBasics_eq, nil_append]
    intro c hc
    obtain ⟨n, -, rfl⟩ := mem_map.mp hc
    exact ⟨n, rfl⟩
  · rw [hfold, mem_filter, decide_eq_true_eq, and_comm]

/-- The known capabilities are fit to be defaults. -/
theorem defaults_getAllCapabilities : Defaults go (getAllCapabilities go capLastCap) where
  distinct := (folded_getAllCapabilities capLastCap).nodup capNames_fit.2
  no_all h := (capNames_fit.1 _ ((folded_getAllCapabilities capLastCap).subset h)).2.2 rfl
  regular _ hcap := lower_upper_of_known (mem_map_of_mem hcap)

theorem startCaps_spec {allCaps basics : List Bytes} (adds drops : List Bytes) (hall : Defaults go allCaps)
    (h : Defaults go basics) :
    (folded go (startCaps go allCaps basics adds drops)).Nodup ∧
      (∀ c ∈ startCaps go allCaps basics adds drops, ∃ n, c = go.upper n) ∧
      ∀ n, n ∈ folded go (startCaps go allCaps basics adds drops) ↔
        text "all" ∉ folded go drops ∧ n ∉ folded go drops ∧
          (if text "all" ∈ folded go adds then n ∈ folded go allCaps
            else n ∈ folded go basics) := by
  by_cases hdrop : text "all" ∈ folded go drops
  · have hstart : startCaps go allCaps basics adds drops = [] := by
      simp only [startCaps, if_pos (inSlice_all.mpr hdrop)]
    rw [hstart]
    exact ⟨nodup_nil, nofun, fun n => iff_of_false not_mem_nil fun h => h.1 hdrop⟩
  · have hstart : startCaps go allCaps basics adds drops = addBasics go drops []
        (if text "all" ∈ folded go adds then allCaps else basics) := by
      simp only [startCaps, inSlice_all, if_neg hdrop]
    rw [hstart]
    simp only [hdrop, not_false_eq_true, true_and]
    split
    · exact addBasics_spec hall
    · exact addBasics_spec h

/-- **The capabilities of a container.** With fit defaults the names that come out are distinct, in upper case,
and the expected ones; and the call fails exactly if an option has an unknown name other than `all`. -/
theorem tweakCapabilities_exact (go : Casing) (capLastCap : Nat) (basics adds drops : List Bytes) :
    (Defaults go basics → ∀ caps, tweakCapabilities go capLastCap basics adds drops = .ok caps →
      caps.Nodup ∧ (∀ c ∈ caps, ∃ n, c = go.upper n) ∧
        ∀ n, n ∈ folded go caps ↔ Expected go (getAllCapabilities go capLastCap) basics adds drops n) ∧
    ((∃ e, tweakCapabilities go capLastCap basics adds drops = .error e) ↔
      ∃ cap ∈ adds ++ drops, Unknown go (getAllCapabilities go capLastCap) cap) := by
  set allCaps := getAllCapabilities go capLastCap
  have hrun : tweakCapabilities go capLastCap basics adds drops =
      (checkDrops go allCaps drops).bind fun _ =>
        addAdds go allCaps (startCaps go allCaps basics adds drops) adds := rfl
  cases hdrops : checkDrops go allCaps drops with
  | error e =>
    rw [hrun, hdrops]
    refine ⟨nofun, iff_of_true ⟨e, rfl⟩ ?_⟩
    by_contra hnone
    have hok := checkDrops_eq_ok_iff.mpr fun cap hcap hunknown =>
      hnone ⟨cap, mem_append_right adds hcap, hunknown⟩
    rw [hdrops] at hok
    cases hok
  | ok u =>
    have hknown := checkDrops_eq_ok_iff.mp hdrops
    rw [hrun, hdrops]
    refine ⟨fun hbasics caps hok => ?_, ?_⟩
    · obtain ⟨hnd, hupper, hmem⟩ := startCaps_spec adds drops (defaults_getAllCapabilities capLastCap) hbasics
      obtain ⟨hcaps, hfrom, hmem'⟩ := addAdds_spec (fun _ => lower_upper_of_known) adds hnd hok
      refine ⟨hcaps.of_map _, fun c hc => (hfrom c hc).elim (hupper c) id, fun n => ?_⟩
      rw [hmem', hmem, Expected]
    · have hadds := @addAdds_eq_ok_iff go allCaps adds (startCaps go allCaps basics adds drops)
      constructor
      · rintro ⟨e, he⟩
        by_contra hnone
        obtain ⟨caps, hok⟩ := hadds.mpr fun cap hcap hunknown =>
          hnone ⟨cap, mem_append_left drops hcap, hunknown⟩
        rw [hok] at he
        cases he
      · rintro ⟨cap, hcap, hunknown⟩
        have hcap := (mem_append.mp hcap).resolve_right fun hcap => hknown cap hcap hunknown
        cases hrun : addAdds go allCaps (startCaps go allCaps basics adds drops) adds with
        | error e => exact ⟨e, rfl⟩
        | ok caps => exact absurd hunknown (hadds.mp ⟨caps, hrun⟩ cap hcap)

end Result

/-- Two defaults, one dropped in another letter case, and one addition. -/
theorem tweakCapabilities_exact_two :
    tweakCapabilities .ascii 36 [text "CHOWN", text "KILL"] [text "mknod"] [text "kill"] =
        .ok [text "CHOWN", text "MKNOD"] ∧
      ∀ n, n ∈ folded .ascii [text "CHOWN", text "MKNOD"] ↔
        Expected .ascii (getAllCapabilities .ascii 36) [text "CHOWN", text "KILL"] [text "mknod"] [text "kill"] n := by
  have hrun : tweakCapabilities .ascii 36 [text "CHOWN", text "KILL"] [text "mknod"] [text "kill"] =
      .ok [text "CHOWN", text "MKNOD"] := by decide +kernel
  have hdefaults : Defaults .ascii [text "CHOWN", text "KILL"] := by
    refine ⟨by decide, by decide, by decide⟩
  exact ⟨hrun, ((tweakCapabilities_exact .ascii 36 _ _ _).1 hdefaults _ hrun).2.2⟩

/-- Defaults that have one name in two letter cases, and no text twice: the name comes out twice. -/
theorem tweakCapabilities_repeats :
    [text "chown", text "CHOWN"].Nodup ∧
      tweakCapabilities .ascii 36 [text "chown", text "CHOWN"] [] [] = .ok [text "CHOWN", text "CHOWN"] := by
  decide +kernel

end DockerEngine.Execdriver
